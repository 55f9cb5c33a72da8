import LoomDB.Core.Describe
import LoomDB.Core.Provenance

/-!
# Policy

Rules indexed by action, decided with deny before allow and a default of no, and
the two questions asked of them: whether an index entry may be packed, and
whether evidence may authorise an action.
-/

namespace LoomDB

namespace Policy

open Std (ExtTreeMap)

inductive Effect where
  | allow
  | deny
  deriving DecidableEq

/-- A specific value, or any. -/
inductive Match (α : Type) where
  | is (value : α)
  | any
  deriving DecidableEq

def Match.accepts {α : Type} [DecidableEq α] : Match α → α → Bool
  | .is expected, value => expected = value
  | .any, _ => true

structure Request where
  actor : Bytes
  label : TrustClass
  purpose : Bytes
  action : Bytes
  deriving DecidableEq

structure PolicyRule where
  actor : Match Bytes
  label : Match TrustClass
  purpose : Match Bytes
  action : Match Bytes
  effect : Effect
  deriving DecidableEq

def PolicyRule.appliesTo (rule : PolicyRule) (req : Request) : Bool :=
  rule.actor.accepts req.actor && rule.label.accepts req.label &&
    rule.purpose.accepts req.purpose && rule.action.accepts req.action

structure PolicySet where
  version : Bytes
  rules : List PolicyRule
  deriving DecidableEq

inductive Decision where
  | allow
  | deny
  deriving DecidableEq

def Decision.isAllowed (decision : Decision) : Bool :=
  decision = .allow

/-- A decision, and what it was about. -/
structure PolicyDecision where
  decision : Decision
  policyVersion : Bytes
  request : Request
  rationale : Bytes
  deriving DecidableEq

/-! ## Rules as texts -/

def Effect.debug : Effect → Bytes
  | .allow => ascii "Allow"
  | .deny => ascii "Deny"

def Match.debug {α : Type} (show' : α → Bytes) : Match α → Bytes
  | .is value => ascii "Is(" ++ show' value ++ ascii ")"
  | .any => ascii "Any"

/-- `{:?}`. -/
def PolicyRule.debug (platform : Platform) (rule : PolicyRule) : Bytes :=
  ascii "PolicyRule \x7b actor: " ++ rule.actor.debug platform.showQuoted ++
    ascii ", label: " ++ rule.label.debug TrustClass.debug ++
    ascii ", purpose: " ++ rule.purpose.debug platform.showQuoted ++
    ascii ", action: " ++ rule.action.debug platform.showQuoted ++
    ascii ", effect: " ++ rule.effect.debug ++ ascii " \x7d"

/-! ## The engine -/

/-- The rules about one action, and those about every action. -/
structure Engine where
  version : Bytes
  byAction : ExtTreeMap Bytes (List PolicyRule)
  anyAction : List PolicyRule

namespace Engine

def addRule (engine : Engine) (rule : PolicyRule) : Engine :=
  match rule.action with
  | .is action =>
      { engine with
        byAction := engine.byAction.insert action
          ((engine.byAction[action]?).getD [] ++ [rule]) }
  | .any => { engine with anyAction := engine.anyAction ++ [rule] }

/-- Compile a policy set. -/
def new (set : PolicySet) : Engine :=
  set.rules.foldl addRule { version := set.version, byAction := ∅, anyAction := [] }

variable (platform : Platform) (engine : Engine)

def applicable (req : Request) : List PolicyRule :=
  ((engine.byAction[req.action]?).getD [] ++ engine.anyAction).filter
    fun rule => rule.appliesTo req

def decision (req : Request) (decision : Decision) (rationale : Bytes) : PolicyDecision :=
  { decision := decision
    policyVersion := engine.version
    request := req
    rationale := rationale }

/-- A deny wins; without one an allow does; without either the answer is no. -/
def decide (req : Request) : PolicyDecision :=
  match (engine.applicable req).find? fun rule => rule.effect = .deny with
  | some rule => engine.decision req .deny (ascii "denied by rule " ++ rule.debug platform)
  | none =>
      if (engine.applicable req).any fun rule => rule.effect = .allow then
        engine.decision req .allow (ascii "allowed, and no rule denies")
      else
        engine.decision req .deny
          (ascii "no rule permits this; the default is deny (fail closed)")

end Engine

/-! ## The two questions -/

def ACTION_PACK : Bytes := ascii "pack_into_context"

def PURPOSE_AUTHORIZE : Bytes := ascii "authorize_action"

def mayPack (platform : Platform) (engine : Engine) (actor purpose : Bytes)
    (entry : IndexEntry) : Bool :=
  (engine.decide platform
    { actor := actor
      label := entry.label
      purpose := purpose
      action := ACTION_PACK }).decision.isAllowed

def mayAuthorizeAction (platform : Platform) (engine : Engine) (actor action : Bytes)
    (evidenceLabel : TrustClass) : PolicyDecision :=
  engine.decide platform
    { actor := actor
      label := evidenceLabel
      purpose := PURPOSE_AUTHORIZE
      action := action }

end Policy

end LoomDB
