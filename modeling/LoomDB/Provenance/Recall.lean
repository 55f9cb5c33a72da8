import LoomDB.Core.Describe
import LoomDB.Branch.Token
import LoomDB.Core.Provenance

/-!
# Recall plans

What a taint can undo and what it cannot, and the report that says so, with what
cannot be undone first.
-/

namespace LoomDB

/-- What a plan proposes to do about one contaminated write. -/
inductive Compensation where
  | rewind (branch : BranchId) (commit : CommitId)
  | tombstone (branch : BranchId) (claims : List Digest)
  deriving DecidableEq

structure ReversibleItem where
  branch : BranchId
  commit : CommitId
  actor : ActorId
  description : Bytes
  derivedVia : List Bytes
  compensation : Compensation
  deriving DecidableEq

/-- An effect that already happened in the world. -/
structure IrreversibleItem where
  actionId : Bytes
  actionType : Bytes
  target : Bytes
  actor : ActorId
  receipt : Option Bytes
  justifiedBy : List Digest
  derivedVia : List Bytes
  compensatingAction : Option Bytes
  escalation : Bytes
  deriving DecidableEq

structure RecallPlan where
  source : Option SourceRef
  irreversible : List IrreversibleItem
  reversible : List ReversibleItem
  deriving DecidableEq

/-- An action the gateway carried out. -/
structure ExecutedAction where
  actionId : Bytes
  actionType : Bytes
  target : Bytes
  actor : ActorId
  /-- The keys of the claims that justified it. -/
  justifiedBy : List Key
  receipt : Option Bytes
  compensatingAction : Option Bytes
  deriving DecidableEq

/-! ## The report -/

def emDash : Bytes := [0xE2, 0x80, 0x94]

def rightArrow : Bytes := [0xE2, 0x86, 0x92]

def bullet : Bytes := [0xE2, 0x80, 0xA2]

def warningSign : Bytes := [0xE2, 0x9A, 0xA0]

def line (text : Bytes) : Bytes :=
  text ++ ascii "\n"

/-- `Display` of an actor. -/
def showActor (actor : ActorId) : Bytes :=
  ascii "act_" ++ actor

def joined (separator : Bytes) (texts : List Bytes) : Bytes :=
  (texts.intersperse separator).flatten

/-- Who wrote what, for a report. -/
def DerivationNode.describe (platform : Platform) (node : DerivationNode) :
    Except LoomError Bytes := do
  let intent ←
    if node.intent.length > 60 then (sliceTo 60 node.intent).map fun start => start ++ ellipsis
    else pure node.intent
  return showActor node.actor ++ ascii " wrote " ++
    platform.showQuoted (utf8Lossy node.key) ++ ascii " " ++ emDash ++ ascii " " ++
    platform.showQuoted intent

namespace RecallPlan

def isEmpty (plan : RecallPlan) : Bool :=
  plan.irreversible.length + plan.reversible.length = 0

def showIrreversible (item : IrreversibleItem) : Bytes :=
  line (ascii "   " ++ bullet ++ ascii " " ++ item.actionType ++ ascii " " ++ rightArrow ++
    ascii " " ++ item.target) ++
  line (ascii "       requested by:  " ++ showActor item.actor) ++
  (match item.receipt with
  | some receipt => line (ascii "       receipt:       " ++ receipt)
  | none => []) ++
  line (ascii "       justified by:  " ++ decimal item.justifiedBy.length ++
    ascii " claim(s) downstream of the tainted source") ++
  (match item.compensatingAction with
  | some action => line (ascii "       CAN BE COMPENSATED: " ++ action)
  | none => line (ascii "       NO COMPENSATING ACTION EXISTS. A human must decide.")) ++
  line (ascii "       " ++ rightArrow ++ ascii " " ++ item.escalation ++ ascii "\n")

def showCompensation (showCommit : CommitId → Bytes) : Compensation → Bytes
  | .rewind branch commit =>
      line (ascii "       action:     rewind " ++ showBranch branch ++ ascii " to " ++
        showCommit commit)
  | .tombstone branch claims =>
      line (ascii "       action:     invalidate " ++ decimal claims.length ++
        ascii " claim(s) in " ++ showBranch branch)

def showReversible (showCommit : CommitId → Bytes) (item : ReversibleItem) : Bytes :=
  line (ascii "   " ++ bullet ++ ascii " " ++ item.description ++ ascii " [" ++
    showBranch item.branch ++ ascii "]") ++
  line (ascii "       written by: " ++ showActor item.actor) ++
  showCompensation showCommit item.compensation ++
  (if item.derivedVia = [] then []
  else line (ascii "       via:        " ++
    joined (ascii " " ++ rightArrow ++ ascii " ") item.derivedVia)) ++
  line []

/-- `Display`. -/
def report (showCommit : CommitId → Bytes) (plan : RecallPlan) : Bytes :=
  let title :=
    match plan.source with
    | some source =>
        line (ascii "RECALL PLAN " ++ emDash ++ ascii " tainted source: " ++ source.toBytes)
    | none => line (ascii "RECALL PLAN")
  let title := title ++ line (ascii "This is a DRY RUN. Nothing has been changed.\n")
  if plan.isEmpty then
    title ++ line (ascii "Nothing is downstream of this source. No action is needed.")
  else
    let irreversible :=
      if plan.irreversible = [] then []
      else
        line (warningSign ++ ascii "  " ++ decimal plan.irreversible.length ++
          ascii (" ACTION(S) ALREADY HAPPENED IN THE WORLD AND CANNOT BE UNDONE BY THIS " ++
            "DATABASE.")) ++
        line (ascii ("   Rewinding a branch reverts writes. It does not un-suspend an " ++
          "account.\n")) ++
        plan.irreversible.flatMap showIrreversible
    let reversible :=
      if plan.reversible = [] then []
      else
        line (decimal plan.reversible.length ++
          ascii " write(s) are downstream of this source and CAN be reverted:\n") ++
        plan.reversible.flatMap (showReversible showCommit)
    title ++ irreversible ++ reversible ++
      line (ascii ("To carry out the reversible part, call execute_recall() with this " ++
        "plan's id. It is a separate, token-gated call, deliberately."))

end RecallPlan

end LoomDB
