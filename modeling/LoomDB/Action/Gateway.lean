import LoomDB.Action.Record
import LoomDB.Policy.Engine

/-!
# The action gateway

An agent proposes and a gateway acts: the kill switch, the evidence, the policy
and the containment of simulations are checked in that order, and only then is a
connector called, at most once for an idempotency key. What the connector answers
comes from outside.
-/

namespace LoomDB

open Std (ExtTreeMap ExtTreeSet)

/-! ## Connectors -/

/-- What a connector reports. -/
inductive ConnectorOutcome where
  | succeeded (receipt : Bytes)
  | succeededWithoutReceipt
  | failed (reason : Bytes)
  | indeterminate (detail : Bytes)
  deriving DecidableEq

structure Connector where
  actionType : Bytes
  isSimulated : Bool
  compensatingAction : Option Bytes
  deriving DecidableEq

/-- A call of a connector, and what it reported. -/
structure ConnectorCall where
  connector : Connector
  target : Bytes
  idempotencyKey : Bytes
  outcome : ConnectorOutcome
  deriving DecidableEq

/-! ## Proposals -/

/-- A request for an action. -/
structure Proposal where
  actionType : Bytes
  target : Bytes
  idempotencyKey : Bytes
  actor : ActorId
  branch : BranchId
  simulation : Bool
  evidence : List Claim
  /-- Where the evidence is stored. -/
  evidenceKeys : List Key
  evidenceLabel : TrustClass
  deriving DecidableEq

/-- What an agent holds. It proposes and does not act. -/
structure AgentStore where
  actor : ActorId
  branch : BranchId
  simulation : Bool

def AgentStore.propose (agent : AgentStore) (actionType target idempotencyKey : Bytes)
    (evidence : List Claim) (evidenceKeys : List Key) (evidenceLabel : TrustClass) : Proposal where
  actionType := actionType
  target := target
  idempotencyKey := idempotencyKey
  actor := agent.actor
  branch := agent.branch
  simulation := agent.simulation
  evidence := evidence
  evidenceKeys := evidenceKeys
  evidenceLabel := evidenceLabel

/-! ## The kill switch -/

structure KillSwitch where
  global : Bool
  disabledTenants : ExtTreeSet Bytes

namespace KillSwitch

def new : KillSwitch where
  global := false
  disabledTenants := ∅

def disableAll (kill : KillSwitch) : KillSwitch :=
  { kill with global := true }

def enableAll (kill : KillSwitch) : KillSwitch :=
  { kill with global := false }

def disableTenant (kill : KillSwitch) (tenant : Bytes) : KillSwitch :=
  { kill with disabledTenants := kill.disabledTenants.insert tenant }

def isDisabled (kill : KillSwitch) (tenant : Bytes) : Bool :=
  kill.global || kill.disabledTenants.contains tenant

end KillSwitch

/-! ## The gateway -/

structure ActionGateway where
  tenant : Bytes
  connectors : ExtTreeMap Bytes Connector
  policy : Policy.Engine
  kill : KillSwitch
  /-- The actions decided so far, by id. -/
  done : ExtTreeMap Bytes ActionRecord

namespace ActionGateway

def new (tenant : Bytes) (policy : Policy.Engine) : ActionGateway where
  tenant := tenant
  connectors := ∅
  policy := policy
  kill := .new
  done := ∅

def withConnector (gateway : ActionGateway) (connector : Connector) : ActionGateway :=
  { gateway with connectors := gateway.connectors.insert connector.actionType connector }

/-- A gateway for a tenant, with its connectors. -/
def opened (tenant : Bytes) (policy : Policy.Engine) (connectors : List Connector) :
    ActionGateway :=
  connectors.foldl withConnector (new tenant policy)

def records (gateway : ActionGateway) : List ActionRecord :=
  gateway.done.toList.map Prod.snd

/-! ### The checks -/

def killed : Bytes :=
  ascii ("external actions are disabled by the kill switch. Reads, writes, and audit remain " ++
    "available; re-enable actions to proceed.")

def noEvidence : Bytes :=
  ascii ("this action cites no evidence and cannot be authorized. Attach at least one " ++
    "action-eligible claim.")

def refusedByPolicy (rationale : Bytes) (evidenceLabel : TrustClass) (actionType : Bytes) :
    Bytes :=
  ascii "policy refused this action: " ++ rationale ++
    ascii ". This is the injection boundary " ++ emDash ++ ascii " " ++ evidenceLabel.debug ++
    ascii "-labeled evidence may not authorize " ++ actionType ++ ascii "."

def noConnector (actionType : Bytes) : Bytes :=
  ascii "no connector is registered for action '" ++ actionType ++
    ascii "'. Register one, or this action cannot be performed."

def notSimulated (actionType : Bytes) : Bytes :=
  ascii "this proposal is on a SIMULATION branch and '" ++ actionType ++
    ascii ("' has only a production connector. A simulation may not cause a real effect; " ++
      "register a simulated connector or run it on a real branch.")

/-- The kill switch is off for the gateway's tenant. -/
def disabled (gateway : ActionGateway) : Bool :=
  gateway.kill.isDisabled gateway.tenant

/-- The record of a proposal, with what was decided about it. -/
def recordOf (id : Bytes) (proposal : Proposal) (policyVersion : Bytes)
    (compensatingAction : Option Bytes) (status : ActionStatus) : ActionRecord where
  id := id
  actionType := proposal.actionType
  target := proposal.target
  actor := proposal.actor
  branch := proposal.branch
  policyVersion := policyVersion
  justifiedBy := proposal.evidenceKeys
  compensatingAction := compensatingAction
  status := status

def refuse (id : Bytes) (proposal : Proposal) (reason : Bytes) : ActionRecord :=
  recordOf id proposal [] none (.refused reason)

/-- The first claim that is not eligible, or that there is none at all. -/
def evidenceRefusal (proposal : Proposal) : Option Bytes :=
  match proposal.evidence.find? fun claim => !claim.isActionEligible with
  | some claim =>
      some (claim.ineligibilityReason.getD (ascii "a cited claim is not action-eligible"))
  | none => if proposal.evidence = [] then some noEvidence else none

def consult (platform : Platform) (gateway : ActionGateway) (proposal : Proposal) :
    Policy.PolicyDecision :=
  Policy.mayAuthorizeAction platform gateway.policy proposal.actor proposal.actionType
    proposal.evidenceLabel

/-- The checks after the kill switch: the connector to call, with the policy version, or
the record of the refusal. -/
def clear (platform : Platform) (gateway : ActionGateway) (id : Bytes) (proposal : Proposal) :
    Except ActionRecord (Connector × Bytes) :=
  match evidenceRefusal proposal with
  | some reason => .error (refuse id proposal reason)
  | none =>
      let decision := gateway.consult platform proposal
      if decision.decision.isAllowed = false then
        .error (recordOf id proposal decision.policyVersion none
          (.refused (refusedByPolicy decision.rationale proposal.evidenceLabel
            proposal.actionType)))
      else
        match gateway.connectors[proposal.actionType]? with
        | none => .error (refuse id proposal (noConnector proposal.actionType))
        | some connector =>
            if proposal.simulation && !connector.isSimulated then
              .error (refuse id proposal (notSimulated proposal.actionType))
            else .ok (connector, decision.policyVersion)

/-! ### Acting -/

def withoutReceipt : Bytes :=
  ascii ("the connector reported success but returned no receipt, so the action is not " ++
    "confirmed. Treat as unknown until a receipt is obtained.")

/-- What an outcome makes of an action. -/
def statusOf : ConnectorOutcome → ActionStatus
  | .succeeded receipt => .succeeded receipt
  | .succeededWithoutReceipt => .indeterminate withoutReceipt
  | .failed reason => .failed reason
  | .indeterminate detail => .indeterminate detail

/-- The record after a connector was called. -/
def acted (id : Bytes) (proposal : Proposal) (connector : Connector) (policyVersion : Bytes)
    (outcome : ConnectorOutcome) : ActionRecord :=
  recordOf id proposal policyVersion connector.compensatingAction (statusOf outcome)

/-- The record, and the connector call if there was one. -/
def decideAndRun (platform : Platform) (gateway : ActionGateway) (id : Bytes)
    (proposal : Proposal) (outcome : ConnectorOutcome) : ActionRecord × Option ConnectorCall :=
  if gateway.disabled then (refuse id proposal killed, none)
  else
    match gateway.clear platform id proposal with
    | .error record => (record, none)
    | .ok (connector, policyVersion) =>
        (acted id proposal connector policyVersion outcome,
          some {
            connector := connector
            target := proposal.target
            idempotencyKey := proposal.idempotencyKey
            outcome := outcome })

/-- A retry finds the record of the first attempt, and does not act. -/
def execute (platform : Platform) (gateway : ActionGateway) (proposal : Proposal)
    (outcome : ConnectorOutcome) : ActionGateway × ActionRecord × Option ConnectorCall :=
  let id := actionIdOf platform proposal.idempotencyKey
  match gateway.done[id]? with
  | some existing => (gateway, existing, none)
  | none =>
      let (record, call) := gateway.decideAndRun platform id proposal outcome
      ({ gateway with done := gateway.done.insert id record }, record, call)

/-! ### A gateway that allows everything -/

def suspendAccount : Bytes :=
  ascii "identity.suspend_account"

def allowAll : Policy.Engine :=
  .new {
    version := ascii "v1"
    rules := [{ actor := .any, label := .any, purpose := .any, action := .any, effect := .allow }] }

/-- A gateway that suspends accounts. -/
def acmeGateway : ActionGateway :=
  opened (ascii "acme") allowAll [{
    actionType := suspendAccount
    isSimulated := false
    compensatingAction := some (ascii "reinstate_account") }]

/-- A claim that cites a record of the ERP system. -/
def supportedClaim : Claim where
  id := 7
  predicate := ascii "p"
  subject := ascii "acme"
  object := .bool true
  valid := { start := none, stop := none }
  known := { start := none, stop := none }
  confidence := { value := ⟨0⟩, method := .rule, calibration := ascii "v1" }
  evidence := [{ system := ascii "erp", recordId := ascii "r1" }]
  status := .asserted
  policy := none
  actor := ascii "agent"

/-- The suspension of an account, on the strength of one claim. -/
def suspension : Proposal :=
  ({ actor := ascii "agent", branch := ascii "main", simulation := false } : AgentStore).propose
    suspendAccount (ascii "user-1") (ascii "key-1") [supportedClaim] [ascii "claim/x"]
    .verifiedSystem

end ActionGateway

end LoomDB
