import LoomDB.Provenance.Recall

/-!
# Action records

What the gateway keeps about an action: what was asked, what was decided and
what happened.
-/

namespace LoomDB

/-- `ActionId::of`. -/
def actionIdOf (platform : Platform) (idempotencyKey : Bytes) : Bytes :=
  ascii "act_" ++ (toHex (platform.blake3 idempotencyKey).asBytes).take 16

/-- Where an action ended up. -/
inductive ActionStatus where
  | refused (reason : Bytes)
  | succeeded (receipt : Bytes)
  | failed (reason : Bytes)
  | indeterminate (detail : Bytes)
  deriving DecidableEq

def ActionStatus.isSuccess : ActionStatus → Bool
  | .succeeded _ => true
  | _ => false

structure ActionRecord where
  id : Bytes
  actionType : Bytes
  target : Bytes
  actor : ActorId
  branch : Bytes
  policyVersion : Bytes
  justifiedBy : List Key
  compensatingAction : Option Bytes
  status : ActionStatus
  deriving DecidableEq

namespace ActionRecord

def receipt (record : ActionRecord) : Option Bytes :=
  match record.status with
  | .succeeded receipt => some receipt
  | _ => none

/-- Only for an action that happened. -/
def toExecuted (record : ActionRecord) : Option ExecutedAction :=
  if record.status.isSuccess then
    some {
      actionId := record.id
      actionType := record.actionType
      target := record.target
      actor := record.actor
      justifiedBy := record.justifiedBy
      receipt := record.receipt
      compensatingAction := record.compensatingAction }
  else none

theorem toExecuted_eq_some {record : ActionRecord} {action : ExecutedAction} :
    record.toExecuted = some action ↔
      ∃ receipt, record.status = .succeeded receipt ∧
        action = {
          actionId := record.id
          actionType := record.actionType
          target := record.target
          actor := record.actor
          justifiedBy := record.justifiedBy
          receipt := some receipt
          compensatingAction := record.compensatingAction } := by
  unfold toExecuted ActionStatus.isSuccess receipt
  cases record.status <;> simp [eq_comm]

end ActionRecord

end LoomDB
