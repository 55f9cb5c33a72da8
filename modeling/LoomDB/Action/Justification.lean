import LoomDB.Action.Safety
import LoomDB.Provenance.TaintSpec

/-!
# What an action is justified by

A proposal states claims, the keys they are stored at and their label. The gateway
looks at the claims and passes the keys and the label on, and never at the database,
so what an action turns out to rest on depends on what the proposal stated; and of
what the gateway did, only the actions with a receipt are handed to a taint.
-/

namespace LoomDB

open KeyValue (ask)

/-! ## What is stored -/

namespace Engine

variable {σ ρ : Type} (engine : Engine σ ρ)

/-- The record that a branch has at a key. -/
def recordOn (branch : BranchId) (key : Key) : LoomM σ ρ (Option Record) := do
  let commit ← head branch
  engine.reading commit (ask key)

/-- The label that a session gets by reading one record. -/
def labelOn (branch : BranchId) (key : Key) : LoomM σ ρ (Option TrustClass) := do
  let record ← engine.recordOn branch key
  let entry ← engine.indexEntryFor branch key
  return record.map fun record =>
    (ReadSet.addEntry entry (ReadSet.addRecord record ReadSet.default)).minLabel

/-- The branch has the claim at the key. -/
def HoldsClaim (loom : Loom σ ρ) (branch : BranchId) (key : Key) (claim : Claim) : Prop :=
  (engine.recordOn branch key loom).1 = .ok (some (.claim claim))

/-- What is stored at the key carries the label. -/
def HasLabel (loom : Loom σ ρ) (branch : BranchId) (key : Key) (label : TrustClass) : Prop :=
  (engine.labelOn branch key loom).1 = .ok (some label)

end Engine

/-- The effect is there, or may be. -/
def ConnectorOutcome.MayHaveActed : ConnectorOutcome → Prop
  | .failed _ => False
  | _ => True

/-- The plan tells of the action. -/
def RecallPlan.Lists (plan : RecallPlan) (record : ActionRecord) : Prop :=
  ∃ item ∈ plan.irreversible, item.actionId = record.id ∧ item.actionType = record.actionType ∧
    item.target = record.target

namespace ActionGateway

variable {σ ρ : Type} {engine : Engine σ ρ} {loom : Loom σ ρ} {platform : Platform}
  {gateway : ActionGateway} {proposal : Proposal} {outcome : ConnectorOutcome}

/-! ## Calls of a connector -/

/-- The gateway has not decided the action, and calls a connector for it. -/
structure Calls (platform : Platform) (gateway : ActionGateway) (proposal : Proposal) : Prop where
  undecided : gateway.done[actionIdOf platform proposal.idempotencyKey]? = none
  enabled : gateway.disabled = false
  admits : ∃ connector, gateway.Admits platform proposal connector

/-- What a call of a connector leaves: the record, kept under its id. -/
theorem execute_of_call {call : ConnectorCall}
    (hcall : (gateway.execute platform proposal outcome).2.2 = some call) :
    Calls platform gateway proposal ∧ call.outcome = outcome ∧
      (gateway.execute platform proposal outcome).2.1 =
        acted (actionIdOf platform proposal.idempotencyKey) proposal call.connector
          (gateway.consult platform proposal).policyVersion outcome := by
  rcases execute_cases platform gateway proposal outcome with
    ⟨existing, -, hexecute⟩ | ⟨hnone, record, made, hrun, hexecute⟩
  · rw [hexecute] at hcall
    cases hcall
  · rw [hexecute] at hcall ⊢
    obtain rfl : made = some call := hcall
    obtain ⟨henabled, hadmits, -, -, houtcome, hrecord⟩ := decideAndRun_call hrun
    exact ⟨⟨hnone, henabled, _, hadmits⟩, houtcome, hrecord⟩

theorem Calls.exists_call (hcalls : Calls platform gateway proposal)
    (outcome : ConnectorOutcome) :
    ∃ call, (gateway.execute platform proposal outcome).2.2 = some call := by
  obtain ⟨connector, hadmits⟩ := hcalls.admits
  have hclear : gateway.clear platform (actionIdOf platform proposal.idempotencyKey) proposal =
      .ok (connector, (gateway.consult platform proposal).policyVersion) :=
    clear_eq_ok.mpr ⟨hadmits, rfl⟩
  simp only [execute, hcalls.undecided, decideAndRun, hcalls.enabled, Bool.false_eq_true,
    if_false, hclear]
  exact ⟨_, rfl⟩

/-- One attempt of a proposal at the gateway. -/
def attemptOf (proposal : Proposal) (outcome : ConnectorOutcome) : Attempt where
  found := acmeGateway
  proposal := proposal
  answer := (acmeGateway.execute Platform.plain proposal outcome).2.1
  call := (acmeGateway.execute Platform.plain proposal outcome).2.2

theorem calls_suspension : Calls Platform.plain acmeGateway suspension where
  undecided := by decide +kernel
  enabled := by decide +kernel
  admits := by
    refine ⟨{
      actionType := suspendAccount
      isSimulated := false
      compensatingAction := some (ascii "reinstate_account") }, ?_⟩
    exact {
      evidence_ne_nil := List.cons_ne_nil _ _
      eligible := by decide +kernel
      allowed := by decide +kernel
      registered := by decide +kernel
      contained := fun hsimulation => by cases hsimulation }

/-- The checks do not look at the keys. -/
theorem Calls.withKeys (hcalls : Calls platform gateway proposal) (keys : List Key) :
    Calls platform gateway { proposal with evidenceKeys := keys } := by
  obtain ⟨connector, hadmits⟩ := hcalls.admits
  exact {
    undecided := hcalls.undecided
    enabled := hcalls.enabled
    admits := ⟨connector, ⟨hadmits.evidence_ne_nil, hadmits.eligible, hadmits.allowed,
      hadmits.registered, hadmits.contained⟩⟩ }

theorem exists_call_of_calls (hcalls : Calls Platform.plain acmeGateway proposal)
    (outcome : ConnectorOutcome) :
    ∃ call, (attemptOf proposal outcome).call = some call ∧ call.outcome = outcome := by
  obtain ⟨call, hcall⟩ := hcalls.exists_call outcome
  exact ⟨call, hcall, (execute_of_call hcall).2.1⟩

/-! ## The label and the claims -/

/-- Every claim is what the branch has at the key stated for it. -/
def Backed (engine : Engine σ ρ) (loom : Loom σ ρ) (proposal : Proposal) : Prop :=
  ∀ (index : ℕ) (claim : Claim), proposal.evidence[index]? = some claim →
    ∃ key, proposal.evidenceKeys[index]? = some key ∧
      engine.HoldsClaim loom proposal.branch key claim

/-- The label is at least as restrictive as what is stored at every key. -/
def Covers (engine : Engine σ ρ) (loom : Loom σ ρ) (proposal : Proposal) (label : TrustClass) :
    Prop :=
  ∀ key ∈ proposal.evidenceKeys, ∀ stored,
    engine.HasLabel loom proposal.branch key stored → stored ≤ label

/-- When the gateway calls a connector, the policy was asked about a label that covers
what is stored, and the claims are what is stored. -/
def RestsOnStored (engine : Engine σ ρ) (loom : Loom σ ρ) (platform : Platform)
    (gateway : ActionGateway) (proposal : Proposal) (outcome : ConnectorOutcome) : Prop :=
  ∀ call, (gateway.execute platform proposal outcome).2.2 = some call →
    Covers engine loom proposal (gateway.consult platform proposal).request.label ∧
      Backed engine loom proposal

/-- The policy is asked about the label that the proposal states. -/
theorem consult_label :
    (gateway.consult platform proposal).request.label = proposal.evidenceLabel := by
  unfold consult Policy.mayAuthorizeAction Policy.Engine.decide
  split
  · rfl
  · split <;> rfl

/-- The gateway takes the stated label and claims as they are. -/
theorem restsOnStored_iff :
    RestsOnStored engine loom platform gateway proposal outcome ↔
      (Calls platform gateway proposal →
        Covers engine loom proposal proposal.evidenceLabel ∧ Backed engine loom proposal) := by
  rw [RestsOnStored, consult_label]
  constructor
  · intro hrests hcalls
    obtain ⟨call, hcall⟩ := hcalls.exists_call outcome
    exact hrests call hcall
  · intro hstated call hcall
    exact hstated (execute_of_call hcall).1

/-- A scraped page is stored where the claim is said to be. -/
def scrapedLoom : Loom MemPager (Option Refs) :=
  Engine.memoryEngine.afterAll
    [.write (Engine.memoryToken [MAIN]) MAIN
      [(ascii "claim/x", .observation {
        id := 0
        source := { system := ascii "web", recordId := ascii "1" }
        trust := .untrusted
        observedAt := none
        ingestedAt := 0
        payload := [] })] ∅ (Engine.memoryEnvelope MAIN)] Engine.memoryLoom

/-- The gateway acts all the same. -/
theorem scraped_not_restsOnStored :
    ¬ RestsOnStored Engine.memoryEngine scrapedLoom Platform.plain acmeGateway suspension
      (.succeeded (ascii "TICKET-99")) := by
  intro hrests
  obtain ⟨call, hcall⟩ := calls_suspension.exists_call (.succeeded (ascii "TICKET-99"))
  have hlabel : Engine.memoryEngine.HasLabel scrapedLoom MAIN (ascii "claim/x") .untrusted := by
    unfold Engine.HasLabel
    decide +kernel
  have hcovers := (hrests call hcall).1 _ List.mem_cons_self _ hlabel
  exact absurd hcovers (by decide +kernel)

/-! ## Records for a taint -/

/-- What the gateway hands to a taint. -/
def executedActions (gateway : ActionGateway) : List ExecutedAction :=
  gateway.records.filterMap ActionRecord.toExecuted

/-- Every record is kept under its own id. -/
def Filed (gateway : ActionGateway) : Prop :=
  ∀ (id : Bytes) (record : ActionRecord), gateway.done[id]? = some record → record.id = id

theorem filed_opened (tenant : Bytes) (policy : Policy.Engine) (connectors : List Connector) :
    Filed (opened tenant policy connectors) := by
  have hdone : (opened tenant policy connectors).done = ∅ := by
    unfold opened
    generalize hstart : new tenant policy = start
    have hempty : start.done = ∅ := by rw [← hstart]; rfl
    clear hstart
    induction connectors generalizing start with
    | nil => exact hempty
    | cons connector connectors ih => exact ih (start.withConnector connector) hempty
  intro id record hrecord
  rw [hdone] at hrecord
  simp at hrecord

theorem decideAndRun_id (platform : Platform) (gateway : ActionGateway) (id : Bytes)
    (proposal : Proposal) (outcome : ConnectorOutcome) :
    (gateway.decideAndRun platform id proposal outcome).1.id = id := by
  unfold decideAndRun
  split
  · rfl
  · cases hclear : gateway.clear platform id proposal with
    | ok cleared => rfl
    | error record =>
        unfold clear at hclear
        split at hclear
        · cases hclear; rfl
        · dsimp only at hclear
          split at hclear
          · cases hclear; rfl
          · split at hclear
            · cases hclear; rfl
            · split at hclear <;> cases hclear
              rfl

theorem Filed.step (hfiled : Filed gateway) (event : Event) :
    Filed ((machine platform).step gateway event).1 := by
  cases event with
  | execute proposal outcome =>
      change Filed (gateway.execute platform proposal outcome).1
      rcases execute_cases platform gateway proposal outcome with
        ⟨existing, -, hexecute⟩ | ⟨-, record, call, hrun, hexecute⟩
      · rwa [hexecute]
      · rw [hexecute]
        intro id kept hkept
        rw [OrderedMap.getElem?_insert] at hkept
        split at hkept
        · next hid =>
          cases hkept
          have hrecord := decideAndRun_id platform gateway
            (actionIdOf platform proposal.idempotencyKey) proposal outcome
          rw [hrun] at hrecord
          exact hrecord.trans hid
        · exact hfiled id kept hkept
  | disableAll | enableAll | disableTenant _ => exact hfiled

theorem filed_after (tenant : Bytes) (policy : Policy.Engine) (connectors : List Connector)
    (events : List Event) :
    Filed ((machine platform).after (opened tenant policy connectors) events) :=
  (machine platform).after_keeps Filed (fun _ event hfiled => hfiled.step event)
    (filed_opened tenant policy connectors)

theorem mem_executedActions {action : ExecutedAction} :
    action ∈ gateway.executedActions ↔
      ∃ (id : Bytes) (record : ActionRecord), gateway.done[id]? = some record ∧
        record.toExecuted = some action := by
  unfold executedActions records
  simp only [List.mem_filterMap, List.mem_map, Prod.exists,
    Std.ExtTreeMap.mem_toList_iff_getElem?_eq_some]
  constructor
  · rintro ⟨record, ⟨id, _, hrecord, rfl⟩, haction⟩
    exact ⟨id, _, hrecord, haction⟩
  · rintro ⟨id, record, hrecord, haction⟩
    exact ⟨record, ⟨id, record, hrecord, rfl⟩, haction⟩

/-- A plan lists a kept record that has a receipt and rests on a contaminated key. -/
theorem lists_iff (hfiled : Filed gateway) {source : SourceRef} {plan : RecallPlan}
    {stats : TaintStats} {loom' : Loom σ ρ} {record : ActionRecord}
    (hplan : engine.taintWithActions source gateway.executedActions loom =
      (.ok (plan, stats), loom'))
    (hdone : gateway.done[record.id]? = some record) :
    plan.Lists record ↔ (∃ receipt, record.status = .succeeded receipt) ∧
      ∃ key ∈ record.justifiedBy, engine.Contaminated loom source key := by
  obtain ⟨-, hirreversible⟩ := Engine.taintWithActions_spec hplan
  constructor
  · rintro ⟨item, hitem, hid, -⟩
    obtain ⟨action, haction, hjustified, rfl⟩ := (hirreversible item).mp hitem
    obtain ⟨id, other, hother, hexecuted⟩ := mem_executedActions.mp haction
    obtain ⟨receipt, hstatus, rfl⟩ := ActionRecord.toExecuted_eq_some.mp hexecuted
    -- The two records have one id, so they are the same.
    have hkept := hfiled id other hother
    change other.id = record.id at hid
    rw [← hkept, hid, hdone] at hother
    cases hother
    exact ⟨⟨receipt, hstatus⟩, hjustified⟩
  · rintro ⟨⟨receipt, hstatus⟩, hjustified⟩
    have hexecuted := ActionRecord.toExecuted_eq_some.mpr ⟨receipt, hstatus, rfl⟩
    have haction := mem_executedActions.mpr ⟨record.id, record, hdone, hexecuted⟩
    exact ⟨_, (hirreversible _).mpr ⟨_, haction, hjustified, rfl⟩, rfl, rfl, rfl⟩

/-! ## Runs and plans -/

/-- Every action of the run that may have had an effect and rests on a contaminated key is
in the plan. -/
def RecallsAll (engine : Engine σ ρ) (loom : Loom σ ρ) (source : SourceRef) (plan : RecallPlan)
    (attempts : List Attempt) : Prop :=
  ∀ attempt ∈ attempts, ∀ call, attempt.call = some call → call.outcome.MayHaveActed →
    (∃ key ∈ attempt.answer.justifiedBy, engine.Contaminated loom source key) →
      plan.Lists attempt.answer

/-- Every connector that may have acted on the strength of a contaminated key gave a
receipt. -/
def AllReceipted (engine : Engine σ ρ) (loom : Loom σ ρ) (source : SourceRef)
    (attempts : List Attempt) : Prop :=
  ∀ attempt ∈ attempts, ∀ call, attempt.call = some call → call.outcome.MayHaveActed →
    (∃ key ∈ attempt.proposal.evidenceKeys, engine.Contaminated loom source key) →
      ∃ receipt, call.outcome = .succeeded receipt

theorem statusOf_eq_succeeded {receipt : Bytes} :
    statusOf outcome = .succeeded receipt ↔ outcome = .succeeded receipt := by
  cases outcome <;> simp [statusOf]

/-- The answer of an attempt that called a connector. -/
theorem answer_of_call {events : List Event} {attempt : Attempt} {call : ConnectorCall}
    (hattempt : attempt ∈ attempts platform gateway events) (hcall : attempt.call = some call) :
    attempt.answer = acted (actionIdOf platform attempt.proposal.idempotencyKey)
      attempt.proposal call.connector
      (attempt.found.consult platform attempt.proposal).policyVersion call.outcome := by
  obtain ⟨earlier, event, later, -, hreply⟩ :=
    (machine platform).exists_step_of_mem_replies hattempt
  cases event with
  | execute proposal outcome =>
      obtain rfl := Option.some.inj hreply
      obtain ⟨-, rfl, hanswer⟩ := execute_of_call hcall
      exact hanswer
  | disableAll | enableAll | disableTenant _ => cases hreply

/-- The answer of an attempt is kept to the end of the run. -/
theorem done_of_attempt {events : List Event} {attempt : Attempt}
    (hattempt : attempt ∈ attempts platform gateway events) :
    ((machine platform).after gateway events).done[
      actionIdOf platform attempt.proposal.idempotencyKey]? = some attempt.answer :=
  (ledger platform).decided_after hattempt

/-- A plan made after the run lists an action with a receipt that rests on a contaminated
key. -/
theorem lists_of_plan {tenant : Bytes} {policy : Policy.Engine} {connectors : List Connector}
    {events : List Event} {attempt : Attempt} {call : ConnectorCall} {source : SourceRef}
    {plan : RecallPlan} {stats : TaintStats} {loom' : Loom σ ρ}
    (hattempt : attempt ∈ attempts platform (opened tenant policy connectors) events)
    (hcall : attempt.call = some call)
    (hplan : engine.taintWithActions source
      ((machine platform).after (opened tenant policy connectors) events).executedActions loom =
        (.ok (plan, stats), loom')) :
    plan.Lists attempt.answer ↔ (∃ receipt, call.outcome = .succeeded receipt) ∧
      ∃ key ∈ attempt.proposal.evidenceKeys, engine.Contaminated loom source key := by
  have hanswer := answer_of_call hattempt hcall
  have hid : actionIdOf platform attempt.proposal.idempotencyKey = attempt.answer.id := by
    rw [hanswer]
    rfl
  have hdone := done_of_attempt hattempt
  rw [hid] at hdone
  rw [lists_iff (filed_after tenant policy connectors events) hplan hdone, hanswer]
  simp only [acted, recordOf, statusOf_eq_succeeded]

theorem recallsAll_iff {tenant : Bytes} {policy : Policy.Engine} {connectors : List Connector}
    {events : List Event} {source : SourceRef} {plan : RecallPlan} {stats : TaintStats}
    {loom' : Loom σ ρ}
    (hplan : engine.taintWithActions source
      ((machine platform).after (opened tenant policy connectors) events).executedActions loom =
        (.ok (plan, stats), loom')) :
    RecallsAll engine loom source plan
        (attempts platform (opened tenant policy connectors) events) ↔
      AllReceipted engine loom source
        (attempts platform (opened tenant policy connectors) events) := by
  unfold RecallsAll AllReceipted
  refine forall₂_congr fun attempt hattempt => forall₂_congr fun call hcall => ?_
  have hkeys : attempt.answer.justifiedBy = attempt.proposal.evidenceKeys := by
    rw [answer_of_call hattempt hcall]
    rfl
  rw [hkeys]
  refine forall₂_congr fun _ hjustified => ?_
  rw [lists_of_plan hattempt hcall hplan]
  exact and_iff_left hjustified

/-- The record that the claim rests on. -/
def erpRecord : SourceRef where
  system := ascii "erp"
  recordId := ascii "r1"

/-- The claim is on the main branch, derived from the record of the ERP system. -/
def claimedLoom : Loom MemPager (Option Refs) :=
  Engine.memoryEngine.afterAll
    [.write (Engine.memoryToken [MAIN]) MAIN [(ascii "claim/x", .claim supportedClaim)] ∅
      { Engine.memoryEnvelope MAIN with derivedFrom := [erpRecord] }] Engine.memoryLoom

theorem claimedLoom_contaminated :
    Engine.memoryEngine.Contaminated claimedLoom erpRecord (ascii "claim/x") := by
  have hkeys : (Engine.memoryEngine.contaminatedKeys erpRecord (Engine.branchNames claimedLoom)
      claimedLoom).1 = .ok [ascii "claim/x"] := by decide +kernel
  exact Engine.contaminated_of_mem hkeys List.mem_cons_self

theorem claimedLoom_plans : Engine.memoryEngine.Plans claimedLoom erpRecord :=
  Engine.plans_of_isOk (by decide +kernel) (by decide +kernel)

theorem claimedLoom_holdsClaim :
    Engine.memoryEngine.HoldsClaim claimedLoom MAIN (ascii "claim/x") supportedClaim := by
  unfold Engine.HoldsClaim
  decide +kernel

/-- A plan after one attempt. -/
theorem exists_plan_acme (proposal : Proposal) (outcome : ConnectorOutcome) :
    ∃ plan stats, Engine.memoryEngine.taintWithActions erpRecord
      ((machine Platform.plain).after acmeGateway [.execute proposal outcome]).executedActions
      claimedLoom = (.ok (plan, stats), claimedLoom) :=
  (Engine.plans_iff _).mp claimedLoom_plans

/-- A suspension with a receipt is in the plan. -/
theorem recallsAll_iff_receipt :
    ∃ plan, RecallsAll Engine.memoryEngine claimedLoom erpRecord plan
      (attempts Platform.plain acmeGateway
        [.execute suspension (.succeeded (ascii "TICKET-99"))]) := by
  obtain ⟨plan, stats, hplan⟩ := exists_plan_acme suspension (.succeeded (ascii "TICKET-99"))
  refine ⟨plan, (recallsAll_iff hplan).mpr fun attempt hattempt call hcall _ _ => ?_⟩
  obtain rfl := List.mem_singleton.mp hattempt
  obtain ⟨call', hcall', houtcome⟩ :=
    exists_call_of_calls calls_suspension (.succeeded (ascii "TICKET-99"))
  obtain rfl : call = call' := Option.some.inj (hcall.symm.trans hcall')
  exact ⟨_, houtcome⟩

/-- A suspension that timed out is not. -/
theorem timeout_not_recalled :
    ∃ plan stats, Engine.memoryEngine.taintWithActions erpRecord
        ((machine Platform.plain).after acmeGateway
          [.execute suspension (.indeterminate (ascii "timeout"))]).executedActions
        claimedLoom = (.ok (plan, stats), claimedLoom) ∧
      ¬ RecallsAll Engine.memoryEngine claimedLoom erpRecord plan
        (attempts Platform.plain acmeGateway
          [.execute suspension (.indeterminate (ascii "timeout"))]) := by
  obtain ⟨plan, stats, hplan⟩ := exists_plan_acme suspension (.indeterminate (ascii "timeout"))
  refine ⟨plan, stats, hplan, fun hrecalls => ?_⟩
  obtain ⟨call, hcall, houtcome⟩ :=
    exists_call_of_calls calls_suspension (.indeterminate (ascii "timeout"))
  have hattempt : attemptOf suspension (.indeterminate (ascii "timeout")) ∈
      attempts Platform.plain acmeGateway
        [.execute suspension (.indeterminate (ascii "timeout"))] := List.mem_singleton_self _
  have hjustified : ∃ key ∈ suspension.evidenceKeys,
      Engine.memoryEngine.Contaminated claimedLoom erpRecord key :=
    ⟨_, List.mem_cons_self, claimedLoom_contaminated⟩
  have hlists := hrecalls _ hattempt call hcall (by rw [houtcome]; trivial)
    (by rw [answer_of_call hattempt hcall]; exact hjustified)
  obtain ⟨⟨receipt, hreceipt⟩, -⟩ := (lists_of_plan hattempt hcall hplan).mp hlists
  rw [houtcome] at hreceipt
  cases hreceipt

/-- The record lists, for every claim, a key the branch had it at, and a plan made in a
later database lists the record when one of the keys is contaminated there. -/
structure Findable (engine : Engine σ ρ) (loom later : Loom σ ρ) (source : SourceRef)
    (actions : List ExecutedAction) (attempt : Attempt) : Prop where
  listed : ∀ (index : ℕ) (claim : Claim), attempt.proposal.evidence[index]? = some claim →
    ∃ key, attempt.answer.justifiedBy[index]? = some key ∧
      engine.HoldsClaim loom attempt.proposal.branch key claim
  found : ∀ plan stats later',
    engine.taintWithActions source actions later = (.ok (plan, stats), later') →
      (∃ key ∈ attempt.answer.justifiedBy, engine.Contaminated later source key) →
        plan.Lists attempt.answer

/-- The gateway takes the stated keys as they are, and hands over actions with a receipt. -/
theorem findable_iff {tenant : Bytes} {policy : Policy.Engine} {connectors : List Connector}
    {events : List Event} {attempt : Attempt} {call : ConnectorCall} {later : Loom σ ρ}
    {source : SourceRef}
    (hattempt : attempt ∈ attempts platform (opened tenant policy connectors) events)
    (hcall : attempt.call = some call) :
    Findable engine loom later source
        ((machine platform).after (opened tenant policy connectors) events).executedActions
        attempt ↔
      Backed engine loom attempt.proposal ∧
        (engine.Plans later source →
          (∃ key ∈ attempt.proposal.evidenceKeys, engine.Contaminated later source key) →
            ∃ receipt, call.outcome = .succeeded receipt) := by
  have hanswer := answer_of_call hattempt hcall
  have hkeys : attempt.answer.justifiedBy = attempt.proposal.evidenceKeys := by
    rw [hanswer]
    rfl
  constructor
  · intro hfindable
    refine ⟨fun index claim hclaim => ?_, fun hplans hjustified => ?_⟩
    · rw [← hkeys]
      exact hfindable.listed index claim hclaim
    · obtain ⟨plan, stats, hplan⟩ := (Engine.plans_iff _).mp hplans
      have hfound := hfindable.found plan stats later hplan (by rwa [hkeys])
      exact ((lists_of_plan hattempt hcall hplan).mp hfound).1
  · rintro ⟨hbacked, hreceipted⟩
    refine ⟨fun index claim hclaim => ?_, fun plan stats later' hplan hjustified => ?_⟩
    · rw [hkeys]
      exact hbacked index claim hclaim
    · obtain ⟨rfl, -⟩ := Engine.taintWithActions_spec hplan
      rw [hkeys] at hjustified
      have hplans := (Engine.plans_iff _).mpr ⟨plan, stats, hplan⟩
      exact (lists_of_plan hattempt hcall hplan).mpr
        ⟨hreceipted hplans hjustified, hjustified⟩

/-- The suspension is found by the key it states. -/
theorem findable_iff_suspension :
    Findable Engine.memoryEngine claimedLoom claimedLoom erpRecord
      ((machine Platform.plain).after acmeGateway
        [.execute suspension (.succeeded (ascii "TICKET-99"))]).executedActions
      (attemptOf suspension (.succeeded (ascii "TICKET-99"))) := by
  obtain ⟨call, hcall, houtcome⟩ :=
    exists_call_of_calls calls_suspension (.succeeded (ascii "TICKET-99"))
  refine (findable_iff (List.mem_singleton_self _) hcall).mpr ⟨?_, fun _ _ => ⟨_, houtcome⟩⟩
  intro index claim hclaim
  cases index with
  | zero =>
      cases hclaim
      exact ⟨_, rfl, claimedLoom_holdsClaim⟩
  | succ index => cases hclaim

/-- The same suspension, with no key for its claim. -/
def unkeyed : Proposal :=
  { suspension with evidenceKeys := [] }

/-- It is carried out, and no taint finds it. -/
theorem unkeyed_not_findable :
    (∃ call, (attemptOf unkeyed (.succeeded (ascii "TICKET-99"))).call = some call) ∧
      ¬ Findable Engine.memoryEngine claimedLoom claimedLoom erpRecord
        ((machine Platform.plain).after acmeGateway
          [.execute unkeyed (.succeeded (ascii "TICKET-99"))]).executedActions
        (attemptOf unkeyed (.succeeded (ascii "TICKET-99"))) := by
  obtain ⟨call, hcall, -⟩ :=
    exists_call_of_calls (calls_suspension.withKeys []) (.succeeded (ascii "TICKET-99"))
  refine ⟨⟨call, hcall⟩, fun hfindable => ?_⟩
  have hattempt : attemptOf unkeyed (.succeeded (ascii "TICKET-99")) ∈
      attempts Platform.plain acmeGateway
        [.execute unkeyed (.succeeded (ascii "TICKET-99"))] := List.mem_singleton_self _
  obtain ⟨key, hkey, -⟩ := hfindable.listed 0 supportedClaim rfl
  rw [answer_of_call hattempt hcall] at hkey
  cases hkey

end ActionGateway

end LoomDB
