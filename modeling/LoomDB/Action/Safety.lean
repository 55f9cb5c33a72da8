import LoomDB.Action.Gateway
import LoomDB.Foundations.Ledger

/-!
# Runs of the gateway

Whole calls of the gateway and flips of the kill switch, in any order: a connector
is called at most once for an idempotency key, every later call repeats the first
record, and no connector is called past a failing check.
-/

namespace LoomDB

namespace ActionGateway

variable {platform : Platform} {gateway : ActionGateway} {proposal : Proposal}

/-! ## What the checks establish -/

/-- The proposal passes every check but the kill switch, and leads to the connector. -/
structure Admits (platform : Platform) (gateway : ActionGateway) (proposal : Proposal)
    (connector : Connector) : Prop where
  evidence_ne_nil : proposal.evidence ≠ []
  eligible : ∀ claim ∈ proposal.evidence, claim.isActionEligible = true
  allowed : (gateway.consult platform proposal).decision.isAllowed = true
  registered : gateway.connectors[proposal.actionType]? = some connector
  contained : proposal.simulation = true → connector.isSimulated = true

theorem evidenceRefusal_eq_none :
    evidenceRefusal proposal = none ↔
      proposal.evidence ≠ [] ∧ ∀ claim ∈ proposal.evidence, claim.isActionEligible = true := by
  unfold evidenceRefusal
  cases hfind : proposal.evidence.find? fun claim => !claim.isActionEligible with
  | none =>
      have hall : ∀ claim ∈ proposal.evidence, claim.isActionEligible = true := by
        simpa using List.find?_eq_none.mp hfind
      by_cases hevidence : proposal.evidence = []
      · simp [hevidence]
      · simp only [hevidence, if_false, ne_eq, not_false_eq_true, true_and, true_iff]
        exact hall
  | some claim =>
      have hmem := List.mem_of_find?_eq_some hfind
      have hineligible : claim.isActionEligible = false := by simpa using List.find?_some hfind
      refine iff_of_false (by simp) fun hall => ?_
      rw [hall.2 claim hmem] at hineligible
      cases hineligible

/-- The checks after the kill switch let exactly the admitted proposals through. -/
theorem clear_eq_ok {id policyVersion : Bytes} {connector : Connector} :
    gateway.clear platform id proposal = .ok (connector, policyVersion) ↔
      gateway.Admits platform proposal connector ∧
        policyVersion = (gateway.consult platform proposal).policyVersion := by
  constructor
  · intro hclear
    unfold clear at hclear
    cases hevidence : evidenceRefusal proposal with
    | some reason => simp [hevidence] at hclear
    | none =>
        simp only [hevidence] at hclear
        split at hclear
        · cases hclear
        · next hallowed =>
          split at hclear
          · cases hclear
          · next registered hregistered =>
            split at hclear
            · cases hclear
            · next hcontained =>
              cases hclear
              have hcited := evidenceRefusal_eq_none.mp hevidence
              exact ⟨⟨hcited.1, hcited.2, by simpa using hallowed, hregistered,
                by simpa using hcontained⟩, rfl⟩
  · rintro ⟨hadmits, rfl⟩
    have hevidence := evidenceRefusal_eq_none.mpr ⟨hadmits.evidence_ne_nil, hadmits.eligible⟩
    have hcontained : (proposal.simulation && !connector.isSimulated) = false := by
      cases hsimulation : proposal.simulation with
      | false => rfl
      | true => simp [hadmits.contained hsimulation]
    unfold clear
    simp [hevidence, hadmits.allowed, hadmits.registered, hcontained]

/-! ## Whole calls -/

inductive Event where
  | execute (proposal : Proposal) (outcome : ConnectorOutcome)
  | disableAll
  | enableAll
  | disableTenant (tenant : Bytes)

/-- A whole call of `execute`: the gateway it found, and what came of it. -/
structure Attempt where
  found : ActionGateway
  proposal : Proposal
  answer : ActionRecord
  call : Option ConnectorCall

/-- The gateway, one event at a time. -/
def machine (platform : Platform) : Machine ActionGateway Event Attempt where
  step gateway
    | .execute proposal outcome =>
        let result := gateway.execute platform proposal outcome
        (result.1, some {
          found := gateway
          proposal := proposal
          answer := result.2.1
          call := result.2.2 })
    | .disableAll => ({ gateway with kill := gateway.kill.disableAll }, none)
    | .enableAll => ({ gateway with kill := gateway.kill.enableAll }, none)
    | .disableTenant tenant => ({ gateway with kill := gateway.kill.disableTenant tenant }, none)

/-- The attempts of a run, in order. -/
def attempts (platform : Platform) (gateway : ActionGateway) (events : List Event) :
    List Attempt :=
  (machine platform).replies gateway events

/-- Every check had passed when the connector was called. -/
structure Checked (platform : Platform) (attempt : Attempt) (call : ConnectorCall) : Prop where
  admits : attempt.found.Admits platform attempt.proposal call.connector
  enabled : attempt.found.disabled = false
  target : call.target = attempt.proposal.target
  idempotencyKey : call.idempotencyKey = attempt.proposal.idempotencyKey

/-- One call of the gateway: a known id gets its record, a new one is decided. -/
theorem execute_cases (platform : Platform) (gateway : ActionGateway) (proposal : Proposal)
    (outcome : ConnectorOutcome) :
    (∃ existing, gateway.done[actionIdOf platform proposal.idempotencyKey]? = some existing ∧
      gateway.execute platform proposal outcome = (gateway, existing, none)) ∨
    (gateway.done[actionIdOf platform proposal.idempotencyKey]? = none ∧
      ∃ record call,
        gateway.decideAndRun platform (actionIdOf platform proposal.idempotencyKey) proposal
          outcome = (record, call) ∧
        gateway.execute platform proposal outcome =
          ({ gateway with
              done := gateway.done.insert (actionIdOf platform proposal.idempotencyKey) record },
            record, call)) := by
  cases hdone : gateway.done[actionIdOf platform proposal.idempotencyKey]? with
  | some existing => exact Or.inl ⟨existing, rfl, by simp only [execute, hdone]⟩
  | none =>
      cases hrun : gateway.decideAndRun platform (actionIdOf platform proposal.idempotencyKey)
        proposal outcome with
      | mk record call => exact Or.inr ⟨rfl, record, call, rfl, by simp only [execute, hdone, hrun]⟩

/-- A connector is called when the switch is on and every check passes. -/
theorem decideAndRun_call {id : Bytes} {outcome : ConnectorOutcome} {record : ActionRecord}
    {call : ConnectorCall}
    (hrun : gateway.decideAndRun platform id proposal outcome = (record, some call)) :
    gateway.disabled = false ∧
      gateway.Admits platform proposal call.connector ∧
      call.target = proposal.target ∧ call.idempotencyKey = proposal.idempotencyKey ∧
      call.outcome = outcome ∧
      record = acted id proposal call.connector
        (gateway.consult platform proposal).policyVersion outcome := by
  unfold decideAndRun at hrun
  split at hrun
  · cases hrun
  · next hkill =>
    cases hclear : gateway.clear platform id proposal with
    | error refused => simp [hclear] at hrun
    | ok cleared =>
        obtain ⟨hadmits, hversion⟩ := clear_eq_ok.mp hclear
        simp only [hclear, Prod.mk.injEq, Option.some.injEq] at hrun
        obtain ⟨rfl, rfl⟩ := hrun
        exact ⟨by simpa using hkill, hadmits, rfl, rfl, rfl, by rw [hversion]⟩

theorem execute_done {outcome : ConnectorOutcome} :
    (gateway.execute platform proposal outcome).1.done[
      actionIdOf platform proposal.idempotencyKey]? =
        some (gateway.execute platform proposal outcome).2.1 := by
  rcases execute_cases platform gateway proposal outcome with
    ⟨existing, hdone, hexecute⟩ | ⟨-, record, call, -, hexecute⟩
  · rw [hexecute, hdone]
  · rw [hexecute, OrderedMap.getElem?_insert, if_pos rfl]

/-- A record once kept stays. -/
theorem done_execute {outcome : ConnectorOutcome} {id : Bytes} {record : ActionRecord}
    (hdone : gateway.done[id]? = some record) :
    (gateway.execute platform proposal outcome).1.done[id]? = some record := by
  rcases execute_cases platform gateway proposal outcome with
    ⟨existing, -, hexecute⟩ | ⟨hnone, decided, call, -, hexecute⟩
  · rw [hexecute, hdone]
  · rw [hexecute, OrderedMap.getElem?_insert, if_neg, hdone]
    rintro rfl
    rw [hnone] at hdone
    cases hdone

/-- The gateway is a ledger of the records by action id. -/
def ledger (platform : Platform) : Ledger (machine platform) Bytes ActionRecord where
  ident attempt := actionIdOf platform attempt.proposal.idempotencyKey
  answer := Attempt.answer
  acts attempt := attempt.call.isSome
  decided gateway id := gateway.done[id]?
  keeps {gateway event _ _} hdone := by
    cases event with
    | execute proposal outcome => exact done_execute hdone
    | disableAll | enableAll | disableTenant _ => exact hdone
  answers {gateway event _} hreply := by
    cases event with
    | execute proposal outcome =>
        obtain rfl := Option.some.inj hreply
        exact execute_done
    | disableAll | enableAll | disableTenant _ => cases hreply
  undecided {gateway event _} hreply hacts := by
    cases event with
    | execute proposal outcome =>
        obtain rfl := Option.some.inj hreply
        dsimp only at hacts
        rcases execute_cases platform gateway proposal outcome with
          ⟨existing, -, hexecute⟩ | ⟨hnone, -⟩
        · rw [hexecute] at hacts
          cases hacts
        · exact hnone
    | disableAll | enableAll | disableTenant _ => cases hreply

/-- The attempt of a step that calls a connector passed every check. -/
theorem checked_of_step {event : Event} {attempt : Attempt} {call : ConnectorCall}
    (hreply : ((machine platform).step gateway event).2 = some attempt)
    (hcall : attempt.call = some call) : Checked platform attempt call := by
  cases event with
  | execute proposal outcome =>
      obtain rfl := Option.some.inj hreply
      dsimp only at hcall
      rcases execute_cases platform gateway proposal outcome with
        ⟨existing, -, hexecute⟩ | ⟨-, record, made, hrun, hexecute⟩
      · rw [hexecute] at hcall
        cases hcall
      · rw [hexecute] at hcall
        obtain rfl : made = some call := hcall
        obtain ⟨henabled, hadmits, htarget, hkey, -⟩ := decideAndRun_call hrun
        exact ⟨hadmits, henabled, htarget, hkey⟩
  | disableAll | enableAll | disableTenant _ => cases hreply

/-- What the gateway owes over a run. -/
structure Safe (platform : Platform) (attempts : List Attempt) : Prop where
  once : ∀ key, (attempts.filter fun attempt =>
    attempt.proposal.idempotencyKey = key ∧ attempt.call.isSome).length ≤ 1
  repeats : attempts.Pairwise fun first later =>
    first.proposal.idempotencyKey = later.proposal.idempotencyKey → later.answer = first.answer
  checked : ∀ attempt ∈ attempts, ∀ call, attempt.call = some call →
    Checked platform attempt call

theorem safe_attempts (platform : Platform) (gateway : ActionGateway) (events : List Event) :
    Safe platform (attempts platform gateway events) where
  once key := by
    have hacting := (ledger platform).length_acting_le gateway events (actionIdOf platform key)
    refine le_trans ?_ hacting
    rw [← List.countP_eq_length_filter, ← List.countP_eq_length_filter]
    refine List.countP_mono_left fun attempt _ hattempt => ?_
    obtain ⟨rfl, hcall⟩ := of_decide_eq_true hattempt
    exact decide_eq_true ⟨rfl, hcall⟩
  repeats := ((ledger platform).pairwise_repeats gateway events).imp
    fun {first later} hrepeats hkey =>
      (hrepeats (congrArg (actionIdOf platform) hkey)).1
  checked attempt hattempt call hcall := by
    obtain ⟨earlier, event, later, -, hreply⟩ :=
      (machine platform).exists_step_of_mem_replies hattempt
    exact checked_of_step hreply hcall

end ActionGateway

end LoomDB
