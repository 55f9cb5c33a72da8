import LoomDB.Action.Safety

/-!
# The kill switch between the steps of a call

A call of the gateway takes the state lock, looks at the kill switch, checks the
rest and then calls the connector. The state lock is held all the way, so one call
at a time is past it; the lock of the switch is held only while it is looked at,
so a flip can fall between any two steps.
-/

namespace LoomDB

open Std (ExtTreeMap ExtTreeSet)

namespace ActionGateway

/-! ## Single steps -/

/-- How far the call that holds the state lock has come. -/
inductive Stage where
  /-- It has the lock, and its id is not decided. -/
  | locked
  /-- It found the switch on, and let go of it. -/
  | switchedOn
  /-- It passed the evidence, the policy and the containment. -/
  | cleared (connector : Connector) (policyVersion : Bytes)
  /-- The connector is at work. -/
  | calling (connector : Connector) (policyVersion : Bytes)

/-- The call that holds the state lock. -/
structure Holder where
  caller : ℕ
  proposal : Proposal
  stage : Stage

/-- A gateway and the calls on it. -/
structure System where
  gateway : ActionGateway
  waiting : ExtTreeMap ℕ Proposal
  holder : Option Holder
  returned : ExtTreeMap ℕ ActionRecord

inductive Move where
  | start (caller : ℕ) (proposal : Proposal)
  | lock (caller : ℕ)
  | checkSwitch
  | checkRest
  | callConnector
  | finish (outcome : ConnectorOutcome)
  | disableAll
  | enableAll
  | disableTenant (tenant : Bytes)

namespace System

/-- The record is kept, the lock is free again and the caller has its answer. -/
def conclude (platform : Platform) (system : System) (caller : ℕ) (proposal : Proposal)
    (record : ActionRecord) : System :=
  { system with
    gateway := { system.gateway with
      done := system.gateway.done.insert (actionIdOf platform proposal.idempotencyKey) record }
    holder := none
    returned := system.returned.insert caller record }

/-- No call is under way. -/
def idle (gateway : ActionGateway) : System where
  gateway := gateway
  waiting := ∅
  holder := none
  returned := ∅

def flip (system : System) (change : KillSwitch → KillSwitch) : System :=
  { system with gateway := { system.gateway with kill := change system.gateway.kill } }

/-- One step of one call, or one flip; a step that cannot be taken yet is `none`. -/
def step (platform : Platform) (system : System) : Move → Option System
  | .start caller proposal =>
      some { system with waiting := system.waiting.insert caller proposal }
  | .lock caller =>
      match system.holder, system.waiting[caller]? with
      | none, some proposal =>
          let waiting := system.waiting.erase caller
          match system.gateway.done[actionIdOf platform proposal.idempotencyKey]? with
          | some existing =>
              some { system with
                waiting := waiting
                returned := system.returned.insert caller existing }
          | none =>
              some { system with
                waiting := waiting
                holder := some { caller, proposal, stage := .locked } }
      | _, _ => none
  | .checkSwitch =>
      match system.holder with
      | some ⟨caller, proposal, .locked⟩ =>
          let id := actionIdOf platform proposal.idempotencyKey
          if system.gateway.disabled then
            some (system.conclude platform caller proposal (refuse id proposal killed))
          else some { system with holder := some ⟨caller, proposal, .switchedOn⟩ }
      | _ => none
  | .checkRest =>
      match system.holder with
      | some ⟨caller, proposal, .switchedOn⟩ =>
          match system.gateway.clear platform (actionIdOf platform proposal.idempotencyKey)
            proposal with
          | .error record => some (system.conclude platform caller proposal record)
          | .ok (connector, policyVersion) =>
              some { system with
                holder := some ⟨caller, proposal, .cleared connector policyVersion⟩ }
      | _ => none
  | .callConnector =>
      match system.holder with
      | some ⟨caller, proposal, .cleared connector policyVersion⟩ =>
          some { system with holder := some ⟨caller, proposal, .calling connector policyVersion⟩ }
      | _ => none
  | .finish outcome =>
      match system.holder with
      | some ⟨caller, proposal, .calling connector policyVersion⟩ =>
          some (system.conclude platform caller proposal
            (acted (actionIdOf platform proposal.idempotencyKey) proposal connector policyVersion
              outcome))
      | _ => none
  | .disableAll => some (system.flip KillSwitch.disableAll)
  | .enableAll => some (system.flip KillSwitch.enableAll)
  | .disableTenant tenant => some (system.flip fun kill => kill.disableTenant tenant)

def run (platform : Platform) (system : System) (moves : List Move) : Option System :=
  moves.foldlM (step platform) system

variable {platform : Platform} {system next final : System} {move : Move} {moves : List Move}

theorem run_cons :
    system.run platform (move :: moves) =
      (system.step platform move).bind fun next => next.run platform moves := rfl

theorem run_append {later : List Move} :
    system.run platform (moves ++ later) =
      (system.run platform moves).bind fun next => next.run platform later :=
  List.foldlM_append

end System

/-! ## What a step leaves alone -/

/-- What a step does to the switch. -/
def Move.onSwitch : Move → KillSwitch → KillSwitch
  | .disableAll, kill => kill.disableAll
  | .enableAll, kill => kill.enableAll
  | .disableTenant tenant, kill => kill.disableTenant tenant
  | _, kill => kill

/-- The gateways differ in what they decided and in their switches. -/
structure SameSetup (left right : ActionGateway) : Prop where
  tenant : right.tenant = left.tenant
  connectors : right.connectors = left.connectors
  policy : right.policy = left.policy

theorem SameSetup.admits {left right : ActionGateway} {platform : Platform}
    {proposal : Proposal} {connector : Connector} (hsame : SameSetup left right) :
    right.Admits platform proposal connector ↔ left.Admits platform proposal connector := by
  obtain ⟨-, hconnectors, hpolicy⟩ := hsame
  constructor
  · intro hadmits
    exact ⟨hadmits.evidence_ne_nil, hadmits.eligible,
      by simpa only [consult, hpolicy] using hadmits.allowed,
      by simpa only [hconnectors] using hadmits.registered, hadmits.contained⟩
  · intro hadmits
    exact ⟨hadmits.evidence_ne_nil, hadmits.eligible,
      by simpa only [consult, hpolicy] using hadmits.allowed,
      by simpa only [hconnectors] using hadmits.registered, hadmits.contained⟩

namespace System

variable {platform : Platform} {system next final : System} {move : Move} {moves : List Move}

theorem step_gateway (hstep : system.step platform move = some next) :
    SameSetup system.gateway next.gateway ∧
      next.gateway.kill = move.onSwitch system.gateway.kill := by
  have hsame : SameSetup system.gateway system.gateway := ⟨rfl, rfl, rfl⟩
  cases move with
  | start caller proposal => cases hstep; exact ⟨hsame, rfl⟩
  | lock caller =>
      simp only [step] at hstep
      split at hstep
      · split at hstep <;> cases hstep <;> exact ⟨hsame, rfl⟩
      · cases hstep
  | checkSwitch =>
      simp only [step] at hstep
      split at hstep
      · split at hstep <;> cases hstep <;> exact ⟨⟨rfl, rfl, rfl⟩, rfl⟩
      · cases hstep
  | checkRest =>
      simp only [step] at hstep
      split at hstep
      · split at hstep <;> cases hstep <;> exact ⟨⟨rfl, rfl, rfl⟩, rfl⟩
      · cases hstep
  | callConnector =>
      simp only [step] at hstep
      split at hstep <;> cases hstep
      exact ⟨hsame, rfl⟩
  | finish outcome =>
      simp only [step] at hstep
      split at hstep <;> cases hstep
      exact ⟨⟨rfl, rfl, rfl⟩, rfl⟩
  | disableAll | enableAll | disableTenant tenant => cases hstep; exact ⟨⟨rfl, rfl, rfl⟩, rfl⟩

/-! ## The barrier -/

/-- A call has found the switch on, its connector is not called yet, and no check will
stop it. -/
def InWindow (platform : Platform) (system : System) : Prop :=
  ∃ holder, system.holder = some holder ∧
    match holder.stage with
    | .switchedOn => ∃ connector, system.gateway.Admits platform holder.proposal connector
    | .cleared _ _ => True
    | _ => False

/-- No connector is called from here on, as long as the switch is off. -/
structure Shut (platform : Platform) (system : System) : Prop where
  disabled : system.gateway.disabled = true
  quiet : ¬ system.InWindow platform

theorem not_inWindow_of_holder_eq_none (hholder : system.holder = none) :
    ¬ system.InWindow platform := by
  rintro ⟨holder, hsome, -⟩
  rw [hholder] at hsome
  cases hsome

theorem inWindow_congr (hsame : SameSetup system.gateway next.gateway)
    (hholder : next.holder = system.holder) (hwindow : next.InWindow platform) :
    system.InWindow platform := by
  obtain ⟨holder, hsome, hstage⟩ := hwindow
  refine ⟨holder, hholder.symm.trans hsome, ?_⟩
  split at hstage
  · obtain ⟨connector, hadmits⟩ := hstage
    exact ⟨connector, hsame.admits.mp hadmits⟩
  · trivial
  · cases hstage

/-- While the switch is off, no call gets into the window. -/
theorem Shut.step (hshut : system.Shut platform) (hstep : system.step platform move = some next) :
    ¬ next.InWindow platform ∧ move ≠ .callConnector := by
  have hsame := (step_gateway hstep).1
  cases move with
  | start caller proposal =>
      cases hstep
      exact ⟨fun hwindow => hshut.quiet (inWindow_congr hsame rfl hwindow), by simp⟩
  | lock caller =>
      refine ⟨?_, by simp⟩
      simp only [System.step] at hstep
      split at hstep
      · next hfree _ =>
        split at hstep <;> cases hstep
        · exact not_inWindow_of_holder_eq_none hfree
        · rintro ⟨holder, hsome, hstage⟩
          cases hsome
          exact hstage
      · cases hstep
  | checkSwitch =>
      refine ⟨?_, by simp⟩
      simp only [System.step] at hstep
      split at hstep
      · rw [if_pos hshut.disabled] at hstep
        cases hstep
        exact not_inWindow_of_holder_eq_none rfl
      · cases hstep
  | checkRest =>
      refine ⟨?_, by simp⟩
      simp only [System.step] at hstep
      split at hstep
      · next caller proposal hholder =>
        split at hstep
        · cases hstep
          exact not_inWindow_of_holder_eq_none rfl
        · next connector policyVersion hclear =>
          exact absurd ⟨_, hholder, connector, (clear_eq_ok.mp hclear).1⟩ hshut.quiet
      · cases hstep
  | callConnector =>
      simp only [System.step] at hstep
      split at hstep
      · next hholder => exact absurd ⟨_, hholder, trivial⟩ hshut.quiet
      · cases hstep
  | finish outcome =>
      refine ⟨?_, by simp⟩
      simp only [System.step] at hstep
      split at hstep <;> cases hstep
      exact not_inWindow_of_holder_eq_none rfl
  | disableAll | enableAll | disableTenant tenant =>
      cases hstep
      exact ⟨fun hwindow => hshut.quiet (inWindow_congr hsame rfl hwindow), by simp⟩

/-! ## Runs -/

end System

/-- The flip turns the actions of the tenant off. -/
def Move.Disables (tenant : Bytes) : Move → Prop
  | .disableAll => True
  | .disableTenant disabled => disabled = tenant
  | _ => False

/-- What a disabling flip did still stands. -/
def Move.Stands (tenant : Bytes) (kill : KillSwitch) : Move → Prop
  | .disableAll => kill.global = true
  | .disableTenant disabled => disabled = tenant ∧ kill.disabledTenants.contains tenant = true
  | _ => False

/-- After a flip that turns the actions of the tenant off, no connector is called before
everything is turned on again; what was turned off for the tenant stays off. -/
def Barrier (tenant : Bytes) (moves : List Move) : Prop :=
  ∀ earlier flip between later, moves = earlier ++ flip :: (between ++ .callConnector :: later) →
    flip.Disables tenant → flip = .disableAll ∧ .enableAll ∈ between

/-- No flip of the run turns the actions of the tenant off while a call is in the window. -/
def System.QuietFlips (platform : Platform) (system : System) (moves : List Move) : Prop :=
  ∀ earlier flip later reached, moves = earlier ++ flip :: later →
    flip.Disables system.gateway.tenant → system.run platform earlier = some reached →
      ¬ reached.InWindow platform

namespace Move

variable {tenant : Bytes} {kill : KillSwitch} {flip move : Move}

theorem Disables.stands (hdisables : flip.Disables tenant) :
    flip.Stands tenant (flip.onSwitch kill) := by
  cases flip with
  | disableAll => rfl
  | disableTenant disabled =>
      refine ⟨hdisables, ?_⟩
      rw [← show disabled = tenant from hdisables]
      exact ExtTreeSet.contains_insert_self
  | start _ _ | lock _ | checkSwitch | checkRest | callConnector | finish _ | enableAll =>
      exact hdisables.elim

theorem Stands.isDisabled (hstands : flip.Stands tenant kill) :
    kill.isDisabled tenant = true := by
  cases flip with
  | disableAll => rw [KillSwitch.isDisabled, show kill.global = true from hstands, Bool.true_or]
  | disableTenant disabled => rw [KillSwitch.isDisabled, hstands.2, Bool.or_true]
  | start _ _ | lock _ | checkSwitch | checkRest | callConnector | finish _ | enableAll =>
      exact hstands.elim

/-- Only turning everything on undoes a flip, and only one that turned everything off. -/
theorem Stands.onSwitch (hstands : flip.Stands tenant kill)
    (hkept : flip = .disableAll → move ≠ .enableAll) :
    flip.Stands tenant (move.onSwitch kill) := by
  cases flip with
  | disableAll =>
      cases move with
      | enableAll => exact absurd rfl (hkept rfl)
      | disableAll => rfl
      | start _ _ | lock _ | checkSwitch | checkRest | callConnector | finish _
      | disableTenant _ => exact hstands
  | disableTenant disabled =>
      cases move with
      | disableTenant other =>
          refine ⟨hstands.1, ?_⟩
          change (kill.disabledTenants.insert other).contains tenant = true
          rw [ExtTreeSet.contains_insert, hstands.2, Bool.or_true]
      | start _ _ | lock _ | checkSwitch | checkRest | callConnector | finish _ | enableAll
      | disableAll => exact hstands
  | start _ _ | lock _ | checkSwitch | checkRest | callConnector | finish _ | enableAll =>
      exact hstands.elim

end Move

namespace System

variable {platform : Platform} {system next final : System} {flip : Move} {moves : List Move}

/-- Past a flip that found no call in the window, no connector is called. -/
theorem Shut.run (hshut : system.Shut platform)
    (hstands : flip.Stands system.gateway.tenant system.gateway.kill) {between later : List Move}
    (hkept : flip = .disableAll → .enableAll ∉ between) :
    system.run platform (between ++ .callConnector :: later) ≠ some final := by
  intro hrun
  induction between generalizing system with
  | nil =>
      obtain ⟨next, hstep, -⟩ := Option.bind_eq_some_iff.mp hrun
      exact (hshut.step hstep).2 rfl
  | cons move between ih =>
      obtain ⟨next, hstep, hrest⟩ := Option.bind_eq_some_iff.mp hrun
      obtain ⟨hsame, hkill⟩ := step_gateway hstep
      have hstands' : flip.Stands next.gateway.tenant next.gateway.kill := by
        rw [hsame.tenant, hkill]
        refine hstands.onSwitch fun hall hmove => hkept hall ?_
        rw [hmove]
        exact List.mem_cons_self
      have hshut' : next.Shut platform := ⟨hstands'.isDisabled, (hshut.step hstep).1⟩
      exact ih hshut' hstands' (fun hall hmem => hkept hall (List.mem_cons_of_mem _ hmem)) hrest

theorem run_tenant (hrun : system.run platform moves = some final) :
    final.gateway.tenant = system.gateway.tenant := by
  induction moves generalizing system with
  | nil => cases hrun; rfl
  | cons move moves ih =>
      obtain ⟨next, hstep, hrest⟩ := Option.bind_eq_some_iff.mp hrun
      exact (ih hrest).trans (step_gateway hstep).1.tenant

/-- The kill switch is a barrier when it is never flipped with a call in the window. -/
theorem barrier_of_quietFlips (hrun : system.run platform moves = some final)
    (hquiet : system.QuietFlips platform moves) : Barrier system.gateway.tenant moves := by
  rintro earlier flip between later rfl hdisables
  rw [run_append] at hrun
  obtain ⟨reached, hearlier, hrest⟩ := Option.bind_eq_some_iff.mp hrun
  obtain ⟨next, hflip, hrest⟩ := Option.bind_eq_some_iff.mp hrest
  have htenant := run_tenant hearlier
  obtain ⟨hsame, hkill⟩ := step_gateway hflip
  have hstands : flip.Stands next.gateway.tenant next.gateway.kill := by
    rw [hsame.tenant, htenant, hkill]
    exact hdisables.stands
  have hwindow : ¬ next.InWindow platform := by
    refine fun hwindow => hquiet earlier flip _ reached rfl hdisables hearlier ?_
    refine inWindow_congr hsame ?_ hwindow
    cases flip with
    | disableAll | disableTenant tenant => cases hflip; rfl
    | start _ _ | lock _ | checkSwitch | checkRest | callConnector | finish _ | enableAll =>
        exact hdisables.elim
  by_contra hbreach
  exact Shut.run ⟨hstands.isDisabled, hwindow⟩ hstands (fun hall hmem => hbreach ⟨hall, hmem⟩)
    hrest

/-- A gateway that was turned off and on again calls its connector. -/
theorem barrier_of_quietFlips_acme : Barrier (ascii "acme")
    [.disableAll, .enableAll, .start 0 suspension, .lock 0, .checkSwitch, .checkRest,
      .callConnector] := by
  obtain ⟨final, hrun⟩ := Option.isSome_iff_exists.mp (by decide +kernel :
    ((idle acmeGateway).run Platform.plain
      [.disableAll, .enableAll, .start 0 suspension, .lock 0, .checkSwitch, .checkRest,
        .callConnector]).isSome = true)
  refine barrier_of_quietFlips hrun ?_
  rintro (- | ⟨first, earlier⟩) flip later reached hmoves hdisables hreached
  · cases hreached
    exact not_inWindow_of_holder_eq_none rfl
  · have hmem : flip ∈ ([.enableAll, .start 0 suspension, .lock 0, .checkSwitch, .checkRest,
        .callConnector] : List Move) := by
      rw [(List.cons.inj hmoves).2]
      exact List.mem_append_right _ List.mem_cons_self
    simp only [List.mem_cons, List.not_mem_nil, or_false] at hmem
    rcases hmem with rfl | rfl | rfl | rfl | rfl | rfl <;> exact hdisables.elim

/-- The switch is turned off after the call has looked at it. -/
theorem callConnector_after_disableAll :
    ((idle acmeGateway).run Platform.plain
      [.start 0 suspension, .lock 0, .checkSwitch, .disableAll, .checkRest,
        .callConnector]).isSome = true ∧
      ¬ Barrier acmeGateway.tenant
        [.start 0 suspension, .lock 0, .checkSwitch, .disableAll, .checkRest,
          .callConnector] := by
  refine ⟨by decide +kernel, fun hbarrier => ?_⟩
  have hkept := hbarrier [.start 0 suspension, .lock 0, .checkSwitch] .disableAll [.checkRest] []
    rfl trivial
  simp at hkept

/-- A flip that finds a call in the window can be followed by the call of its connector. -/
theorem exists_breach (hwindow : system.InWindow platform) {tenant : Bytes}
    (hdisables : flip.Disables tenant) :
    ∃ rest final, system.run platform (flip :: rest) = some final ∧
      ¬ Barrier tenant (flip :: rest) := by
  obtain ⟨change, hflip⟩ : ∃ change, system.step platform flip = some (system.flip change) := by
    cases flip with
    | disableAll => exact ⟨_, rfl⟩
    | disableTenant disabled => exact ⟨_, rfl⟩
    | start _ _ | lock _ | checkSwitch | checkRest | callConnector | finish _ | enableAll =>
        exact hdisables.elim
  have hbreach : ∀ between, .enableAll ∉ between →
      ¬ Barrier tenant (flip :: (between ++ [.callConnector])) :=
    fun between hkept hbarrier =>
      hkept (hbarrier [] flip between [] rfl hdisables).2
  obtain ⟨⟨caller, proposal, stage⟩, hholder, hstage⟩ := hwindow
  have hflipped : (system.flip change).holder = some ⟨caller, proposal, stage⟩ := hholder
  cases stage with
  | locked | calling connector policyVersion => exact hstage.elim
  | switchedOn =>
      obtain ⟨connector, hadmits⟩ := hstage
      have hsame : SameSetup system.gateway (system.flip change).gateway := ⟨rfl, rfl, rfl⟩
      obtain ⟨policyVersion, hclear⟩ : ∃ policyVersion, (system.flip change).gateway.clear platform
          (actionIdOf platform proposal.idempotencyKey) proposal =
            .ok (connector, policyVersion) :=
        ⟨_, clear_eq_ok.mpr ⟨hsame.admits.mpr hadmits, rfl⟩⟩
      refine ⟨[.checkRest, .callConnector], { system.flip change with
        holder := some ⟨caller, proposal, .calling connector policyVersion⟩ }, ?_,
        hbreach [.checkRest] (by simp)⟩
      rw [run_cons, hflip, Option.bind_some]
      simp only [run_cons, Option.bind_some, step, hflipped, hclear]
      rfl
  | cleared connector policyVersion =>
      refine ⟨[.callConnector], { system.flip change with
        holder := some ⟨caller, proposal, .calling connector policyVersion⟩ }, ?_,
        hbreach [] List.not_mem_nil⟩
      rw [run_cons, hflip, Option.bind_some]
      simp only [run_cons, Option.bind_some, step, hflipped]
      rfl

/-! ## Calls without interruption -/

/-- A call that has the lock and is not interrupted decides and runs. -/
theorem exists_run_decide {caller : ℕ} {proposal : Proposal} (outcome : ConnectorOutcome)
    (hholder : system.holder = some ⟨caller, proposal, .locked⟩) :
    ∃ moves, system.run platform moves = some (system.conclude platform caller proposal
        (system.gateway.decideAndRun platform (actionIdOf platform proposal.idempotencyKey)
          proposal outcome).1) ∧
      (.callConnector ∈ moves ↔
        (system.gateway.decideAndRun platform (actionIdOf platform proposal.idempotencyKey)
          proposal outcome).2.isSome = true) := by
  unfold decideAndRun
  cases hdisabled : system.gateway.disabled with
  | true =>
      rw [if_pos rfl]
      refine ⟨[.checkSwitch], ?_, by simp⟩
      rw [run_cons, step, hholder]
      simp only [hdisabled, if_true]
      rfl
  | false =>
      rw [if_neg Bool.false_ne_true]
      cases hclear : system.gateway.clear platform (actionIdOf platform proposal.idempotencyKey)
        proposal with
      | error record =>
          refine ⟨[.checkSwitch, .checkRest], ?_, by simp⟩
          rw [run_cons, step, hholder]
          simp only [hdisabled, Bool.false_eq_true, if_false, Option.bind_some, run_cons, step,
            hclear]
          rfl
      | ok cleared =>
          refine ⟨[.checkSwitch, .checkRest, .callConnector, .finish outcome], ?_, by simp⟩
          rw [run_cons, step, hholder]
          simp only [hdisabled, Bool.false_eq_true, if_false, Option.bind_some, run_cons, step,
            hclear]
          rfl

/-- A call that is not interrupted does what `execute` does. -/
theorem exists_run_execute {caller : ℕ} {proposal : Proposal} {outcome : ConnectorOutcome}
    (hfree : system.holder = none) :
    ∃ moves final, system.run platform (.start caller proposal :: moves) = some final ∧
      final.gateway = (system.gateway.execute platform proposal outcome).1 ∧
      final.returned[caller]? = some (system.gateway.execute platform proposal outcome).2.1 ∧
      (.callConnector ∈ moves ↔
        (system.gateway.execute platform proposal outcome).2.2.isSome = true) := by
  have hwaiting : (system.waiting.insert caller proposal)[caller]? = some proposal := by
    rw [OrderedMap.getElem?_insert, if_pos rfl]
  rcases execute_cases platform system.gateway proposal outcome with
    ⟨existing, hdone, hexecute⟩ | ⟨hdone, record, call, hrun, hexecute⟩
  · refine ⟨[.lock caller], { system with
      waiting := (system.waiting.insert caller proposal).erase caller
      returned := system.returned.insert caller existing }, ?_, ?_⟩
    · simp only [run_cons, step, Option.bind_some, hfree, hwaiting, hdone]
      rfl
    · rw [hexecute]
      refine ⟨rfl, ?_, by simp⟩
      rw [OrderedMap.getElem?_insert, if_pos rfl]
  · obtain ⟨locked, hlock, hlocked, hgateway⟩ : ∃ locked : System,
        system.run platform [.start caller proposal, .lock caller] = some locked ∧
          locked.holder = some ⟨caller, proposal, .locked⟩ ∧
          locked.gateway = system.gateway := by
      refine ⟨{ system with
        waiting := (system.waiting.insert caller proposal).erase caller
        holder := some ⟨caller, proposal, .locked⟩ }, ?_, rfl, rfl⟩
      simp only [run_cons, step, Option.bind_some, hfree, hwaiting, hdone]
      rfl
    obtain ⟨moves, hmoves, hcalls⟩ := exists_run_decide outcome hlocked
    rw [hgateway, hrun] at hmoves hcalls
    have hall : system.run platform ([.start caller proposal, .lock caller] ++ moves) =
        some (locked.conclude platform caller proposal record) := by
      rw [run_append, hlock]
      exact hmoves
    refine ⟨.lock caller :: moves, _, hall, ?_⟩
    rw [hexecute]
    refine ⟨?_, ?_, by simpa using hcalls⟩
    · rw [conclude, hgateway]
    · exact (OrderedMap.getElem?_insert _ _ _ _).trans (if_pos rfl)

end System

end ActionGateway

end LoomDB
