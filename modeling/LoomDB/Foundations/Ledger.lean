import Mathlib.Data.List.Basic

/-!
# Ledgers of answers

A machine that takes events one at a time and replies to some of them, and what
follows when it keeps the answer it gave under each identifier: an identifier is
acted on once, and every later reply under it repeats the first answer.
-/

namespace LoomDB

structure Machine (State Event Reply : Type) where
  step : State → Event → State × Option Reply

namespace Machine

variable {State Event Reply : Type} (machine : Machine State Event Reply)

def after (state : State) (events : List Event) : State :=
  events.foldl (fun state event => (machine.step state event).1) state

/-- The replies of a run, in order. -/
def replies : State → List Event → List Reply
  | _, [] => []
  | state, event :: events =>
      (machine.step state event).2.toList ++ replies (machine.step state event).1 events

/-- A reply of a run is the reply of one of its steps. -/
theorem exists_step_of_mem_replies {reply : Reply} {events : List Event} {state : State}
    (hmem : reply ∈ machine.replies state events) :
    ∃ earlier event later, events = earlier ++ event :: later ∧
      (machine.step (machine.after state earlier) event).2 = some reply := by
  induction events generalizing state with
  | nil => cases hmem
  | cons event events ih =>
      rcases List.mem_append.mp hmem with hhere | hlater
      · exact ⟨[], event, events, rfl, Option.mem_toList.mp hhere⟩
      · obtain ⟨earlier, event', later, rfl, hreply⟩ := ih hlater
        exact ⟨event :: earlier, event', later, rfl, hreply⟩

/-- What every step keeps holds after a run. -/
theorem after_keeps (Keeps : State → Prop)
    (hstep : ∀ state event, Keeps state → Keeps (machine.step state event).1)
    {events : List Event} {state : State} (hstate : Keeps state) :
    Keeps (machine.after state events) := by
  induction events generalizing state with
  | nil => exact hstate
  | cons event events ih => exact ih (hstep state event hstate)

end Machine

/-- A machine that keeps its answers by identifier, and acts only under an identifier
without one. -/
structure Ledger {State Event Reply : Type} (machine : Machine State Event Reply)
    (Ident Answer : Type) where
  ident : Reply → Ident
  answer : Reply → Answer
  acts : Reply → Bool
  decided : State → Ident → Option Answer
  keeps : ∀ {state event id given}, decided state id = some given →
    decided (machine.step state event).1 id = some given
  answers : ∀ {state event reply}, (machine.step state event).2 = some reply →
    decided (machine.step state event).1 (ident reply) = some (answer reply)
  undecided : ∀ {state event reply}, (machine.step state event).2 = some reply →
    acts reply = true → decided state (ident reply) = none

namespace Ledger

variable {State Event Reply Ident Answer : Type} {machine : Machine State Event Reply}
variable (ledger : Ledger machine Ident Answer)

/-- The later reply repeats the first answer and does nothing. -/
def Repeats (first later : Reply) : Prop :=
  ledger.ident first = ledger.ident later →
    ledger.answer later = ledger.answer first ∧ ledger.acts later = false

/-- Under a decided identifier a step repeats the answer. -/
theorem repeats_step {state : State} {event : Event} {reply : Reply} {given : Answer}
    (hdecided : ledger.decided state (ledger.ident reply) = some given)
    (hreply : (machine.step state event).2 = some reply) :
    ledger.answer reply = given ∧ ledger.acts reply = false := by
  constructor
  · have hkept : ledger.decided (machine.step state event).1 (ledger.ident reply) = some given :=
      ledger.keeps hdecided
    rw [ledger.answers hreply] at hkept
    exact Option.some.inj hkept
  · refine Bool.eq_false_iff.mpr fun hacts => ?_
    rw [ledger.undecided hreply hacts] at hdecided
    cases hdecided

/-- Under a decided identifier a run repeats the answer. -/
theorem repeats_run {events : List Event} {state : State} {reply : Reply} {given : Answer}
    (hdecided : ledger.decided state (ledger.ident reply) = some given)
    (hmem : reply ∈ machine.replies state events) :
    ledger.answer reply = given ∧ ledger.acts reply = false := by
  induction events generalizing state with
  | nil => cases hmem
  | cons event events ih =>
      rcases List.mem_append.mp hmem with hhere | hlater
      · exact ledger.repeats_step hdecided (Option.mem_toList.mp hhere)
      · exact ih (ledger.keeps hdecided) hlater

/-- What a run replied, it has decided. -/
theorem decided_after {events : List Event} {state : State} {reply : Reply}
    (hmem : reply ∈ machine.replies state events) :
    ledger.decided (machine.after state events) (ledger.ident reply) =
      some (ledger.answer reply) := by
  obtain ⟨earlier, event, later, rfl, hreply⟩ := machine.exists_step_of_mem_replies hmem
  rw [Machine.after, List.foldl_append, List.foldl_cons]
  exact machine.after_keeps
    (fun state => ledger.decided state (ledger.ident reply) = some (ledger.answer reply))
    (fun _ _ hdecided => ledger.keeps hdecided) (ledger.answers hreply)

theorem pairwise_repeats (state : State) (events : List Event) :
    (machine.replies state events).Pairwise ledger.Repeats := by
  induction events generalizing state with
  | nil => exact List.Pairwise.nil
  | cons event events ih =>
      rw [Machine.replies]
      cases hreply : (machine.step state event).2 with
      | none => exact ih _
      | some reply =>
          refine List.pairwise_cons.mpr ⟨fun later hlater hsame => ?_, ih _⟩
          have hdecided := ledger.answers hreply
          rw [hsame] at hdecided
          exact ledger.repeats_run hdecided hlater

/-- At most one reply under an identifier acts. -/
theorem length_acting_le [DecidableEq Ident] (state : State) (events : List Event) (id : Ident) :
    ((machine.replies state events).filter fun reply =>
      ledger.ident reply = id ∧ ledger.acts reply = true).length ≤ 1 := by
  have hrepeats := (ledger.pairwise_repeats state events).filter fun reply =>
    decide (ledger.ident reply = id ∧ ledger.acts reply = true)
  generalize hacting : (machine.replies state events).filter (fun reply =>
    decide (ledger.ident reply = id ∧ ledger.acts reply = true)) = acting at hrepeats ⊢
  have hall : ∀ reply ∈ acting, ledger.ident reply = id ∧ ledger.acts reply = true := by
    intro reply hreply
    rw [← hacting] at hreply
    exact of_decide_eq_true (List.mem_filter.mp hreply).2
  match acting, hrepeats with
  | [], _ => exact Nat.zero_le 1
  | [_], _ => exact Nat.le_refl 1
  | first :: second :: rest, hrepeats =>
      have hfirst := hall first List.mem_cons_self
      have hsecond := hall second (List.mem_cons_of_mem _ List.mem_cons_self)
      have hagain := (List.pairwise_cons.mp hrepeats).1 second List.mem_cons_self
      have hidle := (hagain (hfirst.1.trans hsecond.1.symm)).2
      exact absurd hsecond.2 (Bool.eq_false_iff.mp hidle)

end Ledger

end LoomDB
