import Mathlib.Algebra.Order.Ring.Defs
import Mathlib.Tactic.Linarith
import Mathlib.Tactic.Ring

/-!
# Credit that accrues at a rate

A meter answers calls yes or no, and a yes costs a unit of a credit that grows with time at a rate
and is never more than a cap. How many calls it answers with yes in a window is then bounded by the
cap and what accrues in the window, wherever the window starts.
-/

namespace LoomDB

namespace RateWindow

variable {K σ : Type*} [CommRing K] [LinearOrder K]

/-- Calls at some instants, each with its answer. -/
def calls (step : K → σ → Bool × σ) : σ → List K → List (K × Bool)
  | _, [] => []
  | state, now :: later => (now, (step now state).1) :: calls step (step now state).2 later

/-- The state the calls leave. -/
def run (step : K → σ → Bool × σ) (state : σ) (instants : List K) : σ :=
  instants.foldl (fun state now => (step now state).2) state

/-- How many calls between two instants were answered yes. -/
def admitted (start finish : K) (calls : List (K × Bool)) : ℕ :=
  calls.countP fun call => call.2 && (start ≤ call.1 && call.1 ≤ finish)

/-- What one call does to the credit, in the states that hold. -/
structure Metered (step : K → σ → Bool × σ) (rate cap : K) (credit clock : σ → K)
    (holds : σ → Prop) : Prop where
  rate_nonneg : 0 ≤ rate
  keeps : ∀ now state, holds state → holds (step now state).2
  nonneg : ∀ state, holds state → 0 ≤ credit state
  clock_eq : ∀ now state, clock (step now state).2 = now
  accrues : ∀ now state, holds state → clock state ≤ now →
    credit (step now state).2 + (if (step now state).1 then 1 else 0) ≤
      credit state + rate * (now - clock state)
  capped : ∀ now state, holds state →
    credit (step now state).2 + (if (step now state).1 then 1 else 0) ≤ cap

variable {step : K → σ → Bool × σ} {start finish : K}

omit [CommRing K] in
theorem admitted_cons (now : K) (answer : Bool) (later : List (K × Bool)) :
    admitted start finish ((now, answer) :: later) =
      admitted start finish later +
        if answer && (start ≤ now && now ≤ finish) then 1 else 0 := by
  rw [admitted, List.countP_cons]
  rfl

omit [CommRing K] in
theorem admitted_of_late {state : σ} {instants : List K}
    (hlate : ∀ now ∈ instants, finish < now) :
    admitted start finish (calls step state instants) = 0 := by
  induction instants generalizing state with
  | nil => rfl
  | cons now later ih =>
      have hnow : ¬now ≤ finish := not_le.mpr (hlate now List.mem_cons_self)
      have hlater := @ih (step now state).2 fun instant hinstant =>
        hlate instant (List.mem_cons_of_mem _ hinstant)
      simp [calls, admitted_cons, hlater, hnow]

variable [IsStrictOrderedRing K] {rate cap : K} {credit clock : σ → K}
  {holds : σ → Prop}

omit [IsStrictOrderedRing K] in
theorem Metered.run_holds (hmeter : Metered step rate cap credit clock holds) {state : σ}
    (hholds : holds state) (instants : List K) : holds (run step state instants) := by
  induction instants generalizing state with
  | nil => exact hholds
  | cons now later ih => exact ih (hmeter.keeps now state hholds)

/-- Every yes from here on is paid by the credit that is there and what accrues. -/
theorem Metered.admitted_le_credit (hmeter : Metered step rate cap credit clock holds) (start : K)
    {state : σ} {instants : List K} (hsorted : (clock state :: instants).Pairwise (· ≤ ·))
    (hholds : holds state) (hfinish : clock state ≤ finish) :
    (admitted start finish (calls step state instants) : K) ≤
      credit state + rate * (finish - clock state) := by
  induction instants generalizing state with
  | nil =>
      have haccrued : 0 ≤ rate * (finish - clock state) :=
        mul_nonneg hmeter.rate_nonneg (sub_nonneg.mpr hfinish)
      simpa [calls, admitted] using add_nonneg (hmeter.nonneg state hholds) haccrued
  | cons now later ih =>
      obtain ⟨hafter, hlater⟩ := List.pairwise_cons.mp hsorted
      rcases lt_or_ge finish now with hpast | hnow
      · have hnone : ∀ instant ∈ now :: later, finish < instant := by
          intro instant hinstant
          rcases List.mem_cons.mp hinstant with rfl | hinstant
          · exact hpast
          · exact lt_of_lt_of_le hpast ((List.pairwise_cons.mp hlater).1 instant hinstant)
        have haccrued : 0 ≤ rate * (finish - clock state) :=
          mul_nonneg hmeter.rate_nonneg (sub_nonneg.mpr hfinish)
        rw [admitted_of_late hnone, Nat.cast_zero]
        exact add_nonneg (hmeter.nonneg state hholds) haccrued
      · have hclock := hmeter.clock_eq now state
        have hpays := hmeter.accrues now state hholds (hafter now List.mem_cons_self)
        have hrest := @ih (step now state).2 (by rwa [hclock])
          (hmeter.keeps now state hholds) (by rwa [hclock])
        rw [hclock] at hrest
        have hone : ((if (step now state).1 && (start ≤ now && now ≤ finish) then 1 else 0 : ℕ) : K) ≤
            if (step now state).1 then 1 else 0 := by
          cases (step now state).1
          · simp
          · simp only [Bool.true_and, if_true]
            split <;> simp
        rw [calls, admitted_cons, Nat.cast_add]
        calc (admitted start finish (calls step (step now state).2 later) : K) +
              ((if (step now state).1 && (start ≤ now && now ≤ finish) then 1 else 0 : ℕ) : K)
            ≤ credit (step now state).2 + rate * (finish - now) +
                (if (step now state).1 then 1 else 0) := add_le_add hrest hone
          _ = (credit (step now state).2 + if (step now state).1 then 1 else 0) +
                rate * (finish - now) := by ring
          _ ≤ credit state + rate * (now - clock state) + rate * (finish - now) := by linarith
          _ = credit state + rate * (finish - clock state) := by ring

/-- In a window of some length no more is admitted than the cap and what accrues in the window. -/
theorem Metered.admitted_le (hmeter : Metered step rate cap credit clock holds) {state : σ}
    {instants : List K} (hsorted : (clock state :: instants).Pairwise (· ≤ ·))
    (hholds : holds state) (hcap : 0 ≤ cap) {length : K} (hlength : 0 ≤ length) :
    (admitted start (start + length) (calls step state instants) : K) ≤ cap + rate * length := by
  induction instants generalizing state with
  | nil => simpa [calls, admitted] using add_nonneg hcap (mul_nonneg hmeter.rate_nonneg hlength)
  | cons now later ih =>
      obtain ⟨hafter, hlater⟩ := List.pairwise_cons.mp hsorted
      have hclock := hmeter.clock_eq now state
      have hnext := hmeter.keeps now state hholds
      have hsorted' : (clock (step now state).2 :: later).Pairwise (· ≤ ·) := by rwa [hclock]
      rcases lt_or_ge now start with hbefore | hstarted
      · have hrest := ih hsorted' hnext
        have hnot : ¬start ≤ now := not_le.mpr hbefore
        rw [calls, admitted_cons]
        simpa [hnot] using hrest
      rcases lt_or_ge (start + length) now with hpast | hnow
      · have hnone : ∀ instant ∈ now :: later, start + length < instant := by
          intro instant hinstant
          rcases List.mem_cons.mp hinstant with rfl | hinstant
          · exact hpast
          · exact lt_of_lt_of_le hpast ((List.pairwise_cons.mp hlater).1 instant hinstant)
        rw [admitted_of_late hnone, Nat.cast_zero]
        exact add_nonneg hcap (mul_nonneg hmeter.rate_nonneg hlength)
      · -- the first call of the window finds no more credit than the cap
        have hrest := hmeter.admitted_le_credit start hsorted' hnext (hclock.trans_le hnow)
        have hcapped := hmeter.capped now state hholds
        have hsooner : rate * (start + length - now) ≤ rate * length :=
          mul_le_mul_of_nonneg_left (by linarith) hmeter.rate_nonneg
        rw [hclock] at hrest
        rw [calls, admitted_cons, Nat.cast_add]
        simp only [hstarted, hnow, decide_true, Bool.and_true]
        have hcast : ((if (step now state).1 then 1 else 0 : ℕ) : K) =
            if (step now state).1 then 1 else 0 := by
          split <;> simp
        rw [hcast]
        linarith

end RateWindow

end LoomDB
