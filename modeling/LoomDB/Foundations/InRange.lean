import Mathlib.Control.Monad.Basic
import Mathlib.Data.Nat.Notation

/-!
# Computations that look places up

A computation that looks up places of lists stops at a place that is none, and one that counts its
rounds stops when there is none left. If it is to give an answer, then unless it gives the answer it
stops for want of rounds only: every place that it looks up is there.
-/

namespace LoomDB

namespace InRange

variable {α β γ : Type}

/-- Why a computation stops before it is done. -/
inductive Stop where
  | outOfRange
  | unfinished
  deriving DecidableEq

/-- What is at a place. -/
def item (items : List α) (place : ℕ) : Except Stop α :=
  match items[place]? with
  | some found => .ok found
  | none => .error .outOfRange

theorem item_eq {items : List α} {place : ℕ} {found : α} (hfound : items[place]? = some found) :
    item items place = .ok found := by
  rw [item, hfound]

/-- A computation gives an answer, or none for want of rounds. -/
def Gives (run : Except Stop α) (answer : Option α) : Prop :=
  run = answer.elim (.error .unfinished) .ok

namespace Gives

variable {run : Except Stop α} {answer : Option α}

theorem ok (value : α) : Gives (.ok value) (some value) :=
  rfl

theorem ne_outOfRange (hgives : Gives run answer) : run ≠ .error .outOfRange := by
  rw [hgives]
  cases answer with
  | none => exact nofun
  | some value => exact nofun

theorem bind (hgives : Gives run answer) {next : α → Except Stop β} {answers : α → Option β}
    (hnext : ∀ value, answer = some value → Gives (next value) (answers value)) :
    Gives (run >>= next) (answer.bind answers) := by
  cases answer with
  | none =>
      rw [Gives] at hgives
      rw [hgives]
      rfl
  | some value =>
      rw [Gives] at hgives
      rw [hgives]
      exact hnext value rfl

theorem bind_ok {value : α} (hrun : run = .ok value) {next : α → Except Stop β} {answer : Option β}
    (hnext : Gives (next value) answer) : Gives (run >>= next) answer := by
  rw [hrun]
  exact hnext

end Gives

/-- A fold whose steps all succeed. -/
theorem foldlM_eq_ok {step : β → α → Except Stop β} {next : β → α → β} (inv : β → Prop)
    {items : List α}
    (hstep : ∀ state, inv state → ∀ item ∈ items,
      step state item = .ok (next state item) ∧ inv (next state item))
    {start : β} (hstart : inv start) :
    items.foldlM step start = .ok (items.foldl next start) ∧ inv (items.foldl next start) := by
  induction items generalizing start with
  | nil => exact ⟨rfl, hstart⟩
  | cons item items ih =>
      obtain ⟨hfirst, hinv⟩ := hstep start hstart item List.mem_cons_self
      rw [List.foldlM_cons, hfirst]
      exact ih (fun state hstate other hother =>
        hstep state hstate other (List.mem_cons_of_mem item hother)) hinv

theorem mapM_eq_ok_map {step : α → Except Stop β} {next : α → β} {items : List α}
    (hstep : ∀ item ∈ items, step item = .ok (next item)) :
    items.mapM step = .ok (items.map next) := by
  induction items with
  | nil => rfl
  | cons item items ih =>
      obtain ⟨hfirst, hrest⟩ := List.forall_mem_cons.mp hstep
      rw [List.mapM_cons, hfirst, ih hrest]
      rfl

/-- Something that is found among others, where every test succeeds. -/
theorem anyM_eq_ok {test : α → Except Stop Bool} {answers : α → Bool} {items : List α}
    (htest : ∀ item ∈ items, test item = .ok (answers item)) :
    items.anyM test = .ok (items.any answers) := by
  induction items with
  | nil => rfl
  | cons item items ih =>
      obtain ⟨hfirst, hrest⟩ := List.forall_mem_cons.mp htest
      rw [List.anyM, hfirst, List.any_cons]
      cases answers item with
      | false => exact ih hrest
      | true => rfl

end InRange

end LoomDB
