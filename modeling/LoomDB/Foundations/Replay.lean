import Mathlib.Data.List.Basic

/-!
# Replaying edits

A state is the fold of its edits. A reading of the state is *erased* by an edit
after which it no longer depends on what was there before: replaying a list of
edits that contains such an edit gives the same reading from every state.
-/

namespace LoomDB

namespace Replay

variable {State Edit Value : Type} {apply : State → Edit → State}
  {read : State → Value} {erases : Edit → Prop}

/-- Two states read alike after the edits if they did before, or if one of the
edits erases the reading. -/
theorem foldl_congr
    (hstep : ∀ edit left right, erases edit ∨ read left = read right →
      read (apply left edit) = read (apply right edit))
    (edits : List Edit) {left right : State}
    (hread : (∃ edit ∈ edits, erases edit) ∨ read left = read right) :
    read (edits.foldl apply left) = read (edits.foldl apply right) := by
  induction edits generalizing left right with
  | nil =>
      rcases hread with ⟨_, hedit, _⟩ | hread
      · cases hedit
      · exact hread
  | cons edit edits ih =>
      apply ih
      rcases hread with ⟨other, hother, herases⟩ | hread
      · rcases List.mem_cons.mp hother with rfl | hother
        · exact Or.inr (hstep other left right (Or.inl herases))
        · exact Or.inl ⟨other, hother, herases⟩
      · exact Or.inr (hstep edit left right (Or.inr hread))

/-- A property that every edit keeps is kept by a replay. -/
theorem foldl_keeps {Keeps : State → Prop} (edits : List Edit) {state : State}
    (hstep : ∀ edit ∈ edits, ∀ state, Keeps state → Keeps (apply state edit))
    (hstate : Keeps state) : Keeps (edits.foldl apply state) := by
  induction edits generalizing state with
  | nil => exact hstate
  | cons edit edits ih =>
      apply ih
      · exact fun other hother => hstep other (List.mem_cons_of_mem _ hother)
      · exact hstep edit List.mem_cons_self state hstate

/-- A reading that no edit changes is the same after a replay. -/
theorem foldl_unread (read : State → Value) (edits : List Edit) (state : State)
    (hstep : ∀ edit ∈ edits, ∀ state, read (apply state edit) = read state) :
    read (edits.foldl apply state) = read state := by
  induction edits generalizing state with
  | nil => rfl
  | cons edit edits ih =>
      rw [List.foldl_cons, ih _ fun other hother => hstep other (List.mem_cons_of_mem _ hother)]
      exact hstep edit List.mem_cons_self state

end Replay

end LoomDB
