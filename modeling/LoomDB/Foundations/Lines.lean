import Mathlib.Data.List.Basic
import Mathlib.Data.List.TakeWhile

/-!
# Splitting at a separator

A sequence in which every segment but the last ends with a separator. The last segment counts only
if there is something in it.
-/

namespace LoomDB

namespace Segments

variable {α : Type*} [DecidableEq α] (separator : α)

def pieces : List α → List (List α)
  | [] => []
  | item :: items =>
      if item = separator then [] :: pieces items
      else
        match pieces items with
        | [] => [[item]]
        | segment :: later => (item :: segment) :: later

/-- What comes before the first separator. -/
def first (items : List α) : List α :=
  items.takeWhile fun item => item ≠ separator

/-- What comes after the first separator. -/
def rest (items : List α) : List α :=
  (items.dropWhile fun item => item ≠ separator).drop 1

variable {separator}

@[simp]
theorem first_nil : first separator [] = [] := rfl

@[simp]
theorem rest_nil : rest separator [] = [] := rfl

theorem pieces_eq_cons {items : List α} (hitems : items ≠ []) :
    pieces separator items = first separator items :: pieces separator (rest separator items) := by
  induction items with
  | nil => exact absurd rfl hitems
  | cons item items ih =>
      by_cases hseparator : item = separator
      · subst hseparator
        simp [pieces, first, rest]
      · have hfirst : first separator (item :: items) = item :: first separator items :=
          List.takeWhile_cons_of_pos (by simpa using hseparator)
        have hrest : rest separator (item :: items) = rest separator items := by
          unfold rest
          rw [List.dropWhile_cons_of_pos (by simpa using hseparator)]
        rw [pieces, if_neg hseparator, hfirst, hrest]
        cases items with
        | nil => rfl
        | cons next items => rw [ih (List.cons_ne_nil _ _)]

section Pieces

variable {piece more : List α}

theorem first_append_of_notMem (hpiece : separator ∉ piece) :
    first separator (piece ++ more) = piece ++ first separator more := by
  refine List.takeWhile_append_of_pos fun item hitem => ?_
  simpa using ne_of_mem_of_not_mem hitem hpiece

theorem rest_append_of_notMem (hpiece : separator ∉ piece) :
    rest separator (piece ++ more) = rest separator more := by
  unfold rest
  rw [List.dropWhile_append_of_pos fun item hitem => ?_]
  simpa using ne_of_mem_of_not_mem hitem hpiece

theorem first_append_separator (hpiece : separator ∉ piece) :
    first separator (piece ++ separator :: more) = piece := by
  rw [first_append_of_notMem hpiece]
  simp [first]

theorem rest_append_separator (hpiece : separator ∉ piece) :
    rest separator (piece ++ separator :: more) = more := by
  rw [rest_append_of_notMem hpiece]
  simp [rest]

/-- A search for the separator cuts the piece at it. -/
theorem cut_of_idxOf? {index : ℕ} (hindex : piece.idxOf? separator = some index) :
    piece = piece.take index ++ separator :: piece.drop (index + 1) ∧
      separator ∉ piece.take index := by
  obtain ⟨hlt, hitem, hbefore⟩ := List.findIdx?_eq_some_iff_getElem.mp hindex
  have hat : piece[index] = separator := by simpa using hitem
  refine ⟨?_, fun hmem => ?_⟩
  · conv_lhs => rw [← List.take_append_drop index piece]
    rw [List.drop_eq_getElem_cons hlt, hat]
  · obtain ⟨before, hmem, hget⟩ := List.mem_take_iff_getElem.mp hmem
    exact absurd hget (by simpa using hbefore before (lt_of_lt_of_le hmem (min_le_left _ _)))

end Pieces

end Segments

end LoomDB
