import Mathlib.Data.List.Perm.Basic
import Mathlib.Tactic.Common

/-!
# Binary heaps

A heap in a list, as the standard library keeps it: an item that is pushed sifts up, and where the
first one is popped the last one takes its place, sifts down to the bottom and then up. The heap
looks at its items through the comparison alone, so renaming them changes nothing.
-/

namespace LoomDB

namespace BinaryHeap

variable {α β : Type*}

def swap (data : List α) (first second : ℕ) : List α :=
  match data[first]?, data[second]? with
  | some item, some other => (data.set first other).set second item
  | _, _ => data

/-- Move an item up while it is greater than what is above; the fuel is its place at first. -/
def siftUp (le : α → α → Bool) : ℕ → ℕ → List α → List α
  | 0, _, data => data
  | fuel + 1, position, data =>
      if position = 0 then data
      else
        match data[position]?, data[(position - 1) / 2]? with
        | some item, some above =>
            if le item above then data
            else siftUp le fuel ((position - 1) / 2) (swap data position ((position - 1) / 2))
        | _, _ => data

def push (le : α → α → Bool) (data : List α) (item : α) : List α :=
  siftUp le data.length data.length (data ++ [item])

/-- Move an item down past the greater child until there is none; and where it is then. -/
def siftDown (le : α → α → Bool) : ℕ → ℕ → List α → ℕ × List α
  | 0, position, data => (position, data)
  | fuel + 1, position, data =>
      match data[2 * position + 1]?, data[2 * position + 2]? with
      | some left, some right =>
          let child := if le left right then 2 * position + 2 else 2 * position + 1
          siftDown le fuel child (swap data position child)
      | some _, none => (2 * position + 1, swap data position (2 * position + 1))
      | none, _ => (position, data)

def pop (le : α → α → Bool) (data : List α) : Option (α × List α) :=
  match data with
  | [] => none
  | first :: rest =>
      match rest.getLast? with
      | none => some (first, [])
      | some last =>
          let (position, data) := siftDown le rest.length 0 (last :: rest.dropLast)
          some (first, siftUp le position position data)

/-! ## The items stay -/

theorem perm_swap (data : List α) (first second : ℕ) : (swap data first second).Perm data := by
  unfold swap
  split
  next item other hitem hother =>
    obtain ⟨hfirst, rfl⟩ := List.getElem?_eq_some_iff.mp hitem
    obtain ⟨hsecond, rfl⟩ := List.getElem?_eq_some_iff.mp hother
    exact List.set_set_perm hfirst hsecond
  next => exact .refl _

theorem perm_siftUp (le : α → α → Bool) (fuel position : ℕ) (data : List α) :
    (siftUp le fuel position data).Perm data := by
  induction fuel generalizing position data with
  | zero => exact .refl _
  | succ fuel ih =>
      unfold siftUp
      split
      · exact .refl _
      · split
        · split
          · exact .refl _
          · exact (ih _ _).trans (perm_swap _ _ _)
        · exact .refl _

theorem perm_siftDown (le : α → α → Bool) (fuel position : ℕ) (data : List α) :
    (siftDown le fuel position data).2.Perm data := by
  induction fuel generalizing position data with
  | zero => exact .refl _
  | succ fuel ih =>
      unfold siftDown
      split
      · exact (ih _ _).trans (perm_swap _ _ _)
      · exact perm_swap _ _ _
      · exact .refl _

theorem perm_push (le : α → α → Bool) (data : List α) (item : α) :
    (push le data item).Perm (item :: data) :=
  (perm_siftUp le _ _ _).trans (List.perm_append_singleton item data)

theorem pop_eq_none {le : α → α → Bool} {data : List α} : pop le data = none ↔ data = [] := by
  cases data with
  | nil => simp [pop]
  | cons first rest =>
      cases hlast : rest.getLast? <;> simp [pop, hlast]

theorem perm_of_pop {le : α → α → Bool} {data rest : List α} {first : α}
    (hpop : pop le data = some (first, rest)) : data.Perm (first :: rest) := by
  cases data with
  | nil => cases hpop
  | cons head tail =>
      unfold pop at hpop
      dsimp only at hpop
      cases hlast : tail.getLast? with
      | none =>
          rw [hlast] at hpop
          obtain ⟨rfl, rfl⟩ := Prod.mk.inj (Option.some.inj hpop)
          rw [List.getLast?_eq_none_iff.mp hlast]
      | some last =>
          rw [hlast] at hpop
          obtain ⟨rfl, rfl⟩ := Prod.mk.inj (Option.some.inj hpop)
          obtain ⟨before, rfl⟩ := List.getLast?_eq_some_iff.mp hlast
          refine List.Perm.cons head (List.Perm.symm ((perm_siftUp le _ _ _).trans ?_))
          rw [List.dropLast_concat]
          exact (perm_siftDown le _ _ _).trans (List.perm_append_singleton last before).symm

/-! ## Renamed items -/

section Rename

variable {le : α → α → Bool} {le' : β → β → Bool} {rename : α → β}

theorem map_swap (data : List α) (first second : ℕ) :
    swap (data.map rename) first second = (swap data first second).map rename := by
  unfold swap
  rw [List.getElem?_map, List.getElem?_map]
  cases data[first]? with
  | none => rfl
  | some item =>
      cases data[second]? with
      | none => rfl
      | some other => simp [List.map_set]

theorem map_siftUp (hle : ∀ item other, le' (rename item) (rename other) = le item other)
    (fuel position : ℕ) (data : List α) :
    siftUp le' fuel position (data.map rename) = (siftUp le fuel position data).map rename := by
  induction fuel generalizing position data with
  | zero => rfl
  | succ fuel ih =>
      unfold siftUp
      by_cases hposition : position = 0
      · simp only [hposition, if_true]
      · simp only [hposition, if_false, List.getElem?_map]
        cases data[position]? with
        | none => rfl
        | some item =>
            cases data[(position - 1) / 2]? with
            | none => rfl
            | some above =>
                simp only [Option.map_some, hle]
                split
                · rfl
                · rw [map_swap, ih]

theorem map_push (hle : ∀ item other, le' (rename item) (rename other) = le item other)
    (data : List α) (item : α) :
    push le' (data.map rename) (rename item) = (push le data item).map rename := by
  unfold push
  rw [List.length_map, ← map_siftUp hle, List.map_append, List.map_singleton]

theorem map_siftDown (hle : ∀ item other, le' (rename item) (rename other) = le item other)
    (fuel position : ℕ) (data : List α) :
    siftDown le' fuel position (data.map rename) =
      ((siftDown le fuel position data).1, (siftDown le fuel position data).2.map rename) := by
  induction fuel generalizing position data with
  | zero => rfl
  | succ fuel ih =>
      unfold siftDown
      rw [List.getElem?_map, List.getElem?_map]
      cases data[2 * position + 1]? with
      | none => rfl
      | some left =>
          cases data[2 * position + 2]? with
          | none => simp only [Option.map_some, Option.map_none, map_swap]
          | some right => simp only [Option.map_some, hle, map_swap, ih]

theorem map_pop (hle : ∀ item other, le' (rename item) (rename other) = le item other)
    (data : List α) :
    pop le' (data.map rename) =
      (pop le data).map fun popped => (rename popped.1, popped.2.map rename) := by
  cases data with
  | nil => rfl
  | cons first rest =>
      simp only [pop, List.map_cons, List.getLast?_map]
      cases rest.getLast? with
      | none => rfl
      | some last =>
          have hdown := map_siftDown hle rest.length 0 (last :: rest.dropLast)
          rw [List.map_cons, List.map_dropLast] at hdown
          simp only [Option.map_some, List.length_map, hdown, map_siftUp hle]

end Rename

end BinaryHeap

end LoomDB
