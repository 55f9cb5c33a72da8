import Mathlib.Data.List.Pairwise
import Mathlib.Data.List.Perm.Basic

/-!
# Sorting by a comparison

A comparison that sorting can rely on is antisymmetric and transitive, if only on the items to be
sorted. Insertion then puts them in order; and where no two of them compare equal there is one such
order.
-/

namespace LoomDB

namespace Comparison

variable {α : Type*} (compare : α → α → Ordering)

/-- The comparison is a total order on these items. -/
structure ConsistentOn (items : List α) : Prop where
  swap : ∀ first ∈ items, ∀ second ∈ items,
    compare second first = (compare first second).swap
  trans : ∀ first ∈ items, ∀ second ∈ items, ∀ third ∈ items,
    (compare first second).isLE = true → (compare second third).isLE = true →
      (compare first third).isLE = true

/-- Put an item into sorted items, from the last one on; the last one comes first. -/
def insertTail (item : α) : List α → List α
  | [] => [item]
  | last :: earlier =>
      if compare item last = .lt then last :: insertTail item earlier
      else item :: last :: earlier

/-- Sort by insertion, one item after another. -/
def insertionSort (items : List α) : List α :=
  (items.foldl (fun sorted item => insertTail compare item sorted) []).reverse

theorem perm_insertTail (item : α) (sorted : List α) :
    (insertTail compare item sorted).Perm (item :: sorted) := by
  induction sorted with
  | nil => exact .refl _
  | cons last earlier ih =>
      unfold insertTail
      split
      · exact (ih.cons last).trans (.swap item last earlier)
      · exact .refl _

theorem perm_foldl_insertTail (items sorted : List α) :
    (items.foldl (fun sorted item => insertTail compare item sorted) sorted).Perm
      (items ++ sorted) := by
  induction items generalizing sorted with
  | nil => exact .refl _
  | cons item items ih =>
      have hinsert := (perm_insertTail compare item sorted).append_left items
      exact (ih _).trans (hinsert.trans List.perm_middle)

theorem perm_insertionSort (items : List α) : (insertionSort compare items).Perm items := by
  have hfold := perm_foldl_insertTail compare items []
  rw [List.append_nil] at hfold
  exact (List.reverse_perm _).trans hfold

variable {compare}

/-- Items under other names are sorted in the same way. -/
theorem map_insertionSort {β : Type*} {compare' : β → β → Ordering} {rename : α → β}
    (hcompare : ∀ first second, compare' (rename first) (rename second) = compare first second)
    (items : List α) :
    insertionSort compare' (items.map rename) = (insertionSort compare items).map rename := by
  have hinsert : ∀ (item : α) (sorted : List α),
      insertTail compare' (rename item) (sorted.map rename) =
        (insertTail compare item sorted).map rename := by
    intro item sorted
    induction sorted with
    | nil => rfl
    | cons last earlier ih =>
        simp only [insertTail, List.map_cons, hcompare]
        split
        · rw [ih, List.map_cons]
        · rfl
  have hfold : ∀ (items sorted : List α),
      (items.map rename).foldl (fun sorted item => insertTail compare' item sorted)
          (sorted.map rename) =
        (items.foldl (fun sorted item => insertTail compare item sorted) sorted).map rename := by
    intro items
    induction items with
    | nil => exact fun sorted => rfl
    | cons item items ih =>
        intro sorted
        rw [List.map_cons, List.foldl_cons, hinsert, ih, List.foldl_cons]
  unfold insertionSort
  rw [List.map_reverse, ← hfold items []]
  rfl

namespace ConsistentOn

variable {items : List α}

theorem mono (hconsistent : ConsistentOn compare items) {fewer : List α} (hfewer : fewer ⊆ items) :
    ConsistentOn compare fewer :=
  ⟨fun first hfirst second hsecond =>
      hconsistent.swap first (hfewer hfirst) second (hfewer hsecond),
    fun first hfirst second hsecond third hthird =>
      hconsistent.trans first (hfewer hfirst) second (hfewer hsecond) third (hfewer hthird)⟩

/-- Inserting keeps the order, which is the reverse of that of the comparison. -/
theorem pairwise_insertTail {item : α} {sorted : List α}
    (hconsistent : ConsistentOn compare (item :: sorted))
    (hsorted : sorted.Pairwise fun later earlier => (compare earlier later).isLE = true) :
    (insertTail compare item sorted).Pairwise
      fun later earlier => (compare earlier later).isLE = true := by
  induction sorted with
  | nil => exact List.pairwise_singleton _ _
  | cons last earlier ih =>
      obtain ⟨hlast, hearlier⟩ := List.pairwise_cons.mp hsorted
      unfold insertTail
      split
      next hlt =>
        have hrest := ih (hconsistent.mono (List.cons_subset_cons item (List.subset_cons_self _ _)))
          hearlier
        refine List.pairwise_cons.mpr ⟨fun other hother => ?_, hrest⟩
        rcases List.mem_cons.mp ((perm_insertTail compare item earlier).mem_iff.mp hother) with rfl | hother
        · rw [hlt]
          rfl
        · exact hlast other hother
      next hnot =>
        have hle : (compare last item).isLE = true := by
          rw [hconsistent.swap item List.mem_cons_self last
            (List.mem_cons_of_mem _ List.mem_cons_self)]
          cases hcompare : compare item last with
          | lt => exact absurd hcompare hnot
          | eq => rfl
          | gt => rfl
        refine List.pairwise_cons.mpr ⟨fun other hother => ?_, hsorted⟩
        rcases List.mem_cons.mp hother with rfl | hearlier
        · exact hle
        · exact hconsistent.trans other (List.mem_cons_of_mem _ hother) last
            (List.mem_cons_of_mem _ List.mem_cons_self) item List.mem_cons_self
            (hlast other hearlier) hle

theorem pairwise_insertionSort (hconsistent : ConsistentOn compare items) :
    (insertionSort compare items).Pairwise fun earlier later =>
      (compare earlier later).isLE = true := by
  have hfold : ∀ (more sorted : List α), ConsistentOn compare (more ++ sorted) →
      (sorted.Pairwise fun later earlier => (compare earlier later).isLE = true) →
      (more.foldl (fun sorted item => insertTail compare item sorted) sorted).Pairwise
        fun later earlier => (compare earlier later).isLE = true := by
    intro more
    induction more with
    | nil => exact fun _ _ hsorted => hsorted
    | cons item more ih =>
        intro sorted hall hsorted
        refine ih _ (hall.mono fun other hother => ?_) (pairwise_insertTail (hall.mono ?_) hsorted)
        · rcases List.mem_append.mp hother with hother | hother
          · exact List.mem_append_left _ (List.mem_cons_of_mem _ hother)
          · rcases List.mem_cons.mp ((perm_insertTail compare item sorted).mem_iff.mp hother) with
              rfl | hother
            · exact List.mem_append_left _ List.mem_cons_self
            · exact List.mem_append_right _ hother
        · exact List.cons_subset.mpr
            ⟨List.mem_append_left _ List.mem_cons_self, List.subset_append_right _ _⟩
  unfold insertionSort
  rw [List.pairwise_reverse]
  exact hfold items [] (by rwa [List.append_nil]) List.Pairwise.nil

/-- There is one order of items that compare equal only if they are equal. -/
theorem eq_of_perm (hconsistent : ConsistentOn compare items) {first second : List α}
    (hfirst : first.Perm items) (hsecond : second.Perm items)
    (hequal : ∀ one ∈ items, ∀ other ∈ items, compare one other = .eq → one = other)
    (hfirstSorted : first.Pairwise fun earlier later => (compare earlier later).isLE = true)
    (hsecondSorted : second.Pairwise fun earlier later => (compare earlier later).isLE = true) :
    first = second := by
  refine List.Perm.eq_of_pairwise (fun one other hone hother hle hge => ?_) hfirstSorted
    hsecondSorted (hfirst.trans hsecond.symm)
  have hone := hfirst.mem_iff.mp hone
  have hother := hsecond.mem_iff.mp hother
  rw [hconsistent.swap one hone other hother] at hge
  refine hequal one hone other hother ?_
  cases hcompare : compare one other with
  | lt =>
      rw [hcompare] at hge
      cases hge
  | eq => rfl
  | gt =>
      rw [hcompare] at hle
      cases hle

end ConsistentOn

end Comparison

end LoomDB
