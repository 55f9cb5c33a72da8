import Mathlib.Data.List.Destutter
import Mathlib.Data.List.Sort

/-!
# Sorting, then removing repeats

A removal of repeats only compares neighbours. After a stable sort by one part of the items
it leaves every item once exactly when, among the items with one such part, equal ones were
together from the start.
-/

namespace LoomDB

namespace Deduplication

variable {α β γ : Type}

/-! ## Neighbours -/

section Neighbours

variable {items : List α} {first item : α}

/-- Between equal items there are only more of them. -/
def Together (items : List α) : Prop :=
  ∀ item other, [item, other, item].Sublist items → other = item

theorem together_cons_cons_self : Together (first :: first :: items) ↔ Together (first :: items) := by
  constructor
  · exact fun htogether item other hsublist => htogether item other (hsublist.cons first)
  · intro htogether item other hsublist
    cases hsublist with
    | cons _ hrest => exact htogether item other hrest
    | cons_cons _ hrest =>
        by_contra hdiffers
        cases hrest with
        | cons _ hrest => exact hdiffers (htogether first other (hrest.cons_cons first))
        | cons_cons _ hrest => exact hdiffers rfl

theorem together_cons_cons_ne {next : α} (hdiffers : first ≠ next) :
    Together (first :: next :: items) ↔ first ∉ next :: items ∧ Together (next :: items) := by
  constructor
  · refine fun htogether => ⟨fun hmem => ?_, fun item other hsublist =>
      htogether item other (hsublist.cons first)⟩
    have hlater := (List.mem_cons.mp hmem).resolve_left hdiffers
    exact hdiffers.symm (htogether first next
      (((List.singleton_sublist.mpr hlater).cons_cons next).cons_cons first))
  · rintro ⟨hnot, htogether⟩ item other hsublist
    cases hsublist with
    | cons _ hrest => exact htogether item other hrest
    | cons_cons _ hrest => exact absurd (hrest.subset (by simp)) hnot

variable [DecidableEq α]

theorem mem_destutter'_ne : item ∈ items.destutter' (· ≠ ·) first ↔ item = first ∨ item ∈ items := by
  induction items generalizing first with
  | nil => simp
  | cons next items ih =>
      rw [List.destutter'_cons]
      split
      · rw [List.mem_cons, ih, List.mem_cons]
      · next hsame =>
        obtain rfl := not_not.mp hsame
        rw [ih, List.mem_cons, or_self_left]

/-- Nothing is lost. -/
theorem mem_destutter_ne : item ∈ items.destutter (· ≠ ·) ↔ item ∈ items := by
  cases items with
  | nil => simp
  | cons first items => rw [List.destutter_cons', mem_destutter'_ne, List.mem_cons]

theorem nodup_destutter'_iff : (items.destutter' (· ≠ ·) first).Nodup ↔ Together (first :: items) := by
  induction items generalizing first with
  | nil =>
      refine iff_of_true (List.nodup_singleton first) fun item other hsublist => ?_
      exact absurd hsublist.length_le (by simp)
  | cons next items ih =>
      rw [List.destutter'_cons]
      split
      · next hdiffers =>
        rw [List.nodup_cons, ih, mem_destutter'_ne, together_cons_cons_ne hdiffers, List.mem_cons]
      · next hsame =>
        obtain rfl := not_not.mp hsame
        rw [ih, together_cons_cons_self]

/-- A removal of repeats leaves each item once if equal items are together. -/
theorem nodup_destutter_iff : (items.destutter (· ≠ ·)).Nodup ↔ Together items := by
  cases items with
  | nil => exact iff_of_true List.nodup_nil fun _ _ hsublist => absurd hsublist.length_le (by simp)
  | cons first items => rw [List.destutter_cons', nodup_destutter'_iff]

end Neighbours

/-! ## After a stable sort -/

section Sorted

variable {le : α → α → Prop} [DecidableRel le]

/-- A stable sort keeps the order of items that are alike. -/
theorem filter_insertionSort (items : List α) {keep : α → Bool}
    (hkeep : ∀ left right, keep left = true → keep right = true → le left right) :
    (items.insertionSort le).filter keep = items.filter keep := by
  have hpairwise : (items.filter keep).Pairwise le :=
    List.pairwise_of_forall_mem_list fun left hleft right hright =>
      hkeep left right (List.mem_filter.mp hleft).2 (List.mem_filter.mp hright).2
  have hsublist := (List.sublist_insertionSort hpairwise List.filter_sublist).filter keep
  simp only [List.filter_filter, Bool.and_self] at hsublist
  exact (hsublist.eq_of_length ((List.perm_insertionSort le items).filter keep).length_eq.symm).symm

variable [DecidableEq β] {items : List α} {key : α → β} {part : β → γ}

/-- Sort the items, then remove those with the key of the one before. -/
theorem map_destutter_key (items : List α) :
    (items.destutter fun left right => key left ≠ key right).map key =
      (items.map key).destutter (· ≠ ·) :=
  List.map_destutter fun _ _ _ _ => Iff.rfl

theorem mem_arranged {found : β} :
    found ∈ ((items.insertionSort le).destutter fun left right => key left ≠ key right).map key ↔
      found ∈ items.map key := by
  rw [map_destutter_key, mem_destutter_ne, List.mem_map, List.mem_map]
  simp only [List.mem_insertionSort]

/-- Each key is left once if equal keys were together among the items that the sort does not
tell apart. -/
theorem nodup_arranged_iff [DecidableEq γ] [Std.Total le] [IsTrans α le]
    (hle : ∀ left right, le left right ∧ le right left ↔ part (key left) = part (key right)) :
    (((items.insertionSort le).destutter fun left right => key left ≠ key right).map key).Nodup ↔
      ∀ item other, [item, other, item].Sublist (items.map key) → part other = part item →
        other = item := by
  rw [map_destutter_key, nodup_destutter_iff]
  constructor
  · intro htogether item other hsublist hpart
    refine htogether item other ?_
    obtain ⟨three, hthree, heq⟩ := List.sublist_map_iff.mp hsublist
    rw [heq]
    refine (List.sublist_insertionSort (List.pairwise_of_forall_mem_list
      fun left hleft right hright => ?_) hthree).map key
    have hsame : ∀ {found : α}, found ∈ three → part (key found) = part item := by
      intro found hfound
      have hmem : key found ∈ [item, other, item] := heq ▸ List.mem_map_of_mem hfound
      simp only [List.mem_cons, List.not_mem_nil, or_false] at hmem
      rcases hmem with hkey | hkey | hkey
      · rw [hkey]
      · rw [hkey, hpart]
      · rw [hkey]
    exact ((hle left right).mpr ((hsame hleft).trans (hsame hright).symm)).1
  · intro htogether item other hsublist
    obtain ⟨three, hthree, heq⟩ := List.sublist_map_iff.mp hsublist
    obtain ⟨first, two, rfl, rfl, htwo⟩ := List.map_eq_cons_iff.mp heq.symm
    obtain ⟨second, one, rfl, rfl, hone⟩ := List.map_eq_cons_iff.mp htwo
    obtain ⟨third, none, rfl, hthird, hnone⟩ := List.map_eq_cons_iff.mp hone
    obtain rfl := List.map_eq_nil_iff.mp hnone
    have hsorted := (List.pairwise_insertionSort le items).sublist hthree
    have hfirst : le first second := List.rel_of_pairwise_cons hsorted (by simp)
    have hsecond : le second third := List.rel_of_pairwise_cons hsorted.of_cons (by simp)
    have hback : le third first := ((hle third first).mpr (by rw [hthird])).1
    have hpart : part (key second) = part (key first) :=
      (hle second first).mp ⟨trans_of le hsecond hback, hfirst⟩
    refine htogether _ _ ?_ hpart
    let keep : α → Bool := fun found => part (key found) = part (key first)
    have hkept : [first, second, third].filter keep = [first, second, third] :=
      List.filter_eq_self.mpr (by simp [keep, hpart, hthird])
    have hfiltered := hthree.filter keep
    rw [hkept, filter_insertionSort items fun left right hleft hright =>
      ((hle left right).mpr ((of_decide_eq_true hleft).trans (of_decide_eq_true hright).symm)).1]
      at hfiltered
    have hmapped := (hfiltered.trans List.filter_sublist).map key
    rwa [List.map_cons, List.map_cons, List.map_cons, hthird] at hmapped

end Sorted

end Deduplication

end LoomDB
