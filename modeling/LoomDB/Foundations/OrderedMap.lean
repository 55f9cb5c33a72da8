import LoomDB.Foundations.Codec
import Std.Data.ExtTreeMap
import Std.Data.ExtTreeSet

/-!
# Ordered maps

Ordered maps are the standard library's extensional tree maps. This module adds
what the development needs on top: rebuilding a map from its own entries, and
the codec that writes a map as its sorted entries.
-/

namespace LoomDB

open Std

instance Bytes.transOrd : TransOrd Bytes := inferInstance
instance Bytes.transOrdList : TransOrd (List Bytes) := inferInstance
instance transOrdU64 : TransOrd (Fin (256 ^ 8)) := inferInstance
instance Digest.transOrd : TransOrd Digest := inferInstance
instance Bytes.lawfulEqOrd : LawfulEqOrd Bytes := inferInstance
instance lawfulEqOrdU64 : LawfulEqOrd (Fin (256 ^ 8)) := inferInstance
instance Digest.lawfulEqOrd : LawfulEqOrd Digest := inferInstance

/-- The order of the maps is the order of the byte strings. -/
theorem Bytes.compare_eq_lt (left right : Bytes) :
    compare left right = .lt ↔ left < right := by
  induction left generalizing right with
  | nil => cases right <;> simp [compare, List.compareLex]
  | cons first left ih =>
      cases right with
      | nil => simp [compare, List.compareLex]
      | cons second right =>
          have hstep : compare (first :: left) (second :: right) =
              (compare first second).then (compare left right) :=
            List.compareLex_cons_cons
          rw [hstep, List.cons_lt_cons_iff, ← ih, ← compare_lt_iff_lt]
          simp [Ordering.then_eq_lt]

namespace OrderedMap

variable {κ ν : Type} [Ord κ] [TransOrd κ] [LawfulEqOrd κ]

/-- A map is determined by its entries. -/
theorem ofList_toList [DecidableEq κ] (map : ExtTreeMap κ ν) :
    ExtTreeMap.ofList map.toList = map := by
  apply ExtTreeMap.ext_getElem?
  intro key
  cases hkey : map[key]? with
  | none =>
      apply ExtTreeMap.getElem?_ofList_of_contains_eq_false
      rw [Bool.eq_false_iff]
      intro hcontains
      obtain ⟨⟨_, value⟩, hmem, rfl⟩ := List.mem_map.mp (List.contains_iff_mem.mp hcontains)
      rw [ExtTreeMap.mem_toList_iff_getElem?_eq_some] at hmem
      simp [hkey] at hmem
  | some value =>
      exact ExtTreeMap.getElem?_ofList_of_mem (ReflOrd.compare_self)
        ExtTreeMap.distinct_keys_toList
        (ExtTreeMap.mem_toList_iff_getElem?_eq_some.mpr hkey)

theorem getElem?_insert (map : ExtTreeMap κ ν) (key other : κ) (value : ν)
    [DecidableEq κ] :
    (map.insert key value)[other]? = if key = other then some value else map[other]? := by
  simp [ExtTreeMap.getElem?_insert]

theorem getElem?_erase (map : ExtTreeMap κ ν) (key other : κ) [DecidableEq κ] :
    (map.erase key)[other]? = if key = other then none else map[other]? := by
  simp [ExtTreeMap.getElem?_erase]

theorem insert_eq_self [DecidableEq κ] {map : ExtTreeMap κ ν} {key : κ} {value : ν}
    (hvalue : map[key]? = some value) : map.insert key value = map := by
  refine ExtTreeMap.ext_getElem? fun other => ?_
  rw [getElem?_insert]
  split
  · next heq => rw [← heq, hvalue]
  · rfl

theorem sorted_toList {ν : Type} (map : ExtTreeMap Bytes ν) :
    map.toList.Pairwise fun left right => left.1 < right.1 :=
  ExtTreeMap.ordered_keys_toList.imp fun hlt => (Bytes.compare_eq_lt _ _).mp hlt

theorem nodup_of_sorted {ν : Type} {entries : List (Bytes × ν)}
    (hsorted : entries.Pairwise fun left right => left.1 < right.1) : entries.Nodup :=
  hsorted.imp fun hlt heq => absurd (heq ▸ hlt) (lt_irrefl _)

/-- Sorted lists of the same entries are equal. -/
theorem eq_of_sorted {ν : Type} {left right : List (Bytes × ν)}
    (hleft : left.Pairwise fun first second => first.1 < second.1)
    (hright : right.Pairwise fun first second => first.1 < second.1)
    (hmem : ∀ entry, entry ∈ left ↔ entry ∈ right) : left = right :=
  ((List.perm_ext_iff_of_nodup (nodup_of_sorted hleft) (nodup_of_sorted hright)).mpr
    hmem).eq_of_pairwise (fun _ _ _ _ hlt hgt => absurd hlt (lt_asymm hgt)) hleft hright

/-- A sorted list with the bindings of a map is the list of its entries. -/
theorem toList_eq {ν : Type} {map : ExtTreeMap Bytes ν} {entries : List (Bytes × ν)}
    (hsorted : entries.Pairwise fun left right => left.1 < right.1)
    (hmem : ∀ key value, map[key]? = some value ↔ (key, value) ∈ entries) :
    map.toList = entries := by
  refine eq_of_sorted (sorted_toList map) hsorted ?_
  rintro ⟨key, value⟩
  rw [ExtTreeMap.mem_toList_iff_getElem?_eq_some, hmem]

/-- Maps with the same values under the kept keys have the same kept entries. -/
theorem filter_toList_congr {ν : Type} {map other : ExtTreeMap Bytes ν} {keep : Bytes → Bool}
    (hsame : ∀ key, keep key = true → map[key]? = other[key]?) :
    (map.toList.filter fun entry => keep entry.1) =
      other.toList.filter fun entry => keep entry.1 := by
  refine eq_of_sorted ((sorted_toList map).filter _) ((sorted_toList other).filter _) ?_
  rintro ⟨key, value⟩
  rw [List.mem_filter, List.mem_filter, ExtTreeMap.mem_toList_iff_getElem?_eq_some,
    ExtTreeMap.mem_toList_iff_getElem?_eq_some]
  exact and_congr_left fun hkeep => by rw [hsame key hkeep]

end OrderedMap

/-- A map is written as its entries in key order. -/
def Codec.map {κ ν : Type} [Ord κ] [TransOrd κ] [LawfulEqOrd κ] [DecidableEq κ]
    (key : Codec κ) (value : Codec ν) : Codec (ExtTreeMap κ ν) :=
  (list (pair key value)).iso (fun entries => ExtTreeMap.ofList entries)
    (fun map => map.toList) OrderedMap.ofList_toList

theorem OrderedSet.ofList_toList {κ : Type} [Ord κ] [TransOrd κ] [LawfulEqOrd κ]
    [DecidableEq κ] (items : ExtTreeSet κ) : ExtTreeSet.ofList items.toList = items := by
  apply ExtTreeSet.ext_mem
  intro item
  rw [ExtTreeSet.mem_ofList]
  exact ⟨fun h => ExtTreeSet.mem_toList.mp (List.contains_iff_mem.mp h),
    fun h => List.contains_iff_mem.mpr (ExtTreeSet.mem_toList.mpr h)⟩

theorem OrderedSet.nodup_toList {κ : Type} [Ord κ] [TransOrd κ] [LawfulEqOrd κ]
    (items : ExtTreeSet κ) : items.toList.Nodup := by
  refine ExtTreeSet.distinct_toList.imp ?_
  rintro item _ hne rfl
  exact hne ReflOrd.compare_self

/-- A set is written as its items in order. -/
def Codec.set {κ : Type} [Ord κ] [TransOrd κ] [LawfulEqOrd κ] [DecidableEq κ]
    (item : Codec κ) : Codec (ExtTreeSet κ) :=
  (list item).iso (fun items => ExtTreeSet.ofList items) (fun set => set.toList)
    OrderedSet.ofList_toList

end LoomDB
