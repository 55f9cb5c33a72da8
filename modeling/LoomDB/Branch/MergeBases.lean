import LoomDB.Branch.Calls
import LoomDB.Branch.MergeSpec

/-!
# The bases of a merge

A walk over the recorded parents always ends, so the bases of two commits are
always found: they are the maximal common ancestors, in the same order from
either side.
-/

namespace LoomDB

open Std (ExtTreeMap ExtTreeSet)
open Ancestry (Acyclic Ancestor MaximalCommon)

/-- The number of commits bounds those that have a parent. -/
def Substrate.Counts {σ : Type} (pager : Substrate σ) (state : σ) : Prop :=
  ∃ known : List CommitId, known.length ≤ pager.manifests state ∧
    ∀ commit parent, pager.parent state commit = .ok (some parent) → commit ∈ known

theorem MemPager.counts (pageSize : ℕ) (state : MemPager) :
    (MemPager.substrate pageSize).Counts state := by
  refine ⟨state.manifests.keys, ExtTreeMap.length_keys.le, fun commit parent hparent => ?_⟩
  change MemPager.parent state commit = _ at hparent
  unfold MemPager.parent at hparent
  split at hparent
  · next hfound =>
    rw [ExtTreeMap.mem_keys]
    exact ExtTreeMap.mem_iff_isSome_getElem?.mpr (by rw [hfound]; rfl)
  · cases hparent

namespace Engine

variable {σ ρ : Type} {engine : Engine σ ρ} {loom : Loom σ ρ}

/-- What a walk can meet: the recorded parents, and one parent of each other commit. -/
def parentSizes (commits : ExtTreeMap CommitId (List CommitId)) (known : List CommitId) :
    List (CommitId × ℕ) :=
  (commits.toList.map fun entry => (entry.1, entry.2.length)) ++ known.map fun commit => (commit, 1)

theorem mem_parentSizes {known : List CommitId}
    (hknown : ∀ commit parent, engine.pager.parent loom.pager commit = .ok (some parent) →
      commit ∈ known) (commit : CommitId) (hparents : engine.parentsOf loom commit ≠ []) :
    ∃ size, (commit, size) ∈ parentSizes loom.refs.commits known ∧
      (engine.parentsOf loom commit).length ≤ size := by
  unfold parentsOf at hparents ⊢
  cases hrecorded : loom.refs.commits[commit]? with
  | some parents =>
      refine ⟨parents.length, List.mem_append_left _ ?_, le_rfl⟩
      have hentry := ExtTreeMap.mem_toList_iff_getElem?_eq_some.mpr hrecorded
      exact List.mem_map_of_mem hentry
  | none =>
      rw [hrecorded] at hparents
      dsimp only at hparents ⊢
      split at hparents
      · next parent hparent =>
        refine ⟨1, List.mem_append_right _ ?_, ?_⟩
        · exact List.mem_map_of_mem (hknown commit parent hparent)
        · exact le_rfl
      · exact absurd rfl hparents

theorem le_foldl_sizes (entries : List (CommitId × List CommitId)) (start : ℕ) :
    start + (entries.map fun entry => entry.2.length).sum ≤
      entries.foldl (fun total entry => total + entry.2.length + 1) start := by
  induction entries generalizing start with
  | nil => exact le_rfl
  | cons entry entries ih =>
      have hrest := ih (start + entry.2.length + 1)
      rw [List.foldl_cons, List.map_cons, List.sum_cons]
      omega

theorem sizes_le_walkLimit {known : List CommitId}
    (hknown : known.length ≤ engine.pager.manifests loom.pager) :
    1 + ((parentSizes loom.refs.commits known).map Prod.snd).sum ≤ engine.walkLimit loom := by
  have hfold := le_foldl_sizes loom.refs.commits.toList (engine.pager.manifests loom.pager + 1)
  have hsum : ((parentSizes loom.refs.commits known).map Prod.snd).sum =
      (loom.refs.commits.toList.map fun entry => entry.2.length).sum + known.length := by
    simp [parentSizes, Function.comp_def]
  rw [walkLimit, ExtTreeMap.foldl_eq_foldl_toList, hsum]
  omega

/-- Every walk over the commits ends. -/
theorem fullAncestors_eq_ok (hcounts : engine.pager.Counts loom.pager) (commit : CommitId) :
    ∃ found, engine.fullAncestors commit loom = (.ok found, loom) := by
  obtain ⟨known, hlength, hknown⟩ := hcounts
  have hends : Ancestry.walk (engine.parentsOf loom) (engine.walkLimit loom) [commit] ∅ ≠ none :=
    Ancestry.walk_ne_none_of_sizes (mem_parentSizes hknown) (sizes_le_walkLimit hlength)
  obtain ⟨found, hfound⟩ := Option.ne_none_iff_exists'.mp hends
  refine ⟨found, ?_⟩
  unfold fullAncestors
  rw [FallibleState.get_bind, hfound]
  rfl

theorem isLowest_eq_ok (hcounts : engine.pager.Counts loom.pager) (candidate : CommitId)
    (common : List CommitId) :
    ∃ lowest, engine.isLowest candidate common loom = (.ok lowest, loom) := by
  induction common with
  | nil => exact ⟨true, rfl⟩
  | cons other common ih =>
      unfold isLowest
      split
      · exact ih
      · obtain ⟨ancestors, hancestors⟩ := fullAncestors_eq_ok hcounts other
        rw [FallibleState.bind_eq, hancestors]
        dsimp only
        split
        · exact ⟨false, rfl⟩
        · exact ih

/-- The bases are found, and in the order of the commits. -/
theorem mergeBases_eq_ok (hcounts : engine.pager.Counts loom.pager)
    (sourceHead targetHead : CommitId) :
    ∃ bases, engine.mergeBases sourceHead targetHead loom = (.ok bases, loom) ∧
      bases.Pairwise fun left right => compare left right = .lt := by
  obtain ⟨sourceAncestors, hsource⟩ := fullAncestors_eq_ok hcounts sourceHead
  obtain ⟨targetAncestors, htarget⟩ := fullAncestors_eq_ok hcounts targetHead
  unfold mergeBases
  rw [FallibleState.bind_eq, hsource]
  dsimp only
  rw [FallibleState.bind_eq, htarget]
  dsimp only
  have hlowest : ∃ bases, (sourceAncestors.toList.filter targetAncestors.contains).filterM
      (fun candidate => engine.isLowest candidate
        (sourceAncestors.toList.filter targetAncestors.contains)) loom = (.ok bases, loom) :=
    FallibleState.filterM_succeeds fun candidate => isLowest_eq_ok hcounts candidate _
  obtain ⟨bases, hbases⟩ := hlowest
  refine ⟨bases, hbases, ?_⟩
  obtain ⟨-, hsublist, -⟩ := FallibleState.filterM_eq_ok (fun candidate _ _ hlowest =>
    isLowest_spec hlowest) hbases
  exact (ExtTreeSet.ordered_toList.filter _).sublist hsublist

/-- The bases are the maximal common ancestors, whichever side they are asked from, and there is
one wherever the histories meet. -/
theorem mergeBases_exact (hacyclic : Acyclic (engine.parentsOf loom))
    (hcounts : engine.pager.Counts loom.pager) (sourceHead targetHead : CommitId) :
    ∃ bases, engine.mergeBases sourceHead targetHead loom = (.ok bases, loom) ∧
      engine.mergeBases targetHead sourceHead loom = (.ok bases, loom) ∧
      bases.Nodup ∧
      (∀ commit, commit ∈ bases ↔
        MaximalCommon (engine.parentsOf loom) sourceHead targetHead commit) ∧
      ((∃ commit, Ancestor (engine.parentsOf loom) sourceHead commit ∧
        Ancestor (engine.parentsOf loom) targetHead commit) → bases ≠ []) := by
  obtain ⟨bases, hbases, hsorted⟩ := mergeBases_eq_ok hcounts sourceHead targetHead
  obtain ⟨-, hnodup, hmem⟩ := mergeBases_spec hbases
  have hback : engine.mergeBases targetHead sourceHead loom = (.ok bases, loom) := by
    obtain ⟨bases', hbases', hsorted'⟩ := mergeBases_eq_ok hcounts targetHead sourceHead
    obtain ⟨-, hnodup', hmem'⟩ := mergeBases_spec hbases'
    have hsame : ∀ commit, commit ∈ bases' ↔ commit ∈ bases := by
      intro commit
      rw [hmem, hmem']
      exact Ancestry.maximalCommon_comm
    have hperm : bases'.Perm bases := (List.perm_ext_iff_of_nodup hnodup' hnodup).mpr hsame
    have hequal : bases' = bases := by
      apply hperm.eq_of_pairwise _ hsorted' hsorted
      intro left right _ _ hlt hgt
      exact absurd hgt (Std.OrientedCmp.not_lt_of_lt hlt)
    rw [hbases', hequal]
  refine ⟨bases, hbases, hback, hnodup, hmem, ?_⟩
  rintro ⟨commit, hleft, hright⟩ rfl
  obtain ⟨found, hfound⟩ := fullAncestors_eq_ok hcounts sourceHead
  obtain ⟨-, hreached⟩ := fullAncestors_spec hfound
  have hfinite : {other | Ancestor (engine.parentsOf loom) sourceHead other}.Finite := by
    apply (List.finite_toSet found.toList).subset
    intro other hother
    exact ExtTreeSet.mem_toList.mpr ((hreached other).mpr hother)
  obtain ⟨base, hbase, -⟩ := hacyclic.exists_maximalCommon hfinite hleft hright
  exact List.not_mem_nil ((hmem base).mpr hbase)

/-- Two commits that have each merged the other two. -/
def crissCross : Loom MemPager (Option Refs) where
  __ := memoryLoom
  refs := { memoryLoom.refs with
    commits := (((∅ : ExtTreeMap CommitId (List CommitId)).insert 1 [0]).insert 2 [0] |>.insert
      3 [1, 2]).insert 4 [2, 1] }

theorem crissCross_acyclic : Acyclic (memoryEngine.parentsOf crissCross) := by
  have hentries : crissCross.refs.commits.toList =
      [(1, [0]), (2, [0]), (3, [1, 2]), (4, [2, 1])] := by decide +kernel
  have hrecorded : ∀ entry ∈ crissCross.refs.commits.toList, ∀ parent ∈ entry.2,
      parent < entry.1 := by
    rw [hentries]
    simp
  have hstored : ∀ entry ∈ crissCross.pager.manifests.toList, entry.2.2 = none := by
    decide +kernel
  apply Ancestry.acyclic_of_rank Fin.val
  intro child parent hparent
  unfold parentsOf at hparent
  split at hparent
  · next parents hparents =>
    exact hrecorded (child, parents) (ExtTreeMap.mem_toList_iff_getElem?_eq_some.mpr hparents)
      parent hparent
  · split at hparent
    · next stored hfound =>
      change MemPager.parent crissCross.pager child = .ok (some stored) at hfound
      unfold MemPager.parent at hfound
      split at hfound
      · next entry hentry =>
        cases Except.ok.inj hfound
        cases hstored _ (ExtTreeMap.mem_toList_iff_getElem?_eq_some.mpr hentry)
      · cases hfound
    · cases hparent

theorem mergeBases_crissCross :
    Acyclic (memoryEngine.parentsOf crissCross) ∧
      memoryEngine.pager.Counts crissCross.pager ∧
      ∃ bases, memoryEngine.mergeBases 3 4 crissCross = (.ok bases, crissCross) ∧ 1 ∈ bases ∧
        2 ∈ bases := by
  have hcounts : memoryEngine.pager.Counts crissCross.pager := MemPager.counts 4096 _
  refine ⟨crissCross_acyclic, hcounts, ?_⟩
  obtain ⟨bases, hbases, -⟩ := mergeBases_exact crissCross_acyclic hcounts 3 4
  have hfound : (memoryEngine.mergeBases 3 4 crissCross).1.toOption = some [1, 2] := by
    decide +kernel
  rw [hbases] at hfound
  cases Option.some.inj hfound
  exact ⟨[1, 2], hbases, by simp⟩

end Engine

end LoomDB
