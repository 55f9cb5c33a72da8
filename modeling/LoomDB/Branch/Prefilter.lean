import LoomDB.Branch.MergeSpec
import LoomDB.Branch.TreeRuns

/-!
# What the prefilter of a merge leaves out

A merge looks at the keys of the pages that changed. A key elsewhere has one record on
all three sides, and nothing is decided for it: the merge comes to what deciding every key
comes to.
-/

namespace LoomDB

open Std (ExtTreeMap ExtTreeSet)

/-- The keys a merge may look at: those of any side that are not reserved. -/
def everyKey (base source target : RecordMap) : List Key :=
  (ExtTreeSet.ofList (base.keys ++ source.keys ++ target.keys) compare).toList.filter
    fun key => !isReserved key

/-- A merge without a prefilter. -/
def planEvery (platform : Platform) (policy : MergePolicy) (base source target : RecordMap) :
    Except LoomError MergeOutcome :=
  (planOver platform policy base source target (everyKey base source target) Plan.empty).map
    Plan.outcome

section Deciding

variable {platform : Platform} {policy : MergePolicy} {base source target : RecordMap}

/-- Whether a side has another record at the key than the base. -/
def moved (base source target : RecordMap) (key : Key) : Bool :=
  source[key]? ≠ base[key]? || target[key]? ≠ base[key]?

theorem moved_eq_false {key : Key} :
    moved base source target key = false ↔
      source[key]? = base[key]? ∧ target[key]? = base[key]? := by
  simp [moved]

/-- Nothing is decided for a key nobody moved. -/
theorem decide_unmoved {key : Key} (hunmoved : moved base source target key = false)
    (hnumbers : ∀ record, base[key]? = some record → record.isNaN = false) :
    decide platform key base[key]? source[key]? target[key]? policy = .ok .nothing := by
  obtain ⟨hsource, htarget⟩ := moved_eq_false.mp hunmoved
  have hsame : sameRecord source[key]? target[key]? = true := by
    rw [hsource, htarget]
    cases hbase : base[key]? with
    | none => rfl
    | some record => exact Record.beq_self (hnumbers record hbase)
  rw [decide.eq_def, if_pos hsame]

/-- The keys nobody moved may be left out of a plan. -/
theorem planOver_filter_moved {keys : List Key} {plan : Plan}
    (hnumbers : ∀ (key : Key) (record : Record), base[key]? = some record →
      record.isNaN = false) :
    planOver platform policy base source target (keys.filter (moved base source target)) plan =
      planOver platform policy base source target keys plan := by
  induction keys generalizing plan with
  | nil => rfl
  | cons key keys ih =>
      cases hmoved : moved base source target key with
      | true =>
          rw [List.filter_cons_of_pos hmoved, planOver, planOver]
          exact bind_congr fun decision => ih
      | false =>
          rw [List.filter_cons_of_neg (Bool.eq_false_iff.mp hmoved), ih, planOver,
            decide_unmoved hmoved (hnumbers key)]
          rfl

/-- Ordered lists with the same members are one list. -/
theorem eq_of_ordered {left right : List Key}
    (hleft : left.Pairwise fun first second => compare first second = .lt)
    (hright : right.Pairwise fun first second => compare first second = .lt)
    (hmem : ∀ key, key ∈ left ↔ key ∈ right) : left = right := by
  have hnodup : ∀ {keys : List Key},
      (keys.Pairwise fun first second => compare first second = .lt) → keys.Nodup := by
    refine fun hkeys => hkeys.imp ?_
    rintro key _ hlt rfl
    rw [Std.ReflOrd.compare_self] at hlt
    cases hlt
  refine ((List.perm_ext_iff_of_nodup (hnodup hleft) (hnodup hright)).mpr hmem).eq_of_pairwise
    (fun first second _ _ hlt hgt => ?_) hleft hright
  exact absurd hgt (Std.OrientedCmp.not_lt_of_lt hlt)

/-- Ordered keys that include every key a side moved make the plan over every key. -/
theorem planOver_eq_every {keys : List Key}
    (hordered : keys.Pairwise fun first second => compare first second = .lt)
    (hunreserved : ∀ key ∈ keys, isReserved key = false)
    (hcovers : ∀ key, isReserved key = false → moved base source target key = true → key ∈ keys)
    (hnumbers : ∀ (key : Key) (record : Record), base[key]? = some record →
      record.isNaN = false) :
    (planOver platform policy base source target keys Plan.empty).map Plan.outcome =
      planEvery platform policy base source target := by
  have hlists : keys.filter (moved base source target) =
      (everyKey base source target).filter (moved base source target) := by
    refine eq_of_ordered (hordered.filter _)
      ((ExtTreeSet.ordered_toList.filter _).filter _) fun key => ?_
    simp only [everyKey, List.mem_filter, ExtTreeSet.mem_toList, ExtTreeSet.mem_ofList,
      List.contains_iff_mem, List.mem_append, ExtTreeMap.mem_keys, Bool.not_eq_true']
    constructor
    · rintro ⟨hkey, hmoved⟩
      refine ⟨⟨?_, hunreserved key hkey⟩, hmoved⟩
      by_contra hnone
      simp only [not_or] at hnone
      obtain ⟨⟨hbase, hsource⟩, htarget⟩ := hnone
      rw [moved, ExtTreeMap.getElem?_eq_none hbase, ExtTreeMap.getElem?_eq_none hsource,
        ExtTreeMap.getElem?_eq_none htarget] at hmoved
      cases hmoved
    · rintro ⟨⟨-, hreserved⟩, hmoved⟩
      exact ⟨hcovers key hreserved hmoved, hmoved⟩
  calc (planOver platform policy base source target keys Plan.empty).map Plan.outcome
      = (planOver platform policy base source target
          (keys.filter (moved base source target)) Plan.empty).map Plan.outcome := by
        rw [planOver_filter_moved hnumbers]
    _ = (planOver platform policy base source target
          ((everyKey base source target).filter (moved base source target)) Plan.empty).map
            Plan.outcome := by
        rw [hlists]
    _ = planEvery platform policy base source target := by
        rw [planOver_filter_moved hnumbers, planEvery]

/-- Reading the three trees does not fail. -/
theorem decideAll_eq {baseTree sourceTree targetTree : Tree} {keys : List Key} {plan : Plan}
    (hbase : Tree.Holds baseTree base) (hsource : Tree.Holds sourceTree source)
    (htarget : Tree.Holds targetTree target) (hreadsBase : baseTree.Reads)
    (hreadsSource : sourceTree.Reads) (hreadsTarget : targetTree.Reads) :
    decideAll platform policy keys baseTree sourceTree targetTree plan =
      planOver platform policy base source target keys plan := by
  induction keys generalizing baseTree sourceTree targetTree plan with
  | nil => rfl
  | cons key keys ih =>
      obtain ⟨baseTree', hgetBase⟩ := hbase.answers_get hreadsBase key
      obtain ⟨sourceTree', hgetSource⟩ := hsource.answers_get hreadsSource key
      obtain ⟨targetTree', hgetTarget⟩ := htarget.answers_get hreadsTarget key
      obtain ⟨-, hsameBase⟩ := Tree.get_spec hgetBase hbase
      obtain ⟨-, hsameSource⟩ := Tree.get_spec hgetSource hsource
      obtain ⟨-, hsameTarget⟩ := Tree.get_spec hgetTarget htarget
      rw [decideAll, planOver, hgetBase, hgetSource, hgetTarget]
      exact bind_congr fun decision => ih (hsameBase.holds hbase) (hsameSource.holds hsource)
        (hsameTarget.holds htarget) (hreadsBase.same hsameBase) (hreadsSource.same hsameSource)
        (hreadsTarget.same hsameTarget)

end Deciding

/-! ## The merge of three commits -/

section Commits

variable {σ : Type} {pager : Substrate σ}

/-- The commit is in the page store, with these pages, and can be read. -/
structure CommittedAt (lawful : pager.Lawful) (state : σ) (commit : CommitId) (pages : Pages) :
    Prop where
  pages : lawful.pages state commit = some pages
  forks : ∃ snapshot, pager.fork state commit = .ok snapshot

variable {lawful : pager.Lawful} {state : σ}

theorem CommittedAt.fork_eq {commit : CommitId} {pages : Pages}
    (hcommitted : CommittedAt lawful state commit pages) :
    pager.fork state commit = .ok (Snapshot.ofPages pager.pageSize pages) := by
  obtain ⟨snapshot, hfork⟩ := hcommitted.forks
  obtain ⟨content, hcontent, rfl⟩ := lawful.fork_eq_ok hfork
  rw [hcommitted.pages] at hcontent
  rw [hfork, Option.some.inj hcontent]

theorem keysInPages_succeeds (listed : List PageNo) (tree : Tree) :
    ∃ keys tree', Tree.keysInPages listed tree = .ok (keys, tree') := by
  have hmapM : ∃ parts tree',
      (listed.filter (· ≠ META_PAGE)).mapM Tree.keysInPage tree = .ok (parts, tree') := by
    refine Tree.mapM_succeeds fun page _ seen hseen => ?_
    obtain ⟨⟨keys, seen'⟩, hkeys⟩ : ∃ result, Tree.keysInPage page seen = .ok result := by
      unfold Tree.keysInPage
      split <;> exact ⟨_, rfl⟩
    exact ⟨keys, seen', hkeys, hseen.trans (Tree.keysInPage_eq_ok hkeys).1⟩
  obtain ⟨parts, tree', hparts⟩ := hmapM
  refine ⟨(ExtTreeSet.ofList parts.flatten compare).toList, tree', ?_⟩
  rw [Tree.keysInPages]
  exact StateExcept.bind_eq_ok.mpr ⟨parts, tree', hparts, rfl⟩

/-- Two trees are grown from one, whatever is inserted and removed on the way. Merging them
decides what deciding every key of the three decides. -/
theorem planMerge_eq_planEvery {platform : Platform} {policy : MergePolicy}
    {write : PageNo → Bytes → Except LoomError Unit}
    {baseOps sourceOps targetOps : List TreeOp} {base source target : OpenTree}
    {baseId sourceId targetId : CommitId} {changed : List PageNo}
    (hbase : TreeOp.run pager.pageSize write ∅ baseOps = .ok base)
    (hsource : TreeOp.run pager.pageSize write base.pages sourceOps = .ok source)
    (htarget : TreeOp.run pager.pageSize write base.pages targetOps = .ok target)
    (hbaseAt : CommittedAt lawful state baseId base.pages)
    (hsourceAt : CommittedAt lawful state sourceId source.pages)
    (htargetAt : CommittedAt lawful state targetId target.pages)
    (hdiff : pager.diff3 state baseId sourceId targetId = .ok changed)
    (hnumbers : ∀ (key : Key) (record : Record),
      (TreeOp.bindings ∅ baseOps).flushed[key]? = some record → record.isNaN = false) :
    planMerge platform pager state baseId sourceId targetId policy =
      planEvery platform policy (TreeOp.bindings ∅ baseOps).flushed
        (TreeOp.bindings (TreeOp.bindings ∅ baseOps).flushed sourceOps).flushed
        (TreeOp.bindings (TreeOp.bindings ∅ baseOps).flushed targetOps).flushed := by
  have hbase := OpenTree.Represents.run_empty hbase
  have hsource := OpenTree.Represents.run hbase.stored hbase.nodes hsource
  have htarget := OpenTree.Represents.run hbase.stored hbase.nodes htarget
  obtain ⟨baseTree, hopenBase, hbaseHolds, -, hbaseReads⟩ := hbase.stored.opens hbase.nodes
  obtain ⟨sourceTree, hopenSource, hsourceHolds, -, hsourceReads⟩ :=
    hsource.stored.opens hsource.nodes
  obtain ⟨targetTree, hopenTarget, htargetHolds, -, htargetReads⟩ :=
    htarget.stored.opens htarget.nodes
  generalize (TreeOp.bindings ∅ baseOps).flushed = baseMap at *
  generalize (TreeOp.bindings baseMap sourceOps).flushed = sourceMap at *
  generalize (TreeOp.bindings baseMap targetOps).flushed = targetMap at *
  obtain ⟨sourceKeys, sourceTree', hsourceKeys⟩ := keysInPages_succeeds changed sourceTree
  obtain ⟨targetKeys, targetTree', htargetKeys⟩ := keysInPages_succeeds changed targetTree
  obtain ⟨baseKeys, baseTree', hbaseKeys⟩ := keysInPages_succeeds changed baseTree
  let candidates := (ExtTreeSet.ofList (sourceKeys ++ targetKeys ++ baseKeys) compare).toList.filter
    fun key => !isReserved key
  have hcovers : ∀ key, isReserved key = false → moved baseMap sourceMap targetMap key = true →
      key ∈ candidates := by
    intro key hkey hmoved
    simp only [moved, Bool.or_eq_true, decide_eq_true_eq] at hmoved
    rw [List.mem_filter, hkey]
    exact ⟨mem_candidates_of_ne hopenBase hopenSource hopenTarget hbaseHolds hsourceHolds
      htargetHolds
      (fun _ => lawful.diff3_eq_ok hdiff hbaseAt.pages hsourceAt.pages htargetAt.pages)
      hbaseKeys hsourceKeys htargetKeys hmoved, rfl⟩
  have hsameBase := Tree.keysInPages_same hbaseKeys
  have hsameSource := Tree.keysInPages_same hsourceKeys
  have hsameTarget := Tree.keysInPages_same htargetKeys
  calc planMerge platform pager state baseId sourceId targetId policy
      = (decideAll platform policy candidates baseTree' sourceTree' targetTree' Plan.empty).map
          Plan.outcome := by
        simp only [planMerge, hdiff, hbaseAt.fork_eq, hsourceAt.fork_eq, htargetAt.fork_eq,
          Except.mapError, hopenBase, hopenSource, hopenTarget, hsourceKeys, htargetKeys,
          hbaseKeys, bind, Except.bind]
        rfl
    _ = (planOver platform policy baseMap sourceMap targetMap candidates Plan.empty).map
          Plan.outcome := by
        rw [decideAll_eq (hsameBase.holds hbaseHolds) (hsameSource.holds hsourceHolds)
          (hsameTarget.holds htargetHolds) (hbaseReads.same hsameBase)
          (hsourceReads.same hsameSource) (htargetReads.same hsameTarget)]
    _ = planEvery platform policy baseMap sourceMap targetMap :=
        planOver_eq_every (ExtTreeSet.ordered_toList.filter _)
          (fun key hkey => by simpa using (List.mem_filter.mp hkey).2) hcovers hnumbers

/-- A page store in memory reads the commits it holds. -/
theorem MemPager.committedAt (pageSize : ℕ) {state : MemPager} {commit : CommitId} {pages : Pages}
    (hpages : state.pages commit = some pages) :
    CommittedAt (MemPager.lawful pageSize) state commit pages where
  pages := hpages
  forks := by
    change ∃ snapshot, MemPager.fork pageSize state commit = .ok snapshot
    rw [MemPager.fork, hpages]
    exact ⟨_, rfl⟩

/-- Three records of half a page, so that the leaf is split. -/
def splitBase : List TreeOp :=
  [.insert (ascii "a") (Record.blob (List.replicate 2000 0)),
    .insert (ascii "b") (Record.blob (List.replicate 2000 1)),
    .insert (ascii "c") (Record.blob (List.replicate 2000 2)), .flush]

/-- One record is changed, one is removed, and one is new. -/
def splitSource : List TreeOp :=
  [.insert (ascii "a") (Record.blob [3]), .remove (ascii "c"), .insert (ascii "d") (Record.blob [4]),
    .flush]

def splitTarget : List TreeOp :=
  [.insert (ascii "b") (Record.blob [5]), .flush]

/-- The trees of the base and of the two sides, and the numbers of their pages. -/
theorem exists_splitRuns : ∃ base source target : OpenTree,
    TreeOp.run 4096 (fun _ _ => .ok ()) ∅ splitBase = .ok base ∧
      TreeOp.run 4096 (fun _ _ => .ok ()) base.pages splitSource = .ok source ∧
      TreeOp.run 4096 (fun _ _ => .ok ()) base.pages splitTarget = .ok target ∧
      3 < base.pages.size := by
  have hruns : ((TreeOp.run 4096 (fun _ _ => .ok ()) ∅ splitBase).toOption.any fun base =>
      (TreeOp.run 4096 (fun _ _ => .ok ()) base.pages splitSource).toOption.isSome &&
        (TreeOp.run 4096 (fun _ _ => .ok ()) base.pages splitTarget).toOption.isSome &&
        Decidable.decide (3 < base.pages.size)) = true := by decide +kernel
  obtain ⟨base, hbase, hsides⟩ := (Option.any_eq_true _ _).mp hruns
  simp only [Bool.and_eq_true, decide_eq_true_eq, Option.isSome_iff_exists] at hsides
  obtain ⟨⟨⟨source, hsource⟩, ⟨target, htarget⟩⟩, hsize⟩ := hsides
  rw [StateExcept.toOption_eq_some] at hbase hsource htarget
  exact ⟨base, source, target, hbase, hsource, htarget, hsize⟩

/-- Both sides start from a base of two leaves under a branch, and are merged. -/
theorem planMerge_eq_planEvery_split :
    ∃ (state : MemPager) (base source target : OpenTree), 3 < base.pages.size ∧
      state.pages 1 = some base.pages ∧ state.pages 2 = some source.pages ∧
      state.pages 3 = some target.pages ∧
      planMerge Platform.plain (MemPager.substrate 4096) state 1 2 3 .conflict =
        planEvery Platform.plain .conflict (TreeOp.bindings ∅ splitBase).flushed
          (TreeOp.bindings (TreeOp.bindings ∅ splitBase).flushed splitSource).flushed
          (TreeOp.bindings (TreeOp.bindings ∅ splitBase).flushed splitTarget).flushed := by
  obtain ⟨base, source, target, hbase, hsource, htarget, hsize⟩ := exists_splitRuns
  have hfresh : MemPager.empty.manifests[(1 : CommitId)]? = none := by decide
  let rooted := MemPager.empty.add 1 0 base.pages hfresh
  have hfreshSource : rooted.manifests[(2 : CommitId)]? = none := by
    simp only [rooted, MemPager.add, OrderedMap.getElem?_insert]
    rw [if_neg (by decide)]
    decide
  let forked := rooted.add 2 1 source.pages hfreshSource
  have hfreshTarget : forked.manifests[(3 : CommitId)]? = none := by
    simp only [forked, rooted, MemPager.add, OrderedMap.getElem?_insert]
    rw [if_neg (by decide), if_neg (by decide)]
    decide
  let state := forked.add 3 1 target.pages hfreshTarget
  have hone : state.pages 1 = some base.pages := by
    rw [MemPager.pages_add hfreshTarget, if_neg (by decide), MemPager.pages_add hfreshSource,
      if_neg (by decide), MemPager.pages_add hfresh, if_pos rfl]
  have htwo : state.pages 2 = some source.pages := by
    rw [MemPager.pages_add hfreshTarget, if_neg (by decide), MemPager.pages_add hfreshSource,
      if_pos rfl]
  have hthree : state.pages 3 = some target.pages := by
    rw [MemPager.pages_add hfreshTarget, if_pos rfl]
  obtain ⟨changed, hdiff⟩ : ∃ changed,
      (MemPager.substrate 4096).diff3 state 1 2 3 = .ok changed := by
    change ∃ changed, MemPager.diff3 state 1 2 3 = .ok changed
    rw [MemPager.diff3, hone, htwo, hthree]
    exact ⟨_, rfl⟩
  have hnumbers : ∀ entry ∈ (TreeOp.bindings ∅ splitBase).flushed.toList,
      entry.2.isNaN = false := by decide +kernel
  exact ⟨state, base, source, target, hsize, hone, htwo, hthree,
    planMerge_eq_planEvery hbase hsource htarget (MemPager.committedAt 4096 hone)
      (MemPager.committedAt 4096 htwo) (MemPager.committedAt 4096 hthree) hdiff
      fun key record hrecord =>
        hnumbers (key, record) (ExtTreeMap.mem_toList_iff_getElem?_eq_some.mpr hrecord)⟩

end Commits

end LoomDB
