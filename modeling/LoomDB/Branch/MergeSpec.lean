import LoomDB.Branch.SessionSpec

/-!
# What a merge does

A plan is made from the maps of three commits: it decides at least the keys that
one side changed. A merge without conflicts is one write on the target, with the
source head as a second parent.
-/

namespace LoomDB

open Std (ExtTreeMap ExtTreeSet)
open FallibleState (Moves)
open Ancestry (Ancestor MaximalCommon)

/-! ## Planning -/

/-- Decide the keys in order, given the three maps. -/
def planOver (platform : Platform) (policy : MergePolicy) (base source target : RecordMap) :
    List Key → Plan → Except LoomError Plan
  | [], plan => .ok plan
  | key :: keys, plan => do
      let decision ← decide platform key base[key]? source[key]? target[key]? policy
      planOver platform policy base source target keys (plan.add key decision)

section Planning

variable {platform : Platform} {policy : MergePolicy} {base source target : RecordMap}
  {keys : List Key} {plan plan' : Plan}

theorem planOver_cons_eq_ok {key : Key} :
    planOver platform policy base source target (key :: keys) plan = .ok plan' ↔
      ∃ decision, decide platform key base[key]? source[key]? target[key]? policy = .ok decision ∧
        planOver platform policy base source target keys (plan.add key decision) = .ok plan' :=
  StateExcept.except_bind_eq_ok

theorem decideAll_spec {baseTree sourceTree targetTree : Tree}
    (hdecide : decideAll platform policy keys baseTree sourceTree targetTree plan = .ok plan')
    (hbase : Tree.Holds baseTree base) (hsource : Tree.Holds sourceTree source)
    (htarget : Tree.Holds targetTree target) :
    planOver platform policy base source target keys plan = .ok plan' := by
  induction keys generalizing baseTree sourceTree targetTree plan with
  | nil => exact hdecide
  | cons key keys ih =>
      simp only [decideAll, StateExcept.except_bind_eq_ok] at hdecide
      obtain ⟨⟨_, _⟩, hgetBase, ⟨_, _⟩, hgetSource, ⟨_, _⟩, hgetTarget, decision, hdecision, hrest⟩ :=
        hdecide
      obtain ⟨rfl, hsameBase⟩ := Tree.get_spec hgetBase hbase
      obtain ⟨rfl, hsameSource⟩ := Tree.get_spec hgetSource hsource
      obtain ⟨rfl, hsameTarget⟩ := Tree.get_spec hgetTarget htarget
      exact planOver_cons_eq_ok.mpr ⟨decision, hdecision, ih hrest (hsameBase.holds hbase)
        (hsameSource.holds hsource) (hsameTarget.holds htarget)⟩

/-- What a plan writes was decided for a key of the list. -/
theorem mem_writes_planOver {key : Key} {record : Record}
    (hplan : planOver platform policy base source target keys plan = .ok plan') :
    (key, record) ∈ plan'.writes ↔ (key, record) ∈ plan.writes ∨ key ∈ keys ∧ ∃ decision,
      decide platform key base[key]? source[key]? target[key]? policy = .ok decision ∧
        (decision = .write record ∨ decision = .resolved record) := by
  induction keys generalizing plan with
  | nil =>
      obtain rfl := Except.ok.inj hplan
      simp
  | cons first keys ih =>
      obtain ⟨decision, hdecision, hrest⟩ := planOver_cons_eq_ok.mp hplan
      rw [ih hrest]
      have hadd : (key, record) ∈ (plan.add first decision).writes ↔
          (key, record) ∈ plan.writes ∨
            first = key ∧ (decision = .write record ∨ decision = .resolved record) := by
        cases decision <;> simp [Plan.add, eq_comm]
      rw [hadd, List.mem_cons, or_assoc]
      refine or_congr_right ⟨?_, ?_⟩
      · rintro (⟨rfl, hwrites⟩ | ⟨hmem, hdecided⟩)
        · exact ⟨Or.inl rfl, decision, hdecision, hwrites⟩
        · exact ⟨Or.inr hmem, hdecided⟩
      · rintro ⟨rfl | hmem, decided, hdecided, hwrites⟩
        · rw [hdecision] at hdecided
          obtain rfl := Except.ok.inj hdecided
          exact Or.inl ⟨rfl, hwrites⟩
        · exact Or.inr ⟨hmem, decided, hdecided, hwrites⟩

/-- What a plan reports was found for a key of the list. -/
theorem mem_conflicts_planOver {report : MergeConflict}
    (hplan : planOver platform policy base source target keys plan = .ok plan') :
    report ∈ plan'.conflicts ↔ report ∈ plan.conflicts ∨ ∃ key ∈ keys,
      decide platform key base[key]? source[key]? target[key]? policy =
        .ok (.conflict report) := by
  induction keys generalizing plan with
  | nil =>
      obtain rfl := Except.ok.inj hplan
      simp
  | cons first keys ih =>
      obtain ⟨decision, hdecision, hrest⟩ := planOver_cons_eq_ok.mp hplan
      rw [ih hrest]
      have hadd : report ∈ (plan.add first decision).conflicts ↔
          report ∈ plan.conflicts ∨ decision = .conflict report := by
        cases decision <;> simp [Plan.add, eq_comm]
      rw [hadd, or_assoc]
      refine or_congr_right ⟨?_, ?_⟩
      · rintro (rfl | ⟨key, hmem, hdecided⟩)
        · exact ⟨first, List.mem_cons_self, hdecision⟩
        · exact ⟨key, List.mem_cons_of_mem _ hmem, hdecided⟩
      · rintro ⟨key, hmem, hdecided⟩
        rcases List.mem_cons.mp hmem with rfl | hmem
        · rw [hdecision] at hdecided
          exact Or.inl (Except.ok.inj hdecided)
        · exact Or.inr ⟨key, hmem, hdecided⟩

theorem resolve_eq_conflict {source : Option Record} {report found : MergeConflict}
    (hresolve : resolve policy source report = .conflict found) : found = report := by
  unfold resolve at hresolve
  dsimp only at hresolve
  split at hresolve
  · split at hresolve
    · cases hresolve
    · exact (Decision.conflict.inj hresolve).symm
  · cases hresolve
  · cases hresolve
  · exact (Decision.conflict.inj hresolve).symm

theorem records_conflictOf {key : Key} {base source target : Option Record}
    {report : MergeConflict} (hconflict : conflictOf platform key base source target = .ok report) :
    report.records = { base := base, source := source, target := target } := by
  simp only [conflictOf, StateExcept.except_bind_eq_ok] at hconflict
  obtain ⟨_, -, _, -, _, -, hfound⟩ := hconflict
  rw [← Except.ok.inj hfound]

/-- A report is of the three records it is made from. -/
theorem records_of_conflict {key : Key} {base source target : Option Record}
    {report : MergeConflict}
    (hdecide : decide platform key base source target policy = .ok (.conflict report)) :
    report.records = { base := base, source := source, target := target } := by
  unfold decide at hdecide
  split at hdecide
  · cases hdecide
  · split at hdecide
    · cases hdecide
    · split at hdecide
      · split at hdecide <;> cases hdecide
      · split at hdecide
        · cases hdecide
        · cases hconflict : conflictOf platform key base source target with
          | error error =>
              rw [hconflict] at hdecide
              cases hdecide
          | ok found =>
              rw [hconflict] at hdecide
              have hreport : report = found := resolve_eq_conflict (Except.ok.inj hdecide)
              rw [hreport, records_conflictOf hconflict]

end Planning

/-- How a plan was made: from the maps of the three commits, over keys that are
not reserved and include every such key that a side changed. -/
structure Planned {σ : Type} {pager : Substrate σ} (lawful : pager.Lawful) (platform : Platform)
    (policy : MergePolicy) (state : σ) (base source target : CommitId)
    (baseMap sourceMap targetMap : RecordMap) (keys : List Key) (plan : Plan) : Prop where
  base : lawful.Stores state base baseMap
  source : lawful.Stores state source sourceMap
  target : lawful.Stores state target targetMap
  ordered : keys.Pairwise fun first second => compare first second = .lt
  unreserved : ∀ key ∈ keys, isReserved key = false
  covers : ∀ key, isReserved key = false →
    sourceMap[key]? ≠ baseMap[key]? ∨ targetMap[key]? ≠ baseMap[key]? → key ∈ keys
  planned : planOver platform policy baseMap sourceMap targetMap keys Plan.empty = .ok plan

section Planned

variable {σ : Type} {pager : Substrate σ} {lawful : pager.Lawful} {state : σ}

/-- Where two commits differ at a key, it is a key of one of the pages that
differ. -/
theorem covers_of_ne {leftPages rightPages : Pages}
    {leftTree rightTree leftTree' rightTree' : Tree} {leftMap rightMap : RecordMap}
    {listed : List PageNo} {leftKeys rightKeys : List Key} {pageSize : ℕ} {key : Key}
    (hopenLeft : Tree.openTree (Snapshot.ofPages pageSize leftPages) = .ok leftTree)
    (hopenRight : Tree.openTree (Snapshot.ofPages pageSize rightPages) = .ok rightTree)
    (hleft : Tree.Holds leftTree leftMap) (hright : Tree.Holds rightTree rightMap)
    (hlisted : ∀ page, leftPages[page]? ≠ rightPages[page]? → page ∈ listed)
    (hleftKeys : Tree.keysInPages listed leftTree = .ok (leftKeys, leftTree'))
    (hrightKeys : Tree.keysInPages listed rightTree = .ok (rightKeys, rightTree'))
    (hne : leftMap[key]? ≠ rightMap[key]?) : key ∈ leftKeys ∨ key ∈ rightKeys := by
  cases hfound : leftMap[key]? with
  | some record =>
      exact Or.inl (Tree.keysInPages_covers hopenLeft hleft hopenRight hright hlisted hleftKeys
        hfound fun heq => hne (hfound.trans heq.symm))
  | none =>
      cases hother : rightMap[key]? with
      | none => exact absurd (hfound.trans hother.symm) hne
      | some record =>
          refine Or.inr (Tree.keysInPages_covers hopenRight hright hopenLeft hleft
            (fun page hdiffers => hlisted page (Ne.symm hdiffers)) hrightKeys hother ?_)
          rw [hfound]
          exact nofun

/-- A key that a side changed is a candidate. -/
theorem mem_candidates_of_ne {basePages sourcePages targetPages : Pages}
    {baseTree sourceTree targetTree baseTree' sourceTree' targetTree' : Tree}
    {baseMap sourceMap targetMap : RecordMap} {listed : List PageNo}
    {baseKeys sourceKeys targetKeys : List Key} {pageSize : ℕ} {key : Key}
    (hopenBase : Tree.openTree (Snapshot.ofPages pageSize basePages) = .ok baseTree)
    (hopenSource : Tree.openTree (Snapshot.ofPages pageSize sourcePages) = .ok sourceTree)
    (hopenTarget : Tree.openTree (Snapshot.ofPages pageSize targetPages) = .ok targetTree)
    (hbase : Tree.Holds baseTree baseMap) (hsource : Tree.Holds sourceTree sourceMap)
    (htarget : Tree.Holds targetTree targetMap)
    (hlisted : ∀ page, sourcePages[page]? ≠ basePages[page]? ∨
      targetPages[page]? ≠ basePages[page]? → page ∈ listed)
    (hbaseKeys : Tree.keysInPages listed baseTree = .ok (baseKeys, baseTree'))
    (hsourceKeys : Tree.keysInPages listed sourceTree = .ok (sourceKeys, sourceTree'))
    (htargetKeys : Tree.keysInPages listed targetTree = .ok (targetKeys, targetTree'))
    (hne : sourceMap[key]? ≠ baseMap[key]? ∨ targetMap[key]? ≠ baseMap[key]?) :
    key ∈ (ExtTreeSet.ofList (sourceKeys ++ targetKeys ++ baseKeys) compare).toList := by
  rw [ExtTreeSet.mem_toList, ExtTreeSet.mem_ofList, List.contains_iff_mem, List.mem_append,
    List.mem_append]
  rcases hne with hne | hne
  · rcases covers_of_ne hopenSource hopenBase hsource hbase
      (fun page hdiffers => hlisted page (Or.inl hdiffers)) hsourceKeys hbaseKeys hne with hkey | hkey
    · exact Or.inl (Or.inl hkey)
    · exact Or.inr hkey
  · rcases covers_of_ne hopenTarget hopenBase htarget hbase
      (fun page hdiffers => hlisted page (Or.inr hdiffers)) htargetKeys hbaseKeys hne with hkey | hkey
    · exact Or.inl (Or.inr hkey)
    · exact Or.inr hkey

theorem planMerge_spec {platform : Platform} {policy : MergePolicy}
    {base source target : CommitId} {outcome : MergeOutcome}
    (hplan : planMerge platform pager state base source target policy = .ok outcome)
    (hsound : lawful.Sound state) :
    ∃ baseMap sourceMap targetMap keys plan, outcome = plan.outcome ∧
      Planned lawful platform policy state base source target baseMap sourceMap targetMap keys
        plan := by
  simp only [planMerge, StateExcept.except_bind_eq_ok, StateExcept.except_mapError_eq_ok] at hplan
  obtain ⟨changed, hchanged, baseStore, hforkBase, sourceStore, hforkSource, targetStore,
    hforkTarget, baseTree, hopenBase, sourceTree, hopenSource, targetTree, hopenTarget,
    ⟨sourceKeys, sourceTree'⟩, hsourceKeys, ⟨targetKeys, targetTree'⟩, htargetKeys,
    ⟨baseKeys, baseTree'⟩, hbaseKeys, plan, hdecided, houtcome⟩ := hplan
  obtain ⟨basePages, baseMap, hbasePages, hbase, rfl, hbaseHolds, -⟩ :=
    lawful.openTree_spec hsound hforkBase hopenBase
  obtain ⟨sourcePages, sourceMap, hsourcePages, hsource, rfl, hsourceHolds, -⟩ :=
    lawful.openTree_spec hsound hforkSource hopenSource
  obtain ⟨targetPages, targetMap, htargetPages, htarget, rfl, htargetHolds, -⟩ :=
    lawful.openTree_spec hsound hforkTarget hopenTarget
  refine ⟨baseMap, sourceMap, targetMap, _, plan, (Except.ok.inj houtcome).symm,
    hbase, hsource, htarget, ?_, ?_, ?_, decideAll_spec hdecided
      ((Tree.keysInPages_same hbaseKeys).holds hbaseHolds)
      ((Tree.keysInPages_same hsourceKeys).holds hsourceHolds)
      ((Tree.keysInPages_same htargetKeys).holds htargetHolds)⟩
  · exact List.Pairwise.filter _ ExtTreeSet.ordered_toList
  · intro key hkey
    simpa using (List.mem_filter.mp hkey).2
  · intro key hkey hdiffers
    rw [List.mem_filter, hkey]
    exact ⟨mem_candidates_of_ne hopenBase hopenSource hopenTarget hbaseHolds hsourceHolds
      htargetHolds
      (fun _ => lawful.diff3_eq_ok hchanged hbasePages hsourcePages htargetPages)
      hbaseKeys hsourceKeys htargetKeys hdiffers, rfl⟩

/-- A plan without conflicts writes keys that are not reserved. -/
theorem mem_writes_of_planned {platform : Platform} {policy : MergePolicy}
    {base source target : CommitId} {baseMap sourceMap targetMap : RecordMap} {keys : List Key}
    {plan : Plan} {writes : List (Key × Record)} {automatic : ℕ}
    (hplanned : Planned lawful platform policy state base source target baseMap sourceMap
      targetMap keys plan)
    (houtcome : MergeOutcome.merged writes automatic = plan.outcome) :
    writes = plan.writes ∧ ∀ entry ∈ writes, isReserved entry.1 = false := by
  unfold Plan.outcome at houtcome
  split at houtcome
  · obtain rfl := (MergeOutcome.merged.inj houtcome).1
    refine ⟨rfl, fun entry hentry => ?_⟩
    rcases (mem_writes_planOver hplanned.planned).mp hentry with hnone | ⟨hkey, -⟩
    · cases hnone
    · exact hplanned.unreserved entry.1 hkey
  · cases houtcome

end Planned

namespace Engine

variable {σ ρ : Type} {engine : Engine σ ρ} {loom loom' : Loom σ ρ}

/-! ## Bases -/

theorem fullAncestors_moves (commit : CommitId) : Moves Eq (engine.fullAncestors commit) := by
  refine .bind .get fun loom => ?_
  cases Ancestry.walk (engine.parentsOf loom) (engine.walkLimit loom) [commit] ∅ with
  | none => exact .throw _
  | some found => exact .pure found

theorem fullAncestors_spec {commit : CommitId} {found : ExtTreeSet CommitId}
    (hfound : engine.fullAncestors commit loom = (.ok found, loom')) :
    loom' = loom ∧ ∀ other, other ∈ found ↔ Ancestor (engine.parentsOf loom) commit other := by
  unfold fullAncestors at hfound
  rw [FallibleState.get_bind] at hfound
  cases hwalk : Ancestry.walk (engine.parentsOf loom) (engine.walkLimit loom) [commit] ∅ with
  | none =>
      rw [hwalk] at hfound
      cases (Prod.mk.inj hfound).1
  | some ancestors =>
      rw [hwalk] at hfound
      obtain ⟨rfl, rfl⟩ := FallibleState.pure_eq_ok.mp hfound
      exact ⟨rfl, fun _ => Ancestry.mem_walk_singleton hwalk⟩

theorem isLowest_moves (candidate : CommitId) (common : List CommitId) :
    Moves Eq (engine.isLowest candidate common) := by
  induction common with
  | nil => exact .pure _
  | cons other common ih =>
      unfold isLowest
      split
      · exact ih
      · refine .bind (fullAncestors_moves other) fun ancestors => ?_
        split
        · exact .pure _
        · exact ih

theorem isLowest_spec {candidate : CommitId} {common : List CommitId} {lowest : Bool}
    (hlowest : engine.isLowest candidate common loom = (.ok lowest, loom')) :
    loom' = loom ∧ (lowest = true ↔ ∀ other ∈ common,
      Ancestor (engine.parentsOf loom) other candidate → other = candidate) := by
  induction common with
  | nil =>
      obtain ⟨rfl, rfl⟩ := FallibleState.pure_eq_ok.mp hlowest
      simp
  | cons other common ih =>
      unfold isLowest at hlowest
      split at hlowest
      · next heq =>
        obtain ⟨rfl, hiff⟩ := ih hlowest
        refine ⟨rfl, hiff.trans ?_⟩
        rw [List.forall_mem_cons]
        exact ⟨fun hrest => ⟨fun _ => heq, hrest⟩, And.right⟩
      · next hne =>
        rw [FallibleState.bind_eq_ok] at hlowest
        obtain ⟨ancestors, middle, hancestors, hlowest⟩ := hlowest
        obtain ⟨rfl, hmem⟩ := fullAncestors_spec hancestors
        split at hlowest
        · next hcontains =>
          obtain ⟨rfl, rfl⟩ := FallibleState.pure_eq_ok.mp hlowest
          refine ⟨rfl, iff_of_false Bool.false_ne_true fun hall => hne ?_⟩
          exact hall other List.mem_cons_self ((hmem _).mp hcontains)
        · next hcontains =>
          obtain ⟨rfl, hiff⟩ := ih hlowest
          refine ⟨rfl, hiff.trans ?_⟩
          rw [List.forall_mem_cons]
          exact ⟨fun hrest => ⟨fun hancestor => absurd ((hmem _).mpr hancestor) hcontains, hrest⟩,
            And.right⟩

theorem mergeBases_moves (sourceHead targetHead : CommitId) :
    Moves Eq (engine.mergeBases sourceHead targetHead) :=
  .bind (fullAncestors_moves _) fun _ => .bind (fullAncestors_moves _) fun _ =>
    .filterM fun _ => isLowest_moves _ _

/-- The bases of a merge are the maximal common ancestors. -/
theorem mergeBases_spec {sourceHead targetHead : CommitId} {bases : List CommitId}
    (hbases : engine.mergeBases sourceHead targetHead loom = (.ok bases, loom')) :
    loom' = loom ∧ bases.Nodup ∧ ∀ commit, commit ∈ bases ↔
      MaximalCommon (engine.parentsOf loom) sourceHead targetHead commit := by
  unfold mergeBases at hbases
  simp only [FallibleState.bind_eq_ok] at hbases
  obtain ⟨sourceAncestors, _, hsource, targetAncestors, _, htarget, hfilter⟩ := hbases
  obtain ⟨rfl, hsource⟩ := fullAncestors_spec hsource
  obtain ⟨rfl, htarget⟩ := fullAncestors_spec htarget
  obtain ⟨rfl, hsublist, hmem⟩ := FallibleState.filterM_eq_ok (fun candidate _ _ hlowest =>
    isLowest_spec hlowest) hfilter
  have hcommon : ∀ commit, commit ∈ sourceAncestors.toList.filter targetAncestors.contains ↔
      Ancestor (engine.parentsOf loom') sourceHead commit ∧
        Ancestor (engine.parentsOf loom') targetHead commit := by
    intro commit
    rw [List.mem_filter, ExtTreeSet.mem_toList, hsource]
    exact and_congr_right fun _ => htarget commit
  refine ⟨rfl, hsublist.nodup ((OrderedSet.nodup_toList _).filter _), fun commit => ?_⟩
  rw [hmem, hcommon]
  constructor
  · rintro ⟨⟨hleft, hright⟩, hall⟩
    exact ⟨hleft, hright, fun other hother hother' =>
      hall other ((hcommon other).mpr ⟨hother, hother'⟩)⟩
  · rintro ⟨hleft, hright, hmaximal⟩
    exact ⟨⟨hleft, hright⟩, fun other hother =>
      hmaximal other ((hcommon other).mp hother).1 ((hcommon other).mp hother).2⟩

/-- The heads of a merge, and the base it is planned over: the one base found or,
where there is none, the source head. -/
structure MergeHeads (engine : Engine σ ρ) (loom : Loom σ ρ) (source target : BranchId)
    (sourceHead targetHead base : CommitId) : Prop where
  source : loom.refs.branches[source]? = some sourceHead
  target : loom.refs.branches[target]? = some targetHead
  bases : ∃ found, engine.mergeBases sourceHead targetHead (ticked (ticked loom)) =
      (.ok found, ticked (ticked loom)) ∧
    (found = [base] ∨ found = [] ∧ base = sourceHead)

theorem MergeHeads.unique {source target : BranchId}
    {sourceHead sourceHead' targetHead targetHead' base base' : CommitId}
    (hheads : MergeHeads engine loom source target sourceHead targetHead base)
    (hother : MergeHeads engine loom source target sourceHead' targetHead' base') :
    sourceHead' = sourceHead ∧ targetHead' = targetHead ∧ base' = base := by
  obtain rfl := Option.some.inj (hheads.source.symm.trans hother.source)
  obtain rfl := Option.some.inj (hheads.target.symm.trans hother.target)
  obtain ⟨found, hfound, hbase⟩ := hheads.bases
  obtain ⟨found', hfound', hbase'⟩ := hother.bases
  obtain rfl : found = found' := Except.ok.inj (Prod.mk.inj (hfound.symm.trans hfound')).1
  refine ⟨rfl, rfl, ?_⟩
  rcases hbase with rfl | ⟨rfl, rfl⟩
  · rcases hbase' with heq | ⟨heq, -⟩
    · exact (List.singleton_inj.mp heq).symm
    · cases heq
  · rcases hbase' with heq | ⟨-, rfl⟩
    · cases heq
    · rfl

/-- The base is the one maximal common ancestor, if there is any. -/
theorem MergeHeads.maximal {source target : BranchId} {sourceHead targetHead base : CommitId}
    (hheads : MergeHeads engine loom source target sourceHead targetHead base) :
    (∀ commit, MaximalCommon (engine.parentsOf loom) sourceHead targetHead commit ↔
      commit = base) ∨
    (∀ commit, ¬MaximalCommon (engine.parentsOf loom) sourceHead targetHead commit) ∧
      base = sourceHead := by
  obtain ⟨found, hfound, hbase⟩ := hheads.bases
  obtain ⟨-, -, hcommon⟩ := mergeBases_spec hfound
  have hcommon : ∀ commit, commit ∈ found ↔
      MaximalCommon (engine.parentsOf loom) sourceHead targetHead commit := hcommon
  rcases hbase with rfl | ⟨rfl, rfl⟩
  · exact Or.inl fun commit => (hcommon commit).symm.trans List.mem_singleton
  · exact Or.inr ⟨fun commit hmaximal => List.not_mem_nil ((hcommon commit).mpr hmaximal), rfl⟩

theorem MergeHeads.ancestor {source target : BranchId} {sourceHead targetHead base : CommitId}
    (hheads : MergeHeads engine loom source target sourceHead targetHead base) :
    Ancestor (engine.parentsOf loom) sourceHead base := by
  rcases hheads.maximal with hbase | ⟨-, rfl⟩
  · exact ((hbase base).mpr rfl).1
  · exact .refl _ _

/-! ## Second parents -/

theorem head_moves (branch : BranchId) : Moves Eq (head branch : LoomM σ ρ CommitId) := by
  refine .bind .get fun loom => ?_
  cases loom.refs.branches[branch]? with
  | none => exact .throw _
  | some commit => exact .pure commit

theorem nodeForKey_moves (branch : BranchId) (key : Key) :
    Moves Eq (engine.nodeForKey branch key) :=
  .bind (head_moves branch) fun _ => .bind (reading_moves _ _) fun _ => .pure _

theorem sideNodes_eq (source target : BranchId) (key : Key) (loom : Loom σ ρ) :
    ∃ nodes, engine.sideNodes source target key loom = (.ok nodes, loom) := by
  have hsource : loom = (engine.nodeForKey source key loom).2 := nodeForKey_moves source key loom
  have htarget : loom = (engine.nodeForKey target key loom).2 := nodeForKey_moves target key loom
  unfold sideNodes
  rw [FallibleState.bind_eq, FallibleState.attempt_eq]
  simp only
  rw [FallibleState.bind_eq, FallibleState.attempt_eq, ← hsource]
  simp only
  rw [← htarget]
  exact ⟨_, rfl⟩

/-- Looking for the nodes of both sides does not fail and changes nothing. -/
theorem mergeParents_eq (source target : BranchId) (writes : List (Key × Record))
    (parents : ExtTreeMap Key (List NodeId)) (loom : Loom σ ρ) :
    ∃ parents', engine.mergeParents source target writes parents loom = (.ok parents', loom) := by
  induction writes generalizing parents with
  | nil => exact ⟨parents, rfl⟩
  | cons write writes ih =>
      obtain ⟨key, record⟩ := write
      unfold mergeParents
      split
      · exact ih parents
      · obtain ⟨nodes, hnodes⟩ : ∃ nodes, engine.sideNodes source target key loom =
            (.ok nodes, loom) := sideNodes_eq source target key loom
        rw [FallibleState.bind_eq, hnodes]
        exact ih _

/-- The edit that adds a second parent to a recorded commit, if any. -/
def edgeEdits (refs : Refs) (commit second : CommitId) : List RefEdit :=
  match refs.commits[commit]? with
  | some parents => if second ∈ parents then [] else [.addParent commit second]
  | none => []

/-- The edits behind the second parent of a merge. -/
def joinEdits (refs : Refs) (commit before second : CommitId) : List RefEdit :=
  recordEdits refs commit [before, second] ++
    edgeEdits (refs.replay (recordEdits refs commit [before, second])) commit second

theorem branches_edgeEdits (refs refs' : Refs) (commit second : CommitId) :
    (refs'.replay (edgeEdits refs commit second)).branches = refs'.branches := by
  unfold edgeEdits
  split
  · split <;> rfl
  · rfl

theorem branches_joinEdits (refs refs' : Refs) (commit before second : CommitId) :
    (refs'.replay (joinEdits refs commit before second)).branches = refs'.branches := by
  rw [joinEdits, Refs.replay_append, branches_edgeEdits, branches_recordEdits]

theorem addMergeEdge_eq (commit second : CommitId) (loom : Loom σ ρ) :
    addMergeEdge commit second loom = (.ok (), edited loom (edgeEdits loom.refs commit second)) := by
  unfold addMergeEdge edgeEdits
  rw [FallibleState.get_bind]
  cases loom.refs.commits[commit]? with
  | none => rw [edited_nil]; rfl
  | some parents =>
      simp only
      split
      · rw [edited_nil]; rfl
      · rfl

/-- A write with a second parent ends with the write, or hands the second parent
to the store on its own. -/
theorem writeMerge_cases {token : CapabilityToken} {branch : BranchId}
    {records : List (Key × Record)} {envelope : WriteEnvelope} {second : CommitId}
    {parents : ExtTreeMap Key (List NodeId)} {outcome : Except LoomError CommitId}
    {before : CommitId} (hhead : loom.refs.branches[branch]? = some before)
    (hwrite : engine.writeMerge token branch records envelope second parents loom =
      (outcome, loom')) :
    ∃ written middle,
      engine.writeAll token branch records envelope parents ∅ loom = (written, middle) ∧
      ((∃ error, written = .error error ∧ outcome = .error error ∧ loom' = middle) ∨
        ∃ commit persisted, written = .ok commit ∧
          engine.persist (edited middle (joinEdits middle.refs commit before second)) =
            (persisted, loom') ∧
          outcome = persisted.map fun _ => commit) := by
  unfold writeMerge at hwrite
  rw [head_bind, hhead] at hwrite
  simp only [writeManyDerived] at hwrite
  rw [FallibleState.bind_eq] at hwrite
  rcases hwritten : engine.writeAll token branch records envelope parents ∅ loom with
    ⟨error | commit, middle⟩
  · rw [hwritten] at hwrite
    obtain ⟨rfl, rfl⟩ := Prod.mk.inj hwrite
    exact ⟨_, _, rfl, Or.inl ⟨error, rfl, rfl, rfl⟩⟩
  · rw [hwritten] at hwrite
    simp only at hwrite
    rw [FallibleState.bind_eq, recordCommit_eq] at hwrite
    simp only at hwrite
    rw [FallibleState.bind_eq, addMergeEdge_eq] at hwrite
    simp only [edited_edited] at hwrite
    rw [FallibleState.bind_eq] at hwrite
    refine ⟨_, _, rfl, Or.inr ⟨commit, ?_⟩⟩
    rcases hpersist : engine.persist (edited middle (joinEdits middle.refs commit before second))
      with ⟨persisted, last⟩
    have hjoin : engine.persist (edited middle (recordEdits middle.refs commit [before, second] ++
        edgeEdits (edited middle (recordEdits middle.refs commit [before, second])).refs commit
          second)) = (persisted, last) := hpersist
    rw [hjoin] at hwrite
    cases persisted with
    | error error =>
        obtain ⟨rfl, rfl⟩ := Prod.mk.inj hwrite
        exact ⟨_, rfl, rfl, rfl⟩
    | ok done =>
        obtain ⟨rfl, rfl⟩ := Prod.mk.inj hwrite
        exact ⟨_, rfl, rfl, rfl⟩

/-! ## The whole call -/

/-- The checks of a merge before it looks at the branches. -/
def mergeAdmits (engine : Engine σ ρ) (loom : Loom σ ρ) (token : CapabilityToken)
    (source target : BranchId) (envelope : WriteEnvelope) : Except LoomError Unit :=
  if envelope.isValid then do
    admits engine loom token source
    admits engine (ticked loom) token target
  else .error .missingEnvelope

/-- A merge that returns without having written. -/
inductive MergeStopped (engine : Engine σ ρ) (loom : Loom σ ρ) (source target : BranchId)
    (policy : MergePolicy) (forbids : Key → Record → Option Bytes) : MergeResult → Prop
  | conflict {sourceHead targetHead base : CommitId} {conflicts : List MergeConflict}
      (heads : MergeHeads engine loom source target sourceHead targetHead base)
      (planned : planMerge engine.platform engine.pager loom.pager base sourceHead targetHead
        policy = .ok (.conflict conflicts)) :
      MergeStopped engine loom source target policy forbids (.conflict conflicts)
  | refused {sourceHead targetHead base : CommitId} {writes : List (Key × Record)}
      {automatic : ℕ} {key : Key} {reason : Bytes}
      (heads : MergeHeads engine loom source target sourceHead targetHead base)
      (planned : planMerge engine.platform engine.pager loom.pager base sourceHead targetHead
        policy = .ok (.merged writes automatic))
      (forbidden : firstForbidden forbids writes = some (key, reason)) :
      MergeStopped engine loom source target policy forbids (.policyRefused key reason)
  | ambiguous {sourceHead targetHead : CommitId} {bases : List CommitId}
      (ofSource : loom.refs.branches[source]? = some sourceHead)
      (ofTarget : loom.refs.branches[target]? = some targetHead) (nodup : bases.Nodup)
      (common : ∀ commit, commit ∈ bases ↔
        MaximalCommon (engine.parentsOf loom) sourceHead targetHead commit)
      (several : 2 ≤ bases.length) :
      MergeStopped engine loom source target policy forbids
        (.ambiguousHistory bases.length (ambiguousDetail source target bases.length))

/-- A merge that goes on to write: the plan, and the call of the write path. -/
structure MergeWritten (engine : Engine σ ρ) (loom loom' : Loom σ ρ) (token : CapabilityToken)
    (source target : BranchId) (policy : MergePolicy) (envelope : WriteEnvelope)
    (forbids : Key → Record → Option Bytes) (sourceHead targetHead base : CommitId)
    (writes : List (Key × Record)) (automatic : ℕ) (parents : ExtTreeMap Key (List NodeId))
    (written : Except LoomError CommitId) : Prop where
  heads : MergeHeads engine loom source target sourceHead targetHead base
  planned : planMerge engine.platform engine.pager loom.pager base sourceHead targetHead
    policy = .ok (.merged writes automatic)
  allowed : firstForbidden forbids writes = none
  found : engine.mergeParents source target
    (writes ++ [(mergedFromKey source, Record.blob sourceHead.asBytes)]) ∅
    (ticked (ticked loom)) = (.ok parents, ticked (ticked loom))
  wrote : engine.writeMerge token target
    (writes ++ [(mergedFromKey source, Record.blob sourceHead.asBytes)]) envelope sourceHead
    parents (ticked (ticked loom)) = (written, loom')

/-- How many of the planned writes are the caller's records. -/
def mergedRecords (writes : List (Key × Record)) : ℕ :=
  (writes.filter fun entry => !isReserved entry.1 && !isProvenance entry.1).length

theorem mergeOver_cases {token : CapabilityToken} {source target : BranchId}
    {base sourceHead targetHead : CommitId} {policy : MergePolicy} {envelope : WriteEnvelope}
    {forbids : Key → Record → Option Bytes} {outcome : Except LoomError MergeResult}
    (hheads : MergeHeads engine loom source target sourceHead targetHead base)
    (hmerge : engine.mergeOver token source target base sourceHead targetHead policy envelope
      forbids (ticked (ticked loom)) = (outcome, loom')) :
    ((∃ error, outcome = .error error ∧ loom' = ticked (ticked loom)) ∨
      ∃ result, outcome = .ok result ∧ loom' = ticked (ticked loom) ∧
        MergeStopped engine loom source target policy forbids result) ∨
    ∃ writes automatic parents written,
      MergeWritten engine loom loom' token source target policy envelope forbids sourceHead
        targetHead base writes automatic parents written ∧
      outcome = written.map fun commit => .merged commit (mergedRecords writes) automatic := by
  unfold mergeOver at hmerge
  rw [FallibleState.get_bind] at hmerge
  change (FallibleState.lift (planMerge engine.platform engine.pager loom.pager base sourceHead
    targetHead policy) >>= _) (ticked (ticked loom)) = _ at hmerge
  rw [FallibleState.bind_eq, FallibleState.lift_eq] at hmerge
  rcases hplan : planMerge engine.platform engine.pager loom.pager base sourceHead targetHead
    policy with error | ⟨writes, automatic⟩ | conflicts
  · rw [hplan] at hmerge
    obtain ⟨rfl, rfl⟩ := Prod.mk.inj hmerge
    exact Or.inl (Or.inl ⟨error, rfl, rfl⟩)
  · rw [hplan] at hmerge
    simp only [applyPlan] at hmerge
    cases hforbidden : firstForbidden forbids writes with
    | some found =>
        obtain ⟨key, reason⟩ := found
        rw [hforbidden] at hmerge
        obtain ⟨rfl, rfl⟩ := Prod.mk.inj hmerge
        exact Or.inl (Or.inr ⟨_, rfl, rfl, .refused hheads hplan hforbidden⟩)
    | none =>
        rw [hforbidden] at hmerge
        obtain ⟨parents, hparents⟩ : ∃ parents, engine.mergeParents source target
            (writes ++ [(mergedFromKey source, Record.blob sourceHead.asBytes)]) ∅
            (ticked (ticked loom)) = (.ok parents, ticked (ticked loom)) :=
          mergeParents_eq _ _ _ _ _
        simp only at hmerge
        rw [FallibleState.bind_eq, hparents] at hmerge
        simp only at hmerge
        rw [FallibleState.bind_eq] at hmerge
        rcases hwrote : engine.writeMerge token target
          (writes ++ [(mergedFromKey source, Record.blob sourceHead.asBytes)]) envelope
          sourceHead parents (ticked (ticked loom)) with ⟨error | commit, last⟩
        · rw [hwrote] at hmerge
          obtain ⟨rfl, rfl⟩ := Prod.mk.inj hmerge
          exact Or.inr ⟨writes, automatic, parents, _,
            ⟨hheads, hplan, hforbidden, hparents, hwrote⟩, rfl⟩
        · rw [hwrote] at hmerge
          obtain ⟨rfl, rfl⟩ := Prod.mk.inj hmerge
          exact Or.inr ⟨writes, automatic, parents, _,
            ⟨hheads, hplan, hforbidden, hparents, hwrote⟩, rfl⟩
  · rw [hplan] at hmerge
    obtain ⟨rfl, rfl⟩ := Prod.mk.inj hmerge
    exact Or.inl (Or.inr ⟨_, rfl, rfl, .conflict hheads hplan⟩)

/-- What a merge does once it knows the common ancestors. -/
def mergeBased (engine : Engine σ ρ) (token : CapabilityToken) (source target : BranchId)
    (sourceHead targetHead : CommitId) (policy : MergePolicy) (envelope : WriteEnvelope)
    (forbids : Key → Record → Option Bytes) : List CommitId → LoomM σ ρ MergeResult
  | [] =>
      engine.mergeOver token source target sourceHead sourceHead targetHead policy envelope
        forbids
  | [base] =>
      engine.mergeOver token source target base sourceHead targetHead policy envelope forbids
  | bases => return .ambiguousHistory bases.length (ambiguousDetail source target bases.length)

/-- From the heads on. -/
theorem mergeFrom_cases {token : CapabilityToken} {source target : BranchId}
    {policy : MergePolicy} {envelope : WriteEnvelope}
    {forbids : Key → Record → Option Bytes} {outcome : Except LoomError MergeResult}
    (hmerge : (do
      let sourceHead ← head source
      let targetHead ← head target
      let bases ← engine.mergeBases sourceHead targetHead
      engine.mergeBased token source target sourceHead targetHead policy envelope forbids bases)
        (ticked (ticked loom)) = (outcome, loom')) :
    (∃ error, outcome = .error error ∧ loom' = ticked (ticked loom)) ∨
    (∃ result, outcome = .ok result ∧ loom' = ticked (ticked loom) ∧
      MergeStopped engine loom source target policy forbids result) ∨
    ∃ sourceHead targetHead base writes automatic parents written,
      MergeWritten engine loom loom' token source target policy envelope forbids sourceHead
        targetHead base writes automatic parents written ∧
      outcome = written.map fun commit => .merged commit (mergedRecords writes) automatic := by
  cases hsource : loom.refs.branches[source]? with
  | none =>
      rw [head_bind_none (show (ticked (ticked loom)).refs.branches[source]? = none from hsource)]
        at hmerge
      obtain ⟨rfl, rfl⟩ := Prod.mk.inj hmerge
      exact Or.inl ⟨_, rfl, rfl⟩
  | some sourceHead =>
  rw [head_bind_some (show (ticked (ticked loom)).refs.branches[source]? = some sourceHead
    from hsource)] at hmerge
  cases htarget : loom.refs.branches[target]? with
  | none =>
      rw [head_bind_none (show (ticked (ticked loom)).refs.branches[target]? = none from htarget)]
        at hmerge
      obtain ⟨rfl, rfl⟩ := Prod.mk.inj hmerge
      exact Or.inl ⟨_, rfl, rfl⟩
  | some targetHead =>
  rw [head_bind_some (show (ticked (ticked loom)).refs.branches[target]? = some targetHead
    from htarget), FallibleState.bind_eq] at hmerge
  rcases hbases : engine.mergeBases sourceHead targetHead (ticked (ticked loom)) with
    ⟨error | bases, middle⟩
  · obtain rfl := (mergeBases_moves sourceHead targetHead).of_eq hbases
    rw [hbases] at hmerge
    obtain ⟨rfl, rfl⟩ := Prod.mk.inj hmerge
    exact Or.inl ⟨error, rfl, rfl⟩
  · obtain ⟨rfl, hnodup, hcommon⟩ := mergeBases_spec hbases
    rw [hbases] at hmerge
    have hcommon : ∀ commit, commit ∈ bases ↔
        MaximalCommon (engine.parentsOf loom) sourceHead targetHead commit := hcommon
    cases bases with
    | nil =>
        have hheads : MergeHeads engine loom source target sourceHead targetHead sourceHead :=
          ⟨hsource, htarget, _, hbases, Or.inr ⟨rfl, rfl⟩⟩
        rcases mergeOver_cases hheads hmerge with (herror | hstopped) | hwritten
        · exact Or.inl herror
        · exact Or.inr (Or.inl hstopped)
        · exact Or.inr (Or.inr ⟨sourceHead, targetHead, sourceHead, hwritten⟩)
    | cons base others =>
    cases others with
    | nil =>
        have hheads : MergeHeads engine loom source target sourceHead targetHead base :=
          ⟨hsource, htarget, _, hbases, Or.inl rfl⟩
        rcases mergeOver_cases hheads hmerge with (herror | hstopped) | hwritten
        · exact Or.inl herror
        · exact Or.inr (Or.inl hstopped)
        · exact Or.inr (Or.inr ⟨sourceHead, targetHead, base, hwritten⟩)
    | cons second rest =>
        obtain ⟨rfl, rfl⟩ := Prod.mk.inj hmerge
        exact Or.inr (Or.inl ⟨_, rfl, rfl,
          .ambiguous hsource htarget hnodup hcommon (by simp)⟩)

/-- A merge fails with nothing changed, returns with nothing written, or hands a
plan to the write path. -/
theorem mergeChecked_cases {token : CapabilityToken} {source target : BranchId}
    {policy : MergePolicy} {envelope : WriteEnvelope}
    {forbids : Key → Record → Option Bytes} {outcome : Except LoomError MergeResult}
    (hmerge : engine.mergeChecked token source target policy envelope forbids loom =
      (outcome, loom')) :
    (∃ error, outcome = .error error ∧ loom' = { loom with clock := loom'.clock }) ∨
    mergeAdmits engine loom token source target envelope = .ok () ∧
      ((∃ result, outcome = .ok result ∧ loom' = ticked (ticked loom) ∧
        MergeStopped engine loom source target policy forbids result) ∨
      ∃ sourceHead targetHead base writes automatic parents written,
        MergeWritten engine loom loom' token source target policy envelope forbids sourceHead
          targetHead base writes automatic parents written ∧
        outcome = written.map fun commit => .merged commit (mergedRecords writes) automatic) := by
  unfold mergeChecked requireEnvelope at hmerge
  unfold mergeAdmits
  by_cases hvalid : envelope.isValid = true
  · rw [if_pos hvalid, pure_bind, FallibleState.bind_eq, authorize_eq] at hmerge
    rw [if_pos hvalid]
    cases hsource : admits engine loom token source with
    | error error =>
        rw [hsource] at hmerge
        obtain ⟨rfl, rfl⟩ := Prod.mk.inj hmerge
        exact Or.inl ⟨error, rfl, rfl⟩
    | ok done =>
        rw [hsource] at hmerge
        simp only at hmerge
        rw [FallibleState.bind_eq, authorize_eq] at hmerge
        cases htarget : admits engine (ticked loom) token target with
        | error error =>
            rw [htarget] at hmerge
            obtain ⟨rfl, rfl⟩ := Prod.mk.inj hmerge
            exact Or.inl ⟨error, rfl, rfl⟩
        | ok done =>
            rw [htarget] at hmerge
            rcases mergeFrom_cases hmerge with ⟨error, houtcome, hloom⟩ | hgoes
            · exact Or.inl ⟨error, houtcome, hloom ▸ rfl⟩
            · exact Or.inr ⟨rfl, hgoes⟩
  · rw [if_neg hvalid] at hmerge
    obtain ⟨rfl, rfl⟩ := Prod.mk.inj hmerge
    exact Or.inl ⟨_, rfl, rfl⟩

theorem mergeAdmits_eq_ok {token : CapabilityToken} {source target : BranchId}
    {envelope : WriteEnvelope} :
    mergeAdmits engine loom token source target envelope = .ok () ↔
      envelope.isValid = true ∧ admits engine loom token source = .ok () ∧
        admits engine (ticked loom) token target = .ok () := by
  unfold mergeAdmits
  split
  · next hvalid =>
    rw [StateExcept.except_bind_eq_ok]
    exact ⟨fun ⟨_, hsource, htarget⟩ => ⟨hvalid, hsource, htarget⟩,
      fun ⟨_, hsource, htarget⟩ => ⟨(), hsource, htarget⟩⟩
  · next hinvalid => exact ⟨nofun, fun ⟨hvalid, _⟩ => absurd hvalid hinvalid⟩

/-- A merge that passes its checks, with one base at most and a plan that is
allowed: the write it goes on to make. -/
structure MergeReady (engine : Engine σ ρ) (loom : Loom σ ρ) (token : CapabilityToken)
    (source target : BranchId) (policy : MergePolicy) (envelope : WriteEnvelope)
    (forbids : Key → Record → Option Bytes) (sourceHead targetHead base : CommitId)
    (writes : List (Key × Record)) (automatic : ℕ) (parents : ExtTreeMap Key (List NodeId)) :
    Prop where
  admitted : mergeAdmits engine loom token source target envelope = .ok ()
  heads : MergeHeads engine loom source target sourceHead targetHead base
  planned : planMerge engine.platform engine.pager loom.pager base sourceHead targetHead
    policy = .ok (.merged writes automatic)
  allowed : firstForbidden forbids writes = none
  parents : engine.mergeParents source target
    (writes ++ [(mergedFromKey source, Record.blob sourceHead.asBytes)]) ∅
    (ticked (ticked loom)) = (.ok parents, ticked (ticked loom))

theorem MergeWritten.ready {token : CapabilityToken} {source target : BranchId}
    {policy : MergePolicy} {envelope : WriteEnvelope} {forbids : Key → Record → Option Bytes}
    {sourceHead targetHead base : CommitId} {writes : List (Key × Record)} {automatic : ℕ}
    {parents : ExtTreeMap Key (List NodeId)} {written : Except LoomError CommitId}
    (hwritten : MergeWritten engine loom loom' token source target policy envelope forbids
      sourceHead targetHead base writes automatic parents written)
    (hadmits : mergeAdmits engine loom token source target envelope = .ok ()) :
    MergeReady engine loom token source target policy envelope forbids sourceHead targetHead base
      writes automatic parents :=
  ⟨hadmits, hwritten.heads, hwritten.planned, hwritten.allowed, hwritten.found⟩

/-- A merge that passes its checks is one over its base. -/
theorem mergeChecked_eq_over {token : CapabilityToken} {source target : BranchId}
    {policy : MergePolicy} {envelope : WriteEnvelope} {forbids : Key → Record → Option Bytes}
    {sourceHead targetHead base : CommitId}
    (hadmits : mergeAdmits engine loom token source target envelope = .ok ())
    (hheads : MergeHeads engine loom source target sourceHead targetHead base) :
    engine.mergeChecked token source target policy envelope forbids loom =
      engine.mergeOver token source target base sourceHead targetHead policy envelope forbids
        (ticked (ticked loom)) := by
  obtain ⟨hvalid, hsource, htarget⟩ := mergeAdmits_eq_ok.mp hadmits
  have hsourceHead : (ticked (ticked loom)).refs.branches[source]? = some sourceHead :=
    hheads.source
  have htargetHead : (ticked (ticked loom)).refs.branches[target]? = some targetHead :=
    hheads.target
  obtain ⟨found, hfound, hbase⟩ := hheads.bases
  unfold mergeChecked requireEnvelope
  rw [if_pos hvalid, pure_bind, FallibleState.bind_eq, authorize_eq, hsource]
  simp only
  rw [FallibleState.bind_eq, authorize_eq, htarget]
  simp only
  rw [head_bind, hsourceHead]
  simp only
  rw [head_bind, htargetHead]
  simp only
  rw [FallibleState.bind_eq, hfound]
  rcases hbase with rfl | ⟨rfl, rfl⟩
  · rfl
  · rfl

/-- Such a merge ends as its write does. -/
theorem mergeChecked_eq {token : CapabilityToken} {source target : BranchId}
    {policy : MergePolicy} {envelope : WriteEnvelope} {forbids : Key → Record → Option Bytes}
    {sourceHead targetHead base : CommitId} {writes : List (Key × Record)} {automatic : ℕ}
    {parents : ExtTreeMap Key (List NodeId)}
    (hready : MergeReady engine loom token source target policy envelope forbids sourceHead
      targetHead base writes automatic parents) :
    ∃ written last,
      engine.writeMerge token target
        (writes ++ [(mergedFromKey source, Record.blob sourceHead.asBytes)]) envelope sourceHead
        parents (ticked (ticked loom)) = (written, last) ∧
      engine.mergeChecked token source target policy envelope forbids loom =
        (written.map fun commit => .merged commit (mergedRecords writes) automatic, last) := by
  obtain ⟨hadmits, hheads, hplanned, hallowed, hparents⟩ := hready
  rcases hwrote : engine.writeMerge token target
    (writes ++ [(mergedFromKey source, Record.blob sourceHead.asBytes)]) envelope sourceHead
    parents (ticked (ticked loom)) with ⟨written, last⟩
  refine ⟨written, last, rfl, ?_⟩
  have hplanned' : planMerge engine.platform engine.pager (ticked (ticked loom)).pager base
    sourceHead targetHead policy = .ok (.merged writes automatic) := hplanned
  rw [mergeChecked_eq_over hadmits hheads]
  unfold mergeOver
  rw [FallibleState.get_bind, hplanned', FallibleState.bind_eq, FallibleState.lift_eq]
  simp only [applyPlan, hallowed]
  rw [FallibleState.bind_eq, hparents]
  simp only
  rw [FallibleState.bind_eq, hwrote]
  cases written <;> rfl

end Engine

end LoomDB
