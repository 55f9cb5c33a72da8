import LoomDB.Branch.Faults
import LoomDB.Provenance.Panics

/-!
# Planning a merge over pages that cannot be read

Planning a merge opens three trees, collects the keys of the pages that changed, and looks
each key up in the three trees. A page that is refused stops it where a tree is opened and
where a key is looked up; where the keys are collected, a page that cannot be read has none.
-/

namespace LoomDB

open Std (ExtTreeMap ExtTreeSet)
open StateExcept (Reaches)

/-! ## Deciding -/

section Deciding

variable {platform : Platform} {policy : MergePolicy}

/-- Decide the keys in order, whatever their records are read from. -/
def planBy (platform : Platform) (policy : MergePolicy)
    (base source target : Key → Except LoomError (Option Record)) :
    List Key → Plan → Except LoomError Plan
  | [], plan => .ok plan
  | key :: keys, plan => do
      let baseRecord ← base key
      let sourceRecord ← source key
      let targetRecord ← target key
      let decision ← decide platform key baseRecord sourceRecord targetRecord policy
      planBy platform policy base source target keys (plan.add key decision)

theorem find_of_get {key : Key} {tree seen : Tree} {found : Option Record}
    (hget : Tree.get key tree = .ok (found, seen)) :
    Tree.find key tree = .ok found ∧ Tree.SameNodes tree seen := by
  refine ⟨by rw [Tree.find, hget]; rfl, ?_⟩
  rw [Tree.get_eq_getFrom] at hget
  exact Tree.getFrom_sameNodes hget

theorem find_of_get_error {key : Key} {tree : Tree} {error : LoomError}
    (hget : Tree.get key tree = .error error) : Tree.find key tree = .error error := by
  rw [Tree.find, hget]
  rfl

/-- The lookups leave the trees as they are for the lookups after them. -/
theorem decideAll_eq_planBy (keys : List Key) (base source target : Tree) (plan : Plan) :
    decideAll platform policy keys base source target plan =
      planBy platform policy (Tree.find · base) (Tree.find · source) (Tree.find · target) keys
        plan := by
  induction keys generalizing base source target plan with
  | nil => rfl
  | cons key keys ih =>
      rw [decideAll, planBy]
      cases hbase : Tree.get key base with
      | error error =>
          rw [find_of_get_error hbase]
          rfl
      | ok baseFound =>
      obtain ⟨hfindBase, hsameBase⟩ := find_of_get hbase
      rw [hfindBase]
      cases hsource : Tree.get key source with
      | error error =>
          rw [find_of_get_error hsource]
          rfl
      | ok sourceFound =>
      obtain ⟨hfindSource, hsameSource⟩ := find_of_get hsource
      rw [hfindSource]
      cases htarget : Tree.get key target with
      | error error =>
          rw [find_of_get_error htarget]
          rfl
      | ok targetFound =>
      obtain ⟨hfindTarget, hsameTarget⟩ := find_of_get htarget
      rw [hfindTarget]
      simp only [bind, Except.bind, ih]
      simp only [hsameBase.find, hsameSource.find, hsameTarget.find]

def Found (key : Key) (tree : Tree) : Prop :=
  ∃ record, Tree.find key tree = .ok record

/-- The key is looked up in the three trees, and decided. -/
def Compared (platform : Platform) (policy : MergePolicy) (base source target : Tree) (key : Key) :
    Prop :=
  ∃ baseRecord sourceRecord targetRecord decision, Tree.find key base = .ok baseRecord ∧
    Tree.find key source = .ok sourceRecord ∧ Tree.find key target = .ok targetRecord ∧
    decide platform key baseRecord sourceRecord targetRecord policy = .ok decision

section Failing

variable {base source target : Tree}

/-- A lookup that fails, and is no panic. -/
def Fails (key : Key) (tree : Tree) : Prop :=
  ∃ error, error ≠ .panicked ∧ Tree.find key tree = .error error

theorem Found.not_fails {key : Key} {tree : Tree} (hfound : Found key tree) : ¬Fails key tree := by
  obtain ⟨record, hrecord⟩ := hfound
  rintro ⟨error, -, heq⟩
  rw [hrecord] at heq
  cases heq

/-- Deciding in order fails at the first lookup that fails, if nothing panics before. -/
theorem planBy_fails_iff {keys : List Key} {plan : Plan} :
    (∃ error, error ≠ .panicked ∧ planBy platform policy (Tree.find · base) (Tree.find · source)
        (Tree.find · target) keys plan = .error error) ↔
      Reaches (Compared platform policy base source target)
        (fun key => Reaches (Found key) (Fails key) [base, source, target]) keys := by
  induction keys generalizing plan with
  | nil =>
      refine iff_of_false ?_ StateExcept.not_reaches_nil
      rintro ⟨error, -, heq⟩
      cases heq
  | cons key keys ih =>
      have hinner : Reaches (Found key) (Fails key) [base, source, target] ↔
          Fails key base ∨ Found key base ∧ (Fails key source ∨ Found key source ∧
            Fails key target) := by
        simp only [StateExcept.reaches_cons, StateExcept.not_reaches_nil, and_false, or_false]
      rw [StateExcept.reaches_cons, hinner, planBy]
      cases hbase : Tree.find key base with
      | error error =>
          have hnone : ¬Found key base := fun ⟨_, hfound⟩ => by rw [hbase] at hfound; cases hfound
          rw [or_iff_left fun hlater => hnone (by
            obtain ⟨record, _, _, _, hrecord, -⟩ := hlater.1
            exact ⟨record, hrecord⟩), or_iff_left fun hlater => hnone hlater.1, Fails, hbase]
          simp only [bind, Except.bind, Except.error.injEq]
      | ok baseRecord =>
      have hfoundBase : Found key base := ⟨baseRecord, hbase⟩
      rw [or_iff_right hfoundBase.not_fails, and_iff_right hfoundBase]
      cases hsource : Tree.find key source with
      | error error =>
          have hnone : ¬Found key source :=
            fun ⟨_, hfound⟩ => by rw [hsource] at hfound; cases hfound
          rw [or_iff_left fun hlater => hnone (by
            obtain ⟨_, record, _, _, -, hrecord, -⟩ := hlater.1
            exact ⟨record, hrecord⟩), or_iff_left fun hlater => hnone hlater.1, Fails, hsource]
          simp only [bind, Except.bind, Except.error.injEq]
      | ok sourceRecord =>
      have hfoundSource : Found key source := ⟨sourceRecord, hsource⟩
      rw [or_iff_right hfoundSource.not_fails, and_iff_right hfoundSource]
      cases htarget : Tree.find key target with
      | error error =>
          have hnone : ¬Found key target :=
            fun ⟨_, hfound⟩ => by rw [htarget] at hfound; cases hfound
          rw [or_iff_left fun hlater => hnone (by
            obtain ⟨_, _, record, _, -, -, hrecord, -⟩ := hlater.1
            exact ⟨record, hrecord⟩), Fails, htarget]
          simp only [bind, Except.bind, Except.error.injEq]
      | ok targetRecord =>
      have hfoundTarget : Found key target := ⟨targetRecord, htarget⟩
      rw [or_iff_right hfoundTarget.not_fails]
      simp only [bind, Except.bind]
      cases hdecision : decide platform key baseRecord sourceRecord targetRecord policy with
      | error error =>
          obtain ⟨rfl, -⟩ := decide_eq_error.mp hdecision
          refine iff_of_false (fun ⟨error, herror, heq⟩ => herror (Except.error.inj heq).symm) ?_
          rintro ⟨⟨_, _, _, _, hbase', hsource', htarget', hdecided⟩, -⟩
          rw [hbase] at hbase'
          rw [hsource] at hsource'
          rw [htarget] at htarget'
          obtain rfl := Except.ok.inj hbase'
          obtain rfl := Except.ok.inj hsource'
          obtain rfl := Except.ok.inj htarget'
          rw [hdecision] at hdecided
          cases hdecided
      | ok decision =>
          rw [and_iff_right ⟨_, _, _, decision, hbase, hsource, htarget, hdecision⟩]
          exact ih

end Failing

/-- A side of a merge, and its tree. -/
abbrev Side := CommitId × Tree

/-- A lookup reads a damaged page. -/
def Touches (damaged : CommitId → PageNo → Prop) (key : Key) (side : Side) : Prop :=
  ∃ page ∈ side.2.path key, damaged side.1 page

/-- Where no lookup that is made reads a damaged page, deciding is as if there were none. -/
theorem planBy_congr {damaged : CommitId → PageNo → Prop} {base source target : Side} {base' source' target' : Tree}
    {keys : List Key} {plan : Plan}
    (hbase : ∀ key, ¬Touches damaged key base → Tree.find key base' = Tree.find key base.2)
    (hsource : ∀ key, ¬Touches damaged key source → Tree.find key source' = Tree.find key source.2)
    (htarget : ∀ key, ¬Touches damaged key target → Tree.find key target' = Tree.find key target.2)
    (hnone : ¬Reaches (Compared platform policy base.2 source.2 target.2)
      (fun key => Reaches (fun side : Side => Found key side.2) (Touches damaged key)
        [base, source, target]) keys) :
    planBy platform policy (Tree.find · base') (Tree.find · source') (Tree.find · target') keys
        plan =
      planBy platform policy (Tree.find · base.2) (Tree.find · source.2) (Tree.find · target.2)
        keys plan := by
  induction keys generalizing plan with
  | nil => rfl
  | cons key keys ih =>
      rw [StateExcept.reaches_cons, StateExcept.reaches_cons, StateExcept.reaches_cons,
        StateExcept.reaches_cons] at hnone
      obtain ⟨htouches, hlater⟩ := not_or.mp hnone
      obtain ⟨hcleanBase, htouches⟩ := not_or.mp htouches
      rw [planBy, planBy, hbase key hcleanBase]
      cases hfindBase : Tree.find key base.2 with
      | error error => rfl
      | ok baseRecord =>
      have hfound : Found key base.2 := ⟨baseRecord, hfindBase⟩
      obtain ⟨hcleanSource, htouches⟩ := not_or.mp fun htouched => htouches ⟨hfound, htouched⟩
      rw [hsource key hcleanSource]
      cases hfindSource : Tree.find key source.2 with
      | error error => rfl
      | ok sourceRecord =>
      have hfound : Found key source.2 := ⟨sourceRecord, hfindSource⟩
      have hcleanTarget : ¬Touches damaged key target :=
        fun htouched => htouches ⟨hfound, Or.inl htouched⟩
      rw [htarget key hcleanTarget]
      cases hfindTarget : Tree.find key target.2 with
      | error error => rfl
      | ok targetRecord =>
      simp only [bind, Except.bind]
      cases hdecision : decide platform key baseRecord sourceRecord targetRecord policy with
      | error error => rfl
      | ok decision =>
          exact ih fun hreaches => hlater ⟨⟨_, _, _, decision, hfindBase, hfindSource,
            hfindTarget, hdecision⟩, hreaches⟩

end Deciding

/-! ## Opening -/

section Opening

variable {σ : Type} {platform : Platform} {policy : MergePolicy} {pager : Substrate σ} {state : σ}
  {base source target commit : CommitId}

/-- The tree of a commit. -/
def Substrate.opened (pager : Substrate σ) (state : σ) (commit : CommitId) :
    Except LoomError Tree := do
  let store ← (pager.fork state commit).mapError LoomError.pager
  Tree.openTree store

/-- The page store gives the pages that changed, and the three commits. -/
structure Forked (pager : Substrate σ) (state : σ) (base source target : CommitId) : Prop where
  changed : ∃ changed, pager.diff3 state base source target = .ok changed
  stores : ∀ commit ∈ [base, source, target], ∃ store, pager.fork state commit = .ok store

/-- The pages that changed, and the three trees. -/
structure Opened (pager : Substrate σ) (state : σ) (base source target : CommitId)
    (changed : List PageNo) (baseTree sourceTree targetTree : Tree) : Prop where
  changed : pager.diff3 state base source target = .ok changed
  base : pager.opened state base = .ok baseTree
  source : pager.opened state source = .ok sourceTree
  target : pager.opened state target = .ok targetTree

theorem opened_of_fork {store : Snapshot} (hfork : pager.fork state commit = .ok store) :
    pager.opened state commit = Tree.openTree store := by
  rw [Substrate.opened, hfork]
  rfl

theorem opened_eq_ok {tree : Tree} :
    pager.opened state commit = .ok tree ↔
      ∃ store, pager.fork state commit = .ok store ∧ Tree.openTree store = .ok tree := by
  rw [Substrate.opened, StateExcept.except_bind_eq_ok]
  simp only [StateExcept.except_mapError_eq_ok]

theorem Opened.forked {changed : List PageNo} {baseTree sourceTree targetTree : Tree}
    (hopened : Opened pager state base source target changed baseTree sourceTree targetTree) :
    Forked pager state base source target := by
  obtain ⟨baseStore, hbase, -⟩ := opened_eq_ok.mp hopened.base
  obtain ⟨sourceStore, hsource, -⟩ := opened_eq_ok.mp hopened.source
  obtain ⟨targetStore, htarget, -⟩ := opened_eq_ok.mp hopened.target
  refine ⟨⟨changed, hopened.changed⟩, fun commit hcommit => ?_⟩
  simp only [List.mem_cons, List.not_mem_nil, or_false] at hcommit
  obtain rfl | rfl | rfl := hcommit
  · exact ⟨baseStore, hbase⟩
  · exact ⟨sourceStore, hsource⟩
  · exact ⟨targetStore, htarget⟩

/-- The keys of the pages that changed, in terms of the trees. -/
theorem candidateKeys_eq_opened {changed : List PageNo}
    {baseStore sourceStore targetStore : Snapshot}
    (hchanged : pager.diff3 state base source target = .ok changed)
    (hbase : pager.fork state base = .ok baseStore)
    (hsource : pager.fork state source = .ok sourceStore)
    (htarget : pager.fork state target = .ok targetStore) :
    candidateKeys pager state base source target = (do
      let base ← pager.opened state base
      let source ← pager.opened state source
      let target ← pager.opened state target
      let (sourceKeys, _) ← Tree.keysInPages changed source
      let (targetKeys, _) ← Tree.keysInPages changed target
      let (baseKeys, _) ← Tree.keysInPages changed base
      let candidates := (ExtTreeSet.ofList (sourceKeys ++ targetKeys ++ baseKeys) compare).toList
      return candidates.filter fun key => !isReserved key) := by
  unfold candidateKeys
  rw [hchanged, hbase, hsource, htarget, opened_of_fork hbase, opened_of_fork hsource,
    opened_of_fork htarget]
  rfl

theorem Opened.of_planMerge {outcome : MergeOutcome}
    (hplan : planMerge platform pager state base source target policy = .ok outcome) :
    ∃ changed baseTree sourceTree targetTree,
      Opened pager state base source target changed baseTree sourceTree targetTree := by
  simp only [planMerge, StateExcept.except_bind_eq_ok, StateExcept.except_mapError_eq_ok] at hplan
  obtain ⟨changed, hchanged, baseStore, hbase, sourceStore, hsource, targetStore, htarget, baseTree,
    hopenBase, sourceTree, hopenSource, targetTree, hopenTarget, -⟩ := hplan
  exact ⟨changed, baseTree, sourceTree, targetTree, hchanged,
    opened_eq_ok.mpr ⟨baseStore, hbase, hopenBase⟩,
    opened_eq_ok.mpr ⟨sourceStore, hsource, hopenSource⟩,
    opened_eq_ok.mpr ⟨targetStore, htarget, hopenTarget⟩⟩

theorem Forked.of_planMerge {outcome : MergeOutcome}
    (hplan : planMerge platform pager state base source target policy = .ok outcome) :
    Forked pager state base source target := by
  obtain ⟨_, _, _, _, hopened⟩ := Opened.of_planMerge hplan
  exact hopened.forked

/-- Planning, in terms of the trees. -/
theorem planMerge_eq_opened (platform : Platform) (policy : MergePolicy) (pager : Substrate σ)
    (state : σ) (base source target : CommitId)
    (hforked : Forked pager state base source target) :
    planMerge platform pager state base source target policy = (do
      let keys ← candidateKeys pager state base source target
      let baseTree ← pager.opened state base
      let sourceTree ← pager.opened state source
      let targetTree ← pager.opened state target
      let plan ← planBy platform policy (Tree.find · baseTree) (Tree.find · sourceTree)
        (Tree.find · targetTree) keys Plan.empty
      return plan.outcome) := by
  obtain ⟨⟨changed, hchanged⟩, hstores⟩ := hforked
  obtain ⟨baseStore, hbase⟩ := hstores base (by simp)
  obtain ⟨sourceStore, hsource⟩ := hstores source (by simp)
  obtain ⟨targetStore, htarget⟩ := hstores target (by simp)
  rw [opened_of_fork hbase, opened_of_fork hsource, opened_of_fork htarget]
  unfold planMerge candidateKeys
  rw [hchanged, hbase, hsource, htarget]
  simp only [Except.mapError, bind, Except.bind]
  cases hopenBase : Tree.openTree baseStore with
  | error error => rfl
  | ok baseTree =>
  cases hopenSource : Tree.openTree sourceStore with
  | error error => rfl
  | ok sourceTree =>
  cases hopenTarget : Tree.openTree targetStore with
  | error error => rfl
  | ok targetTree =>
  obtain ⟨sourceKeys, sourceTree', hsourceKeys⟩ := keysInPages_succeeds changed sourceTree
  obtain ⟨targetKeys, targetTree', htargetKeys⟩ := keysInPages_succeeds changed targetTree
  obtain ⟨baseKeys, baseTree', hbaseKeys⟩ := keysInPages_succeeds changed baseTree
  simp only [hsourceKeys, htargetKeys, hbaseKeys, decideAll_eq_planBy,
    (Tree.keysInPages_same hbaseKeys).find, (Tree.keysInPages_same hsourceKeys).find,
    (Tree.keysInPages_same htargetKeys).find]
  rfl

/-- The keys do not depend on the lookups. -/
theorem Opened.candidateKeys_eq {changed : List PageNo} {baseTree sourceTree targetTree : Tree}
    (hopened : Opened pager state base source target changed baseTree sourceTree targetTree) :
    ∃ sourceKeys targetKeys baseKeys seen seen' seen'',
      Tree.keysInPages changed sourceTree = .ok (sourceKeys, seen) ∧
      Tree.keysInPages changed targetTree = .ok (targetKeys, seen') ∧
      Tree.keysInPages changed baseTree = .ok (baseKeys, seen'') ∧
      candidateKeys pager state base source target =
        .ok ((ExtTreeSet.ofList (sourceKeys ++ targetKeys ++ baseKeys) compare).toList.filter
          fun key => !isReserved key) := by
  obtain ⟨baseStore, hbase, -⟩ := opened_eq_ok.mp hopened.base
  obtain ⟨sourceStore, hsource, -⟩ := opened_eq_ok.mp hopened.source
  obtain ⟨targetStore, htarget, -⟩ := opened_eq_ok.mp hopened.target
  obtain ⟨sourceKeys, seen, hsourceKeys⟩ := keysInPages_succeeds changed sourceTree
  obtain ⟨targetKeys, seen', htargetKeys⟩ := keysInPages_succeeds changed targetTree
  obtain ⟨baseKeys, seen'', hbaseKeys⟩ := keysInPages_succeeds changed baseTree
  refine ⟨sourceKeys, targetKeys, baseKeys, seen, seen', seen'', hsourceKeys, htargetKeys,
    hbaseKeys, ?_⟩
  rw [candidateKeys_eq_opened hopened.changed hbase hsource htarget, hopened.base,
    hopened.source, hopened.target]
  simp only [hsourceKeys, htargetKeys, hbaseKeys, bind, Except.bind]
  rfl

/-- A plan from the trees. -/
theorem Opened.planMerge_eq {changed : List PageNo} {baseTree sourceTree targetTree : Tree}
    {keys : List Key}
    (hopened : Opened pager state base source target changed baseTree sourceTree targetTree)
    (hkeys : candidateKeys pager state base source target = .ok keys) :
    planMerge platform pager state base source target policy =
      (planBy platform policy (Tree.find · baseTree) (Tree.find · sourceTree)
        (Tree.find · targetTree) keys Plan.empty).map Plan.outcome := by
  rw [planMerge_eq_opened _ _ _ _ _ _ _ hopened.forked, hkeys, hopened.base, hopened.source,
    hopened.target]
  simp only [bind, Except.bind]
  cases planBy platform policy (Tree.find · baseTree) (Tree.find · sourceTree)
    (Tree.find · targetTree) keys Plan.empty <;> rfl

/-! ## Stopping -/

/-- A metadata page of the three commits is refused. -/
def RefusesOpening (pager : Substrate σ) (state : σ) (base source target : CommitId) : Prop :=
  ∃ commit ∈ [base, source, target], ∃ store, pager.fork state commit = .ok store ∧
    store.RefusesMeta

theorem opened_fails (hfork : ∃ store, pager.fork state commit = .ok store) :
    ((∃ store, pager.fork state commit = .ok store ∧ store.RefusesMeta) ∧
      ∃ error, error ≠ .panicked ∧ pager.opened state commit = .error error) ∨
    (¬∃ store, pager.fork state commit = .ok store ∧ store.RefusesMeta) ∧
      ∃ tree, pager.opened state commit = .ok tree ∧ tree.dirty = ∅ := by
  obtain ⟨store, hfork⟩ := hfork
  rw [opened_of_fork hfork]
  rcases Tree.openTree_fails store with
    ⟨hrefuses, error, herror, hopen⟩ | ⟨haccepts, tree, hopen, -, hclean⟩
  · exact Or.inl ⟨⟨store, hfork, hrefuses⟩, error, herror, hopen⟩
  · refine Or.inr ⟨?_, tree, hopen, hclean⟩
    rintro ⟨other, hother, hrefuses⟩
    obtain rfl := Except.ok.inj (hfork.symm.trans hother)
    exact haccepts hrefuses

/-- Opening three trees in order fails at the first that is refused. -/
theorem opening_cases (platform : Platform) (policy : MergePolicy)
    (hforked : Forked pager state base source target) :
    (RefusesOpening pager state base source target ∧ ∃ error, error ≠ .panicked ∧
      planMerge platform pager state base source target policy = .error error) ∨
    ¬RefusesOpening pager state base source target ∧
      ∃ changed baseTree sourceTree targetTree,
        Opened pager state base source target changed baseTree sourceTree targetTree ∧
        baseTree.dirty = ∅ ∧ sourceTree.dirty = ∅ ∧ targetTree.dirty = ∅ := by
  have hplan := planMerge_eq_opened platform policy pager state base source target hforked
  obtain ⟨⟨changed, hchanged⟩, hstores⟩ := hforked
  have hfails : ∀ error, candidateKeys pager state base source target = .error error →
      planMerge platform pager state base source target policy = .error error := by
    intro error hkeys
    rw [hplan, hkeys]
    rfl
  obtain ⟨baseStore, hbase⟩ := hstores base (by simp)
  obtain ⟨sourceStore, hsource⟩ := hstores source (by simp)
  obtain ⟨targetStore, htarget⟩ := hstores target (by simp)
  have hkeys := candidateKeys_eq_opened hchanged hbase hsource htarget
  unfold RefusesOpening
  simp only [List.exists_mem_cons_iff, List.not_mem_nil, false_and, exists_false, or_false]
  rcases opened_fails ⟨baseStore, hbase⟩ with
    ⟨hrefuses, error, herror, hopen⟩ | ⟨hacceptsBase, baseTree, hopenBase, hcleanBase⟩
  · refine Or.inl ⟨Or.inl hrefuses, error, herror, hfails error ?_⟩
    rw [hkeys, hopen]
    rfl
  rcases opened_fails ⟨sourceStore, hsource⟩ with
    ⟨hrefuses, error, herror, hopen⟩ | ⟨hacceptsSource, sourceTree, hopenSource, hcleanSource⟩
  · refine Or.inl ⟨Or.inr (Or.inl hrefuses), error, herror, hfails error ?_⟩
    rw [hkeys, hopenBase, hopen]
    rfl
  rcases opened_fails ⟨targetStore, htarget⟩ with
    ⟨hrefuses, error, herror, hopen⟩ | ⟨hacceptsTarget, targetTree, hopenTarget, hcleanTarget⟩
  · refine Or.inl ⟨Or.inr (Or.inr hrefuses), error, herror, hfails error ?_⟩
    rw [hkeys, hopenBase, hopenSource, hopen]
    rfl
  · refine Or.inr ⟨?_, changed, baseTree, sourceTree, targetTree,
      ⟨hchanged, hopenBase, hopenSource, hopenTarget⟩, hcleanBase, hcleanSource, hcleanTarget⟩
    rintro (hrefuses | hrefuses | hrefuses)
    · exact hacceptsBase hrefuses
    · exact hacceptsSource hrefuses
    · exact hacceptsTarget hrefuses

/-- A page that is refused stops the planning. -/
inductive PlanStops (platform : Platform) (policy : MergePolicy) (pager : Substrate σ) (state : σ)
    (base source target : CommitId) : Prop
  | opening (forked : Forked pager state base source target)
      (refuses : RefusesOpening pager state base source target) :
      PlanStops platform policy pager state base source target
  | comparing {changed : List PageNo} {baseTree sourceTree targetTree : Tree} {keys : List Key}
      (opened : Opened pager state base source target changed baseTree sourceTree targetTree)
      (candidates : candidateKeys pager state base source target = .ok keys)
      (reaches : Reaches (Compared platform policy baseTree sourceTree targetTree)
        (fun key => Reaches (Found key)
          (fun tree => ∃ page ∈ tree.path key, tree.store.Refuses page)
          [baseTree, sourceTree, targetTree]) keys) :
      PlanStops platform policy pager state base source target

/-- Planning fails, and does not panic, where a page it needs is refused. -/
theorem planMerge_fails_iff (hforked : Forked pager state base source target) :
    (∃ error, error ≠ .panicked ∧
        planMerge platform pager state base source target policy = .error error) ↔
      PlanStops platform policy pager state base source target := by
  rcases opening_cases platform policy hforked with
    ⟨hrefuses, hfails⟩ | ⟨haccepts, changed, baseTree, sourceTree, targetTree, hopened, hclean⟩
  · exact iff_of_true hfails (.opening hforked hrefuses)
  obtain ⟨hcleanBase, hcleanSource, hcleanTarget⟩ := hclean
  obtain ⟨_, _, _, _, _, _, -, -, -, hkeys⟩ := hopened.candidateKeys_eq
  have hrefusals : ∀ key, Reaches (Found key) (Fails key) [baseTree, sourceTree, targetTree] ↔
      Reaches (Found key) (fun tree => ∃ page ∈ tree.path key, tree.store.Refuses page)
        [baseTree, sourceTree, targetTree] := by
    intro key
    simp only [StateExcept.reaches_cons, Fails, Tree.find_fails_iff hcleanBase,
      Tree.find_fails_iff hcleanSource, Tree.find_fails_iff hcleanTarget,
      StateExcept.not_reaches_nil]
  rw [hopened.planMerge_eq hkeys]
  simp only [StateExcept.except_map_eq_error]
  rw [planBy_fails_iff]
  simp only [hrefusals]
  constructor
  · exact fun hreaches => .comparing hopened hkeys hreaches
  · intro hstops
    cases hstops with
    | opening forked refuses => exact absurd refuses haccepts
    | comparing opened candidates reaches =>
        obtain rfl := Except.ok.inj (hkeys.symm.trans candidates)
        obtain rfl := Except.ok.inj (hopened.base.symm.trans opened.base)
        obtain rfl := Except.ok.inj (hopened.source.symm.trans opened.source)
        obtain rfl := Except.ok.inj (hopened.target.symm.trans opened.target)
        exact reaches

/-! ## Faults -/

/-- A page store whose pages have faults. -/
def Substrate.withFaults (faults : Faults) (pager : Substrate σ) : Substrate σ :=
  { pager with
    fork := fun state commit => (pager.fork state commit).map (Snapshot.withFaults (faults commit)) }

theorem diff3_withFaults (faults : Faults) (pager : Substrate σ) :
    (pager.withFaults faults).diff3 = pager.diff3 := rfl

/-- The commit has the page, and it has a fault. -/
def Substrate.Damaged (faults : Faults) (pager : Substrate σ) (state : σ) (commit : CommitId)
    (page : PageNo) : Prop :=
  ∃ store, pager.fork state commit = .ok store ∧ store.Damaged (faults commit) page

/-- Planning reads a damaged page: a metadata page, a page whose keys it collects, or one on the
way to a key it looks up. -/
inductive PlanReadFails (faults : Faults) (platform : Platform) (policy : MergePolicy)
    (pager : Substrate σ) (state : σ) (base source target : CommitId) : Prop
  | opening {commit : CommitId} (forked : Forked (pager.withFaults faults) state base source target)
      (side : commit ∈ [base, source, target])
      (damaged : pager.Damaged faults state commit META_PAGE) :
      PlanReadFails faults platform policy pager state base source target
  | collecting {changed : List PageNo} {baseTree sourceTree targetTree : Tree} {commit : CommitId}
      {page : PageNo}
      (opened : Opened (pager.withFaults faults) state base source target changed baseTree
        sourceTree targetTree)
      (side : commit ∈ [base, source, target]) (listed : page ∈ changed) (node : page ≠ META_PAGE)
      (damaged : pager.Damaged faults state commit page) :
      PlanReadFails faults platform policy pager state base source target
  | comparing {changed : List PageNo} {baseTree sourceTree targetTree : Tree} {keys : List Key}
      (opened : Opened (pager.withFaults faults) state base source target changed baseTree
        sourceTree targetTree)
      (candidates : candidateKeys (pager.withFaults faults) state base source target = .ok keys)
      (reaches : Reaches (Compared platform policy baseTree sourceTree targetTree)
        (fun key => Reaches (fun side : Side => Found key side.2)
          (Touches (pager.Damaged faults state) key)
          [(base, baseTree), (source, sourceTree), (target, targetTree)]) keys) :
      PlanReadFails faults platform policy pager state base source target

variable {faults : Faults}

theorem PlanReadFails.forked
    (hfails : PlanReadFails faults platform policy pager state base source target) :
    Forked (pager.withFaults faults) state base source target := by
  cases hfails with
  | opening forked => exact forked
  | collecting opened => exact opened.forked
  | comparing opened => exact opened.forked

/-- Two trees that read the same but at the damaged pages. -/
structure AgreeBut (damaged : PageNo → Prop) (tree tree' : Tree) : Prop where
  dirty : tree.dirty = tree'.dirty
  info : tree.info = tree'.info
  reads : ∀ page, ¬damaged page → tree.store.readHead page = tree'.store.readHead page

theorem AgreeBut.find {damaged : CommitId → PageNo → Prop} {tree tree' : Tree} {key : Key}
    (hagree : AgreeBut (damaged commit) tree tree')
    (hclean : ¬Touches damaged key (commit, tree')) : Tree.find key tree = Tree.find key tree' :=
  (Tree.find_congr hagree.dirty hagree.info fun page hpage =>
    hagree.reads page fun hdamaged => hclean ⟨page, hpage, hdamaged⟩).1

theorem AgreeBut.keys {damaged : PageNo → Prop} {tree tree' seen seen' : Tree}
    {changed : List PageNo} {keys keys' : List Key} (hagree : AgreeBut damaged tree tree')
    (hnone : ∀ page ∈ changed, page ≠ META_PAGE → ¬damaged page)
    (hkeys : Tree.keysInPages changed tree = .ok (keys, seen))
    (hkeys' : Tree.keysInPages changed tree' = .ok (keys', seen')) : keys = keys' := by
  obtain ⟨both, _, _, hboth', hboth, -, -⟩ := Tree.keysInPages_congr hagree.dirty
    fun page hpage hnode => hagree.reads page (hnone page hpage hnode)
  rw [hkeys] at hboth
  rw [hkeys'] at hboth'
  exact (Prod.mk.inj (Except.ok.inj hboth)).1.trans (Prod.mk.inj (Except.ok.inj hboth')).1.symm

theorem fork_withFaults {store : Snapshot} (hfork : pager.fork state commit = .ok store) :
    (pager.withFaults faults).fork state commit = .ok (store.withFaults (faults commit)) := by
  simp only [Substrate.withFaults, hfork]
  rfl

theorem opened_withFaults (pager : Substrate σ) (state : σ)
    (hnone : ¬pager.Damaged faults state commit META_PAGE) :
    (∃ error, pager.opened state commit = .error error ∧
      (pager.withFaults faults).opened state commit = .error error) ∨
    ∃ tree tree', pager.opened state commit = .ok tree ∧
      (pager.withFaults faults).opened state commit = .ok tree' ∧
      AgreeBut (pager.Damaged faults state commit) tree tree' := by
  cases hfork : pager.fork state commit with
  | error error =>
      refine Or.inl ⟨.pager error, ?_, ?_⟩
      · rw [Substrate.opened, hfork]
        rfl
      · simp only [Substrate.opened, Substrate.withFaults, hfork]
        rfl
  | ok store =>
      rw [opened_of_fork hfork, opened_of_fork (fork_withFaults hfork),
        Tree.openTree_congr (Snapshot.readHead_withFaults fun hdamaged =>
          hnone ⟨store, hfork, hdamaged⟩)]
      cases hopen : Tree.openTree store with
      | error error => exact Or.inl ⟨error, rfl, rfl⟩
      | ok tree =>
          refine Or.inr ⟨tree, _, rfl, rfl, rfl, rfl, fun page hpage => ?_⟩
          have hstore : tree.store = store := by
            rcases Tree.openTree_fails store with ⟨-, error, -, herror⟩ | ⟨-, other, hother, hsame, -⟩
            · rw [hopen] at herror
              cases herror
            · obtain rfl := Except.ok.inj (hopen.symm.trans hother)
              exact hsame
          rw [hstore]
          exact (Snapshot.readHead_withFaults fun hdamaged =>
            hpage ⟨store, hfork, hdamaged⟩).symm

/-- A merge whose planning reads no damaged page is planned as if there were none. -/
theorem planMerge_withFaults
    (hnone : ¬PlanReadFails faults platform policy pager state base source target) :
    planMerge platform (pager.withFaults faults) state base source target policy =
      planMerge platform pager state base source target policy := by
  cases hchanged : pager.diff3 state base source target with
  | error error =>
      simp only [planMerge, Substrate.withFaults, hchanged]
      rfl
  | ok changed =>
  cases hbase : pager.fork state base with
  | error error =>
      simp only [planMerge, Substrate.withFaults, hchanged, hbase]
      rfl
  | ok baseStore =>
  cases hsource : pager.fork state source with
  | error error =>
      simp only [planMerge, Substrate.withFaults, hchanged, hbase, hsource]
      rfl
  | ok sourceStore =>
  cases htarget : pager.fork state target with
  | error error =>
      simp only [planMerge, Substrate.withFaults, hchanged, hbase, hsource, htarget]
      rfl
  | ok targetStore =>
  have hstores : ∀ commit ∈ [base, source, target], ∃ store, pager.fork state commit = .ok store := by
    simp only [List.forall_mem_cons, List.not_mem_nil]
    exact ⟨⟨_, hbase⟩, ⟨_, hsource⟩, ⟨_, htarget⟩, fun _ hmem => hmem.elim⟩
  have hforked : Forked pager state base source target := ⟨⟨changed, hchanged⟩, hstores⟩
  have hforked' : Forked (pager.withFaults faults) state base source target :=
    ⟨⟨changed, hchanged⟩, fun commit hcommit =>
      (hstores commit hcommit).elim fun _ hfork => ⟨_, fork_withFaults hfork⟩⟩
  have hmeta : ∀ commit ∈ [base, source, target], ¬pager.Damaged faults state commit META_PAGE :=
    fun commit hcommit hdamaged => hnone (.opening hforked' hcommit hdamaged)
  have hkeys := candidateKeys_eq_opened hchanged hbase hsource htarget
  have hkeys' : candidateKeys (pager.withFaults faults) state base source target = _ :=
    candidateKeys_eq_opened hchanged (fork_withFaults hbase) (fork_withFaults hsource)
      (fork_withFaults htarget)
  have hplan := planMerge_eq_opened platform policy pager state base source target hforked
  have hplan' := planMerge_eq_opened platform policy (pager.withFaults faults) state base source
    target hforked'
  rcases opened_withFaults pager state (hmeta base (by simp)) with
    ⟨error, hopen, hopen'⟩ | ⟨baseTree, baseTree', hopenBase, hopenBase', hagreeBase⟩
  · rw [hplan, hplan', hkeys, hkeys', hopen, hopen']
    rfl
  rcases opened_withFaults pager state (hmeta source (by simp)) with
    ⟨error, hopen, hopen'⟩ | ⟨sourceTree, sourceTree', hopenSource, hopenSource', hagreeSource⟩
  · rw [hplan, hplan', hkeys, hkeys', hopenBase, hopenBase', hopen, hopen']
    rfl
  rcases opened_withFaults pager state (hmeta target (by simp)) with
    ⟨error, hopen, hopen'⟩ | ⟨targetTree, targetTree', hopenTarget, hopenTarget', hagreeTarget⟩
  · rw [hplan, hplan', hkeys, hkeys', hopenBase, hopenBase', hopenSource, hopenSource', hopen,
      hopen']
    rfl
  have hopened : Opened pager state base source target changed baseTree sourceTree targetTree :=
    ⟨hchanged, hopenBase, hopenSource, hopenTarget⟩
  have hopened' : Opened (pager.withFaults faults) state base source target changed baseTree'
    sourceTree' targetTree' := ⟨hchanged, hopenBase', hopenSource', hopenTarget'⟩
  have hlisted : ∀ commit ∈ [base, source, target], ∀ page ∈ changed, page ≠ META_PAGE →
      ¬pager.Damaged faults state commit page :=
    fun commit hcommit page hpage hnode hdamaged =>
      hnone (.collecting hopened' hcommit hpage hnode hdamaged)
  obtain ⟨_, _, _, _, _, _, hsourceKeys, htargetKeys, hbaseKeys, hcandidates⟩ :=
    hopened.candidateKeys_eq
  obtain ⟨_, _, _, _, _, _, hsourceKeys', htargetKeys', hbaseKeys', hcandidates'⟩ :=
    hopened'.candidateKeys_eq
  rw [hagreeSource.keys (hlisted source (by simp)) hsourceKeys hsourceKeys',
    hagreeTarget.keys (hlisted target (by simp)) htargetKeys htargetKeys',
    hagreeBase.keys (hlisted base (by simp)) hbaseKeys hbaseKeys'] at hcandidates
  rw [hopened.planMerge_eq hcandidates, hopened'.planMerge_eq hcandidates']
  exact congrArg _ (planBy_congr (fun key => hagreeBase.find) (fun key => hagreeSource.find)
    (fun key => hagreeTarget.find)
    fun hreaches => hnone (.comparing hopened' hcandidates' hreaches)).symm

end Opening

end LoomDB
