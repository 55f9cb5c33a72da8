import LoomDB.Branch.History
import LoomDB.Branch.Keyspace

/-!
# What a token can show

A token names the branches it covers, and every call checks the branch it is
given. The commits in the history of those branches, and the ones made on them,
are closed under parents; a read of a branch, a scan and a merge stay inside. A
commit that is named outright is not looked for in any history.
-/

namespace LoomDB

open Std (ExtTreeMap ExtTreeSet)
open Ancestry (Ancestor)

namespace Call

/-- The token a call is made with. -/
def token : Call → Option CapabilityToken
  | .branch token _ _ => some token
  | .rewind token _ _ => some token
  | .read token _ _ => some token
  | .readAt token _ _ _ => some token
  | .scan token _ => some token
  | .write token _ _ _ _ => some token
  | .invalidate token _ _ _ => some token
  | .merge token _ _ _ _ _ => some token
  | .maintain token _ _ => some token
  | _ => none

/-- The branch a call puts a commit of its own on. -/
def commitsOn : Call → Option BranchId
  | .write _ onto _ _ _ => some onto
  | .invalidate _ onto _ _ => some onto
  | .merge _ _ target _ _ _ => some target
  | .maintain _ onto _ => some onto
  | _ => none

end Call

def ConflictRecords.toList (records : ConflictRecords) : List Record :=
  records.base.toList ++ records.source.toList ++ records.target.toList

/-- The records whose contents an answer shows. -/
def Answer.contents : Answer → List Record
  | .record found => found.toList
  | .records found => found.map Prod.snd
  | .merge (.conflict reports) => reports.flatMap fun report => report.records.toList
  | _ => []

namespace Engine

variable {σ ρ α : Type} {engine : Engine σ ρ} {lawful : engine.pager.Lawful}
  {loom loom' : Loom σ ρ} {scope : ExtTreeSet BranchId} {known : Set CommitId}

/-! ## Commits a scope covers -/

/-- The commits in the history of a branch of the scope. -/
def historyOf (engine : Engine σ ρ) (scope : ExtTreeSet BranchId) (loom : Loom σ ρ) :
    Set CommitId :=
  {commit | ∃ branch ∈ scope, ∃ head, loom.refs.branches[branch]? = some head ∧
    Ancestor (engine.parentsOf loom) head commit}

/-- The commits a call makes on the branches of the scope. -/
def madeBy (engine : Engine σ ρ) (scope : ExtTreeSet BranchId) (loom : Loom σ ρ) (call : Call) :
    Set CommitId :=
  {commit | ∃ branch ∈ scope, call.commitsOn = some branch ∧
    loom.refs.branches[branch]? ≠ some commit ∧
    (engine.after call loom).refs.branches[branch]? = some commit}

/-- The record is stored by one of the commits. -/
def Shown (lawful : engine.pager.Lawful) (loom : Loom σ ρ) (known : Set CommitId)
    (record : Record) : Prop :=
  ∃ commit ∈ known, ∃ (map : RecordMap) (key : Key), lawful.Stores loom.pager commit map ∧
    map[key]? = some record

/-- Everything the calls return is stored by a commit that is known from the start
or that a call made on the branches of the scope. -/
def Contained (lawful : engine.pager.Lawful) (scope : ExtTreeSet BranchId) :
    Set CommitId → Loom σ ρ → List Call → Prop
  | _, _, [] => True
  | known, loom, call :: calls =>
      (∀ answer, (engine.call call loom).1 = .ok answer → ∀ record ∈ answer.contents,
        Shown lawful (engine.after call loom) (known ∪ madeBy engine scope loom call) record) ∧
      Contained lawful scope (known ∪ madeBy engine scope loom call) (engine.after call loom) calls

/-- A commit that an admitted read or rewind names is known. -/
def NamesKnown (engine : Engine σ ρ) (known : Set CommitId) (loom : Loom σ ρ) : Call → Prop
  | .readAt token branch commit _ => admits engine loom token branch = .ok () → commit ∈ known
  | .rewind token branch commit => admits engine loom token branch = .ok () → commit ∈ known
  | _ => True

/-- So it is with every call of a run. -/
def AllNameKnown (engine : Engine σ ρ) (scope : ExtTreeSet BranchId) :
    Set CommitId → Loom σ ρ → List Call → Prop
  | _, _, [] => True
  | known, loom, call :: calls => NamesKnown engine known loom call ∧
      AllNameKnown engine scope (known ∪ madeBy engine scope loom call) (engine.after call loom)
        calls

/-! ## One call -/

/-- The heads of the scope are known, and so are the parents of what is known. -/
structure Covers (engine : Engine σ ρ) (scope : ExtTreeSet BranchId) (known : Set CommitId)
    (loom : Loom σ ρ) : Prop where
  heads : ∀ {branch : BranchId} {head : CommitId}, branch ∈ scope →
    loom.refs.branches[branch]? = some head → head ∈ known
  parents : ∀ {child parent : CommitId}, child ∈ known →
    parent ∈ engine.parentsOf loom child → parent ∈ known

theorem covers_historyOf : Covers engine scope (historyOf engine scope loom) loom where
  heads {branch head} hscope hhead := ⟨branch, hscope, head, hhead, .refl _ _⟩
  parents := by
    rintro child parent ⟨branch, hscope, head, hhead, hchild⟩ hparent
    exact ⟨branch, hscope, head, hhead, hchild.trans (.of_parent hparent)⟩

theorem Covers.ancestor (hcovers : Covers engine scope known loom) {start commit : CommitId}
    (hstart : start ∈ known) (hancestor : Ancestor (engine.parentsOf loom) start commit) :
    commit ∈ known := by
  induction hancestor with
  | refl => exact hstart
  | tail _ hparent ih => exact hcovers.parents ih hparent

/-- An admitted branch is in the scope. -/
theorem mem_scope_of_admits {token : CapabilityToken} {branch : BranchId}
    (hadmits : admits engine loom token branch = .ok ()) : branch ∈ token.claims.scope := by
  unfold admits TokenIssuer.authorize at hadmits
  split at hadmits
  · cases hadmits
  · split at hadmits
    · cases hadmits
    · split at hadmits
      · cases hadmits
      · split at hadmits
        · cases hadmits
        · next hscope => simpa using hscope

theorem mem_scope_of_writeAdmits {token : CapabilityToken} {branch : BranchId}
    {envelope : WriteEnvelope} (hadmits : writeAdmits engine loom token branch envelope = .ok ()) :
    branch ∈ token.claims.scope := by
  obtain ⟨_, -, hadmits⟩ := StateExcept.except_bind_eq_ok.mp hadmits
  exact mem_scope_of_admits hadmits

theorem Shown.of_extends {known' : Set CommitId} {record : Record}
    (hextends : lawful.Extends loom.pager loom'.pager) (hsubset : known ⊆ known')
    (hshown : Shown lawful loom known record) : Shown lawful loom' known' record := by
  obtain ⟨commit, hcommit, map, key, hstores, hrecord⟩ := hshown
  exact ⟨commit, hsubset hcommit, map, key, hextends.stores hstores, hrecord⟩

/-! ### What the call leaves -/

theorem Covers.of_edits (hcovers : Covers engine scope known loom)
    (hparents : engine.parentsOf loom' = engine.parentsOf loom)
    (hheads : ∀ {branch : BranchId} {head : CommitId}, branch ∈ scope →
      loom'.refs.branches[branch]? = some head → head ∈ known) :
    Covers engine scope known loom' where
  heads := hheads
  parents hchild hparent := hcovers.parents hchild (hparents ▸ hparent)

/-- A branch set to a known commit. -/
theorem Covers.of_insert (hcovers : Covers engine scope known loom) {name : BranchId}
    {commit : CommitId} (hcommit : commit ∈ known)
    (hbranches : loom'.refs.branches = loom.refs.branches.insert name commit)
    (hparents : engine.parentsOf loom' = engine.parentsOf loom) :
    Covers engine scope known loom' := by
  refine hcovers.of_edits hparents fun {branch head} hscope hhead => ?_
  rw [hbranches, OrderedMap.getElem?_insert] at hhead
  split at hhead
  · exact Option.some.inj hhead ▸ hcommit
  · exact hcovers.heads hscope hhead

theorem Covers.of_unmoved (hcovers : Covers engine scope known loom)
    (hunmoved : Unmoved lawful loom loom') : Covers engine scope known loom' :=
  hcovers.of_edits hunmoved.parentsOf fun hscope hhead =>
    hcovers.heads hscope (hunmoved.refs ▸ hhead)

theorem Advanced.branches {program : RecordProgram α} {branch : BranchId}
    {base commit : CommitId} {result : α} {map map' : RecordMap}
    {persisted : Except LoomError Unit}
    (hadvanced : Advanced lawful program branch base commit result map map' persisted loom loom') :
    loom'.refs.branches = loom.refs.branches.insert branch commit := by
  rw [hadvanced.filed.branches, branches_advanceEdits]

theorem Unmoved.shows {branch : BranchId} {map : RecordMap} (hunmoved : Unmoved lawful loom loom')
    (hshows : Shows lawful loom branch map) : Shows lawful loom' branch map := by
  obtain ⟨commit, hhead, hstores⟩ := hshows.ofHead
  exact ⟨commit, hunmoved.refs ▸ hhead, hunmoved.pager.extended.stores hstores⟩

/-- A transaction put on a branch changes what that branch shows. -/
theorem Advanced.shows {α : Type} {program : RecordProgram α} {branch other : BranchId}
    {base commit : CommitId} {result : α} {map map' shown : RecordMap}
    {persisted : Except LoomError Unit}
    (hadvanced : Advanced lawful program branch base commit result map map' persisted loom loom')
    (hshows : Shows lawful loom other shown) :
    other ≠ branch ∧ Shows lawful loom' other shown ∨
      other = branch ∧ shown = map ∧ Shows lawful loom' other map' := by
  obtain ⟨head, hhead, hstores⟩ := hshows.ofHead
  by_cases hother : other = branch
  · subst hother
    obtain rfl := Option.some.inj (hhead.symm.trans hadvanced.head)
    refine Or.inr ⟨rfl, hstores.unique hadvanced.transacted.stored, commit, ?_,
      hadvanced.transacted.stores⟩
    rw [hadvanced.branches, OrderedMap.getElem?_insert, if_pos rfl]
  · refine Or.inl ⟨hother, head, ?_, hadvanced.transacted.extended.stores hstores⟩
    rw [hadvanced.branches, OrderedMap.getElem?_insert, if_neg (Ne.symm hother), hhead]

/-- A merge that returns a commit wrote its plan on the target's head. -/
theorem merge_shows (hsound : lawful.Sound loom.pager) {token : CapabilityToken}
    {source target : BranchId} {policy : MergePolicy} {envelope : WriteEnvelope}
    {forbids : Key → Record → Option Bytes} {commit : CommitId} {records automatic : ℕ}
    (hmerge : engine.mergeChecked token source target policy envelope forbids loom =
      (.ok (.merged commit records automatic), loom')) :
    ∃ sourceHead targetHead base writes automatic parents targetMap mergedMap,
      MergeReady engine loom token source target policy envelope forbids sourceHead targetHead
        base writes automatic parents ∧ records = mergedRecords writes ∧
      Shows lawful loom target targetMap ∧ Shows lawful loom' target mergedMap ∧
      (writeProgram engine.platform target targetHead
        (writes ++ [(mergedFromKey source, Record.blob sourceHead.asBytes)]) envelope
        (readSet envelope.session loom) parents ∅).onMap targetMap = .ok ((), mergedMap) := by
  have hcall : engine.call (.merge token source target policy envelope forbids) loom =
      (.ok (.merge (.merged commit records automatic)), loom') := by
    rw [Engine.call, FallibleState.map_eq, hmerge]
    rfl
  have hstep := call_step hsound hcall
  generalize houtcome : Except.ok (Answer.merge (.merged commit records automatic)) = outcome
    at hstep
  cases hstep with
  | asked hasks => cases hasks
  | refused => cases houtcome
  | opened hopens => rcases hopens with hopens | hopens <;> cases hopens
  | stopped _ _ hstops =>
      cases hstops <;> cases houtcome
  | halted => cases houtcome
  | @merged _ _ _ _ _ _ _ _ _ _ _ _ _ _ _ persisted _ _ hready hadvanced hpager hfiled =>
      obtain rfl : records = mergedRecords _ := by
        cases persisted with
        | error error => cases houtcome
        | ok done => cases houtcome; rfl
      refine ⟨_, _, _, _, _, _, _, _, hready, rfl,
        ⟨_, hready.heads.target, hadvanced.transacted.stored⟩,
        ⟨_, ?_, hpager ▸ hadvanced.transacted.stores⟩, hadvanced.transacted.ran⟩
      rw [hfiled.branches, branches_joinEdits, hadvanced.filed.branches, branches_advanceEdits,
        OrderedMap.getElem?_insert, if_pos rfl]

/-- A write adds its commit to what is covered. -/
theorem Covers.of_advanced {program : RecordProgram α} {branch : BranchId}
    {base commit : CommitId} {result : α} {map map' : RecordMap}
    {persisted : Except LoomError Unit} (hcovers : Covers engine scope known loom)
    (hall : AllAlong engine (StoredEdge lawful) loom) (hscope : branch ∈ scope)
    (hadvanced : Advanced lawful program branch base commit result map map' persisted loom loom') :
    Covers engine scope (insert commit known) loom' := by
  have hbase : base ∈ known := hcovers.heads hscope hadvanced.head
  constructor
  · intro other head hother hhead
    rw [hadvanced.branches, OrderedMap.getElem?_insert] at hhead
    split at hhead
    · exact Option.some.inj hhead ▸ Set.mem_insert _ _
    · exact Set.mem_insert_of_mem _ (hcovers.heads hother hhead)
  · intro child parent hchild hparent
    rcases hadvanced.parentsOf child with hsame | ⟨-, -, hnew⟩
    · rw [hsame] at hparent
      rcases Set.mem_insert_iff.mp hchild with rfl | hold
      · rcases hadvanced.transacted.fresh with rfl | hmissing
        · exact Set.mem_insert_of_mem _ (hcovers.parents hbase hparent)
        · rw [hall.parentsOf_missing hmissing] at hparent
          cases hparent
      · exact Set.mem_insert_of_mem _ (hcovers.parents hold hparent)
    · rw [hnew] at hparent
      exact List.mem_singleton.mp hparent ▸ Set.mem_insert_of_mem _ hbase

/-- A merge adds edges to commits that are covered. -/
theorem Covers.of_joined {commit before second : CommitId} {persisted : Except LoomError Unit}
    (hcovers : Covers engine scope known loom)
    (hfiled : Filed engine (joinEdits loom.refs commit before second) persisted loom loom')
    (hpager : loom'.pager = loom.pager) (hbefore : before ∈ known) (hsecond : second ∈ known) :
    Covers engine scope known loom' where
  heads hscope hhead := by
    rw [hfiled.branches, branches_joinEdits] at hhead
    exact hcovers.heads hscope hhead
  parents hchild hparent := by
    rcases mem_parentsOf_joined hfiled hpager hparent with hold | ⟨-, rfl | rfl⟩
    · exact hcovers.parents hchild hold
    · exact hbefore
    · exact hsecond

/-- A call that leaves the heads makes no commit. -/
theorem madeBy_of_branches {call : Call}
    (hbranches : (engine.after call loom).refs.branches = loom.refs.branches) :
    known ∪ madeBy engine scope loom call = known := by
  refine Set.union_eq_left.mpr ?_
  rintro commit ⟨branch, -, -, hbefore, hafter⟩
  rw [hbranches] at hafter
  exact absurd hafter hbefore

theorem madeBy_of_none {call : Call} (hnone : call.commitsOn = none) :
    known ∪ madeBy engine scope loom call = known := by
  refine Set.union_eq_left.mpr ?_
  rintro commit ⟨branch, -, hon, -⟩
  rw [hnone] at hon
  cases hon

/-- A call that sets one head makes that commit, or finds it known. -/
theorem madeBy_of_insert {call : Call} {branch : BranchId} {base commit : CommitId}
    (hon : call.commitsOn = some branch) (hscope : branch ∈ scope)
    (hhead : loom.refs.branches[branch]? = some base) (hbase : base ∈ known)
    (hbranches : (engine.after call loom).refs.branches =
      loom.refs.branches.insert branch commit) :
    known ∪ madeBy engine scope loom call = insert commit known := by
  have hafter : (engine.after call loom).refs.branches[branch]? = some commit := by
    rw [hbranches, OrderedMap.getElem?_insert, if_pos rfl]
  ext other
  rw [Set.mem_union, Set.mem_insert_iff]
  constructor
  · rintro (hknown | ⟨branch', -, hon', -, hafter'⟩)
    · exact Or.inr hknown
    · obtain rfl := Option.some.inj (hon.symm.trans hon')
      exact Or.inl (Option.some.inj (hafter'.symm.trans hafter))
  · rintro (rfl | hknown)
    · by_cases heq : base = other
      · exact Or.inl (heq ▸ hbase)
      · refine Or.inr ⟨branch, hscope, hon, ?_, hafter⟩
        rw [hhead]
        exact fun hsame => heq (Option.some.inj hsame)
    · exact Or.inl hknown

theorem covers_after {call : Call} {token : CapabilityToken} {outcome : Except LoomError Answer}
    (hsound : lawful.Sound loom.pager) (hall : AllAlong engine (StoredEdge lawful) loom)
    (hcovers : Covers engine token.claims.scope known loom) (htoken : call.token = some token)
    (hnames : NamesKnown engine known loom call)
    (hcall : engine.call call loom = (outcome, loom')) :
    Covers engine token.claims.scope (known ∪ madeBy engine token.claims.scope loom call)
      loom' := by
  have hafter : engine.after call loom = loom' := congrArg Prod.snd hcall
  have hunmoves : Unmoved lawful loom loom' →
      Covers engine token.claims.scope (known ∪ madeBy engine token.claims.scope loom call)
        loom' := by
    intro hunmoved
    rw [madeBy_of_branches (by rw [hafter, hunmoved.refs])]
    exact hcovers.of_unmoved hunmoved
  have hadvances : ∀ {α : Type} {program : RecordProgram α} {branch : BranchId}
      {base commit : CommitId} {result : α} {map map' : RecordMap}
      {persisted : Except LoomError Unit}, call.commitsOn = some branch →
      branch ∈ token.claims.scope →
      Advanced lawful program branch base commit result map map' persisted loom loom' →
      Covers engine token.claims.scope (known ∪ madeBy engine token.claims.scope loom call)
        loom' := by
    intro _ program branch base commit result map map' persisted hon hscope hadvanced
    rw [madeBy_of_insert hon hscope hadvanced.head (hcovers.heads hscope hadvanced.head)
      (hafter ▸ hadvanced.branches)]
    exact hcovers.of_advanced hall hscope hadvanced
  cases call_step hsound hcall with
  | asked _ hstill => exact hunmoves hstill.unmoved
  | refused hunmoved => exact hunmoves hunmoved
  | opened hopens _ _ _ _ => rcases hopens with rfl | rfl <;> cases htoken
  | branched hadmits hhead _ hpager hfiled =>
      obtain rfl := Option.some.inj htoken
      rw [madeBy_of_none rfl]
      exact hcovers.of_insert (hcovers.heads (mem_scope_of_admits hadmits) hhead) hfiled.branches
        (hfiled.parentsOf rfl hpager)
  | rewound hadmits hhead hpager hfiled =>
      rw [madeBy_of_none rfl]
      exact hcovers.of_insert (hnames hadmits) hfiled.branches (hfiled.parentsOf rfl hpager)
  | wrote hadmits hadvanced =>
      obtain rfl := Option.some.inj htoken
      exact hadvances rfl (mem_scope_of_writeAdmits hadmits) hadvanced
  | forgot hadmits hadvanced =>
      obtain rfl := Option.some.inj htoken
      exact hadvances rfl (mem_scope_of_writeAdmits hadmits) hadvanced
  | kept hadmits hadvanced =>
      obtain rfl := Option.some.inj htoken
      exact hadvances rfl (mem_scope_of_admits hadmits) hadvanced
  | stopped hstill _ _ => exact hunmoves hstill.unmoved
  | halted hready hadvanced =>
      obtain rfl := Option.some.inj htoken
      exact hadvances rfl (mem_scope_of_admits (mergeAdmits_eq_ok.mp hready.admitted).2.2) hadvanced
  | merged hready hadvanced hpager hfiled =>
      obtain rfl := Option.some.inj htoken
      obtain ⟨-, hsource, htarget⟩ := mergeAdmits_eq_ok.mp hready.admitted
      have htarget := mem_scope_of_admits htarget
      have hbase := hcovers.heads htarget hready.heads.target
      rw [madeBy_of_insert rfl htarget hready.heads.target hbase (hafter ▸
        (hfiled.branches.trans (branches_joinEdits _ _ _ _ _)).trans hadvanced.branches)]
      exact (hcovers.of_advanced hall htarget hadvanced).of_joined hfiled hpager
        (Set.mem_insert_of_mem _ hbase) (Set.mem_insert_of_mem _
          (hcovers.heads (mem_scope_of_admits hsource) hready.heads.source))

/-! ### What it returns -/

theorem Covers.shown (hcovers : Covers engine scope known loom) {branch : BranchId}
    {map : RecordMap} {key : Key} {record : Record} (hscope : branch ∈ scope)
    (hshows : Shows lawful loom branch map) (hrecord : map[key]? = some record) :
    Shown lawful loom known record := by
  obtain ⟨head, hhead, hstores⟩ := hshows.ofHead
  exact ⟨head, hcovers.heads hscope hhead, map, key, hstores, hrecord⟩

/-- The reports of a merge are of records of the base and the two heads. -/
theorem Covers.shown_of_stopped (hcovers : Covers engine scope known loom)
    {source target : BranchId} {policy : MergePolicy} {forbids : Key → Record → Option Bytes}
    {result : MergeResult} {record : Record} (hsound : lawful.Sound loom.pager)
    (hsource : source ∈ scope) (htarget : target ∈ scope)
    (hstopped : MergeStopped engine loom source target policy forbids result)
    (hrecord : record ∈ (Answer.merge result).contents) : Shown lawful loom known record := by
  cases hstopped with
  | refused => cases hrecord
  | ambiguous => cases hrecord
  | conflict hheads hplan =>
      obtain ⟨report, hreport, hrecord⟩ := List.mem_flatMap.mp hrecord
      obtain ⟨baseMap, sourceMap, targetMap, keys, plan, houtcome, hplanned⟩ :=
        planMerge_spec hplan hsound
      have hmem : report ∈ plan.conflicts := by
        unfold Plan.outcome at houtcome
        split at houtcome
        · cases houtcome
        · rwa [MergeOutcome.conflict.inj houtcome] at hreport
      obtain hnil | ⟨key, -, hdecide⟩ := (mem_conflicts_planOver hplanned.planned).mp hmem
      · cases hnil
      rw [records_of_conflict hdecide] at hrecord
      have hsourceHead := hcovers.heads hsource hheads.source
      simp only [ConflictRecords.toList, List.mem_append, Option.mem_toList] at hrecord
      rcases hrecord with (hrecord | hrecord) | hrecord
      · exact ⟨_, hcovers.ancestor hsourceHead hheads.ancestor, baseMap, key, hplanned.base,
          hrecord⟩
      · exact ⟨_, hsourceHead, sourceMap, key, hplanned.source, hrecord⟩
      · exact ⟨_, hcovers.heads htarget hheads.target, targetMap, key, hplanned.target, hrecord⟩

theorem answer_shown {call : Call} {token : CapabilityToken} {answer : Answer} {record : Record}
    (hsound : lawful.Sound loom.pager) (hcovers : Covers engine token.claims.scope known loom)
    (htoken : call.token = some token) (hnames : NamesKnown engine known loom call)
    (hcall : engine.call call loom = (.ok answer, loom')) (hrecord : record ∈ answer.contents) :
    Shown lawful loom known record := by
  cases call with
  | read token branch key =>
      obtain rfl := Option.some.inj htoken
      obtain ⟨found, hread, rfl⟩ := FallibleState.map_eq_ok.mp hcall
      obtain ⟨hadmits, map, hshows, rfl, -⟩ := read_spec hsound hread
      exact hcovers.shown (mem_scope_of_admits hadmits) hshows (Option.mem_toList.mp hrecord)
  | readAt token branch commit key =>
      obtain ⟨found, hread, rfl⟩ := FallibleState.map_eq_ok.mp hcall
      obtain ⟨hadmits, -, map, hstores, rfl⟩ := readAt_spec hsound hread
      exact ⟨commit, hnames hadmits, map, key, hstores, Option.mem_toList.mp hrecord⟩
  | scan token branch =>
      obtain rfl := Option.some.inj htoken
      obtain ⟨found, hscan, rfl⟩ := FallibleState.map_eq_ok.mp hcall
      obtain ⟨hadmits, -, map, hshows, rfl⟩ := scan_spec hsound hscan
      obtain ⟨⟨key, _⟩, hmem, rfl⟩ := List.mem_map.mp hrecord
      exact hcovers.shown (mem_scope_of_admits hadmits) hshows
        (ExtTreeMap.mem_toList_iff_getElem?_eq_some.mp (List.mem_filter.mp hmem).1)
  | merge token source target policy envelope forbids =>
      obtain rfl := Option.some.inj htoken
      generalize houtcome : Except.ok answer = outcome at hcall
      cases call_step hsound hcall with
      | asked hasks _ => cases hasks
      | refused => cases houtcome
      | opened hopens _ _ _ _ => rcases hopens with hopens | hopens <;> cases hopens
      | stopped _ hadmits hstopped =>
          obtain rfl := Except.ok.inj houtcome
          obtain ⟨-, hsource, htarget⟩ := mergeAdmits_eq_ok.mp hadmits
          exact hcovers.shown_of_stopped hsound (mem_scope_of_admits hsource)
            (mem_scope_of_admits htarget) hstopped hrecord
      | halted => cases houtcome
      | @merged _ _ _ _ _ _ _ _ _ _ _ _ _ _ _ persisted =>
          cases persisted with
          | error error => cases houtcome
          | ok done =>
              obtain rfl := Except.ok.inj houtcome
              cases hrecord
  | branch token source name =>
      obtain ⟨⟨_, _⟩, -, rfl⟩ := FallibleState.map_eq_ok.mp hcall
      cases hrecord
  | invalidate token branch keys envelope =>
      obtain ⟨⟨_, _⟩, -, rfl⟩ := FallibleState.map_eq_ok.mp hcall
      cases hrecord
  | rewind token branch commit =>
      obtain ⟨_, -, rfl⟩ := FallibleState.map_eq_ok.mp hcall
      cases hrecord
  | write token branch records hints envelope =>
      obtain ⟨_, -, rfl⟩ := FallibleState.map_eq_ok.mp hcall
      cases hrecord
  | maintain token branch upkeep =>
      obtain ⟨_, -, rfl⟩ := FallibleState.map_eq_ok.mp hcall
      cases hrecord
  | _ => cases htoken

/-! ## Runs -/

theorem contained_of_covers {token : CapabilityToken} {calls : List Call}
    (hcuts : engine.store.Cuts) (hreachable : engine.Reachable lawful loom)
    (hcovers : Covers engine token.claims.scope known loom)
    (htoken : ∀ call ∈ calls, call.token = some token)
    (hnames : AllNameKnown engine token.claims.scope known loom calls) :
    Contained lawful token.claims.scope known loom calls := by
  induction calls generalizing known loom with
  | nil => trivial
  | cons call calls ih =>
      have hfirst := htoken call List.mem_cons_self
      refine ⟨fun answer hanswer record hrecord => ?_, ?_⟩
      · have hshown := answer_shown hreachable.sound hcovers hfirst hnames.1
          (Prod.ext hanswer rfl) hrecord
        exact hshown.of_extends (call_extended hreachable.sound call) Set.subset_union_left
      · exact ih (hreachable.called call)
          (covers_after hreachable.sound (hreachable.allStored hcuts) hcovers hfirst hnames.1 rfl)
          (fun other hmem => htoken other (List.mem_cons_of_mem _ hmem)) hnames.2

/-- In every run with one token whose reads and rewinds name known commits, every
record returned comes from the history of the token's branches, or from a commit
that the run made on them. -/
theorem contained_of_allNameKnown (hcuts : engine.store.Cuts)
    (hreachable : engine.Reachable lawful loom) {token : CapabilityToken} {calls : List Call}
    (htoken : ∀ call ∈ calls, call.token = some token)
    (hnames : AllNameKnown engine token.claims.scope
      (historyOf engine token.claims.scope loom) loom calls) :
    Contained lawful token.claims.scope (historyOf engine token.claims.scope loom) loom calls :=
  contained_of_covers hcuts hreachable covers_historyOf htoken hnames

/-- The memory engine after two sessions were opened and `b` wrote a record. -/
def sharedLoom : Loom MemPager (Option Refs) :=
  memoryEngine.afterAll [.openSessionNamed (ascii "s"), .openSessionNamed (ascii "b"),
    .write (memoryToken [ascii "b"]) (ascii "b")
      [(ascii "k", .value (.counter (I64.ofU64 1)))] ∅ (memoryEnvelope (ascii "b"))] memoryLoom

theorem sharedLoom_reachable : memoryEngine.Reachable memoryLawful sharedLoom :=
  memoryLoom_reachable.afterAll _

theorem sharedLoom_head : sharedLoom.refs.branches[ascii "s"]? = some 0 := by decide +kernel

/-- The session writes, goes back to where it began, and reads there. -/
theorem contained_of_allNameKnown_back :
    Contained memoryLawful (memoryToken [ascii "s"]).claims.scope
      (historyOf memoryEngine (memoryToken [ascii "s"]).claims.scope sharedLoom) sharedLoom
      [counterWrite (ascii "l"), .scan (memoryToken [ascii "s"]) (ascii "s"),
        .rewind (memoryToken [ascii "s"]) (ascii "s") 0,
        .readAt (memoryToken [ascii "s"]) (ascii "s") 0 (ascii "l")] := by
  have hroot : (0 : CommitId) ∈
      historyOf memoryEngine (memoryToken [ascii "s"]).claims.scope sharedLoom :=
    ⟨ascii "s", by decide, 0, sharedLoom_head, .refl _ _⟩
  refine contained_of_allNameKnown MemRefStore.cuts sharedLoom_reachable ?_ ?_
  · intro call hmem
    simp only [List.mem_cons, List.not_mem_nil, or_false] at hmem
    rcases hmem with rfl | rfl | rfl | rfl <;> rfl
  · exact ⟨trivial, trivial, fun _ => Or.inl (Or.inl hroot),
      fun _ => Or.inl (Or.inl (Or.inl hroot)), trivial⟩

/-- A session reads a record of another branch by naming its commit. -/
theorem foreign_commit_shown :
    memoryEngine.Reachable memoryLawful sharedLoom ∧
      ¬Contained memoryLawful (memoryToken [ascii "s"]).claims.scope
        (historyOf memoryEngine (memoryToken [ascii "s"]).claims.scope sharedLoom) sharedLoom
        [.readAt (memoryToken [ascii "s"]) (ascii "s") 1 (ascii "k")] := by
  refine ⟨sharedLoom_reachable, fun hcontained => ?_⟩
  have hread : (memoryEngine.readAt (memoryToken [ascii "s"]) (ascii "s") 1 (ascii "k")
      sharedLoom).1 = .ok (some (.value (.counter (I64.ofU64 1)))) := by decide +kernel
  have hcall : (memoryEngine.call (.readAt (memoryToken [ascii "s"]) (ascii "s") 1 (ascii "k"))
      sharedLoom).1 = .ok (.record (some (.value (.counter (I64.ofU64 1))))) := by
    rw [Engine.call, FallibleState.map_eq, hread]
    rfl
  obtain ⟨commit, hcommit, map, key, hstores, hrecord⟩ :=
    hcontained.1 _ hcall _ List.mem_cons_self
  rw [madeBy_of_none rfl] at hcommit
  obtain ⟨branch, hscope, head, hhead, hancestor⟩ := hcommit
  have hbranch : ascii "s" = branch := by simpa [memoryToken, TokenIssuer.issue] using hscope
  subst hbranch
  obtain rfl := Option.some.inj (sharedLoom_head.symm.trans hhead)
  have hparents : memoryEngine.parentsOf sharedLoom 0 = [] := by decide +kernel
  have hroot : commit = 0 := by
    rcases Ancestry.ancestor_iff.mp hancestor with heq | ⟨parent, hparent, -⟩
    · exact heq
    · rw [hparents] at hparent
      cases hparent
  subst hroot
  have hmanifest : memoryEngine.pager.rootManifest sharedLoom.pager = .ok 0 := by decide +kernel
  have hempty : memoryLawful.Stores sharedLoom.pager 0 ∅ :=
    ⟨∅, (memoryLawful.root_eq_ok hmanifest).1, Tree.stored_empty _⟩
  rw [hstores.unique ((call_extended sharedLoom_reachable.sound _).stores hempty)] at hrecord
  simp at hrecord

end Engine

end LoomDB
