import LoomDB.Branch.Binding
import LoomDB.Branch.Keyspace

/-!
# Calls that fail

A call that fails may leave something behind: a write takes its session's read
set before it looks at the pages, and the refs in memory change before the store
has taken the edits. This module says when a failed call leaves nothing.
-/

namespace LoomDB

open Std (ExtTreeMap ExtTreeSet)

namespace Engine

variable {σ ρ : Type} {engine : Engine σ ρ} {lawful : engine.pager.Lawful}
  {loom loom' : Loom σ ρ}

/-- The same branches with the same heads, the same commit table and the same
pending read sets. -/
structure Untouched (before after : Loom σ ρ) : Prop where
  branches : after.refs.branches = before.refs.branches
  commits : after.refs.commits = before.refs.commits
  readSets : ∀ session, readSet session after = readSet session before

theorem Untouched.of_clock (hafter : loom' = { loom with clock := loom'.clock }) :
    Untouched loom loom' := by
  rw [hafter]
  exact ⟨rfl, rfl, fun _ => rfl⟩

/-! ## Writes -/

/-- A write from this state that fails leaves nothing: its checks refuse it or, with
nothing pending in the session that the envelope names, no new commit is made. -/
def WriteLosesNothing (engine : Engine σ ρ) (loom : Loom σ ρ) (token : CapabilityToken)
    (branch : BranchId) (records : List (Key × Record)) (envelope : WriteEnvelope)
    (extraParents : ExtTreeMap Key (List NodeId)) (hints : ExtTreeMap Key IndexHint) : Prop :=
  writeAdmits engine loom token branch envelope ≠ .ok () ∨
    readSet envelope.session loom = ReadSet.default ∧
      ∀ base result commit, loom.refs.branches[branch]? = some base →
        (engine.transact base (writeProgram engine.platform branch base records envelope
          (readSet envelope.session loom) extraParents hints)
          (taken loom envelope.session)).1 = .ok (result, commit) → commit = base

/-- Taking a read set shows unless nothing was pending. -/
theorem readSets_taken {session : SessionId} :
    (∀ other, readSet other (taken loom session) = readSet other loom) ↔
      readSet session loom = ReadSet.default := by
  have htaken : ∀ other, readSet other (taken loom session) =
      if session = other then ReadSet.default else readSet other loom := by
    intro other
    rw [readSet, taken, OrderedMap.getElem?_erase]
    split <;> rfl
  constructor
  · intro hsame
    rw [← hsame session, htaken, if_pos rfl]
  · intro hdefault other
    rw [htaken]
    split
    · next heq => rw [← heq, hdefault]
    · rfl

/-- A commit that is its base moves no head and is not recorded. -/
theorem replay_advanceEdits_base {refs : Refs} {branch : BranchId} {base : CommitId}
    (hhead : refs.branches[branch]? = some base) :
    refs.replay (advanceEdits refs branch base base) = refs := by
  have hnone : recordEdits refs base [base] = [] := by
    rw [recordEdits, if_pos]
    exact Or.inl (by simp)
  rw [advanceEdits, hnone, List.nil_append, Refs.replay_cons, Refs.replay_nil, Refs.applyEdit,
    OrderedMap.insert_eq_self hhead]

/-- A write that fails on its way keeps the refs unless it made a new commit. -/
theorem advance_failed {α : Type} {branch : BranchId} {base : CommitId}
    {program : RecordProgram α} {error : LoomError} (hsound : lawful.Sound loom.pager)
    (hhead : loom.refs.branches[branch]? = some base)
    (hadvance : engine.advance branch base program loom = (.error error, loom')) :
    loom'.readSets = loom.readSets ∧
      ((loom'.refs.branches = loom.refs.branches ∧ loom'.refs.commits = loom.refs.commits) ↔
        ∀ result commit, (engine.transact base program loom).1 = .ok (result, commit) →
          commit = base) := by
  have hbranch : loom.refs.branches[branch]?.isSome := by rw [hhead]; rfl
  rcases advance_cases hsound hbranch hadvance with
    ⟨_, -, htransact, hafter, -⟩ | ⟨result, commit, _, _, htransact, -, hafter, -⟩
  · rw [hafter, htransact]
    exact ⟨rfl, iff_of_true ⟨rfl, rfl⟩ fun _ _ hok => nomatch hok⟩
  · have hrefs : loom'.refs = loom.refs.replay (advanceEdits loom.refs branch base commit) := by
      rw [hafter]
    refine ⟨by rw [hafter], ?_⟩
    constructor
    · rintro ⟨hbranches, -⟩ result' commit' hok
      rw [htransact] at hok
      obtain ⟨-, rfl⟩ := Prod.mk.inj (Except.ok.inj hok)
      have hnew : (loom.refs.branches.insert branch commit)[branch]? = some commit := by
        rw [OrderedMap.getElem?_insert, if_pos rfl]
      rw [← branches_advanceEdits loom.refs branch base commit, ← hrefs, hbranches, hhead] at hnew
      exact (Option.some.inj hnew).symm
    · intro hbase
      obtain rfl := hbase result commit htransact
      rw [replay_advanceEdits_base hhead] at hrefs
      exact ⟨congrArg Refs.branches hrefs, congrArg Refs.commits hrefs⟩

theorem writeAll_untouched_iff {token : CapabilityToken} {branch : BranchId}
    {records : List (Key × Record)} {envelope : WriteEnvelope}
    {extraParents : ExtTreeMap Key (List NodeId)} {hints : ExtTreeMap Key IndexHint}
    {error : LoomError} (hsound : lawful.Sound loom.pager)
    (hwrite : engine.writeAll token branch records envelope extraParents hints loom =
      (.error error, loom')) :
    Untouched loom loom' ↔
      WriteLosesNothing engine loom token branch records envelope extraParents hints := by
  unfold WriteLosesNothing
  rcases writeAll_cases hwrite with ⟨_, hrefused, -, hafter⟩ | ⟨hadmits, hgoes⟩
  · exact iff_of_true (.of_clock hafter) (Or.inl (by rw [hrefused]; exact nofun))
  rw [or_iff_right (not_not_intro hadmits), ← readSets_taken]
  rcases hgoes with ⟨hnone, -, rfl⟩ | ⟨base, advanced, hhead, hadvance, houtcome⟩
  · refine ⟨fun huntouched => ⟨huntouched.readSets, fun base _ _ hhead => ?_⟩,
      fun ⟨hreads, _⟩ => ⟨rfl, rfl, hreads⟩⟩
    rw [hnone] at hhead
    cases hhead
  cases advanced with
  | ok result => cases houtcome
  | error failed =>
      have hsound' : lawful.Sound (taken loom envelope.session).pager := hsound
      obtain ⟨hreads, hrefs⟩ := advance_failed hsound' hhead hadvance
      have hreads : ∀ other, readSet other loom' = readSet other (taken loom envelope.session) :=
        fun other => by rw [readSet, readSet, hreads]
      constructor
      · intro huntouched
        refine ⟨fun other => (hreads other).symm.trans (huntouched.readSets other),
          fun base' result commit hhead' hok => ?_⟩
        obtain rfl := Option.some.inj (hhead.symm.trans hhead')
        exact hrefs.mp ⟨huntouched.branches, huntouched.commits⟩ result commit hok
      · rintro ⟨hsame, hbase⟩
        obtain ⟨hbranches, hcommits⟩ := hrefs.mpr fun result commit => hbase base result commit hhead
        exact ⟨hbranches, hcommits, fun other => (hreads other).trans (hsame other)⟩

theorem invalidateAndDeindex_untouched_iff {token : CapabilityToken} {branch : BranchId}
    {keys : List Key} {envelope : WriteEnvelope} {error : LoomError}
    (hsound : lawful.Sound loom.pager)
    (hinvalidate : engine.invalidateAndDeindex token branch keys envelope loom =
      (.error error, loom')) :
    Untouched loom loom' ↔ writeAdmits engine loom token branch envelope ≠ .ok () ∨
      ∀ base result commit, loom.refs.branches[branch]? = some base →
        (engine.transact base (forgetKeys keys) (ticked loom)).1 = .ok (result, commit) →
          commit = base := by
  rcases invalidateAndDeindex_cases hinvalidate with ⟨_, hrefused, -, hafter⟩ | ⟨hadmits, hgoes⟩
  · exact iff_of_true (.of_clock hafter) (Or.inl (by rw [hrefused]; exact nofun))
  rw [or_iff_right (not_not_intro hadmits)]
  rcases hgoes with ⟨hnone, -, rfl⟩ | ⟨base, advanced, hhead, hadvance, houtcome⟩
  · refine iff_of_true ⟨rfl, rfl, fun _ => rfl⟩ fun base _ _ hhead => ?_
    rw [hnone] at hhead
    cases hhead
  cases advanced with
  | ok result => cases houtcome
  | error failed =>
      have hsound' : lawful.Sound (ticked loom).pager := hsound
      obtain ⟨hreads, hrefs⟩ := advance_failed hsound' hhead hadvance
      constructor
      · intro huntouched base' result commit hhead' hok
        obtain rfl := Option.some.inj (hhead.symm.trans hhead')
        exact hrefs.mp ⟨huntouched.branches, huntouched.commits⟩ result commit hok
      · intro hbase
        obtain ⟨hbranches, hcommits⟩ := hrefs.mpr fun result commit => hbase base result commit hhead
        exact ⟨hbranches, hcommits, fun other => by rw [readSet, hreads]; rfl⟩

/-! ## Branches and rewinds -/

theorem branch_untouched_iff {token : CapabilityToken} {source name : BranchId}
    {error : LoomError} (hbranch : engine.branch token source name loom = (.error error, loom')) :
    Untouched loom loom' ↔ admits engine loom token source ≠ .ok () ∨
      loom.refs.branches[source]? = none ∨ loom.refs.branches[name]?.isSome := by
  rcases branch_cases hbranch with
    ⟨hrefused, -, hafter⟩ | ⟨hadmits, commit, _, hhead, hfree, hpersist, -⟩
  · exact iff_of_true (.of_clock (hafter ▸ rfl)) hrefused
  · refine iff_of_false (fun huntouched => ?_) (by simp [hadmits, hhead, hfree])
    have hnew : (loom.refs.branches.insert name commit)[name]? = some commit := by
      rw [OrderedMap.getElem?_insert, if_pos rfl]
    have hmoved := huntouched.branches
    rw [persist_refs hpersist] at hmoved
    change loom.refs.branches.insert name commit = _ at hmoved
    rw [hmoved, hfree] at hnew
    cases hnew

theorem rewind_untouched_iff {token : CapabilityToken} {branch : BranchId} {commit : CommitId}
    {error : LoomError} (hrewind : engine.rewind token branch commit loom = (.error error, loom')) :
    Untouched loom loom' ↔ admits engine loom token branch ≠ .ok () ∨
      loom.refs.branches[branch]? = none ∨ loom.refs.branches[branch]? = some commit := by
  rcases rewind_cases hrewind with
    ⟨hrefused, -, hafter⟩ | ⟨hadmits, head, _, hhead, hpersist, -⟩
  · exact iff_of_true (.of_clock (hafter ▸ rfl)) (hrefused.imp_right Or.inl)
  · have hheads : loom'.refs.branches = loom.refs.branches.insert branch commit := by
      rw [persist_refs hpersist]
      rfl
    simp only [hadmits, hhead, ne_eq, not_true_eq_false, false_or, Option.some.injEq, reduceCtorEq]
    constructor
    · intro huntouched
      have hnew : (loom.refs.branches.insert branch commit)[branch]? = some commit := by
        rw [OrderedMap.getElem?_insert, if_pos rfl]
      rw [← hheads, huntouched.branches, hhead] at hnew
      exact Option.some.inj hnew
    · rintro rfl
      refine ⟨hheads.trans (OrderedMap.insert_eq_self hhead), ?_, fun _ => ?_⟩
      · rw [persist_refs hpersist]
        rfl
      · rw [persist_refs hpersist]
        rfl

/-! ## Merges -/

/-- The commit table lists a second parent of a commit. -/
def HasParent (refs : Refs) (commit second : CommitId) : Prop :=
  match refs.commits[commit]? with
  | some parents => second ∈ parents
  | none => second = commit

/-- The edge of a merge changes the commit table unless it is there. -/
theorem commits_joinEdits_iff {refs : Refs} {commit second : CommitId} :
    (refs.replay (joinEdits refs commit commit second)).commits = refs.commits ↔
      HasParent refs commit second := by
  unfold HasParent joinEdits
  cases hrecorded : refs.commits[commit]? with
  | some parents =>
      have hnone : recordEdits refs commit [commit, second] = [] := by
        rw [recordEdits, if_pos]
        exact Or.inr (by rw [hrecorded]; rfl)
      rw [hnone, List.nil_append, Refs.replay_nil, edgeEdits, hrecorded]
      simp only
      split
      · next hmem => exact iff_of_true rfl hmem
      · next hnot =>
        refine iff_of_false (fun hsame => ?_) hnot
        have hadded : (refs.replay [.addParent commit second]).commits[commit]? =
            some (parents ++ [second]) := by
          rw [Refs.replay_cons, Refs.replay_nil, Refs.applyEdit, hrecorded, Option.getD_some,
            if_neg hnot, OrderedMap.getElem?_insert, if_pos rfl]
        rw [hsame, hrecorded] at hadded
        exact hnot (by rw [Option.some.inj hadded]; simp)
  | none =>
      by_cases heq : second = commit
      · subst heq
        have hnone : recordEdits refs second [second, second] = [] := by
          rw [recordEdits, if_pos]
          exact Or.inl (by simp)
        rw [hnone, List.nil_append, Refs.replay_nil, edgeEdits, hrecorded]
        exact iff_of_true rfl rfl
      · refine iff_of_false (fun hsame => ?_) heq
        have hrecord : recordEdits refs commit [commit, second] =
            [.recordCommit commit [second]] := by
          have hfilter : [commit, second].filter (fun parent => parent ≠ commit) = [second] := by
            simp [heq]
          rw [recordEdits, hfilter, if_neg (by simp [hrecorded])]
        have hadded : (refs.replay [.recordCommit commit [second]]).commits[commit]? =
            some [second] := by
          rw [Refs.replay_cons, Refs.replay_nil, Refs.applyEdit, OrderedMap.getElem?_insert,
            if_pos rfl]
        rw [hrecord, edgeEdits, hadded] at hsame
        simp only [List.mem_singleton, if_true, List.append_nil] at hsame
        rw [hsame, hrecorded] at hadded
        cases hadded

/-- A merge from this state that fails leaves nothing: its write loses nothing and,
if it succeeds, the second parent is there already. -/
def MergeLosesNothing (engine : Engine σ ρ) (loom : Loom σ ρ) (token : CapabilityToken)
    (source target : BranchId) (policy : MergePolicy) (envelope : WriteEnvelope)
    (forbids : Key → Record → Option Bytes) : Prop :=
  ∀ sourceHead targetHead base writes automatic parents,
    MergeReady engine loom token source target policy envelope forbids sourceHead targetHead base
      writes automatic parents →
    let records := writes ++ [(mergedFromKey source, Record.blob sourceHead.asBytes)]
    WriteLosesNothing engine (ticked (ticked loom)) token target records envelope parents ∅ ∧
      (writeAdmits engine (ticked (ticked loom)) token target envelope = .ok () →
        (engine.store.apply [.setHead target targetHead] loom.store).1 = .ok () →
        ∀ result commit, (engine.transact targetHead (writeProgram engine.platform target
          targetHead records envelope (readSet envelope.session loom) parents ∅)
          (taken (ticked (ticked loom)) envelope.session)).1 = .ok (result, commit) →
        HasParent loom.refs targetHead sourceHead)

/-- The batch of a commit that is its base. -/
theorem advanceEdits_base (refs : Refs) (branch : BranchId) (base : CommitId) :
    advanceEdits refs branch base base = [.setHead branch base] := by
  have hnone : recordEdits refs base [base] = [] := by
    rw [recordEdits, if_pos]
    exact Or.inl (by simp)
  rw [advanceEdits, hnone, List.nil_append]

theorem mergeChecked_untouched_iff {token : CapabilityToken} {source target : BranchId}
    {policy : MergePolicy} {envelope : WriteEnvelope} {forbids : Key → Record → Option Bytes}
    {error : LoomError} (hsound : lawful.Sound loom.pager) (hnone : loom.refEdits = [])
    (hmerge : engine.mergeChecked token source target policy envelope forbids loom =
      (.error error, loom')) :
    Untouched loom loom' ↔
      MergeLosesNothing engine loom token source target policy envelope forbids := by
  have hsound' : lawful.Sound (ticked (ticked loom)).pager := hsound
  -- For a merge that goes on to write, the condition on that write is exact.
  suffices hready : ∀ sourceHead targetHead base writes automatic parents,
      MergeReady engine loom token source target policy envelope forbids sourceHead targetHead base
        writes automatic parents →
      let records := writes ++ [(mergedFromKey source, Record.blob sourceHead.asBytes)]
      (Untouched loom loom' ↔
        WriteLosesNothing engine (ticked (ticked loom)) token target records envelope parents ∅ ∧
        (writeAdmits engine (ticked (ticked loom)) token target envelope = .ok () →
          (engine.store.apply [.setHead target targetHead] loom.store).1 = .ok () →
          ∀ result commit, (engine.transact targetHead (writeProgram engine.platform target
            targetHead records envelope (readSet envelope.session loom) parents ∅)
            (taken (ticked (ticked loom)) envelope.session)).1 = .ok (result, commit) →
          HasParent loom.refs targetHead sourceHead)) by
    constructor
    · exact fun huntouched _ _ _ _ _ _ hargs => (hready _ _ _ _ _ _ hargs).mp huntouched
    · intro hloses
      rcases mergeChecked_cases hmerge with ⟨_, -, hafter⟩ | ⟨hadmits, ⟨_, hresult, -⟩ | hwritten⟩
      · exact .of_clock hafter
      · cases hresult
      · obtain ⟨_, _, _, _, _, _, _, hwritten, -⟩ := hwritten
        have hargs := hwritten.ready hadmits
        exact (hready _ _ _ _ _ _ hargs).mpr (hloses _ _ _ _ _ _ hargs)
  intro sourceHead targetHead base writes automatic parents hargs records
  obtain ⟨written, last, hwrote, heq⟩ := mergeChecked_eq hargs
  rw [hmerge] at heq
  obtain ⟨houtcome, rfl⟩ := Prod.mk.inj heq
  have hhead : (ticked (ticked loom)).refs.branches[target]? = some targetHead := hargs.heads.target
  obtain ⟨wrote, middle, hwrite, hrest⟩ := writeMerge_cases hhead hwrote
  rcases hrest with ⟨failed, rfl, -, rfl⟩ | ⟨commit, persisted, rfl, hpersist, hpersisted⟩
  · -- The write failed.
    have hiff := writeAll_untouched_iff hsound' hwrite
    have hsame : Untouched loom loom' ↔ Untouched (ticked (ticked loom)) loom' :=
      ⟨fun ⟨h₁, h₂, h₃⟩ => ⟨h₁, h₂, h₃⟩, fun ⟨h₁, h₂, h₃⟩ => ⟨h₁, h₂, h₃⟩⟩
    rw [hsame, hiff]
    refine ⟨fun hloses => ⟨hloses, fun hadmits hstore result commit htransact => ?_⟩, And.left⟩
    rcases hloses with hrefused | ⟨-, hbase⟩
    · exact absurd hadmits hrefused
    · obtain rfl := hbase targetHead result commit hhead htransact
      have happly := writeAll_refused hsound' hwrite hadmits hhead htransact
      change (engine.store.apply (loom.refEdits ++ advanceEdits loom.refs target commit commit)
        loom.store).1 = _ at happly
      rw [hnone, List.nil_append, advanceEdits_base, hstore] at happly
      cases happly
  · -- The write succeeded and its second parent was refused.
    obtain ⟨hadmits, base', map, map', hhead', htransact, -, happly, hmiddle⟩ :=
      writeAll_eq_ok hsound' hwrite
    rw [hhead] at hhead'
    obtain rfl := Option.some.inj hhead'
    change engine.store.apply (loom.refEdits ++ advanceEdits loom.refs target targetHead commit)
      loom.store = _ at happly
    have hrefs : middle.refs = loom.refs.replay
        (advanceEdits loom.refs target targetHead commit) := by rw [hmiddle]; rfl
    have hafter := persist_refs hpersist
    have hreads : ∀ session, readSet session loom' =
        readSet session (taken (ticked (ticked loom)) envelope.session) := by
      rw [hafter, hmiddle]
      exact fun _ => rfl
    have hrefs' : loom'.refs = (loom.refs.replay (advanceEdits loom.refs target targetHead
        commit)).replay (joinEdits middle.refs commit targetHead sourceHead) := by
      rw [hafter, ← hrefs]
      rfl
    have hbranches : loom'.refs.branches = loom.refs.branches.insert target commit := by
      rw [hrefs', branches_joinEdits, branches_advanceEdits]
    have hbase : commit = targetHead → (loom'.refs.commits = loom.refs.commits ↔
        HasParent loom.refs targetHead sourceHead) := by
      rintro rfl
      rw [hrefs', hrefs, replay_advanceEdits_base hargs.heads.target, commits_joinEdits_iff]
    constructor
    · intro huntouched
      have hpending : readSet envelope.session (ticked (ticked loom)) = ReadSet.default :=
        readSets_taken.mp fun other => (hreads other).symm.trans (huntouched.readSets other)
      have hnew : (loom.refs.branches.insert target commit)[target]? = some commit := by
        rw [OrderedMap.getElem?_insert, if_pos rfl]
      rw [← hbranches, huntouched.branches] at hnew
      obtain rfl : commit = targetHead := Option.some.inj (hnew.symm.trans hhead)
      refine ⟨Or.inr ⟨hpending, fun other result landed hother hlanded => ?_⟩,
        fun _ _ _ _ _ => (hbase rfl).mp huntouched.commits⟩
      obtain rfl : commit = other := Option.some.inj (hhead.symm.trans hother)
      rw [htransact] at hlanded
      exact (Prod.mk.inj (Except.ok.inj hlanded)).2.symm
    · rintro ⟨hloses, hparent⟩
      obtain ⟨hpending, hlands⟩ := hloses.resolve_left (not_not_intro hadmits)
      obtain rfl := hlands targetHead () commit hhead htransact
      rw [hnone, List.nil_append, advanceEdits_base] at happly
      refine ⟨hbranches.trans (OrderedMap.insert_eq_self hhead), (hbase rfl).mpr
        (hparent hadmits (congrArg Prod.fst happly) () commit htransact), fun other => ?_⟩
      exact (hreads other).trans (readSets_taken.mpr hpending other)

/-! ## Any call -/

/-- The condition under which a failed call leaves nothing, for the calls that
write, branch, merge and rewind. -/
def LosesNothing (engine : Engine σ ρ) (loom : Loom σ ρ) : Call → Prop
  | .write token branch records hints envelope =>
      WriteLosesNothing engine loom token branch records envelope ∅ hints
  | .invalidate token branch keys envelope =>
      writeAdmits engine loom token branch envelope ≠ .ok () ∨
        ∀ base result commit, loom.refs.branches[branch]? = some base →
          (engine.transact base (forgetKeys keys) (ticked loom)).1 = .ok (result, commit) →
            commit = base
  | .merge token source target policy envelope forbids =>
      MergeLosesNothing engine loom token source target policy envelope forbids
  | .branch token source name => admits engine loom token source ≠ .ok () ∨
      loom.refs.branches[source]? = none ∨ loom.refs.branches[name]?.isSome
  | .rewind token branch commit => admits engine loom token branch ≠ .ok () ∨
      loom.refs.branches[branch]? = none ∨ loom.refs.branches[branch]? = some commit
  | _ => False

/-- Writes, branches, merges and rewinds. -/
def changesHeads : Call → Bool
  | .write .. => true
  | .invalidate .. => true
  | .merge .. => true
  | .branch .. => true
  | .rewind .. => true
  | _ => false

/-- A failed call leaves everything as it was exactly if it fails in its checks, or
has nothing to lose by then. -/
theorem untouched_iff (hreachable : engine.Reachable lawful loom) {call : Call}
    {error : LoomError} (hchanges : changesHeads call = true)
    (hfailed : engine.call call loom = (.error error, loom')) :
    Untouched loom loom' ↔ LosesNothing engine loom call := by
  have hsound := hreachable.sound
  cases call with
  | write token branch records hints envelope =>
      exact writeAll_untouched_iff hsound (FallibleState.map_eq_error.mp hfailed)
  | invalidate token branch keys envelope =>
      exact invalidateAndDeindex_untouched_iff hsound (FallibleState.map_eq_error.mp hfailed)
  | merge token source target policy envelope forbids =>
      exact mergeChecked_untouched_iff hsound hreachable.refEdits
        (FallibleState.map_eq_error.mp hfailed)
  | branch token source name => exact branch_untouched_iff (FallibleState.map_eq_error.mp hfailed)
  | rewind token branch commit => exact rewind_untouched_iff (FallibleState.map_eq_error.mp hfailed)
  | _ => cases hchanges

theorem exists_failed {call : Call} (hfails : (engine.call call loom).1.isOk = false) :
    ∃ error, engine.call call loom = (.error error, engine.after call loom) := by
  rcases hcall : engine.call call loom with ⟨error | answer, last⟩
  · exact ⟨error, by rw [after, hcall]⟩
  · rw [hcall] at hfails
    cases hfails

/-- A branch under a name that is taken. -/
theorem untouched_iff_taken :
    Untouched writtenLoom (memoryEngine.after
      (.branch (memoryToken [ascii "s"]) (ascii "s") (ascii "s")) writtenLoom) := by
  have hfails : (memoryEngine.call (.branch (memoryToken [ascii "s"]) (ascii "s") (ascii "s"))
      writtenLoom).1.isOk = false := by decide +kernel
  obtain ⟨error, hfailed⟩ := exists_failed hfails
  exact (untouched_iff writtenLoom_reachable rfl hfailed).mpr
    (Or.inr (Or.inr (by decide +kernel)))

/-- A session has written a record and read it, and the ref store will refuse the
next append. -/
def refusingLoom : Loom MemPager (Option Refs × List Bool) :=
  failingEngine.afterAll
    [.openSessionNamed (ascii "s"),
      .write (memoryToken [ascii "s"]) (ascii "s")
        [(ascii "k", .value (.counter (I64.ofU64 1)))] ∅ (memoryEnvelope (ascii "s")),
      .read (memoryToken [ascii "s"]) (ascii "s") (ascii "k")]
    { memoryLoom with store := (some (Refs.rooted MAIN 0), [false, false, true]) }

theorem refusingLoom_reachable : failingEngine.Reachable (MemPager.lawful 4096) refusingLoom := by
  have hfresh : failingEngine.Fresh (MemPager.lawful 4096) MemPager.empty
      (none, [false, false, true]) := inMemory_fresh rfl
  exact Reachable.afterAll (.opened hfresh rfl) _

/-- The write fails and yet the branch has moved, and what the session has read is
gone. -/
theorem refused_write_is_seen :
    failingEngine.Reachable (MemPager.lawful 4096) refusingLoom ∧
      (failingEngine.call (counterWrite (ascii "l")) refusingLoom).1.isOk = false ∧
      ¬Untouched refusingLoom (failingEngine.after (counterWrite (ascii "l")) refusingLoom) ∧
      readSet (ascii "s") refusingLoom ≠ ReadSet.default ∧
      readSet (ascii "s") (failingEngine.after (counterWrite (ascii "l")) refusingLoom) =
        ReadSet.default := by
  refine ⟨refusingLoom_reachable, by decide +kernel, fun huntouched => ?_, by decide +kernel,
    by decide +kernel⟩
  have hbefore : refusingLoom.refs.branches[ascii "s"]? = some 1 := by decide +kernel
  have hafter : (failingEngine.after (counterWrite (ascii "l"))
      refusingLoom).refs.branches[ascii "s"]? = some 2 := by decide +kernel
  rw [huntouched.branches, hbefore] at hafter
  revert hafter
  decide

end Engine

end LoomDB
