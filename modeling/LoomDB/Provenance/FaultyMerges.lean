import LoomDB.Branch.Atomicity
import LoomDB.Provenance.FaultyPlans
import LoomDB.Provenance.MergedNodes

/-!
# Merges over pages that cannot be read

A merge that cannot read a page may go on without it: it then takes the keys of a changed page
for none, a missing page on the way to a key for an empty leaf, and the node of a key for one
that is not there. This module says when a merge reports such a page.
-/

namespace LoomDB

open Std (ExtTreeMap)
open FallibleState (Moves)
open StateExcept (Reaches)

namespace Engine

variable {σ ρ α : Type} {engine : Engine σ ρ} {loom loom' : Loom σ ρ}

/-! ## Writes that are refused -/

/-- Nothing but the page store has changed. -/
def OnlyPages (before after : Loom σ ρ) : Prop :=
  after = { before with pager := after.pager }

instance : IsPreorder (Loom σ ρ) OnlyPages where
  refl _ := rfl
  trans _ _ _ hfirst hsecond := by
    unfold OnlyPages at hfirst hsecond ⊢
    rw [hsecond, hfirst]

theorem transact_onlyPages (base : CommitId) (program : RecordProgram α) :
    Moves OnlyPages (engine.transact base program) :=
  .bind .get fun _ => .bind (.lift _) fun _ => .bind (.lift _) fun _ => .bind (.lift _) fun _ =>
    .bind (.modify fun _ => rfl) fun _ => .bind (.lift _) fun _ => .pure _

/-- A write fails with its transaction, or moves the head and hands the edits to the store. -/
theorem advance_ends {branch : BranchId} {base : CommitId} {program : RecordProgram α}
    {outcome : Except LoomError (α × CommitId)} (hbranch : loom.refs.branches[branch]?.isSome)
    (hadvance : engine.advance branch base program loom = (outcome, loom')) :
    (∃ error, (engine.transact base program loom).1 = .error error ∧ outcome = .error error ∧
      loom'.refs = loom.refs) ∨
    ∃ result commit, (engine.transact base program loom).1 = .ok (result, commit) ∧
      loom'.refs = loom.refs.replay (advanceEdits loom.refs branch base commit) ∧
      loom'.refEdits = [] ∧
      ∃ persisted, engine.store.apply
        (loom.refEdits ++ advanceEdits loom.refs branch base commit) loom.store =
          (persisted, loom'.store) ∧
        outcome = persisted.map fun _ => (result, commit) := by
  unfold advance at hadvance
  rw [FallibleState.bind_eq] at hadvance
  rcases htransact : engine.transact base program loom with ⟨transacted, middle⟩
  have honly : OnlyPages loom middle := (transact_onlyPages base program).of_eq htransact
  rw [htransact] at hadvance
  obtain ⟨pager, rfl⟩ : ∃ pager, middle = { loom with pager := pager } := ⟨_, honly⟩
  cases transacted with
  | error error =>
      obtain ⟨rfl, rfl⟩ := Prod.mk.inj hadvance
      exact Or.inl ⟨error, rfl, rfl, rfl⟩
  | ok pair =>
      obtain ⟨result, commit⟩ := pair
      simp only at hadvance
      rw [FallibleState.bind_eq, recordCommit_eq] at hadvance
      simp only at hadvance
      rw [FallibleState.bind_eq, setHead_eq (by rwa [edited, branches_recordEdits]), edited_edited,
        persist_eq] at hadvance
      rcases happly : engine.store.apply
        (loom.refEdits ++ advanceEdits loom.refs branch base commit) loom.store with
        ⟨persisted, store⟩
      rw [advanceEdits] at happly
      simp only [edited, happly] at hadvance
      refine Or.inr ⟨result, commit, rfl, ?_⟩
      cases persisted with
      | error error =>
          obtain ⟨rfl, rfl⟩ := Prod.mk.inj hadvance
          exact ⟨rfl, rfl, _, happly, rfl⟩
      | ok done =>
          obtain ⟨rfl, rfl⟩ := Prod.mk.inj hadvance
          exact ⟨rfl, rfl, _, happly, rfl⟩

/-- The transaction of a merge. -/
def mergeTransaction (engine : Engine σ ρ) (loom : Loom σ ρ) (target : BranchId)
    (targetHead : CommitId) (records : List (Key × Record)) (envelope : WriteEnvelope)
    (parents : ExtTreeMap Key (List NodeId)) : Except LoomError (Unit × CommitId) :=
  (engine.transact targetHead (writeProgram engine.platform target targetHead records envelope
    (readSet envelope.session loom) parents ∅) (taken loom envelope.session)).1

section Refusing

variable {token : CapabilityToken} {target : BranchId} {targetHead second : CommitId}
  {records : List (Key × Record)} {envelope : WriteEnvelope}
  {parents : ExtTreeMap Key (List NodeId)}

/-- The write of a merge is refused and no head moves: by its checks, by its transaction or,
where the transaction changes no page, by the store of the refs. -/
inductive WriteRefused (engine : Engine σ ρ) (loom : Loom σ ρ) (token : CapabilityToken)
    (target : BranchId) (targetHead second : CommitId) (records : List (Key × Record))
    (envelope : WriteEnvelope) (parents : ExtTreeMap Key (List NodeId)) : Prop
  | checks {error : LoomError} (sound : error ≠ .panicked)
      (refused : writeAdmits engine loom token target envelope = .error error) :
      WriteRefused engine loom token target targetHead second records envelope parents
  | pages {error : LoomError} (sound : error ≠ .panicked)
      (admitted : writeAdmits engine loom token target envelope = .ok ())
      (refused : mergeTransaction engine loom target targetHead records envelope parents =
        .error error) :
      WriteRefused engine loom token target targetHead second records envelope parents
  | head {error : LoomError} {store : ρ} (sound : error ≠ .panicked)
      (admitted : writeAdmits engine loom token target envelope = .ok ())
      (unchanged : mergeTransaction engine loom target targetHead records envelope parents =
        .ok ((), targetHead))
      (refused : engine.store.apply (loom.refEdits ++ [.setHead target targetHead]) loom.store =
        (.error error, store)) :
      WriteRefused engine loom token target targetHead second records envelope parents
  | edge {error : LoomError} {store : ρ} (sound : error ≠ .panicked)
      (admitted : writeAdmits engine loom token target envelope = .ok ())
      (unchanged : mergeTransaction engine loom target targetHead records envelope parents =
        .ok ((), targetHead))
      (moved : engine.store.apply (loom.refEdits ++ [.setHead target targetHead]) loom.store =
        (.ok (), store))
      (refused : (engine.store.apply (joinEdits loom.refs targetHead targetHead second) store).1 =
        .error error) :
      WriteRefused engine loom token target targetHead second records envelope parents

/-- Exactly when the write of a merge fails, does not panic and moves no head. -/
theorem writeMerge_refused_iff (hhead : loom.refs.branches[target]? = some targetHead) :
    ((∃ error, error ≠ .panicked ∧
        (engine.writeMerge token target records envelope second parents loom).1 = .error error) ∧
      (engine.writeMerge token target records envelope second parents loom).2.refs.branches =
        loom.refs.branches) ↔
      WriteRefused engine loom token target targetHead second records envelope parents := by
  rcases hwrite : engine.writeMerge token target records envelope second parents loom with
    ⟨outcome, last⟩
  obtain ⟨written, middle, hwritten, hmerge⟩ := writeMerge_cases hhead hwrite
  simp only
  rcases writeAll_cases hwritten with
    ⟨error, hrefused, rfl, hmiddle⟩ | ⟨hadmits, ⟨hnone, -⟩ | ⟨base, advanced, hbase, hadvance, rfl⟩⟩
  · -- The checks refuse it.
    obtain ⟨_, rfl, rfl, rfl⟩ : ∃ error', error = error' ∧ outcome = .error error' ∧
        last = middle := by
      rcases hmerge with ⟨error', heq, houtcome, hlast⟩ | ⟨_, _, heq, -⟩
      · exact ⟨error', Except.error.inj heq, houtcome, hlast⟩
      · cases heq
    have hbranches : last.refs.branches = loom.refs.branches := by rw [hmiddle]
    constructor
    · rintro ⟨⟨error', hsound, heq⟩, -⟩
      obtain rfl := Except.error.inj heq
      exact .checks hsound hrefused
    · intro hwriteRefused
      refine ⟨?_, hbranches⟩
      cases hwriteRefused with
      | checks sound refused =>
          obtain rfl := Except.error.inj (hrefused.symm.trans refused)
          exact ⟨error, sound, rfl⟩
      | pages _ admitted => cases hrefused.symm.trans admitted
      | head _ admitted => cases hrefused.symm.trans admitted
      | edge _ admitted => cases hrefused.symm.trans admitted
  · rw [hhead] at hnone
    cases hnone
  obtain rfl : targetHead = base := Option.some.inj (hhead.symm.trans hbase)
  have hnocheck : ∀ error, writeAdmits engine loom token target envelope ≠ .error error :=
    fun error hrefused => nomatch hadmits.symm.trans hrefused
  have hbranch : (taken loom envelope.session).refs.branches[target]?.isSome := by
    rw [show (taken loom envelope.session).refs = loom.refs from rfl, hhead]
    rfl
  rcases advance_ends hbranch hadvance with
    ⟨error, htransact, rfl, hrefs⟩ | ⟨result, commit, htransact, hrefs, hedits, persisted, happly, rfl⟩
  · -- The transaction fails.
    have htransact : mergeTransaction engine loom target targetHead records envelope parents =
        .error error := htransact
    obtain ⟨rfl, rfl⟩ : outcome = .error error ∧ last = middle := by
      rcases hmerge with ⟨error', heq, houtcome, hlast⟩ | ⟨_, _, heq, -⟩
      · obtain rfl := Except.error.inj heq
        exact ⟨houtcome, hlast⟩
      · cases heq
    constructor
    · rintro ⟨⟨error', hsound, heq⟩, -⟩
      obtain rfl := Except.error.inj heq
      exact .pages hsound hadmits htransact
    · intro hwriteRefused
      refine ⟨?_, by rw [hrefs]; rfl⟩
      cases hwriteRefused with
      | checks _ refused => exact absurd refused (hnocheck _)
      | pages sound _ refused =>
          obtain rfl := Except.error.inj (htransact.symm.trans refused)
          exact ⟨error, sound, rfl⟩
      | head _ _ unchanged => cases htransact.symm.trans unchanged
      | edge _ _ unchanged => cases htransact.symm.trans unchanged
  -- The head moves, to the commit of the transaction.
  have htransact : mergeTransaction engine loom target targetHead records envelope parents =
      .ok ((), commit) := htransact
  have happly : engine.store.apply (loom.refEdits ++ advanceEdits loom.refs target targetHead commit)
      loom.store = (persisted, middle.store) := happly
  have hmoved : middle.refs.branches = loom.refs.branches.insert target commit := by
    rw [hrefs]
    exact branches_advanceEdits loom.refs target targetHead commit
  have hlast : last.refs.branches = middle.refs.branches := by
    rcases hmerge with ⟨_, -, -, rfl⟩ | ⟨_, _, -, hpersist, -⟩
    · rfl
    · rw [persist_refs hpersist]
      exact branches_joinEdits _ _ _ _ _
  rw [hlast, hmoved]
  by_cases hbase : commit = targetHead
  swap
  · -- To another commit: the head shows it.
    refine iff_of_false (fun ⟨_, hsame⟩ => hbase ?_) fun hwriteRefused => ?_
    · have hnew : (loom.refs.branches.insert target commit)[target]? = some commit := by
        rw [OrderedMap.getElem?_insert, if_pos rfl]
      rw [hsame, hhead] at hnew
      exact (Option.some.inj hnew).symm
    · have hcommit : ∀ {found : CommitId}, mergeTransaction engine loom target targetHead records
          envelope parents = .ok ((), found) → found = commit := fun hfound =>
        (Prod.mk.inj (Except.ok.inj (hfound.symm.trans htransact))).2
      cases hwriteRefused with
      | checks _ refused => exact hnocheck _ refused
      | pages _ _ refused => cases htransact.symm.trans refused
      | head _ _ unchanged => exact hbase (hcommit unchanged).symm
      | edge _ _ unchanged => exact hbase (hcommit unchanged).symm
  subst hbase
  rw [and_iff_left (OrderedMap.insert_eq_self hhead)]
  rw [advanceEdits_base] at happly
  cases persisted with
  | error error =>
      -- The store refuses the head.
      obtain rfl : outcome = .error error := by
        rcases hmerge with ⟨error', heq, houtcome, -⟩ | ⟨_, _, heq, -⟩
        · rwa [Except.error.inj heq]
        · cases heq
      constructor
      · rintro ⟨error', hsound, heq⟩
        obtain rfl := Except.error.inj heq
        exact .head hsound hadmits htransact happly
      · intro hwriteRefused
        cases hwriteRefused with
        | checks _ refused => exact absurd refused (hnocheck _)
        | pages _ _ refused => cases htransact.symm.trans refused
        | head sound _ _ refused =>
            rw [happly] at refused
            obtain rfl := Except.error.inj (Prod.mk.inj refused).1
            exact ⟨_, sound, rfl⟩
        | edge _ _ _ moved =>
            rw [happly] at moved
            cases (Prod.mk.inj moved).1
  | ok done =>
      -- The store takes the head, and is given the second parent.
      obtain ⟨persisted', hpersist, houtcome⟩ : ∃ persisted',
          (engine.store.apply (joinEdits loom.refs commit commit second) middle.store).1 =
            persisted' ∧ outcome = persisted'.map fun _ => commit := by
        rcases hmerge with ⟨_, heq, -⟩ | ⟨commit', persisted', heq, hpersist, houtcome⟩
        · cases heq
        · obtain rfl := Except.ok.inj heq
          have hrefs : middle.refs = loom.refs := hrefs.trans (replay_advanceEdits_base hhead)
          rw [persist_eq, refEdits_edited, hedits, hrefs, List.nil_append] at hpersist
          exact ⟨persisted', (Prod.mk.inj hpersist).1, houtcome⟩
      constructor
      · rintro ⟨error, hsound, heq⟩
        rw [houtcome, StateExcept.except_map_eq_error] at heq
        exact .edge hsound hadmits htransact happly (hpersist.trans heq)
      · intro hwriteRefused
        cases hwriteRefused with
        | checks _ refused => exact absurd refused (hnocheck _)
        | pages _ _ refused => cases htransact.symm.trans refused
        | head _ _ _ refused =>
            rw [happly] at refused
            cases (Prod.mk.inj refused).1
        | edge sound _ _ moved refused =>
            rw [happly] at moved
            obtain ⟨-, rfl⟩ := Prod.mk.inj moved
            rw [hpersist] at refused
            exact ⟨_, sound, by rw [houtcome, refused]; rfl⟩

end Refusing

/-! ## Looking for the nodes of both sides -/

section Lookups

variable {faults : Faults} {branch source target : BranchId} {commit : CommitId} {key : Key}

/-- The engine over a page store whose pages have faults. -/
def withFaults (faults : Faults) (engine : Engine σ ρ) : Engine σ ρ :=
  { engine with pager := engine.pager.withFaults faults }

theorem nodeForKey_eq_find (hhead : loom.refs.branches[branch]? = some commit) :
    engine.nodeForKey branch key loom =
      ((do
        let tree ← engine.pager.opened loom.pager commit
        (Tree.find (latestNodeKey key) tree).map nodeOf), loom) := by
  unfold nodeForKey
  rw [head_bind, hhead]
  simp only
  unfold reading Substrate.opened
  rw [FallibleState.bind_eq, FallibleState.get_bind]
  cases hfork : engine.pager.fork loom.pager commit with
  | error error => rfl
  | ok snapshot =>
      simp only [Except.mapError, FallibleState.bind_eq, FallibleState.lift_eq]
      cases hopen : Tree.openTree snapshot with
      | error error => simp only [bind, Except.bind, hopen]
      | ok tree =>
          have hrun : (KeyValue.ask (latestNodeKey key)).run Tree.records tree =
              Tree.get (latestNodeKey key) tree := by
            change (Tree.get (latestNodeKey key) >>= fun found => pure found) tree = _
            rw [bind_pure]
          simp only [bind, Except.bind, hopen, hrun, Tree.find]
          cases Tree.get (latestNodeKey key) tree with
          | error error => rfl
          | ok found => rfl

/-- The node of a key, where the lookup reads no damaged page. -/
theorem nodeForKey_withFaults (hhead : loom.refs.branches[branch]? = some commit)
    (hmeta : ¬engine.pager.Damaged faults loom.pager commit META_PAGE)
    (hclean : ∀ tree, (engine.pager.withFaults faults).opened loom.pager commit = .ok tree →
      ¬Touches (engine.pager.Damaged faults loom.pager) (latestNodeKey key) (commit, tree)) :
    (engine.withFaults faults).nodeForKey branch key loom = engine.nodeForKey branch key loom := by
  rw [nodeForKey_eq_find hhead, nodeForKey_eq_find hhead]
  rcases opened_withFaults engine.pager loom.pager hmeta with
    ⟨error, hopen, hopen'⟩ | ⟨tree, tree', hopen, hopen', hagree⟩
  · rw [hopen, withFaults, hopen']
  · rw [hopen, withFaults, hopen']
    simp only [bind, Except.bind]
    rw [hagree.find (hclean tree' hopen')]

theorem sideNodes_withFaults {sourceHead targetHead : CommitId}
    (hsource : loom.refs.branches[source]? = some sourceHead)
    (htarget : loom.refs.branches[target]? = some targetHead)
    (hmeta : ∀ commit ∈ [sourceHead, targetHead],
      ¬engine.pager.Damaged faults loom.pager commit META_PAGE)
    (hclean : ∀ commit ∈ [sourceHead, targetHead], ∀ tree,
      (engine.pager.withFaults faults).opened loom.pager commit = .ok tree →
      ¬Touches (engine.pager.Damaged faults loom.pager) (latestNodeKey key) (commit, tree)) :
    (engine.withFaults faults).sideNodes source target key loom =
      engine.sideNodes source target key loom := by
  have hlookSource : loom = (engine.nodeForKey source key loom).2 := nodeForKey_moves source key loom
  have honSource := nodeForKey_withFaults hsource (hmeta sourceHead (by simp))
    (hclean sourceHead (by simp))
  have honTarget := nodeForKey_withFaults htarget (hmeta targetHead (by simp))
    (hclean targetHead (by simp))
  unfold sideNodes
  rw [FallibleState.bind_eq, FallibleState.attempt_eq, honSource, FallibleState.bind_eq,
    FallibleState.attempt_eq]
  simp only
  rw [← hlookSource, FallibleState.bind_eq, FallibleState.attempt_eq, honTarget,
    FallibleState.bind_eq, FallibleState.attempt_eq]

/-- The parents that the planned writes get, where no lookup reads a damaged page. -/
theorem mergeParents_withFaults {writes : List (Key × Record)}
    {parents : ExtTreeMap Key (List NodeId)}
    (hsides : ∀ entry ∈ writes, isReserved entry.1 = false → isProvenance entry.1 = false →
      (engine.withFaults faults).sideNodes source target entry.1 loom =
        engine.sideNodes source target entry.1 loom) :
    (engine.withFaults faults).mergeParents source target writes parents loom =
      engine.mergeParents source target writes parents loom := by
  induction writes generalizing parents with
  | nil => rfl
  | cons write writes ih =>
      obtain ⟨key, record⟩ := write
      obtain ⟨hside, hsides⟩ := List.forall_mem_cons.mp hsides
      unfold mergeParents
      cases hkey : isReserved key || isProvenance key with
      | true =>
          rw [if_pos rfl, if_pos rfl]
          exact ih hsides
      | false =>
          obtain ⟨hreserved, hprovenance⟩ := Bool.or_eq_false_iff.mp hkey
          obtain ⟨nodes, hnodes⟩ := engine.sideNodes_eq source target key loom
          rw [if_neg Bool.false_ne_true, if_neg Bool.false_ne_true, FallibleState.bind_eq,
            FallibleState.bind_eq, hside hreserved hprovenance, hnodes]
          exact ih hsides

end Lookups

/-! ## Merges -/

section Merging

variable {faults : Faults} {token : CapabilityToken} {source target : BranchId}
  {policy : MergePolicy} {envelope : WriteEnvelope} {forbids : Key → Record → Option Bytes}
  {sourceHead targetHead base : CommitId}

theorem isLowest_withFaults (candidate : CommitId) (common : List CommitId) :
    (engine.withFaults faults).isLowest candidate common = engine.isLowest candidate common := by
  induction common with
  | nil => rfl
  | cons other common ih =>
      unfold isLowest
      rw [ih]
      rfl

/-- The bases of a merge are not read from pages. -/
theorem mergeBases_withFaults (first second : CommitId) :
    (engine.withFaults faults).mergeBases first second = engine.mergeBases first second := by
  unfold mergeBases
  simp only [isLowest_withFaults]
  rfl

theorem mergeHeads_withFaults :
    MergeHeads (engine.withFaults faults) loom source target sourceHead targetHead base ↔
      MergeHeads engine loom source target sourceHead targetHead base := by
  constructor
  · rintro ⟨hsource, htarget, hbases⟩
    rw [mergeBases_withFaults] at hbases
    exact ⟨hsource, htarget, hbases⟩
  · rintro ⟨hsource, htarget, hbases⟩
    refine ⟨hsource, htarget, ?_⟩
    rwa [mergeBases_withFaults]

/-- A merge reads a damaged page: in planning, or when it looks for the node of a key that it
writes. -/
inductive ReadFails (faults : Faults) (engine : Engine σ ρ) (loom : Loom σ ρ)
    (token : CapabilityToken) (source target : BranchId) (policy : MergePolicy)
    (envelope : WriteEnvelope) (forbids : Key → Record → Option Bytes) : Prop
  | planning {sourceHead targetHead base : CommitId}
      (admitted : mergeAdmits engine loom token source target envelope = .ok ())
      (heads : MergeHeads engine loom source target sourceHead targetHead base)
      (fails : PlanReadFails faults engine.platform policy engine.pager loom.pager base sourceHead
        targetHead) :
      ReadFails faults engine loom token source target policy envelope forbids
  | nodes {sourceHead targetHead base commit : CommitId} {writes : List (Key × Record)}
      {automatic : ℕ} {key : Key} {record : Record} {tree : Tree}
      (admitted : mergeAdmits engine loom token source target envelope = .ok ())
      (heads : MergeHeads engine loom source target sourceHead targetHead base)
      (planned : planMerge engine.platform (engine.pager.withFaults faults) loom.pager base
        sourceHead targetHead policy = .ok (.merged writes automatic))
      (allowed : firstForbidden forbids writes = none) (written : (key, record) ∈ writes)
      (unreserved : isReserved key = false) (caller : isProvenance key = false)
      (side : commit ∈ [sourceHead, targetHead])
      (opened : (engine.pager.withFaults faults).opened loom.pager commit = .ok tree)
      (touches : Touches (engine.pager.Damaged faults loom.pager) (latestNodeKey key)
        (commit, tree)) :
      ReadFails faults engine loom token source target policy envelope forbids

/-- The planning of a merge stops at a page that is refused. -/
def PlanningStops (engine : Engine σ ρ) (loom : Loom σ ρ) (source target : BranchId)
    (policy : MergePolicy) : Prop :=
  ∃ sourceHead targetHead base, MergeHeads engine loom source target sourceHead targetHead base ∧
    PlanStops engine.platform policy engine.pager loom.pager base sourceHead targetHead

/-- The write that a merge goes on to make is refused. -/
def MergeRefused (engine : Engine σ ρ) (loom : Loom σ ρ) (token : CapabilityToken)
    (source target : BranchId) (policy : MergePolicy) (envelope : WriteEnvelope)
    (forbids : Key → Record → Option Bytes) : Prop :=
  ∃ sourceHead targetHead base writes automatic parents,
    MergeReady engine loom token source target policy envelope forbids sourceHead targetHead base
      writes automatic parents ∧
    WriteRefused engine (ticked (ticked loom)) token target targetHead sourceHead
      (writes ++ [(mergedFromKey source, Record.blob sourceHead.asBytes)]) envelope parents

/-- A merge that reads a damaged page returns an error and moves no head, and one that commits
writes the keys, with the parents, that it would write were there no fault. -/
structure ReportsFaults (faults : Faults) (engine : Engine σ ρ) (loom : Loom σ ρ)
    (token : CapabilityToken) (source target : BranchId) (policy : MergePolicy)
    (envelope : WriteEnvelope) (forbids : Key → Record → Option Bytes) : Prop where
  reports : ReadFails faults engine loom token source target policy envelope forbids →
    (∃ error, error ≠ .panicked ∧ ((engine.withFaults faults).mergeChecked token source target
      policy envelope forbids loom).1 = .error error) ∧
    ((engine.withFaults faults).mergeChecked token source target policy envelope forbids
      loom).2.refs.branches = loom.refs.branches
  complete : ∀ commit records automatic, ((engine.withFaults faults).mergeChecked token source
      target policy envelope forbids loom).1 = .ok (.merged commit records automatic) →
    ∀ sourceHead targetHead base writes automatic parents,
      MergeReady (engine.withFaults faults) loom token source target policy envelope forbids
        sourceHead targetHead base writes automatic parents →
      MergeReady engine loom token source target policy envelope forbids sourceHead targetHead base
        writes automatic parents

/-- A merge over one base, after its plan. -/
theorem mergeOver_eq :
    engine.mergeOver token source target base sourceHead targetHead policy envelope forbids
        (ticked (ticked loom)) =
      match planMerge engine.platform engine.pager loom.pager base sourceHead targetHead policy with
      | .error error => (.error error, ticked (ticked loom))
      | .ok (.conflict conflicts) => (.ok (.conflict conflicts), ticked (ticked loom))
      | .ok (.merged writes automatic) =>
          engine.applyPlan token source target sourceHead writes automatic envelope forbids
            (ticked (ticked loom)) := by
  unfold mergeOver
  rw [FallibleState.get_bind, FallibleState.bind_eq, FallibleState.lift_eq]
  rw [show (ticked (ticked loom)).pager = loom.pager from rfl]
  rcases planMerge engine.platform engine.pager loom.pager base sourceHead targetHead policy with
    error | ⟨writes, automatic⟩ | conflicts <;> rfl

/-- Exactly when a merge with a base and a plan fails, does not panic and moves no head. -/
theorem mergeChecked_fails_iff
    (hadmits : mergeAdmits engine loom token source target envelope = .ok ())
    (hheads : MergeHeads engine loom source target sourceHead targetHead base)
    (hforked : Forked engine.pager loom.pager base sourceHead targetHead) :
    ((∃ error, error ≠ .panicked ∧ (engine.mergeChecked token source target policy envelope forbids
        loom).1 = .error error) ∧
      (engine.mergeChecked token source target policy envelope forbids loom).2.refs.branches =
        loom.refs.branches) ↔
      PlanningStops engine loom source target policy ∨
        MergeRefused engine loom token source target policy envelope forbids := by
  have hstops : PlanningStops engine loom source target policy ↔ ∃ error, error ≠ .panicked ∧
      planMerge engine.platform engine.pager loom.pager base sourceHead targetHead policy =
        .error error := by
    rw [planMerge_fails_iff hforked]
    constructor
    · rintro ⟨_, _, _, hother, hstops⟩
      obtain ⟨rfl, rfl, rfl⟩ := hheads.unique hother
      exact hstops
    · exact fun hstops => ⟨_, _, _, hheads, hstops⟩
  have hready : MergeRefused engine loom token source target policy envelope forbids →
      ∃ writes automatic, planMerge engine.platform engine.pager loom.pager base sourceHead
        targetHead policy = .ok (.merged writes automatic) ∧ firstForbidden forbids writes = none := by
    rintro ⟨_, _, _, writes, automatic, _, ⟨-, hother, hplanned, hallowed, -⟩, -⟩
    obtain ⟨rfl, rfl, rfl⟩ := hheads.unique hother
    exact ⟨writes, automatic, hplanned, hallowed⟩
  rcases hplan : planMerge engine.platform engine.pager loom.pager base sourceHead targetHead
    policy with error | ⟨writes, automatic⟩ | conflicts
  · have hmerge : engine.mergeChecked token source target policy envelope forbids loom =
        (.error error, ticked (ticked loom)) := by
      rw [mergeChecked_eq_over hadmits hheads, mergeOver_eq, hplan]
    have hnone : ¬MergeRefused engine loom token source target policy envelope forbids :=
      fun hrefused => by
        obtain ⟨_, _, hplanned, -⟩ := hready hrefused
        cases hplan.symm.trans hplanned
    have hsame : (ticked (ticked loom)).refs.branches = loom.refs.branches := rfl
    rw [hmerge, or_iff_left hnone, hstops, hplan]
    simp only [Except.error.injEq, hsame, and_true]
  · cases hforbidden : firstForbidden forbids writes with
    | some found =>
        obtain ⟨key, reason⟩ := found
        have hmerge : engine.mergeChecked token source target policy envelope forbids loom =
            (.ok (.policyRefused key reason), ticked (ticked loom)) := by
          rw [mergeChecked_eq_over hadmits hheads, mergeOver_eq, hplan]
          simp only [applyPlan, hforbidden]
          rfl
        rw [hmerge, hstops, hplan]
        refine iff_of_false ?_ ?_
        · rintro ⟨⟨_, _, heq⟩, -⟩
          cases heq
        rintro (⟨_, -, heq⟩ | hrefused)
        · cases heq
        · obtain ⟨_, _, hplanned, hallowed⟩ := hready hrefused
          obtain ⟨rfl, -⟩ := MergeOutcome.merged.inj (Except.ok.inj (hplan.symm.trans hplanned))
          cases hforbidden.symm.trans hallowed
    | none =>
        obtain ⟨parents, hparents⟩ : ∃ parents, engine.mergeParents source target
            (writes ++ [(mergedFromKey source, Record.blob sourceHead.asBytes)]) ∅
            (ticked (ticked loom)) = (.ok parents, ticked (ticked loom)) :=
          mergeParents_eq _ _ _ _ _
        have hargs : MergeReady engine loom token source target policy envelope forbids sourceHead
            targetHead base writes automatic parents :=
          ⟨hadmits, hheads, hplan, hforbidden, hparents⟩
        obtain ⟨written, last, hwrote, hmerge⟩ := mergeChecked_eq hargs
        have hhead : (ticked (ticked loom)).refs.branches[target]? = some targetHead := hheads.target
        have hnone : ¬PlanningStops engine loom source target policy := by
          rw [hstops, hplan]
          rintro ⟨_, -, heq⟩
          cases heq
        have hrefused : MergeRefused engine loom token source target policy envelope forbids ↔
            WriteRefused engine (ticked (ticked loom)) token target targetHead sourceHead
              (writes ++ [(mergedFromKey source, Record.blob sourceHead.asBytes)]) envelope
              parents := by
          constructor
          · rintro ⟨_, _, _, _, _, _, ⟨-, hother, hplanned, -, hparents'⟩, hrefused⟩
            obtain ⟨rfl, rfl, rfl⟩ := hheads.unique hother
            obtain ⟨rfl, -⟩ := MergeOutcome.merged.inj (Except.ok.inj (hplan.symm.trans hplanned))
            obtain rfl := Except.ok.inj (Prod.mk.inj (hparents.symm.trans hparents')).1
            exact hrefused
          · exact fun hrefused => ⟨_, _, _, _, _, _, hargs, hrefused⟩
        rw [hmerge, or_iff_right hnone, hrefused, ← writeMerge_refused_iff hhead, hwrote]
        simp only [StateExcept.except_map_eq_error]
        rfl
  · have hmerge : engine.mergeChecked token source target policy envelope forbids loom =
        (.ok (.conflict conflicts), ticked (ticked loom)) := by
      rw [mergeChecked_eq_over hadmits hheads, mergeOver_eq, hplan]
    rw [hmerge, hstops, hplan]
    refine iff_of_false ?_ ?_
    · rintro ⟨⟨_, _, heq⟩, -⟩
      cases heq
    rintro (⟨_, -, heq⟩ | hrefused)
    · cases heq
    · obtain ⟨_, _, hplanned, -⟩ := hready hrefused
      cases hplan.symm.trans hplanned

/-- A merge that reads no damaged page is made as if there were none. -/
theorem mergeReady_withFaults {writes : List (Key × Record)} {automatic : ℕ}
    {parents : ExtTreeMap Key (List NodeId)}
    (hnone : ¬ReadFails faults engine loom token source target policy envelope forbids)
    (hready : MergeReady (engine.withFaults faults) loom token source target policy envelope forbids
      sourceHead targetHead base writes automatic parents) :
    MergeReady engine loom token source target policy envelope forbids sourceHead targetHead base
      writes automatic parents := by
  obtain ⟨hadmits, hheads, hplanned, hallowed, hparents⟩ := hready
  have hadmits : mergeAdmits engine loom token source target envelope = .ok () := hadmits
  have hplanned : planMerge engine.platform (engine.pager.withFaults faults) loom.pager base
    sourceHead targetHead policy = .ok (.merged writes automatic) := hplanned
  have hheads := mergeHeads_withFaults.mp hheads
  have hreads : ¬PlanReadFails faults engine.platform policy engine.pager loom.pager base sourceHead
      targetHead :=
    fun hfails => hnone (.planning hadmits hheads hfails)
  refine ⟨hadmits, hheads, (planMerge_withFaults hreads).symm.trans hplanned, hallowed, ?_⟩
  rw [← hparents]
  refine (mergeParents_withFaults fun entry hentry hreserved hprovenance => ?_).symm
  refine sideNodes_withFaults hheads.source hheads.target
    (fun commit hcommit hdamaged => hreads ?_)
    (fun commit hcommit tree hopened htouches => hnone ?_)
  · exact .opening (.of_planMerge hplanned) (List.mem_cons_of_mem _ hcommit) hdamaged
  · have hwritten : entry ∈ writes := by
      refine (List.mem_append.mp hentry).resolve_right fun hlast => ?_
      obtain rfl := List.mem_singleton.mp hlast
      cases hreserved.symm.trans (isReserved_mergedFromKey source)
    exact .nodes hadmits hheads hplanned hallowed hwritten hreserved hprovenance hcommit hopened
      htouches

/-- A merge reports its damaged pages if it reads none, or its planning stops at a page, or the
write that it goes on to make is refused. -/
theorem mergeChecked_reportsFaults (faults : Faults) (engine : Engine σ ρ) (loom : Loom σ ρ)
    (token : CapabilityToken) (source target : BranchId) (policy : MergePolicy)
    (envelope : WriteEnvelope) (forbids : Key → Record → Option Bytes) :
    ReportsFaults faults engine loom token source target policy envelope forbids ↔
      ¬ReadFails faults engine loom token source target policy envelope forbids ∨
      PlanningStops (engine.withFaults faults) loom source target policy ∨
      MergeRefused (engine.withFaults faults) loom token source target policy envelope forbids := by
  have hreported : ReadFails faults engine loom token source target policy envelope forbids →
      (((∃ error, error ≠ .panicked ∧ ((engine.withFaults faults).mergeChecked token source target
          policy envelope forbids loom).1 = .error error) ∧
        ((engine.withFaults faults).mergeChecked token source target policy envelope forbids
          loom).2.refs.branches = loom.refs.branches) ↔
        PlanningStops (engine.withFaults faults) loom source target policy ∨
        MergeRefused (engine.withFaults faults) loom token source target policy envelope forbids) := by
    intro hfails
    cases hfails with
    | planning admitted heads fails =>
        exact mergeChecked_fails_iff admitted (mergeHeads_withFaults.mpr heads) fails.forked
    | nodes admitted heads planned =>
        exact mergeChecked_fails_iff admitted (mergeHeads_withFaults.mpr heads)
          (.of_planMerge planned)
  by_cases hfails : ReadFails faults engine loom token source target policy envelope forbids
  · rw [or_iff_right (not_not_intro hfails), ← hreported hfails]
    constructor
    · exact fun hreports => hreports.reports hfails
    · intro hreports
      refine ⟨fun _ => hreports, fun _ _ _ hmerged => ?_⟩
      obtain ⟨⟨error, -, herror⟩, -⟩ := hreports
      cases hmerged.symm.trans herror
  · exact iff_of_true ⟨fun hread => absurd hread hfails,
      fun _ _ _ _ _ _ _ _ _ _ hready => mergeReady_withFaults hfails hready⟩ (Or.inl hfails)

end Merging

/-- What a merge that commits went through. -/
theorem admitted_of_merged {engine : Engine σ ρ} {token : CapabilityToken}
    {source target : BranchId} {policy : MergePolicy} {envelope : WriteEnvelope}
    {forbids : Key → Record → Option Bytes} {commit : CommitId} {records automatic : ℕ}
    (hmerge : engine.mergeChecked token source target policy envelope forbids loom =
      (.ok (.merged commit records automatic), loom')) :
    mergeAdmits engine loom token source target envelope = .ok () ∧
      ∃ sourceHead targetHead base,
        MergeHeads engine loom source target sourceHead targetHead base ∧
        ∃ writes automatic, planMerge engine.platform engine.pager loom.pager base sourceHead
          targetHead policy = .ok (.merged writes automatic) := by
  rcases mergeChecked_cases hmerge with ⟨_, heq, -⟩ | ⟨hadmits, ⟨_, heq, -, hstopped⟩ | hwritten⟩
  · cases heq
  · obtain rfl := Except.ok.inj heq
    cases hstopped
  · obtain ⟨sourceHead, targetHead, base, writes, automatic, _, _, hwritten, -⟩ := hwritten
    exact ⟨hadmits, sourceHead, targetHead, base, hwritten.heads, writes, automatic, hwritten.planned⟩

/-! ## A merge of a leaf that is lost -/

/-- Page 1 of the commit on the branch of session `s` has become unreadable. -/
def leafLost (commit : CommitId) (page : PageNo) : Option Fault :=
  if commit = 1 ∧ page = 1 then
    some { read := .error (.unreadable page), unreadable := fun _ heq => nomatch heq }
  else none

/-- The branch of session `s` is merged into `main`, its page lost. -/
def mergeForkLost : Except LoomError MergeResult × Loom MemPager (Option Refs) :=
  (memoryEngine.withFaults leafLost).mergeChecked (memoryToken [ascii "s", MAIN]) (ascii "s") MAIN
    .conflict (memoryEnvelope MAIN) (fun _ _ => none) forkWritten

theorem mergeForkLost_eq : mergeForkLost = (.ok (.merged 2 0 0), mergeForkLost.2) := by
  have heval : mergeForkLost.1.toOption = some (.merged 2 0 0) := by decide +kernel
  have houtcome := StateExcept.toOption_eq_some.mp heval
  rw [← houtcome]

/-- The page is one that the merge changes, and the branch has it. -/
theorem leafLost_damaged :
    (∀ changed, memoryEngine.pager.diff3 forkWritten.pager 0 1 0 = .ok changed → 1 ∈ changed) ∧
      memoryEngine.pager.Damaged leafLost forkWritten.pager 1 1 := by
  have hlisted : ((memoryEngine.pager.diff3 forkWritten.pager 0 1 0).toOption.all fun changed =>
      changed.contains 1) = true := by decide +kernel
  have hthere : ((memoryEngine.pager.fork forkWritten.pager 1).toOption.any fun store =>
      (store.readHead 1).isOk) = true := by decide +kernel
  constructor
  · intro changed hchanged
    rw [hchanged] at hlisted
    exact List.contains_iff_mem.mp hlisted
  · cases hfork : memoryEngine.pager.fork forkWritten.pager 1 with
    | error error =>
        rw [hfork] at hthere
        cases hthere
    | ok store =>
        rw [hfork] at hthere
        refine ⟨store, hfork, nofun, ?_⟩
        cases hread : store.readHead 1 with
        | ok bytes => exact ⟨bytes, rfl⟩
        | error error =>
            simp only [Except.toOption, Option.any_some, hread] at hthere
            cases hthere

/-- The merge commits, and leaves out the record of the page it could not read. -/
theorem mergeChecked_unreported :
    memoryEngine.Reachable memoryLawful forkWritten ∧
      mergeFork .conflict forkWritten =
        (.ok (.merged 2 1 3), (mergeFork .conflict forkWritten).2) ∧
      mergeForkLost = (.ok (.merged 2 0 0), mergeForkLost.2) ∧
      ¬ReportsFaults leafLost memoryEngine forkWritten (memoryToken [ascii "s", MAIN]) (ascii "s")
        MAIN .conflict (memoryEnvelope MAIN) (fun _ _ => none) := by
  refine ⟨forkWritten_reachable, mergeFork_eq (by decide +kernel), mergeForkLost_eq, fun hreports => ?_⟩
  have hread : ReadFails leafLost memoryEngine forkWritten (memoryToken [ascii "s", MAIN])
      (ascii "s") MAIN .conflict (memoryEnvelope MAIN) (fun _ _ => none) := by
    obtain ⟨hadmits, sourceHead, targetHead, base, hheads, writes, automatic, hplanned⟩ :=
      admitted_of_merged mergeForkLost_eq
    have hheads := mergeHeads_withFaults.mp hheads
    obtain rfl : sourceHead = 1 := by
      have heval : forkWritten.refs.branches[ascii "s"]? = some 1 := by decide +kernel
      exact Option.some.inj (hheads.source.symm.trans heval)
    obtain rfl : targetHead = 0 := by
      have heval : forkWritten.refs.branches[MAIN]? = some 0 := by decide +kernel
      exact Option.some.inj (hheads.target.symm.trans heval)
    obtain rfl : base = 0 := by
      have heval : (memoryEngine.mergeBases 1 0 (ticked (ticked forkWritten))).1.toOption =
        some [0] := by decide +kernel
      obtain ⟨found, hfound, hbase⟩ := hheads.bases
      rw [hfound] at heval
      obtain rfl : found = [0] := Option.some.inj heval
      rcases hbase with hbase | ⟨hnil, -⟩
      · exact (List.singleton_inj.mp hbase).symm
      · cases hnil
    have hplanned : planMerge Platform.plain (memoryEngine.pager.withFaults leafLost)
      forkWritten.pager 0 1 0 .conflict = .ok (.merged writes automatic) := hplanned
    obtain ⟨changed, _, _, _, hopened⟩ := Opened.of_planMerge hplanned
    have hchanged := hopened.changed
    rw [diff3_withFaults] at hchanged
    have hside : (1 : CommitId) ∈ [0, 1, 0] := List.mem_cons_of_mem _ List.mem_cons_self
    have hnode : (1 : PageNo) ≠ META_PAGE := by decide
    have hlisted : 1 ∈ changed := leafLost_damaged.1 changed hchanged
    have hfails : PlanReadFails leafLost Platform.plain .conflict memoryEngine.pager
        forkWritten.pager 0 1 0 :=
      .collecting hopened hside hlisted hnode leafLost_damaged.2
    exact .planning hadmits hheads hfails
  obtain ⟨⟨error, -, herror⟩, -⟩ := hreports.reports hread
  cases (congrArg Prod.fst mergeForkLost_eq).symm.trans herror

end Engine

end LoomDB
