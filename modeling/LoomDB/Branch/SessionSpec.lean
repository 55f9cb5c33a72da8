import LoomDB.Branch.Session

/-!
# What the engine's steps do

Each commit of the page store stands for one map of records. Reading runs a
transaction on that map and changes nothing; a write runs one, and the commit it
makes stands for the map it leaves. Every other commit stands for what it stood
for before.
-/

namespace LoomDB

open Std (ExtTreeMap ExtTreeSet)
open FallibleState (Moves)

/-- The records of a commit. -/
abbrev RecordMap := ExtTreeMap Key Record

namespace Substrate.Lawful

variable {σ : Type} {pager : Substrate σ} (lawful : pager.Lawful)

/-- The pages of the commit stand for the map. -/
def Stores (state : σ) (commit : CommitId) (map : RecordMap) : Prop :=
  ∃ pages, lawful.pages state commit = some pages ∧ Tree.Stored pager.pageSize pages map

/-- The pages of every commit stand for a map. -/
def Sound (state : σ) : Prop :=
  ∀ commit pages, lawful.pages state commit = some pages →
    ∃ map, Tree.Stored pager.pageSize pages map

/-- The commits that were there are there, and so is the root. -/
structure Extends (before after : σ) : Prop where
  kept : ∀ {commit : CommitId} {pages : Pages},
    lawful.pages before commit = some pages → lawful.pages after commit = some pages
  parents : ∀ {commit : CommitId},
    lawful.pages before commit ≠ none ∨ lawful.pages after commit = none →
      pager.parent after commit = pager.parent before commit
  root : pager.rootManifest after = pager.rootManifest before
  sound : lawful.Sound before → lawful.Sound after

/-- The only commit with a new parent is a new one on the base. -/
def Grows (base commit : CommitId) (before after : σ) : Prop :=
  ∀ other, pager.parent after other = pager.parent before other ∨
    other = commit ∧ lawful.pages before commit = none ∧
      pager.parent after other = .ok (some base)

/-- The same commits with the same pages and parents, and the same root. -/
structure Same (before after : σ) : Prop where
  pages : lawful.pages after = lawful.pages before
  parents : pager.parent after = pager.parent before
  root : pager.rootManifest after = pager.rootManifest before

variable {lawful} {state before middle after : σ} {commit base : CommitId} {map map' : RecordMap}

theorem Stores.unique (hstores : lawful.Stores state commit map)
    (hstores' : lawful.Stores state commit map') : map = map' := by
  obtain ⟨pages, hpages, hstored⟩ := hstores
  obtain ⟨pages', hpages', hstored'⟩ := hstores'
  rw [hpages] at hpages'
  obtain rfl := Option.some.inj hpages'
  exact hstored.unique hstored'

theorem Extends.refl (state : σ) : lawful.Extends state state :=
  ⟨id, fun _ => rfl, rfl, id⟩

theorem Extends.trans (hfirst : lawful.Extends before middle)
    (hsecond : lawful.Extends middle after) : lawful.Extends before after where
  kept hpages := hsecond.kept (hfirst.kept hpages)
  parents {commit} hpages := by
    rcases hpages with hstored | hmissing
    · obtain ⟨pages, hkept⟩ := Option.ne_none_iff_exists'.mp hstored
      have hmiddle : lawful.pages middle commit ≠ none := by
        rw [hfirst.kept hkept]
        exact nofun
      exact (hsecond.parents (Or.inl hmiddle)).trans (hfirst.parents (Or.inl hstored))
    · have hmiddle : lawful.pages middle commit = none := by
        by_contra hstored
        obtain ⟨pages, hkept⟩ := Option.ne_none_iff_exists'.mp hstored
        rw [hsecond.kept hkept] at hmissing
        cases hmissing
      exact (hsecond.parents (Or.inr hmissing)).trans (hfirst.parents (Or.inr hmiddle))
  root := hsecond.root.trans hfirst.root
  sound hsound := hsecond.sound (hfirst.sound hsound)

theorem Same.refl (state : σ) : lawful.Same state state :=
  ⟨rfl, rfl, rfl⟩

theorem Same.extended (hsame : lawful.Same before after) : lawful.Extends before after where
  kept hpages := by rw [hsame.pages, hpages]
  parents _ := by rw [hsame.parents]
  root := hsame.root
  sound hsound commit pages hpages := by
    rw [hsame.pages] at hpages
    exact hsound commit pages hpages

theorem Extends.stores (hextends : lawful.Extends before after)
    (hstores : lawful.Stores before commit map) : lawful.Stores after commit map :=
  hstores.imp fun _ => And.imp_left hextends.kept

/-- The commit of a flushed transaction. -/
theorem commit_flush {tree : Tree} {content : Pages} {state state' : σ}
    (hcommit : pager.commit state base (Tree.flush tree) = (.ok commit, state'))
    (hpages : lawful.pages state base = some content)
    (hholds : Tree.Holds tree map') (hstore : tree.store = Snapshot.ofPages pager.pageSize content) :
    lawful.Stores state' commit map' ∧ (commit = base ∨ lawful.pages state commit = none) ∧
      lawful.Grows base commit state state' ∧ lawful.Extends state state' ∧
      ∀ other, other ≠ commit → lawful.pages state' other = lawful.pages state other := by
  obtain ⟨hnew, hsame, hfresh, hothers⟩ := lawful.commit_eq_ok hcommit hpages
  have hstored := hholds.stored_flush hstore
  have hkept : ∀ {other : CommitId} {pages : Pages},
      lawful.pages state other = some pages → lawful.pages state' other = some pages := by
    intro other pages hother
    by_cases heq : other = commit
    · subst heq
      by_cases hchanged : content.overlay (Tree.flush tree) = content
      · obtain rfl := hsame hchanged
        rw [hpages] at hother
        rw [hnew, hchanged, hother]
      · rw [hfresh hchanged] at hother
        cases hother
    · rw [hothers other heq, hother]
  have hparents : ∀ {other : CommitId},
      lawful.pages state other ≠ none ∨ lawful.pages state' other = none →
        pager.parent state' other = pager.parent state other := by
    refine fun {other} hother => (lawful.parent_commit hcommit).2 other (hother.imp_right ?_)
    rintro hmissing rfl
    rw [hnew] at hmissing
    cases hmissing
  have hgrows : lawful.Grows base commit state state' := by
    intro other
    by_cases hother : lawful.pages state other ≠ none ∨ other ≠ commit
    · exact Or.inl ((lawful.parent_commit hcommit).2 other hother)
    · obtain ⟨hmissing, rfl⟩ : lawful.pages state other = none ∧ other = commit := by
        simpa only [not_or, not_not] using hother
      exact Or.inr ⟨rfl, hmissing, (lawful.parent_commit hcommit).1 hmissing⟩
  refine ⟨⟨_, hnew, hstored⟩, ?_, hgrows, ⟨hkept, hparents, ?_, ?_⟩, hothers⟩
  · by_cases hchanged : content.overlay (Tree.flush tree) = content
    · exact Or.inl (hsame hchanged)
    · exact Or.inr (hfresh hchanged)
  · have hroot := lawful.rootManifest_commit state base (Tree.flush tree)
    rwa [hcommit] at hroot
  · intro hsound other pages hother
    by_cases heq : other = commit
    · subst heq
      rw [hnew] at hother
      exact Option.some.inj hother ▸ ⟨map', hstored⟩
    · exact hsound other pages (hothers other heq ▸ hother)

/-- A commit that failed left everything as it was. -/
theorem commit_failed {writes : List (PageNo × Bytes)} {error : PagerError} {state state' : σ}
    (hcommit : pager.commit state base writes = (.error error, state')) :
    lawful.Same state state' where
  pages := lawful.commit_eq_error hcommit
  parents := lawful.parent_commit_error hcommit
  root := by
    have hroot := lawful.rootManifest_commit state base writes
    rwa [hcommit] at hroot

/-- Opening a commit gives a tree that stands for its map. -/
theorem openTree_spec {snapshot : Snapshot} {tree : Tree} (hsound : lawful.Sound state)
    (hfork : pager.fork state commit = .ok snapshot) (hopen : Tree.openTree snapshot = .ok tree) :
    ∃ pages map, lawful.pages state commit = some pages ∧ lawful.Stores state commit map ∧
      snapshot = Snapshot.ofPages pager.pageSize pages ∧
      Tree.Holds tree map ∧ tree.store = Snapshot.ofPages pager.pageSize pages := by
  obtain ⟨pages, hpages, rfl⟩ := lawful.fork_eq_ok hfork
  obtain ⟨map, hstored⟩ := hsound commit pages hpages
  obtain ⟨info, -, heq⟩ := Tree.openTree_eq_ok.mp hopen
  exact ⟨pages, map, hpages, ⟨pages, hpages, hstored⟩, rfl, hstored.holds hopen, heq ▸ rfl⟩

end Substrate.Lawful

/-- What the engine adds to a write after its provenance. -/
def indexAppends (written : List (Key × Record)) (captured : ReadSet)
    (hints : ExtTreeMap Key IndexHint) : RecordProgram Unit := do
  written.forM fun (key, record) => indexRecord captured hints key record
  written.forM fun (_, record) => appendHistory record

namespace Engine

variable {σ ρ α : Type} {engine : Engine σ ρ} {lawful : engine.pager.Lawful}
  {loom loom' : Loom σ ρ}

/-! ## Transactions -/

theorem reading_moves (commit : CommitId) (program : RecordProgram α) :
    Moves Eq (engine.reading commit program) :=
  .bind .get fun _ => .bind (.lift _) fun _ => .bind (.lift _) fun _ =>
    .bind (.lift _) fun _ => .pure _

/-- A read runs its transaction on the map of the commit. -/
theorem reading_spec {commit : CommitId} {program : RecordProgram α} {result : α}
    (hsound : lawful.Sound loom.pager)
    (hreading : engine.reading commit program loom = (.ok result, loom')) :
    loom' = loom ∧ ∃ map map', lawful.Stores loom.pager commit map ∧
      program.onMap map = .ok (result, map') := by
  refine ⟨(reading_moves commit program |>.of_eq hreading).symm, ?_⟩
  simp only [reading, FallibleState.get_bind, FallibleState.lift_bind_eq_ok, StateExcept.except_mapError_eq_ok,
    FallibleState.pure_eq_ok, Prod.exists] at hreading
  obtain ⟨snapshot, hfork, tree, hopen, _, tree', hrun, rfl, -⟩ := hreading
  obtain ⟨pages, map, -, hstores, -, hholds, hstore⟩ := lawful.openTree_spec hsound hfork hopen
  obtain ⟨map', honMap, -⟩ := (Tree.records_simulates _).run ⟨hholds, hstore⟩ hrun
  exact ⟨map, map', hstores, honMap⟩

/-- What a transaction and its commit do to the page store. -/
structure Transacted (lawful : engine.pager.Lawful) (program : RecordProgram α)
    (base : CommitId) (result : α) (commit : CommitId) (before after : σ)
    (map map' : RecordMap) : Prop where
  stored : lawful.Stores before base map
  ran : program.onMap map = .ok (result, map')
  stores : lawful.Stores after commit map'
  fresh : commit = base ∨ lawful.pages before commit = none
  grows : lawful.Grows base commit before after
  extended : lawful.Extends before after
  others : ∀ other, other ≠ commit → lawful.pages after other = lawful.pages before other

/-- A transaction fails and leaves all commits as they were, or makes a commit
that stands for the map it leaves. -/
theorem transact_cases {base : CommitId} {program : RecordProgram α}
    {outcome : Except LoomError (α × CommitId)} (hsound : lawful.Sound loom.pager)
    (htransact : engine.transact base program loom = (outcome, loom')) :
    loom' = { loom with pager := loom'.pager } ∧
      ((∃ error, outcome = .error error ∧ lawful.Same loom.pager loom'.pager) ∨
        ∃ result commit map map', outcome = .ok (result, commit) ∧
          Transacted lawful program base result commit loom.pager loom'.pager map map') := by
  unfold transact at htransact
  rw [FallibleState.get_bind] at htransact
  cases hfork : engine.pager.fork loom.pager base with
  | error error =>
      simp only [hfork, Except.mapError, FallibleState.bind_eq, FallibleState.lift_eq] at htransact
      obtain ⟨rfl, rfl⟩ := Prod.mk.inj htransact
      exact ⟨rfl, Or.inl ⟨_, rfl, .refl _⟩⟩
  | ok snapshot =>
  cases hopen : Tree.openTree snapshot with
  | error error =>
      simp only [hfork, hopen, Except.mapError, FallibleState.bind_eq, FallibleState.lift_eq] at htransact
      obtain ⟨rfl, rfl⟩ := Prod.mk.inj htransact
      exact ⟨rfl, Or.inl ⟨_, rfl, .refl _⟩⟩
  | ok tree =>
  cases hrun : program.run Tree.records tree with
  | error error =>
      simp only [hfork, hopen, hrun, Except.mapError, FallibleState.bind_eq, FallibleState.lift_eq] at htransact
      obtain ⟨rfl, rfl⟩ := Prod.mk.inj htransact
      exact ⟨rfl, Or.inl ⟨_, rfl, .refl _⟩⟩
  | ok pair =>
  obtain ⟨result, tree'⟩ := pair
  obtain ⟨pages, map, hpages, hstores, -, hholds, hstore⟩ := lawful.openTree_spec hsound hfork hopen
  obtain ⟨map', honMap, hholds', hstore'⟩ :=
    (Tree.records_simulates _).run ⟨hholds, hstore⟩ hrun
  rcases hcommit : engine.pager.commit loom.pager base (Tree.flush tree') with ⟨error | commit, pager'⟩
  · simp only [hfork, hopen, hrun, hcommit, Except.mapError, FallibleState.bind_eq, FallibleState.lift_eq, FallibleState.modify_eq] at htransact
    obtain ⟨rfl, rfl⟩ := Prod.mk.inj htransact
    exact ⟨rfl, Or.inl ⟨_, rfl, lawful.commit_failed hcommit⟩⟩
  · simp only [hfork, hopen, hrun, hcommit, Except.mapError, FallibleState.bind_eq, FallibleState.lift_eq, FallibleState.modify_eq] at htransact
    obtain ⟨rfl, rfl⟩ := Prod.mk.inj htransact
    obtain ⟨hstores', hfresh, hgrows, hextends, hothers⟩ :=
      lawful.commit_flush hcommit hpages hholds' hstore'
    exact ⟨rfl, Or.inr ⟨result, commit, map, map', rfl, hstores, honMap, hstores', hfresh, hgrows,
      hextends, hothers⟩⟩

/-! ## Refs -/

/-- Edits made to the refs and kept for the store. -/
def edited (loom : Loom σ ρ) (edits : List RefEdit) : Loom σ ρ :=
  { loom with refs := loom.refs.replay edits, refEdits := loom.refEdits ++ edits }

@[simp]
theorem refEdits_edited (loom : Loom σ ρ) (edits : List RefEdit) :
    (edited loom edits).refEdits = loom.refEdits ++ edits := rfl

@[simp]
theorem edited_nil (loom : Loom σ ρ) : edited loom [] = loom := by
  simp [edited]

@[simp]
theorem edited_edited (loom : Loom σ ρ) (first second : List RefEdit) :
    edited (edited loom first) second = edited loom (first ++ second) := by
  simp [edited]

@[simp]
theorem editRefs_eq (edit : RefEdit) (loom : Loom σ ρ) :
    editRefs edit loom = (.ok (), edited loom [edit]) := rfl

/-- The edit that records a commit, if any. -/
def recordEdits (refs : Refs) (commit : CommitId) (parents : List CommitId) : List RefEdit :=
  if (parents.filter fun parent => parent ≠ commit) = [] ∨ refs.commits[commit]?.isSome then []
  else [.recordCommit commit (parents.filter fun parent => parent ≠ commit)]

@[simp]
theorem recordCommit_eq (commit : CommitId) (parents : List CommitId) (loom : Loom σ ρ) :
    recordCommit commit parents loom =
      (.ok (), edited loom (recordEdits loom.refs commit parents)) := by
  unfold recordCommit recordEdits
  rw [FallibleState.get_bind]
  split
  · rw [edited_nil]
    rfl
  · rfl

theorem persist_eq (loom : Loom σ ρ) :
    engine.persist loom = ((engine.store.apply loom.refEdits loom.store).1,
      { loom with refEdits := [], store := (engine.store.apply loom.refEdits loom.store).2 }) :=
  rfl

theorem persist_refs {persisted : Except LoomError Unit}
    (hpersist : engine.persist loom = (persisted, loom')) :
    loom' = { loom with refEdits := [], store := loom'.store } := by
  rw [persist_eq] at hpersist
  obtain ⟨-, rfl⟩ := Prod.mk.inj hpersist
  rfl

theorem createBranch_eq {name : BranchId} {commit : CommitId}
    (hfree : loom.refs.branches[name]? = none) :
    engine.createBranch name commit loom =
      engine.persist (edited loom [.createBranch name commit]) := by
  unfold createBranch
  rw [FallibleState.get_bind, hfree]
  rfl

theorem createBranch_taken {name : BranchId} {commit : CommitId}
    (htaken : loom.refs.branches[name]?.isSome) :
    engine.createBranch name commit loom = (.error (.branchExists name), loom) := by
  unfold createBranch
  rw [FallibleState.get_bind, if_pos htaken]
  rfl

theorem setHead_eq {branch : BranchId} {commit : CommitId}
    (hbranch : loom.refs.branches[branch]?.isSome) :
    engine.setHead branch commit loom = engine.persist (edited loom [.setHead branch commit]) := by
  unfold setHead
  rw [FallibleState.get_bind, if_pos hbranch, FallibleState.bind_eq, editRefs_eq]

/-- The edits behind a write: its commit, and the new head. -/
def advanceEdits (refs : Refs) (branch : BranchId) (base commit : CommitId) : List RefEdit :=
  recordEdits refs commit [base] ++ [.setHead branch commit]

theorem branches_recordEdits (refs refs' : Refs) (commit : CommitId) (parents : List CommitId) :
    (refs'.replay (recordEdits refs commit parents)).branches = refs'.branches := by
  unfold recordEdits
  split <;> rfl

theorem branches_advanceEdits (refs : Refs) (branch : BranchId) (base commit : CommitId) :
    (refs.replay (advanceEdits refs branch base commit)).branches =
      refs.branches.insert branch commit := by
  rw [advanceEdits, Refs.replay_append, Refs.replay_cons, Refs.replay_nil, Refs.applyEdit,
    branches_recordEdits]

/-- A write that fails before its commit leaves the refs; after it, the branch
has moved, whether the store took the edits or not. -/
theorem advance_cases {branch : BranchId} {base : CommitId} {program : RecordProgram α}
    {outcome : Except LoomError (α × CommitId)} (hsound : lawful.Sound loom.pager)
    (hbranch : loom.refs.branches[branch]?.isSome)
    (hadvance : engine.advance branch base program loom = (outcome, loom')) :
    (∃ error, outcome = .error error ∧ (engine.transact base program loom).1 = .error error ∧
      loom' = { loom with pager := loom'.pager } ∧ lawful.Same loom.pager loom'.pager) ∨
    ∃ result commit map map', (engine.transact base program loom).1 = .ok (result, commit) ∧
      Transacted lawful program base result commit loom.pager loom'.pager map map' ∧
      loom' = { loom with
        pager := loom'.pager
        store := loom'.store
        refs := loom.refs.replay (advanceEdits loom.refs branch base commit)
        refEdits := [] } ∧
      ∃ persisted, engine.store.apply
        (loom.refEdits ++ advanceEdits loom.refs branch base commit) loom.store =
          (persisted, loom'.store) ∧
        outcome = persisted.map fun _ => (result, commit) := by
  unfold advance at hadvance
  rw [FallibleState.bind_eq] at hadvance
  rcases htransact : engine.transact base program loom with ⟨transacted, middle⟩
  obtain ⟨hmiddle, ⟨error, rfl, hsame⟩ | ⟨result, commit, map, map', rfl, htransacted⟩⟩ :=
    transact_cases hsound htransact
  · rw [htransact] at hadvance
    obtain ⟨rfl, rfl⟩ := Prod.mk.inj hadvance
    exact Or.inl ⟨error, rfl, rfl, hmiddle, hsame⟩
  · obtain ⟨pager, rfl⟩ : ∃ pager, middle = { loom with pager := pager } := ⟨_, hmiddle⟩
    simp only [htransact] at hadvance
    rw [FallibleState.bind_eq, recordCommit_eq] at hadvance
    simp only at hadvance
    rw [FallibleState.bind_eq, setHead_eq (by rwa [edited, branches_recordEdits]), edited_edited,
      persist_eq] at hadvance
    rcases happly : engine.store.apply
      (loom.refEdits ++ advanceEdits loom.refs branch base commit) loom.store with
      ⟨persisted, store⟩
    rw [advanceEdits] at happly
    simp only [edited, happly] at hadvance
    refine Or.inr ⟨result, commit, map, map', ?_⟩
    cases persisted with
    | error error =>
        obtain ⟨rfl, rfl⟩ := Prod.mk.inj hadvance
        exact ⟨rfl, htransacted, rfl, _, happly, rfl⟩
    | ok done =>
        obtain ⟨rfl, rfl⟩ := Prod.mk.inj hadvance
        exact ⟨rfl, htransacted, rfl, _, happly, rfl⟩

/-! ## Reads -/

/-- What the engine says of an envelope. -/
def authentic (engine : Engine σ ρ) (loom : Loom σ ρ) (envelope : WriteEnvelope) :
    Except LoomError Unit :=
  if envelope.isValid then
    match loom.actorKeys with
    | none => .ok ()
    | some keys =>
        match keys[envelope.actor]? with
        | none => .error (.unknownActor envelope.actor)
        | some key => envelope.verify engine.platform key
  else .error .missingEnvelope

theorem authentic_eq (envelope : WriteEnvelope) (next : LoomM σ ρ α) (loom : Loom σ ρ) :
    (do
      requireEnvelope envelope
      engine.authenticate envelope
      next) loom =
      match authentic engine loom envelope with
      | .ok _ => next loom
      | .error error => (.error error, loom) := by
  unfold requireEnvelope authenticate authentic
  split
  · rw [pure_bind, FallibleState.bind_eq, FallibleState.get_bind]
    cases loom.actorKeys with
    | none => rfl
    | some keys =>
        simp only
        cases keys[envelope.actor]? with
        | none => rfl
        | some key =>
            simp only [FallibleState.lift_eq]
            cases envelope.verify engine.platform key <;> rfl
  · rfl

/-- The clock has been read once more. -/
def ticked (loom : Loom σ ρ) : Loom σ ρ :=
  { loom with clock := loom.clock + 1 }

/-- What the engine's issuer says of a token at its next reading of the clock. -/
def admits (engine : Engine σ ρ) (loom : Loom σ ρ) (token : CapabilityToken) (branch : BranchId) :
    Except LoomError Unit :=
  engine.issuer.authorize engine.platform token branch (engine.platform.nowMs loom.clock)

theorem authorize_eq (token : CapabilityToken) (branch : BranchId) (loom : Loom σ ρ) :
    engine.authorize token branch loom = (admits engine loom token branch, ticked loom) := rfl

theorem authorize_eq_ok {token : CapabilityToken} {branch : BranchId} {done : Unit} :
    engine.authorize token branch loom = (.ok done, loom') ↔
      admits engine loom token branch = .ok () ∧ loom' = ticked loom := by
  rw [authorize_eq]
  exact ⟨fun heq => ⟨(Prod.mk.inj heq).1, (Prod.mk.inj heq).2.symm⟩,
    fun ⟨hadmits, heq⟩ => heq ▸ hadmits ▸ rfl⟩

theorem head_bind (branch : BranchId) (next : CommitId → LoomM σ ρ α) (loom : Loom σ ρ) :
    (head branch >>= next) loom =
      match loom.refs.branches[branch]? with
      | some commit => next commit loom
      | none => (.error (noSuchBranch branch), loom) := by
  rw [FallibleState.bind_eq]
  unfold head
  rw [FallibleState.get_bind]
  cases loom.refs.branches[branch]? with
  | none => rfl
  | some commit => rfl

theorem head_bind_none {branch : BranchId} {next : CommitId → LoomM σ ρ α}
    (hhead : loom.refs.branches[branch]? = none) :
    (head branch >>= next) loom = (.error (noSuchBranch branch), loom) := by
  rw [head_bind, hhead]

theorem head_bind_some {branch : BranchId} {next : CommitId → LoomM σ ρ α} {commit : CommitId}
    (hhead : loom.refs.branches[branch]? = some commit) :
    (head branch >>= next) loom = next commit loom := by
  rw [head_bind, hhead]

theorem head_eq_ok {branch : BranchId} {commit : CommitId} :
    head branch loom = (.ok commit, loom') ↔
      loom.refs.branches[branch]? = some commit ∧ loom' = loom := by
  unfold head
  rw [FallibleState.get_bind]
  cases loom.refs.branches[branch]? with
  | none =>
      constructor
      · rintro ⟨⟩
      · rintro ⟨⟨⟩, _⟩
  | some head =>
      constructor
      · rintro ⟨⟩
        exact ⟨rfl, rfl⟩
      · rintro ⟨⟨⟩, rfl⟩
        rfl

/-- The branch points at a commit that stands for the map. -/
structure Shows (lawful : engine.pager.Lawful) (loom : Loom σ ρ) (branch : BranchId)
    (map : RecordMap) : Prop where
  ofHead : ∃ commit, loom.refs.branches[branch]? = some commit ∧
    lawful.Stores loom.pager commit map

theorem Shows.unique {branch : BranchId} {map map' : RecordMap}
    (hshows : Shows lawful loom branch map) (hshows' : Shows lawful loom branch map') :
    map = map' := by
  obtain ⟨commit, hhead, hstores⟩ := hshows.ofHead
  obtain ⟨commit', hhead', hstores'⟩ := hshows'.ofHead
  rw [hhead] at hhead'
  obtain rfl := Option.some.inj hhead'
  exact hstores.unique hstores'

theorem nodeForKey_spec {branch : BranchId} {key : Key} {node : Option NodeId}
    {map : RecordMap} (hshows : Shows lawful loom branch map) (hsound : lawful.Sound loom.pager)
    (hnode : engine.nodeForKey branch key loom = (.ok node, loom')) :
    loom' = loom ∧ node = nodeOf map[latestNodeKey key]? := by
  simp only [nodeForKey, FallibleState.bind_eq_ok, head_eq_ok, FallibleState.pure_eq_ok] at hnode
  obtain ⟨commit, _, ⟨hhead, rfl⟩, found, _, hreading, rfl, rfl⟩ := hnode
  obtain ⟨rfl, map', _, hstores, hask⟩ := reading_spec hsound hreading
  obtain rfl := hshows.unique ⟨commit, hhead, hstores⟩
  obtain ⟨rfl, -⟩ := Prod.mk.inj (Except.ok.inj hask)
  exact ⟨rfl, rfl⟩

theorem indexEntryFor_spec {branch : BranchId} {key : Key} {entry : Option IndexEntry}
    {map : RecordMap} (hshows : Shows lawful loom branch map) (hsound : lawful.Sound loom.pager)
    (hentry : engine.indexEntryFor branch key loom = (.ok entry, loom')) :
    loom' = loom ∧ entryOf map[IndexEntry.storageKey key]? = .ok entry := by
  simp only [indexEntryFor, FallibleState.bind_eq_ok, head_eq_ok, FallibleState.lift_eq]
    at hentry
  obtain ⟨commit, _, ⟨hhead, rfl⟩, found, _, hreading, hentry⟩ := hentry
  obtain ⟨rfl, map', _, hstores, hask⟩ := reading_spec hsound hreading
  obtain rfl := hshows.unique ⟨commit, hhead, hstores⟩
  obtain ⟨rfl, -⟩ := Prod.mk.inj (Except.ok.inj hask)
  exact ⟨(Prod.mk.inj hentry).2.symm, (Prod.mk.inj hentry).1⟩

/-- What a read adds to a read set: the node that wrote the record, the record's
own source and trust, and the label of its index entry. -/
def seen (map : RecordMap) (key : Key) (record : Record) (entry : Option IndexEntry)
    (set : ReadSet) : ReadSet :=
  ReadSet.addEntry entry (ReadSet.addRecord record
    (ReadSet.addNode (nodeOf map[latestNodeKey key]?) set))

/-- A read set changed for one session. -/
def noted (loom : Loom σ ρ) (session : SessionId) (change : ReadSet → ReadSet) : Loom σ ρ :=
  { loom with readSets := loom.readSets.insert session (change (readSet session loom)) }

theorem note_bind {session : SessionId} {change : ReadSet → ReadSet}
    {next : Unit → LoomM σ ρ α} {loom : Loom σ ρ} :
    (note session change >>= next) loom = next () (noted loom session change) := rfl

theorem note_eq (session : SessionId) (change : ReadSet → ReadSet) (loom : Loom σ ρ) :
    note session change loom = (.ok (), noted loom session change) := rfl

theorem noted_noted (loom : Loom σ ρ) (session : SessionId) (first second : ReadSet → ReadSet) :
    noted (noted loom session first) session second = noted loom session (second ∘ first) := by
  have hinsert : ∀ (old new : ReadSet) (sets : ExtTreeMap SessionId ReadSet),
      (sets.insert session old).insert session new = sets.insert session new := by
    intro old new sets
    refine ExtTreeMap.ext_getElem? fun other => ?_
    simp only [OrderedMap.getElem?_insert]
    split <;> rfl
  have hread : readSet session (noted loom session first) = first (readSet session loom) := by
    rw [readSet, noted, OrderedMap.getElem?_insert, if_pos rfl, Option.getD_some]
  rw [noted, hread]
  simp only [noted, hinsert, Function.comp_apply]

theorem captureRead_spec {session : SessionId} {branch : BranchId} {key : Key} {record : Record}
    {map : RecordMap} (hshows : Shows lawful loom branch map) (hsound : lawful.Sound loom.pager)
    (hcapture : engine.captureRead session branch key record loom = (.ok (), loom')) :
    (isProvenance key = true ∧ loom' = loom) ∨
      (isProvenance key = false ∧ ∃ entry, entryOf map[IndexEntry.storageKey key]? = .ok entry ∧
        loom' = noted loom session (seen map key record entry)) := by
  unfold captureRead at hcapture
  cases hprovenance : isProvenance key with
  | true =>
      rw [hprovenance, if_pos rfl] at hcapture
      exact Or.inl ⟨rfl, (FallibleState.pure_eq_ok.mp hcapture).2.symm⟩
  | false =>
      rw [hprovenance, if_neg Bool.false_ne_true] at hcapture
      rw [note_bind, FallibleState.bind_eq_ok] at hcapture
      obtain ⟨node, middle, hnode, hcapture⟩ := hcapture
      have hshows' : Shows lawful (noted loom session id) branch map := ⟨hshows.ofHead⟩
      obtain ⟨rfl, rfl⟩ := nodeForKey_spec hshows' hsound hnode
      rw [note_bind, note_bind, FallibleState.bind_eq_ok] at hcapture
      obtain ⟨entry, middle, hindexed, hcapture⟩ := hcapture
      have hshows'' : Shows lawful (noted (noted (noted loom session id) session
          (ReadSet.addNode (nodeOf map[latestNodeKey key]?))) session
          (ReadSet.addRecord record)) branch map := ⟨hshows.ofHead⟩
      obtain ⟨rfl, hentry⟩ := indexEntryFor_spec hshows'' hsound hindexed
      rw [note_eq, noted_noted, noted_noted, noted_noted] at hcapture
      exact Or.inr ⟨rfl, entry, hentry, (Prod.mk.inj hcapture).2.symm⟩

/-- What a read returns, and what it leaves in the session's read set. -/
theorem read_spec {token : CapabilityToken} {branch : BranchId} {key : Key}
    {found : Option Record} (hsound : lawful.Sound loom.pager)
    (hread : engine.read token branch key loom = (.ok found, loom')) :
    admits engine loom token branch = .ok () ∧
      ∃ map, Shows lawful loom branch map ∧ found = map[key]? ∧
        ((loom' = ticked loom ∧
          (found = none ∨ isProvenance key = true)) ∨
        (isProvenance key = false ∧ ∃ record entry, found = some record ∧
          entryOf map[IndexEntry.storageKey key]? = .ok entry ∧
          loom' = noted (ticked loom) token.claims.session
            (seen map key record entry))) := by
  simp only [read, FallibleState.bind_eq_ok, authorize_eq_ok, head_eq_ok, FallibleState.pure_eq_ok] at hread
  obtain ⟨_, _, ⟨hadmits, rfl⟩, commit, _, ⟨hhead, rfl⟩, record, _, hreading, _, _, hcapture, rfl, rfl⟩ :=
    hread
  have hsound' : lawful.Sound (ticked loom).pager := hsound
  obtain ⟨rfl, map, _, hstores, hask⟩ := reading_spec hsound' hreading
  obtain ⟨rfl, -⟩ := Prod.mk.inj (Except.ok.inj hask)
  have hshows : Shows lawful loom branch map := ⟨commit, hhead, hstores⟩
  have hshows' : Shows lawful (ticked loom) branch map := ⟨hshows.ofHead⟩
  refine ⟨hadmits, map, hshows, rfl, ?_⟩
  cases hfound : map[key]? with
  | none =>
      rw [hfound] at hcapture
      exact Or.inl ⟨(FallibleState.pure_eq_ok.mp hcapture).2.symm, Or.inl rfl⟩
  | some record =>
      rw [hfound] at hcapture
      rcases captureRead_spec hshows' hsound hcapture with
        ⟨hprovenance, heq⟩ | ⟨hprovenance, entry, hentry, heq⟩
      · exact Or.inl ⟨heq, Or.inr hprovenance⟩
      · exact Or.inr ⟨hprovenance, record, entry, rfl, hentry, heq⟩

theorem readAt_spec {token : CapabilityToken} {branch : BranchId} {commit : CommitId} {key : Key}
    {found : Option Record} (hsound : lawful.Sound loom.pager)
    (hread : engine.readAt token branch commit key loom = (.ok found, loom')) :
    admits engine loom token branch = .ok () ∧
      loom' = ticked loom ∧
      ∃ map, lawful.Stores loom.pager commit map ∧ found = map[key]? := by
  simp only [readAt, FallibleState.bind_eq_ok, authorize_eq_ok] at hread
  obtain ⟨_, _, ⟨hadmits, rfl⟩, hreading⟩ := hread
  have hsound' : lawful.Sound (ticked loom).pager := hsound
  obtain ⟨rfl, map, _, hstores, hask⟩ := reading_spec hsound' hreading
  obtain ⟨rfl, -⟩ := Prod.mk.inj (Except.ok.inj hask)
  exact ⟨hadmits, rfl, map, hstores, rfl⟩

theorem scan_spec {token : CapabilityToken} {branch : BranchId} {records : List (Key × Record)}
    (hsound : lawful.Sound loom.pager)
    (hscan : engine.scan token branch loom = (.ok records, loom')) :
    admits engine loom token branch = .ok () ∧
      loom' = ticked loom ∧
      ∃ map, Shows lawful loom branch map ∧
        records = map.toList.filter fun entry => !isReserved entry.1 && !isProvenance entry.1 := by
  simp only [scan, FallibleState.bind_eq_ok, authorize_eq_ok, head_eq_ok, FallibleState.pure_eq_ok] at hscan
  obtain ⟨_, _, ⟨hadmits, rfl⟩, commit, _, ⟨hhead, rfl⟩, found, _, hreading, rfl, rfl⟩ := hscan
  have hsound' : lawful.Sound (ticked loom).pager := hsound
  obtain ⟨rfl, map, _, hstores, hentries⟩ := reading_spec hsound' hreading
  obtain ⟨rfl, -⟩ := Prod.mk.inj (Except.ok.inj hentries)
  exact ⟨hadmits, rfl, map, ⟨commit, hhead, hstores⟩, rfl⟩

/-! ## Writes -/

/-- The checks of a write, in their order. -/
def writeAdmits (engine : Engine σ ρ) (loom : Loom σ ρ) (token : CapabilityToken)
    (branch : BranchId) (envelope : WriteEnvelope) : Except LoomError Unit := do
  authentic engine loom envelope
  admits engine loom token branch

/-- A session's read set has been taken. -/
def taken (loom : Loom σ ρ) (session : SessionId) : Loom σ ρ :=
  { ticked loom with readSets := loom.readSets.erase session }

/-- A write is refused by its checks, or takes the read set of the session that
its envelope names and goes on from the branch's head. -/
theorem writeAll_cases {token : CapabilityToken} {branch : BranchId}
    {records : List (Key × Record)} {envelope : WriteEnvelope}
    {extraParents : ExtTreeMap Key (List NodeId)} {hints : ExtTreeMap Key IndexHint}
    {outcome : Except LoomError CommitId}
    (hwrite : engine.writeAll token branch records envelope extraParents hints loom =
      (outcome, loom')) :
    (∃ error, writeAdmits engine loom token branch envelope = .error error ∧
      outcome = .error error ∧ loom' = { loom with clock := loom'.clock }) ∨
    writeAdmits engine loom token branch envelope = .ok () ∧
      ((loom.refs.branches[branch]? = none ∧ outcome = .error (noSuchBranch branch) ∧
        loom' = taken loom envelope.session) ∨
      ∃ base advanced, loom.refs.branches[branch]? = some base ∧
        engine.advance branch base (writeProgram engine.platform branch base records envelope
          (readSet envelope.session loom) extraParents hints) (taken loom envelope.session) =
            (advanced, loom') ∧
        outcome = advanced.map Prod.snd) := by
  unfold writeAll at hwrite
  rw [authentic_eq] at hwrite
  unfold writeAdmits
  cases hauthentic : authentic engine loom envelope with
  | error error =>
      rw [hauthentic] at hwrite
      obtain ⟨rfl, rfl⟩ := Prod.mk.inj hwrite
      exact Or.inl ⟨error, rfl, rfl, rfl⟩
  | ok done =>
      simp only [hauthentic] at hwrite
      rw [FallibleState.bind_eq, authorize_eq] at hwrite
      change (∃ error, admits engine loom token branch = .error error ∧ _) ∨
        admits engine loom token branch = .ok () ∧ _
      cases hadmits : admits engine loom token branch with
      | error error =>
          rw [hadmits] at hwrite
          obtain ⟨rfl, rfl⟩ := Prod.mk.inj hwrite
          exact Or.inl ⟨error, rfl, rfl, rfl⟩
      | ok done =>
          simp only [hadmits] at hwrite
          refine Or.inr ⟨rfl, ?_⟩
          change (head branch >>= fun base => _) (taken loom envelope.session) = _ at hwrite
          rw [head_bind] at hwrite
          change (match loom.refs.branches[branch]? with | some _ => _ | none => _) = _ at hwrite
          cases hhead : loom.refs.branches[branch]? with
          | none =>
              rw [hhead] at hwrite
              obtain ⟨rfl, rfl⟩ := Prod.mk.inj hwrite
              exact Or.inl ⟨rfl, rfl, rfl⟩
          | some base =>
              simp only [hhead] at hwrite
              rcases hadvance : engine.advance branch base (writeProgram engine.platform branch
                base records envelope (readSet envelope.session (ticked loom)) extraParents hints)
                (taken loom envelope.session) with ⟨advanced, after⟩
              rw [FallibleState.bind_eq, hadvance] at hwrite
              refine Or.inr ⟨base, advanced, rfl, ?_⟩
              cases advanced with
              | error error =>
                  obtain ⟨rfl, rfl⟩ := Prod.mk.inj hwrite
                  exact ⟨hadvance, rfl⟩
              | ok result =>
                  obtain ⟨rfl, rfl⟩ := Prod.mk.inj hwrite
                  exact ⟨hadvance, rfl⟩

/-- A write that succeeds: its transaction, and the edits that became durable. -/
theorem writeAll_eq_ok {token : CapabilityToken} {branch : BranchId}
    {records : List (Key × Record)} {envelope : WriteEnvelope}
    {extraParents : ExtTreeMap Key (List NodeId)} {hints : ExtTreeMap Key IndexHint}
    {commit : CommitId} (hsound : lawful.Sound loom.pager)
    (hwrite : engine.writeAll token branch records envelope extraParents hints loom =
      (.ok commit, loom')) :
    writeAdmits engine loom token branch envelope = .ok () ∧
    ∃ base map map', loom.refs.branches[branch]? = some base ∧
      (engine.transact base (writeProgram engine.platform branch base records envelope
        (readSet envelope.session loom) extraParents hints) (taken loom envelope.session)).1 =
          .ok ((), commit) ∧
      Transacted lawful (writeProgram engine.platform branch base records envelope
        (readSet envelope.session loom) extraParents hints) base () commit loom.pager loom'.pager
          map map' ∧
      engine.store.apply (loom.refEdits ++ advanceEdits loom.refs branch base commit) loom.store =
        (.ok (), loom'.store) ∧
      loom' = { taken loom envelope.session with
        pager := loom'.pager
        store := loom'.store
        refs := loom.refs.replay (advanceEdits loom.refs branch base commit)
        refEdits := [] } := by
  rcases writeAll_cases hwrite with
    ⟨_, -, herror, -⟩ | ⟨hadmits, ⟨-, herror, -⟩ | ⟨base, advanced, hhead, hadvance, houtcome⟩⟩
  · cases herror
  · cases herror
  have hsound' : lawful.Sound (taken loom envelope.session).pager := hsound
  have hbranch : (taken loom envelope.session).refs.branches[branch]?.isSome := by
    change loom.refs.branches[branch]?.isSome
    rw [hhead]
    rfl
  refine ⟨hadmits, base, ?_⟩
  rcases advance_cases hsound' hbranch hadvance with
    ⟨_, rfl, -⟩ | ⟨⟨⟩, landed, map, map', htransact, htransacted, hafter, persisted, happly, rfl⟩
  · cases houtcome
  · cases persisted with
    | error error => cases houtcome
    | ok done =>
        obtain rfl := Except.ok.inj houtcome
        exact ⟨map, map', hhead, htransact, htransacted, happly, hafter⟩

/-- A write that fails after it made its commit was refused by the ref store. -/
theorem writeAll_refused {token : CapabilityToken} {branch : BranchId}
    {records : List (Key × Record)} {envelope : WriteEnvelope}
    {extraParents : ExtTreeMap Key (List NodeId)} {hints : ExtTreeMap Key IndexHint}
    {base commit : CommitId} {error : LoomError} (hsound : lawful.Sound loom.pager)
    (hwrite : engine.writeAll token branch records envelope extraParents hints loom =
      (.error error, loom'))
    (hadmits : writeAdmits engine loom token branch envelope = .ok ())
    (hhead : loom.refs.branches[branch]? = some base)
    (htransact : (engine.transact base (writeProgram engine.platform branch base records envelope
      (readSet envelope.session loom) extraParents hints) (taken loom envelope.session)).1 =
        .ok ((), commit)) :
    (engine.store.apply (loom.refEdits ++ advanceEdits loom.refs branch base commit)
      loom.store).1 = .error error := by
  rcases writeAll_cases hwrite with
    ⟨_, hrefused, -⟩ | ⟨-, ⟨hnone, -⟩ | ⟨_, advanced, hhead', hadvance, houtcome⟩⟩
  · rw [hadmits] at hrefused
    cases hrefused
  · rw [hhead] at hnone
    cases hnone
  rw [hhead] at hhead'
  obtain rfl := Option.some.inj hhead'
  have hsound' : lawful.Sound (taken loom envelope.session).pager := hsound
  have hbranch : (taken loom envelope.session).refs.branches[branch]?.isSome := by
    change loom.refs.branches[branch]?.isSome
    rw [hhead]
    rfl
  rcases advance_cases hsound' hbranch hadvance with
    ⟨_, -, hfailed, -⟩ | ⟨_, _, _, _, htransact', -, -, persisted, happly, rfl⟩
  · rw [htransact] at hfailed
    cases hfailed
  · rw [htransact] at htransact'
    obtain ⟨-, rfl⟩ := Prod.mk.inj (Except.ok.inj htransact')
    cases persisted with
    | error refused =>
        obtain rfl := Except.error.inj houtcome
        exact congrArg Prod.fst happly
    | ok done => cases houtcome

/-- Deindexing is refused by its checks, or goes on from the branch's head. -/
theorem invalidateAndDeindex_cases {token : CapabilityToken} {branch : BranchId}
    {keys : List Key} {envelope : WriteEnvelope} {outcome : Except LoomError (ℕ × ℕ)}
    (hinvalidate : engine.invalidateAndDeindex token branch keys envelope loom =
      (outcome, loom')) :
    (∃ error, writeAdmits engine loom token branch envelope = .error error ∧
      outcome = .error error ∧ loom' = { loom with clock := loom'.clock }) ∨
    writeAdmits engine loom token branch envelope = .ok () ∧
      ((loom.refs.branches[branch]? = none ∧ outcome = .error (noSuchBranch branch) ∧
        loom' = ticked loom) ∨
      ∃ base advanced, loom.refs.branches[branch]? = some base ∧
        engine.advance branch base (forgetKeys keys) (ticked loom) = (advanced, loom') ∧
        outcome = advanced.map Prod.fst) := by
  unfold invalidateAndDeindex at hinvalidate
  rw [authentic_eq] at hinvalidate
  unfold writeAdmits
  cases hauthentic : authentic engine loom envelope with
  | error error =>
      rw [hauthentic] at hinvalidate
      obtain ⟨rfl, rfl⟩ := Prod.mk.inj hinvalidate
      exact Or.inl ⟨error, rfl, rfl, rfl⟩
  | ok done =>
      simp only [hauthentic] at hinvalidate
      rw [FallibleState.bind_eq, authorize_eq] at hinvalidate
      change (∃ error, admits engine loom token branch = .error error ∧ _) ∨
        admits engine loom token branch = .ok () ∧ _
      cases hadmits : admits engine loom token branch with
      | error error =>
          rw [hadmits] at hinvalidate
          obtain ⟨rfl, rfl⟩ := Prod.mk.inj hinvalidate
          exact Or.inl ⟨error, rfl, rfl, rfl⟩
      | ok done =>
          simp only [hadmits] at hinvalidate
          refine Or.inr ⟨rfl, ?_⟩
          rw [head_bind] at hinvalidate
          change (match loom.refs.branches[branch]? with | some _ => _ | none => _) = _
            at hinvalidate
          cases hhead : loom.refs.branches[branch]? with
          | none =>
              rw [hhead] at hinvalidate
              obtain ⟨rfl, rfl⟩ := Prod.mk.inj hinvalidate
              exact Or.inl ⟨rfl, rfl, rfl⟩
          | some base =>
              simp only [hhead] at hinvalidate
              rcases hadvance : engine.advance branch base (forgetKeys keys) (ticked loom) with
                ⟨advanced, after⟩
              rw [FallibleState.bind_eq, hadvance] at hinvalidate
              refine Or.inr ⟨base, advanced, rfl, ?_⟩
              cases advanced with
              | error error =>
                  obtain ⟨rfl, rfl⟩ := Prod.mk.inj hinvalidate
                  exact ⟨hadvance, rfl⟩
              | ok result =>
                  obtain ⟨rfl, rfl⟩ := Prod.mk.inj hinvalidate
                  exact ⟨hadvance, rfl⟩

/-- What the branches show after a transaction put on one of them. -/
theorem advance_shows {branch other : BranchId} {base : CommitId} {program : RecordProgram α}
    {outcome : Except LoomError (α × CommitId)} {map : RecordMap}
    (hshows : Shows lawful loom other map) (hsound : lawful.Sound loom.pager)
    (hhead : loom.refs.branches[branch]? = some base)
    (hadvance : engine.advance branch base program loom = (outcome, loom')) :
    Shows lawful loom' other map ∨
      other = branch ∧ ∃ result map', program.onMap map = .ok (result, map') ∧
        Shows lawful loom' other map' := by
  obtain ⟨head, hother, hstores⟩ := hshows.ofHead
  have hbranch : loom.refs.branches[branch]?.isSome := by rw [hhead]; rfl
  rcases advance_cases hsound hbranch hadvance with
    ⟨error, -, -, hafter, hsame⟩ | ⟨result, commit, before, map', -, htransacted, hafter, -⟩
  · refine Or.inl ⟨head, ?_, hsame.extended.stores hstores⟩
    rw [hafter]
    exact hother
  · have hheads : loom'.refs.branches = loom.refs.branches.insert branch commit := by
      rw [hafter]
      exact branches_advanceEdits loom.refs branch base commit
    by_cases heq : other = branch
    · subst heq
      rw [hhead] at hother
      obtain rfl := Option.some.inj hother
      obtain rfl := hstores.unique htransacted.stored
      refine Or.inr ⟨rfl, result, map', htransacted.ran, commit, ?_, htransacted.stores⟩
      rw [hheads, OrderedMap.getElem?_insert, if_pos rfl]
    · refine Or.inl ⟨head, ?_, htransacted.extended.stores hstores⟩
      rw [hheads, OrderedMap.getElem?_insert, if_neg (Ne.symm heq), hother]

/-! ## Branches and rewinds -/

/-- A branch is refused, or made at the head of its source whether the store takes
the edit or not. -/
theorem branch_cases {token : CapabilityToken} {source name : BranchId}
    {outcome : Except LoomError (BranchId × CapabilityToken)}
    (hbranch : engine.branch token source name loom = (outcome, loom')) :
    ((admits engine loom token source ≠ .ok () ∨ loom.refs.branches[source]? = none ∨
        loom.refs.branches[name]?.isSome) ∧
      (∃ error, outcome = .error error) ∧ loom' = ticked loom) ∨
    admits engine loom token source = .ok () ∧ ∃ commit persisted,
      loom.refs.branches[source]? = some commit ∧ loom.refs.branches[name]? = none ∧
      engine.persist (edited (ticked loom) [.createBranch name commit]) = (persisted, loom') ∧
      outcome = persisted.map fun _ =>
        (name, engine.issuer.extend engine.platform token name) := by
  unfold branch at hbranch
  rw [FallibleState.bind_eq, authorize_eq] at hbranch
  cases hadmits : admits engine loom token source with
  | error refused =>
      rw [hadmits] at hbranch
      obtain ⟨rfl, rfl⟩ := Prod.mk.inj hbranch
      exact Or.inl ⟨Or.inl nofun, ⟨_, rfl⟩, rfl⟩
  | ok done =>
  rw [hadmits] at hbranch
  simp only at hbranch
  rw [head_bind] at hbranch
  change (match loom.refs.branches[source]? with | some _ => _ | none => _) = _ at hbranch
  cases hhead : loom.refs.branches[source]? with
  | none =>
      rw [hhead] at hbranch
      obtain ⟨rfl, rfl⟩ := Prod.mk.inj hbranch
      exact Or.inl ⟨Or.inr (Or.inl rfl), ⟨_, rfl⟩, rfl⟩
  | some commit =>
  simp only [hhead] at hbranch
  rw [FallibleState.bind_eq] at hbranch
  cases hname : loom.refs.branches[name]? with
  | some head =>
      have htaken : (ticked loom).refs.branches[name]?.isSome := by
        change loom.refs.branches[name]?.isSome
        rw [hname]
        rfl
      rw [createBranch_taken htaken] at hbranch
      obtain ⟨rfl, rfl⟩ := Prod.mk.inj hbranch
      exact Or.inl ⟨Or.inr (Or.inr rfl), ⟨_, rfl⟩, rfl⟩
  | none =>
      have hfree : (ticked loom).refs.branches[name]? = none := hname
      rw [createBranch_eq hfree] at hbranch
      refine Or.inr ⟨rfl, commit, ?_⟩
      rcases hpersist : engine.persist (edited (ticked loom) [.createBranch name commit]) with
        ⟨failed | done, after⟩
      · rw [hpersist] at hbranch
        obtain ⟨rfl, rfl⟩ := Prod.mk.inj hbranch
        exact ⟨_, rfl, rfl, rfl, rfl⟩
      · rw [hpersist] at hbranch
        obtain ⟨rfl, rfl⟩ := Prod.mk.inj hbranch
        exact ⟨_, rfl, rfl, rfl, rfl⟩

/-- A rewind is refused, or moves the head whether the store takes the edit or
not. -/
theorem rewind_cases {token : CapabilityToken} {branch : BranchId} {commit : CommitId}
    {outcome : Except LoomError CommitId}
    (hrewind : engine.rewind token branch commit loom = (outcome, loom')) :
    ((admits engine loom token branch ≠ .ok () ∨ loom.refs.branches[branch]? = none) ∧
      (∃ error, outcome = .error error) ∧ loom' = ticked loom) ∨
    admits engine loom token branch = .ok () ∧ ∃ head persisted,
      loom.refs.branches[branch]? = some head ∧
      engine.persist (edited (ticked loom) [.setHead branch commit]) = (persisted, loom') ∧
      outcome = persisted.map fun _ => head := by
  unfold rewind at hrewind
  rw [FallibleState.bind_eq, authorize_eq] at hrewind
  cases hadmits : admits engine loom token branch with
  | error refused =>
      rw [hadmits] at hrewind
      obtain ⟨rfl, rfl⟩ := Prod.mk.inj hrewind
      exact Or.inl ⟨Or.inl nofun, ⟨_, rfl⟩, rfl⟩
  | ok done =>
  rw [hadmits] at hrewind
  simp only at hrewind
  rw [head_bind] at hrewind
  change (match loom.refs.branches[branch]? with | some _ => _ | none => _) = _ at hrewind
  cases hhead : loom.refs.branches[branch]? with
  | none =>
      rw [hhead] at hrewind
      obtain ⟨rfl, rfl⟩ := Prod.mk.inj hrewind
      exact Or.inl ⟨Or.inr rfl, ⟨_, rfl⟩, rfl⟩
  | some head =>
  have hbranch : (ticked loom).refs.branches[branch]?.isSome := by
    change loom.refs.branches[branch]?.isSome
    rw [hhead]
    rfl
  simp only [hhead] at hrewind
  rw [FallibleState.bind_eq, setHead_eq hbranch] at hrewind
  refine Or.inr ⟨rfl, head, ?_⟩
  rcases hpersist : engine.persist (edited (ticked loom) [.setHead branch commit]) with
    ⟨failed | done, after⟩
  · rw [hpersist] at hrewind
    obtain ⟨rfl, rfl⟩ := Prod.mk.inj hrewind
    exact ⟨_, rfl, rfl, rfl⟩
  · rw [hpersist] at hrewind
    obtain ⟨rfl, rfl⟩ := Prod.mk.inj hrewind
    exact ⟨_, rfl, rfl, rfl⟩

end Engine

end LoomDB
