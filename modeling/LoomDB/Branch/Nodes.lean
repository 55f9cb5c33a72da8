import LoomDB.Branch.Durability
import LoomDB.Branch.TreeRuns

/-!
# Legible commits

Only the nodes of a tree are ever committed, so in every reachable database every page of
every commit is a node, and a transaction that only reads fails only where the page store
does not give the commit.
-/

namespace LoomDB

open Std (ExtTreeMap ExtTreeSet)
open FallibleState (Moves)
open KeyValue (ask entries)

namespace Substrate.Lawful

variable {σ : Type} {pager : Substrate σ} {lawful : pager.Lawful}

/-- The pages of every commit are nodes of a tree that stands for a map. -/
structure Legible (lawful : pager.Lawful) (state : σ) : Prop where
  sound : lawful.Sound state
  nodes : ∀ commit pages, lawful.pages state commit = some pages → pages.Nodes

/-- A commit that was forked opens as its map, and its pages can be read. -/
theorem Legible.opens {state : σ} {commit : CommitId} {snapshot : Snapshot}
    (hlegible : lawful.Legible state) (hfork : pager.fork state commit = .ok snapshot) :
    ∃ pages map tree, lawful.pages state commit = some pages ∧ lawful.Stores state commit map ∧
      Tree.openTree snapshot = .ok tree ∧ Tree.Holds tree map ∧
      tree.store = Snapshot.ofPages pager.pageSize pages ∧ tree.Reads := by
  obtain ⟨pages, hpages, rfl⟩ := lawful.fork_eq_ok hfork
  obtain ⟨map, hstored⟩ := hlegible.sound commit pages hpages
  obtain ⟨tree, hopen, hholds, hstore, hreads⟩ :=
    Tree.Stored.opens hstored (hlegible.nodes commit pages hpages)
  exact ⟨pages, map, tree, hpages, ⟨pages, hpages, hstored⟩, hopen, hholds, hstore, hreads⟩

end Substrate.Lawful

namespace Engine

variable {σ ρ α : Type} {engine : Engine σ ρ} {lawful : engine.pager.Lawful}
  {loom loom' : Loom σ ρ}

/-! ## What a call commits -/

/-- The commits are legible if they were before. -/
def KeepsLegible (lawful : engine.pager.Lawful) (before after : Loom σ ρ) : Prop :=
  lawful.Legible before.pager → lawful.Legible after.pager

instance : IsPreorder (Loom σ ρ) (KeepsLegible lawful) where
  refl _ := id
  trans _ _ _ hfirst hsecond := hsecond ∘ hfirst

theorem KeepsLegible.of_pager (hpager : loom'.pager = loom.pager) : KeepsLegible lawful loom loom' :=
  fun hlegible => hpager ▸ hlegible

theorem Still.keepsLegible (hstill : Still loom loom') : KeepsLegible lawful loom loom' :=
  .of_pager hstill.pager

theorem keepsLegible_of_still {step : LoomM σ ρ α} (hstill : Moves Still step) :
    Moves (KeepsLegible lawful) step :=
  hstill.mono fun _ _ => Still.keepsLegible

theorem editRefs_keepsLegible (edit : RefEdit) :
    Moves (KeepsLegible lawful) (editRefs edit : LoomM σ ρ Unit) :=
  .bind (.modify fun _ => .of_pager rfl) fun _ => .modify fun _ => .of_pager rfl

theorem persist_keepsLegible : Moves (KeepsLegible lawful) engine.persist :=
  .bind .get fun _ => .bind (.modify fun _ => .of_pager rfl) fun _ => .lift _

theorem recordCommit_keepsLegible (commit : CommitId) (parents : List CommitId) :
    Moves (KeepsLegible lawful) (recordCommit commit parents : LoomM σ ρ Unit) := by
  refine .bind .get fun loom => ?_
  dsimp only
  split
  · exact .pure _
  · exact editRefs_keepsLegible _

theorem createBranch_keepsLegible (name : BranchId) (commit : CommitId) :
    Moves (KeepsLegible lawful) (engine.createBranch name commit) := by
  refine .bind .get fun loom => ?_
  split
  · exact .throw _
  · exact .bind (editRefs_keepsLegible _) fun _ => persist_keepsLegible

theorem setHead_keepsLegible (branch : BranchId) (commit : CommitId) :
    Moves (KeepsLegible lawful) (engine.setHead branch commit) := by
  refine .bind .get fun loom => ?_
  split
  · exact .bind (editRefs_keepsLegible _) fun _ => persist_keepsLegible
  · exact .throw _

/-- The pages that a transaction leaves are nodes. -/
theorem nodes_flushed {pages : Pages} {map map' : RecordMap} {tree : Tree} {pageSize : ℕ}
    (hstored : Tree.Stored pageSize pages map) (hnodes : pages.Nodes)
    (hholds : Tree.Holds tree map') (hstore : tree.store = Snapshot.ofPages pageSize pages) :
    (pages.overlay tree.flush).Nodes := by
  have hrepresents : OpenTree.Represents pageSize { pages := pages, tree := tree }
      { flushed := map, current := map' } := ⟨hholds, hstore, hstored, hnodes⟩
  exact hrepresents.nodes_flush

theorem transact_keepsLegible (base : CommitId) (program : RecordProgram α) :
    Moves (KeepsLegible lawful) (engine.transact base program) := by
  intro loom hlegible
  unfold transact
  rw [FallibleState.get_bind]
  cases hfork : engine.pager.fork loom.pager base with
  | error error => exact hlegible
  | ok snapshot =>
  obtain ⟨pages, map, tree, hpages, -, hopen, hholds, hstore, -⟩ := hlegible.opens hfork
  simp only [Except.mapError, FallibleState.bind_eq, FallibleState.lift_eq, hopen]
  cases hrun : program.run Tree.records tree with
  | error error => exact hlegible
  | ok pair =>
  obtain ⟨result, tree'⟩ := pair
  obtain ⟨map', -, hholds', hstore'⟩ := (Tree.records_simulates _).run ⟨hholds, hstore⟩ hrun
  obtain ⟨map₀, hstored⟩ := hlegible.sound base pages hpages
  have hflushed := nodes_flushed hstored (hlegible.nodes base pages hpages) hholds' hstore'
  rcases hcommit : engine.pager.commit loom.pager base (Tree.flush tree') with
    ⟨error | commit, pager'⟩
  · have hsame := lawful.commit_eq_error hcommit
    have hlegible' : lawful.Legible pager' :=
      ⟨fun other found hfound => hlegible.sound other found (hsame ▸ hfound),
        fun other found hfound => hlegible.nodes other found (hsame ▸ hfound)⟩
    simpa only [hcommit, FallibleState.modify_eq] using hlegible'
  · obtain ⟨hnew, -, -, hothers⟩ := lawful.commit_eq_ok hcommit hpages
    obtain ⟨-, -, -, hextends, -⟩ := lawful.commit_flush hcommit hpages hholds' hstore'
    have hlegible' : lawful.Legible pager' := by
      refine ⟨hextends.sound hlegible.sound, fun other found hfound => ?_⟩
      by_cases heq : other = commit
      · rw [heq, hnew] at hfound
        exact Option.some.inj hfound ▸ hflushed
      · exact hlegible.nodes other found (hothers other heq ▸ hfound)
    simp only [hcommit, FallibleState.modify_eq]
    exact hlegible'

theorem advance_keepsLegible (branch : BranchId) (base : CommitId) (program : RecordProgram α) :
    Moves (KeepsLegible lawful) (engine.advance branch base program) :=
  .bind (transact_keepsLegible base program) fun _ => .bind (recordCommit_keepsLegible _ _) fun _ =>
    .bind (setHead_keepsLegible _ _) fun _ => .pure _

theorem requireEnvelope_still (envelope : WriteEnvelope) :
    Moves Still (requireEnvelope envelope : LoomM σ ρ Unit) := by
  unfold requireEnvelope
  split
  · exact .pure _
  · exact .throw _

theorem authenticate_still (envelope : WriteEnvelope) :
    Moves Still (engine.authenticate envelope) := by
  refine .bind .get fun loom => ?_
  split
  · exact .pure _
  · split
    · exact .throw _
    · exact .lift _

theorem takeReadSet_still (session : SessionId) :
    Moves Still (takeReadSet session : LoomM σ ρ ReadSet) :=
  .bind .get fun _ => .bind (.modify fun _ => ⟨rfl, rfl, rfl, rfl⟩) fun _ => .pure _

theorem writeAll_keepsLegible (token : CapabilityToken) (branch : BranchId)
    (records : List (Key × Record)) (envelope : WriteEnvelope)
    (extraParents : ExtTreeMap Key (List NodeId)) (hints : ExtTreeMap Key IndexHint) :
    Moves (KeepsLegible lawful)
      (engine.writeAll token branch records envelope extraParents hints) :=
  .bind (keepsLegible_of_still (requireEnvelope_still _)) fun _ =>
    .bind (keepsLegible_of_still (authenticate_still _)) fun _ =>
    .bind (keepsLegible_of_still (authorize_still _ _)) fun _ =>
    .bind (keepsLegible_of_still (takeReadSet_still _)) fun _ =>
    .bind (keepsLegible_of_still (head_still _)) fun _ =>
    .bind (advance_keepsLegible _ _ _) fun _ => .pure _

theorem addMergeEdge_keepsLegible (commit second : CommitId) :
    Moves (KeepsLegible lawful) (addMergeEdge commit second : LoomM σ ρ Unit) := by
  refine .bind .get fun loom => ?_
  split
  · split
    · exact .pure _
    · exact editRefs_keepsLegible _
  · exact .pure _

theorem writeMerge_keepsLegible (token : CapabilityToken) (branch : BranchId)
    (records : List (Key × Record)) (envelope : WriteEnvelope) (second : CommitId)
    (parents : ExtTreeMap Key (List NodeId)) :
    Moves (KeepsLegible lawful) (engine.writeMerge token branch records envelope second parents) :=
  .bind (keepsLegible_of_still (head_still _)) fun _ =>
    .bind (writeAll_keepsLegible _ _ _ _ _ _) fun _ => .bind (recordCommit_keepsLegible _ _) fun _ =>
    .bind (addMergeEdge_keepsLegible _ _) fun _ => .bind persist_keepsLegible fun _ => .pure _

theorem mergeParents_moves (source target : BranchId) (writes : List (Key × Record))
    (parents : ExtTreeMap Key (List NodeId)) :
    Moves Eq (engine.mergeParents source target writes parents) := by
  intro loom
  obtain ⟨parents', heq⟩ := mergeParents_eq source target writes parents loom
  rw [heq]

theorem mergeOver_keepsLegible (token : CapabilityToken) (source target : BranchId)
    (base sourceHead targetHead : CommitId) (policy : MergePolicy) (envelope : WriteEnvelope)
    (forbids : Key → Record → Option Bytes) :
    Moves (KeepsLegible lawful) (engine.mergeOver token source target base sourceHead targetHead
      policy envelope forbids) := by
  refine .bind .get fun loom => .bind (.lift _) fun outcome => ?_
  cases outcome with
  | conflict conflicts => exact .pure _
  | merged writes automatic =>
      unfold applyPlan
      dsimp only
      cases firstForbidden forbids writes with
      | some found => exact .pure _
      | none =>
          have hparents : ∀ records, Moves (KeepsLegible lawful)
              (engine.mergeParents source target records ∅) := fun records =>
            (mergeParents_moves source target records ∅).mono fun _ _ heq =>
              .of_pager (by rw [heq])
          exact .bind (hparents _) fun _ => .bind (writeMerge_keepsLegible _ _ _ _ _ _) fun _ =>
            .pure _

theorem mergeChecked_keepsLegible (token : CapabilityToken) (source target : BranchId)
    (policy : MergePolicy) (envelope : WriteEnvelope) (forbids : Key → Record → Option Bytes) :
    Moves (KeepsLegible lawful)
      (engine.mergeChecked token source target policy envelope forbids) := by
  refine .bind (keepsLegible_of_still (requireEnvelope_still _)) fun _ =>
    .bind (keepsLegible_of_still (authorize_still _ _)) fun _ =>
    .bind (keepsLegible_of_still (authorize_still _ _)) fun _ =>
    .bind (keepsLegible_of_still (head_still _)) fun sourceHead =>
    .bind (keepsLegible_of_still (head_still _)) fun targetHead =>
    .bind ((mergeBases_moves sourceHead targetHead).mono fun _ _ heq => .of_pager (by rw [heq]))
      fun bases => ?_
  split
  · exact mergeOver_keepsLegible _ _ _ _ _ _ _ _ _
  · exact mergeOver_keepsLegible _ _ _ _ _ _ _ _ _
  · exact .pure _

theorem openSessionNamed_keepsLegible (session : SessionId) :
    Moves (KeepsLegible lawful) (engine.openSessionNamed session) :=
  .bind (keepsLegible_of_still (head_still _)) fun _ => .bind (createBranch_keepsLegible _ _) fun _ =>
    .bind (keepsLegible_of_still now_still) fun _ => .bind (.lift _) fun _ => .pure _

/-- Whatever a call does, it leaves legible commits legible. -/
theorem call_keepsLegible (call : Call) : Moves (KeepsLegible lawful) (engine.call call) := by
  cases call with
  | openSession =>
      exact .map _ (.bind (keepsLegible_of_still now_still) fun _ =>
        openSessionNamed_keepsLegible _)
  | openSessionNamed session => exact .map _ (openSessionNamed_keepsLegible session)
  | branch token source name =>
      exact .map _ (.bind (keepsLegible_of_still (authorize_still _ _)) fun _ =>
        .bind (keepsLegible_of_still (head_still _)) fun _ =>
        .bind (createBranch_keepsLegible _ _) fun _ => .pure _)
  | rewind token branch commit =>
      exact .map _ (.bind (keepsLegible_of_still (authorize_still _ _)) fun _ =>
        .bind (keepsLegible_of_still (head_still _)) fun _ =>
        .bind (setHead_keepsLegible _ _) fun _ => .pure _)
  | write token branch records hints envelope =>
      exact .map _ (writeAll_keepsLegible _ _ _ _ _ _)
  | invalidate token branch keys envelope =>
      exact .map _ (.bind (keepsLegible_of_still (requireEnvelope_still _)) fun _ =>
        .bind (keepsLegible_of_still (authenticate_still _)) fun _ =>
        .bind (keepsLegible_of_still (authorize_still _ _)) fun _ =>
        .bind (keepsLegible_of_still (head_still _)) fun _ =>
        .bind (advance_keepsLegible _ _ _) fun _ => .pure _)
  | merge token source target policy envelope forbids =>
      exact .map _ (mergeChecked_keepsLegible _ _ _ _ _ _)
  | maintain token branch upkeep =>
      exact .map _ (.bind (keepsLegible_of_still (authorize_still _ _)) fun _ =>
        .bind (keepsLegible_of_still (head_still _)) fun _ =>
        .discard (advance_keepsLegible _ _ _))
  | _ => exact keepsLegible_of_still (asks_still rfl)

/-- Every commit of a reachable database is legible. -/
theorem Reachable.legible (hreachable : engine.Reachable lawful loom) :
    lawful.Legible loom.pager := by
  induction hreachable with
  | opened hfresh hopened =>
      obtain ⟨hload, rfl, -⟩ := assemble_eq_ok hopened
      rcases loadRefs_eq_ok hload with ⟨hstored, -⟩ | ⟨root, -, hroot, -⟩
      · rw [hfresh.refs] at hstored
        cases hstored
      · refine ⟨hfresh.sound hroot, fun commit pages hpages page bytes _ hbytes => ?_⟩
        obtain rfl := hfresh.root hroot commit pages hpages
        rw [(lawful.root_eq_ok hroot).1] at hpages
        obtain rfl := Option.some.inj hpages
        simp at hbytes
  | called _ call ih => exact call_keepsLegible call _ ih
  | reopened _ hopened ih =>
      obtain ⟨-, hpager, -⟩ := assemble_eq_ok hopened
      rwa [hpager]

/-! ## Reading legible commits -/

/-- All the records of a commit are read, or the page store does not give it. -/
theorem reading_entries {commit : CommitId} (hlegible : lawful.Legible loom.pager) :
    (∃ error, engine.reading commit entries loom = (.error (.pager error), loom)) ∨
      ∃ map, lawful.Stores loom.pager commit map ∧
        engine.reading commit entries loom = (.ok map.toList, loom) := by
  unfold reading
  rw [FallibleState.get_bind]
  cases hfork : engine.pager.fork loom.pager commit with
  | error error => exact Or.inl ⟨error, rfl⟩
  | ok snapshot =>
      obtain ⟨pages, map, tree, -, hstores, hopen, hholds, -, hreads⟩ := hlegible.opens hfork
      obtain ⟨tree', hscan⟩ := hholds.answers_scan hreads
      refine Or.inr ⟨map, hstores, ?_⟩
      have hrun : (entries : RecordProgram (List (Key × Record))).run Tree.records tree =
          .ok (map.toList, tree') :=
        StateExcept.bind_eq_ok.mpr ⟨map.toList, tree', hscan, rfl⟩
      simp only [Except.mapError, FallibleState.bind_eq, FallibleState.lift_eq, hopen, hrun]
      rfl

end Engine

end LoomDB
