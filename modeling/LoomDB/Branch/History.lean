import LoomDB.Branch.Durability

/-!
# The graph of commits

The commit table and the page store together give each commit its parents. Every
call adds edges only from the commit it makes, so what holds of these edges holds
of the whole graph, in memory and after a restart.
-/

namespace LoomDB

open Std (ExtTreeMap ExtTreeSet)

namespace Refs

variable {edge edge' : CommitId → CommitId → Prop} {refs : Refs}

/-- Every recorded commit has parents, and the relation holds along each edge. -/
def Graph (edge : CommitId → CommitId → Prop) (refs : Refs) : Prop :=
  ∀ (commit : CommitId) (parents : List CommitId), refs.commits[commit]? = some parents →
    parents ≠ [] ∧ ∀ parent ∈ parents, edge commit parent

/-- The edges an edit adds. -/
def Along (edge : CommitId → CommitId → Prop) : RefEdit → Prop
  | .recordCommit commit parents => parents ≠ [] ∧ ∀ parent ∈ parents, edge commit parent
  | .addParent commit parent => edge commit parent
  | _ => True

theorem Graph.mono (hgraph : Graph edge refs)
    (hweaker : ∀ commit parent, edge commit parent → edge' commit parent) : Graph edge' refs :=
  fun commit parents hparents => (hgraph commit parents hparents).imp_right fun hedges parent hmem =>
    hweaker _ _ (hedges parent hmem)

theorem graph_of_commits_empty (hempty : refs.commits = ∅) : Graph edge refs := by
  intro commit parents hparents
  rw [hempty] at hparents
  simp at hparents

theorem Graph.applyEdit (hgraph : Graph edge refs) {edit : RefEdit} (halong : Along edge edit) :
    Graph edge (refs.applyEdit edit) := by
  cases edit with
  | recordCommit commit parents =>
      intro other parents' hparents
      change (refs.commits.insert commit parents)[other]? = some parents' at hparents
      rw [OrderedMap.getElem?_insert] at hparents
      split at hparents
      · next heq =>
        obtain rfl := Option.some.inj hparents
        exact heq ▸ halong
      · exact hgraph _ _ hparents
  | addParent commit second =>
      intro other parents' hparents
      change (refs.commits.insert commit _)[other]? = some parents' at hparents
      rw [OrderedMap.getElem?_insert] at hparents
      split at hparents
      · next heq =>
        subst heq
        obtain rfl := Option.some.inj hparents
        have hentry : ∀ parent ∈ (refs.commits[commit]?).getD [], edge commit parent := by
          cases hold : refs.commits[commit]? with
          | none => exact fun parent hmem => absurd hmem List.not_mem_nil
          | some parents => exact (hgraph _ _ hold).2
        split
        · next hmem => exact ⟨List.ne_nil_of_mem hmem, hentry⟩
        · refine ⟨by simp, fun parent hmem => ?_⟩
          rcases List.mem_append.mp hmem with hmem | hmem
          · exact hentry parent hmem
          · exact List.mem_singleton.mp hmem ▸ halong
      · exact hgraph _ _ hparents
  | setHead branch target => exact hgraph
  | createBranch name at_ => exact hgraph
  | removeBranch name => exact hgraph
  | setTag tag target => exact hgraph
  | removeTag tag => exact hgraph

theorem Graph.replay {edits : List RefEdit} (hgraph : Graph edge refs)
    (halong : ∀ edit ∈ edits, Along edge edit) : Graph edge (refs.replay edits) := by
  induction edits generalizing refs with
  | nil => exact hgraph
  | cons edit edits ih =>
      exact ih (hgraph.applyEdit (halong edit List.mem_cons_self))
        fun other hmem => halong other (List.mem_cons_of_mem _ hmem)

end Refs

namespace Engine

variable {σ ρ α : Type} {engine : Engine σ ρ} {lawful : engine.pager.Lawful}
  {loom loom' : Loom σ ρ} {edge : σ → CommitId → CommitId → Prop}

/-- The relation holds along every edge there is, and along every edge a restart
would load. -/
structure AllAlong (engine : Engine σ ρ) (edge : σ → CommitId → CommitId → Prop)
    (loom : Loom σ ρ) : Prop where
  refs : loom.refs.Graph (edge loom.pager)
  stored : ∀ {refs : Refs}, engine.store.load loom.store = .ok (some refs) →
    refs.Graph (edge loom.pager)
  refEdits : loom.refEdits = []
  pager : ∀ {commit parent : CommitId}, engine.pager.parent loom.pager commit = .ok (some parent) →
    edge loom.pager commit parent

theorem AllAlong.parentsOf (hall : AllAlong engine edge loom) {child parent : CommitId}
    (hparent : parent ∈ engine.parentsOf loom child) : edge loom.pager child parent := by
  unfold Engine.parentsOf at hparent
  cases hparents : loom.refs.commits[child]? with
  | some parents =>
      rw [hparents] at hparent
      exact (hall.refs _ _ hparents).2 parent hparent
  | none =>
      rw [hparents] at hparent
      rcases hfound : engine.pager.parent loom.pager child with error | found | found
      · rw [hfound] at hparent
        cases hparent
      · rw [hfound] at hparent
        cases hparent
      · rw [hfound] at hparent
        rw [List.mem_singleton.mp hparent]
        exact hall.pager hfound

/-- What was there is extended, with edges that are as they should be. -/
theorem AllAlong.of_filed {edits : List RefEdit} {persisted : Except LoomError Unit}
    (hall : AllAlong engine edge loom) (hcuts : engine.store.Cuts)
    (hfiled : Filed engine edits persisted loom loom')
    (hmono : ∀ commit parent, edge loom.pager commit parent → edge loom'.pager commit parent)
    (halong : ∀ edit ∈ edits, Refs.Along (edge loom'.pager) edit)
    (hparent : ∀ {commit parent : CommitId},
      engine.pager.parent loom'.pager commit = .ok (some parent) →
        engine.pager.parent loom.pager commit = .ok (some parent) ∨
          edge loom'.pager commit parent) : AllAlong engine edge loom' where
  refs := by
    rw [hfiled.refs]
    exact Refs.Graph.replay (hall.refs.mono hmono) halong
  stored := by
    intro refs' hload
    have happlied := hfiled.applied
    rw [hall.refEdits, List.nil_append] at happlied
    obtain ⟨refs, kept, hrefs, hkept, rfl⟩ := hcuts.apply_cut happlied hload
    refine Refs.Graph.replay ?_ fun edit hmem => halong edit (hkept.subset hmem)
    rcases hrefs with hstored | rfl
    · exact (hall.stored hstored).mono hmono
    · exact Refs.graph_of_commits_empty rfl
  refEdits := hfiled.refEdits
  pager := by
    intro commit parent hfound
    rcases hparent hfound with hold | hedge
    · exact hmono _ _ (hall.pager hold)
    · exact hedge

theorem AllAlong.of_unmoved (hall : AllAlong engine edge loom)
    (hunmoved : Unmoved lawful loom loom')
    (hmono : ∀ commit parent, edge loom.pager commit parent → edge loom'.pager commit parent) :
    AllAlong engine edge loom' where
  refs := by
    rw [hunmoved.refs]
    exact hall.refs.mono hmono
  stored := by
    rw [hunmoved.store]
    exact fun hload => (hall.stored hload).mono hmono
  refEdits := hunmoved.refEdits.trans hall.refEdits
  pager := by
    rw [hunmoved.pager.parents]
    exact fun hfound => hmono _ _ (hall.pager hfound)

/-- One edit on the same commits. -/
theorem AllAlong.of_edit {edit : RefEdit} {persisted : Except LoomError Unit}
    (hall : AllAlong engine edge loom) (hcuts : engine.store.Cuts)
    (hpager : loom'.pager = loom.pager) (hfiled : Filed engine [edit] persisted loom loom')
    (halong : Refs.Along (edge loom.pager) edit) : AllAlong engine edge loom' := by
  refine hall.of_filed hcuts hfiled (by rw [hpager]; exact fun _ _ => id) ?_
    fun hfound => Or.inl (hpager ▸ hfound)
  intro other hmem
  rw [List.mem_singleton.mp hmem, hpager]
  exact halong

/-- A write adds at most the edge to its base. -/
theorem AllAlong.of_advanced {program : RecordProgram α} {branch : BranchId}
    {base commit : CommitId} {result : α} {map map' : RecordMap}
    {persisted : Except LoomError Unit} (hall : AllAlong engine edge loom)
    (hcuts : engine.store.Cuts)
    (hadvanced : Advanced lawful program branch base commit result map map' persisted loom loom')
    (hmono : ∀ commit parent, edge loom.pager commit parent → edge loom'.pager commit parent)
    (hedge : edge loom'.pager commit base) : AllAlong engine edge loom' := by
  refine hall.of_filed hcuts hadvanced.filed hmono ?_ fun {other parent} hfound => ?_
  · intro edit hmem
    unfold advanceEdits recordEdits at hmem
    split at hmem
    · rw [List.nil_append, List.mem_singleton] at hmem
      subst hmem
      trivial
    · next hrecords =>
      rw [List.singleton_append, List.mem_cons, List.mem_singleton] at hmem
      rcases hmem with rfl | rfl
      · refine ⟨fun hnil => hrecords (Or.inl hnil), fun parent hparent => ?_⟩
        obtain rfl := List.mem_singleton.mp (List.mem_filter.mp hparent).1
        exact hedge
      · trivial
  · rcases hadvanced.transacted.grows other with hsame | ⟨rfl, -, hnew⟩
    · exact Or.inl (hsame ▸ hfound)
    · rw [hnew] at hfound
      obtain rfl := Option.some.inj (Except.ok.inj hfound)
      exact Or.inr hedge

/-- A merge adds at most the edges to the two heads. -/
theorem AllAlong.of_joined {commit before second : CommitId} {persisted : Except LoomError Unit}
    (hall : AllAlong engine edge loom) (hcuts : engine.store.Cuts)
    (hfiled : Filed engine (joinEdits loom.refs commit before second) persisted loom loom')
    (hpager : loom'.pager = loom.pager) (hbefore : edge loom.pager commit before)
    (hsecond : edge loom.pager commit second) : AllAlong engine edge loom' := by
  refine hall.of_filed hcuts hfiled (by rw [hpager]; exact fun _ _ => id) ?_
    fun {other parent} hfound => Or.inl (hpager ▸ hfound)
  intro edit hmem
  rw [hpager]
  unfold joinEdits recordEdits edgeEdits at hmem
  rcases List.mem_append.mp hmem with hmem | hmem
  · split at hmem
    · cases hmem
    · next hrecords =>
      obtain rfl := List.mem_singleton.mp hmem
      refine ⟨fun hnil => hrecords (Or.inl hnil), fun parent hparent => ?_⟩
      have hpair : parent = before ∨ parent = second := by
        simpa using (List.mem_filter.mp hparent).1
      rcases hpair with rfl | rfl
      · exact hbefore
      · exact hsecond
  · split at hmem
    · split at hmem
      · cases hmem
      · obtain rfl := List.mem_singleton.mp hmem
        exact hsecond
    · cases hmem

/-! ## Opening a database -/

theorem allAlong_of_fresh {pager : σ} {store : ρ} (hfresh : engine.Fresh lawful pager store)
    (hcuts : engine.store.Cuts) (hopened : engine.assemble pager store = .ok loom) :
    AllAlong engine edge loom := by
  obtain ⟨hload, rfl, -, hrefEdits, -⟩ := assemble_eq_ok hopened
  rcases loadRefs_eq_ok hload with ⟨hstored, -⟩ | ⟨root, hnone, -, hrefs, hsave⟩
  · rw [hfresh.refs] at hstored
    cases hstored
  · refine ⟨Refs.graph_of_commits_empty (hrefs ▸ rfl), ?_, hrefEdits, fun hfound =>
      absurd hfound hfresh.parents⟩
    intro refs hloaded
    rcases hcuts.save_cut hsave hloaded with rfl | hold
    · exact Refs.graph_of_commits_empty (hrefs ▸ rfl)
    · rw [hnone] at hold
      cases hold

theorem AllAlong.of_reopened (hall : AllAlong engine edge loom) (hcuts : engine.store.Cuts)
    (hopened : engine.assemble loom.pager loom.store = .ok loom') :
    AllAlong engine edge loom' := by
  obtain ⟨hload, hpager, -, hrefEdits, -⟩ := assemble_eq_ok hopened
  rcases loadRefs_eq_ok hload with ⟨hstored, hstore⟩ | ⟨root, -, -, hrefs, hsave⟩
  · refine ⟨?_, ?_, hrefEdits, ?_⟩
    · rw [hpager]
      exact hall.stored hstored
    · rw [hpager, hstore]
      exact hall.stored
    · rw [hpager]
      exact hall.pager
  · have hempty : loom'.refs.commits = ∅ := hrefs ▸ rfl
    refine ⟨Refs.graph_of_commits_empty hempty, ?_, hrefEdits, ?_⟩
    · intro refs hloaded
      rcases hcuts.save_cut hsave hloaded with rfl | hold
      · exact Refs.graph_of_commits_empty hempty
      · rw [hpager]
        exact hall.stored hold
    · rw [hpager]
      exact hall.pager

/-! ## Stored commits -/

/-- Both ends of an edge are in the store. -/
def StoredEdge (lawful : engine.pager.Lawful) (state : σ) (commit parent : CommitId) : Prop :=
  lawful.pages state commit ≠ none ∧ lawful.pages state parent ≠ none

theorem pages_ne_none {before after : σ} (hextends : lawful.Extends before after)
    {commit : CommitId} (hstored : lawful.pages before commit ≠ none) :
    lawful.pages after commit ≠ none := by
  obtain ⟨pages, hpages⟩ := Option.ne_none_iff_exists'.mp hstored
  rw [hextends.kept hpages]
  exact nofun

theorem StoredEdge.of_extends {before after : σ} (hextends : lawful.Extends before after)
    (commit parent : CommitId) (hedge : StoredEdge lawful before commit parent) :
    StoredEdge lawful after commit parent :=
  ⟨pages_ne_none hextends hedge.1, pages_ne_none hextends hedge.2⟩

theorem ne_none_of_stores {state : σ} {commit : CommitId} {map : RecordMap}
    (hstores : lawful.Stores state commit map) : lawful.pages state commit ≠ none := by
  obtain ⟨pages, hpages, -⟩ := hstores
  rw [hpages]
  exact nofun

theorem Advanced.storedEdge {program : RecordProgram α} {branch : BranchId}
    {base commit : CommitId} {result : α} {map map' : RecordMap}
    {persisted : Except LoomError Unit}
    (hadvanced : Advanced lawful program branch base commit result map map' persisted loom loom') :
    StoredEdge lawful loom'.pager commit base :=
  ⟨ne_none_of_stores hadvanced.transacted.stores,
    pages_ne_none hadvanced.transacted.extended (ne_none_of_stores hadvanced.transacted.stored)⟩

theorem AllAlong.of_advanced_stored {program : RecordProgram α} {branch : BranchId}
    {base commit : CommitId} {result : α} {map map' : RecordMap}
    {persisted : Except LoomError Unit} (hall : AllAlong engine (StoredEdge lawful) loom)
    (hcuts : engine.store.Cuts)
    (hadvanced : Advanced lawful program branch base commit result map map' persisted loom loom') :
    AllAlong engine (StoredEdge lawful) loom' :=
  hall.of_advanced hcuts hadvanced (StoredEdge.of_extends hadvanced.transacted.extended)
    hadvanced.storedEdge

theorem Step.allStored {call : Call} {outcome : Except LoomError Answer}
    (hstep : Step lawful loom call outcome loom') (hsound : lawful.Sound loom.pager)
    (hcuts : engine.store.Cuts) (hall : AllAlong engine (StoredEdge lawful) loom) :
    AllAlong engine (StoredEdge lawful) loom' := by
  have hunmoves : ∀ {after : Loom σ ρ}, Unmoved lawful loom after →
      AllAlong engine (StoredEdge lawful) after := fun hunmoved =>
    hall.of_unmoved hunmoved (StoredEdge.of_extends hunmoved.pager.extended)
  cases hstep with
  | asked _ hstill => exact hunmoves hstill.unmoved
  | refused hunmoved => exact hunmoves hunmoved
  | opened _ _ _ hpager hfiled => exact hall.of_edit hcuts hpager hfiled trivial
  | branched _ _ _ hpager hfiled => exact hall.of_edit hcuts hpager hfiled trivial
  | rewound _ _ hpager hfiled => exact hall.of_edit hcuts hpager hfiled trivial
  | wrote _ hadvanced => exact hall.of_advanced_stored hcuts hadvanced
  | forgot _ hadvanced => exact hall.of_advanced_stored hcuts hadvanced
  | kept _ hadvanced => exact hall.of_advanced_stored hcuts hadvanced
  | stopped hstill _ _ => exact hunmoves hstill.unmoved
  | halted _ hadvanced => exact hall.of_advanced_stored hcuts hadvanced
  | merged hready hadvanced hpager hfiled =>
      obtain ⟨_, _, _, _, _, -, hplanned⟩ := planMerge_spec hready.planned hsound
      have hsource := pages_ne_none hadvanced.transacted.extended
        (ne_none_of_stores hplanned.source)
      exact (hall.of_advanced_stored hcuts hadvanced).of_joined hcuts hfiled hpager
        hadvanced.storedEdge ⟨hadvanced.storedEdge.1, hsource⟩

/-- In every reachable database the edges are between commits of the store. -/
theorem Reachable.allStored (hcuts : engine.store.Cuts)
    (hreachable : engine.Reachable lawful loom) : AllAlong engine (StoredEdge lawful) loom := by
  induction hreachable with
  | opened hfresh hopened => exact allAlong_of_fresh hfresh hcuts hopened
  | called hreachable call ih =>
      exact (call_step hreachable.sound rfl).allStored hreachable.sound hcuts ih
  | reopened _ hopened ih => exact ih.of_reopened hcuts hopened

/-- A commit that is not in the store has no parents. -/
theorem AllAlong.parentsOf_missing (hall : AllAlong engine (StoredEdge lawful) loom)
    {commit : CommitId} (hmissing : lawful.pages loom.pager commit = none) :
    engine.parentsOf loom commit = [] := by
  by_contra hne
  obtain ⟨parent, hparent⟩ := List.exists_mem_of_ne_nil _ hne
  exact (hall.parentsOf hparent).1 hmissing

end Engine

end LoomDB
