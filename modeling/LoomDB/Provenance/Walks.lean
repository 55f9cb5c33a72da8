import LoomDB.Branch.Nodes
import LoomDB.Provenance.TaintSpec

/-!
# Walking the branches

A taint goes through the branches in order. At each one it fails, or it adds the items for
the nodes it finds downstream of the source there.
-/

namespace LoomDB

open Std (ExtTreeMap ExtTreeSet)
open KeyValue (entries)

theorem floodDownstream_empty (nodes : NodeMap) : floodDownstream nodes ∅ = .ok ∅ := by
  change floodFrom (childrenOf nodes) (floodLimit nodes ∅) [] ∅ = .ok ∅
  rw [floodFrom]

namespace Engine

variable {σ ρ α : Type} {engine : Engine σ ρ} {lawful : engine.pager.Lawful} {loom : Loom σ ρ}
  {source : SourceRef} {branch : BranchId}

/-- The walk over a branch returns, with the nodes and those of them downstream. -/
def Walked (engine : Engine σ ρ) (loom : Loom σ ρ) (source : SourceRef) (branch : BranchId)
    (nodes : NodeMap) (contaminated : ExtTreeSet NodeId) : Prop :=
  (engine.nodesOn branch loom).1 = .ok nodes ∧
    ∃ seeds, (engine.seedsOn branch source loom).1 = .ok seeds ∧
      floodDownstream nodes seeds = .ok contaminated

theorem Walked.unique {nodes nodes' : NodeMap} {contaminated contaminated' : ExtTreeSet NodeId}
    (hwalked : Walked engine loom source branch nodes contaminated)
    (hwalked' : Walked engine loom source branch nodes' contaminated') :
    nodes = nodes' ∧ contaminated = contaminated' := by
  obtain ⟨hnodes, seeds, hseeds, hflood⟩ := hwalked
  obtain ⟨hnodes', seeds', hseeds', hflood'⟩ := hwalked'
  obtain rfl := Except.ok.inj (hnodes.symm.trans hnodes')
  obtain rfl := Except.ok.inj (hseeds.symm.trans hseeds')
  exact ⟨rfl, Except.ok.inj (hflood.symm.trans hflood')⟩

/-- The records of a branch are read, or an error says that its head or its commit is not
there. -/
theorem walk_cases (hlegible : lawful.Legible loom.pager) (branch : BranchId)
    (build : List (Key × Record) → α) :
    (∃ error, error ≠ .panicked ∧
      (do
        let commit ← head branch
        let records ← engine.reading commit entries
        return build records : LoomM σ ρ α) loom = (.error error, loom)) ∨
    ∃ records,
      (do
        let commit ← head branch
        let records ← engine.reading commit entries
        return build records : LoomM σ ρ α) loom = (.ok (build records), loom) := by
  rw [FallibleState.bind_eq]
  rcases hhead : head branch loom with ⟨error | commit, loom'⟩
  · obtain rfl := (head_moves branch).of_eq hhead
    refine Or.inl ⟨error, ?_, rfl⟩
    rintro rfl
    rw [head, FallibleState.get_bind] at hhead
    cases hcommit : loom.refs.branches[branch]? with
    | none =>
        rw [hcommit] at hhead
        cases hhead
    | some commit =>
        rw [hcommit] at hhead
        cases hhead
  · obtain rfl := (head_moves branch).of_eq hhead
    dsimp only
    rw [FallibleState.bind_eq]
    rcases reading_entries hlegible with ⟨error, hreading⟩ | ⟨map, -, hreading⟩
    · rw [hreading]
      exact Or.inl ⟨.pager error, nofun, rfl⟩
    · rw [hreading]
      exact Or.inr ⟨map.toList, rfl⟩

/-- A taint fails at a branch it cannot walk or whose items it cannot build, and goes on with
the items of any other. -/
theorem taintBranches_cons (hlegible : lawful.Legible loom.pager) (source : SourceRef)
    (branch : BranchId) (branches : List BranchId)
    (stats : TaintStats) (items : List ReversibleItem) :
    (∃ error, error ≠ .panicked ∧
      (∀ nodes contaminated, ¬Walked engine loom source branch nodes contaminated) ∧
      (engine.taintBranches source (branch :: branches) stats items loom).1 = .error error) ∨
    ∃ nodes contaminated, Walked engine loom source branch nodes contaminated ∧
      ((∃ error, reversibleItems engine.platform nodes source contaminated.toList = .error error ∧
        (engine.taintBranches source (branch :: branches) stats items loom).1 = .error error) ∨
      ∃ found stats', reversibleItems engine.platform nodes source contaminated.toList = .ok found ∧
        engine.taintBranches source (branch :: branches) stats items loom =
          engine.taintBranches source branches stats' (items ++ found) loom) := by
  rw [taintBranches, FallibleState.bind_eq]
  rcases walk_cases hlegible branch fun records => nodesAmong records ∅ with
    ⟨error, herror, hnodes⟩ | ⟨records, hnodes⟩
  · change engine.nodesOn branch loom = _ at hnodes
    rw [hnodes]
    refine Or.inl ⟨error, herror, fun _ _ hwalked => ?_, rfl⟩
    have hwalks := hwalked.1
    rw [hnodes] at hwalks
    cases hwalks
  change engine.nodesOn branch loom = _ at hnodes
  generalize nodesAmong records ∅ = nodes at hnodes
  rw [hnodes]
  dsimp only
  rw [FallibleState.bind_eq]
  rcases walk_cases hlegible branch fun records => seedsAmong source records ∅ with
    ⟨error, herror, hseeds⟩ | ⟨records, hseeds⟩
  · change engine.seedsOn branch source loom = _ at hseeds
    rw [hseeds]
    refine Or.inl ⟨error, herror, fun _ _ hwalked => ?_, rfl⟩
    obtain ⟨-, _, hwalks, -⟩ := hwalked
    rw [hseeds] at hwalks
    cases hwalks
  change engine.seedsOn branch source loom = _ at hseeds
  generalize seedsAmong source records ∅ = seeds at hseeds
  rw [hseeds]
  dsimp only
  let walkedStats : TaintStats := { stats with
    branches := stats.branches + 1
    nodesExamined := stats.nodesExamined + nodes.size }
  have hwalked : ∀ contaminated, floodDownstream nodes seeds = .ok contaminated →
      Walked engine loom source branch nodes contaminated := fun contaminated hflood =>
    ⟨congrArg Prod.fst hnodes, seeds, congrArg Prod.fst hseeds, hflood⟩
  split
  · next hempty =>
    obtain rfl := ExtTreeSet.isEmpty_iff.mp hempty
    refine Or.inr ⟨nodes, ∅, hwalked ∅ (floodDownstream_empty nodes),
      Or.inr ⟨[], walkedStats, rfl, ?_⟩⟩
    rw [List.append_nil]
  cases hflood : floodDownstream nodes seeds with
  | error error =>
      refine Or.inl ⟨error, ?_, ?_, rfl⟩
      · rintro rfl
        obtain ⟨heq, -⟩ := floodDownstream_eq_error hflood
        cases heq
      · rintro nodes' contaminated ⟨hnodes', seeds', hseeds', hflood'⟩
        rw [hnodes] at hnodes'
        rw [hseeds] at hseeds'
        obtain rfl := Except.ok.inj hnodes'
        obtain rfl := Except.ok.inj hseeds'
        rw [hflood] at hflood'
        cases hflood'
  | ok contaminated =>
      refine Or.inr ⟨nodes, contaminated, hwalked contaminated hflood, ?_⟩
      cases hitems : reversibleItems engine.platform nodes source contaminated.toList with
      | error error => exact Or.inl ⟨error, rfl, by simp [FallibleState.bind_eq, hitems]⟩
      | ok found =>
          exact Or.inr ⟨found,
            { walkedStats with contaminated := stats.contaminated + contaminated.size }, rfl,
            by simp [FallibleState.bind_eq, hitems, walkedStats]⟩

end Engine

end LoomDB
