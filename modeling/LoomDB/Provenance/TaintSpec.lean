import LoomDB.Branch.Capture
import LoomDB.Provenance.Flood

/-!
# What a taint finds

The walk over the branches changes nothing, the keys it finds are those of the
nodes downstream of the source, and a plan lists an action exactly when a key that
justified it is among them.
-/

namespace LoomDB

open Std (ExtTreeMap ExtTreeSet)
open KeyValue (entries)
open FallibleState (Moves)

namespace Engine

variable {σ ρ : Type} {engine : Engine σ ρ} {loom loom' : Loom σ ρ} {source : SourceRef}

/-! ## Nothing changes -/

theorem nodesOn_moves (branch : BranchId) : Moves Eq (engine.nodesOn branch) :=
  .bind (head_moves branch) fun _ => .bind (reading_moves _ _) fun _ => .pure _

theorem seedsOn_moves (branch : BranchId) (source : SourceRef) :
    Moves Eq (engine.seedsOn branch source) :=
  .bind (head_moves branch) fun _ => .bind (reading_moves _ _) fun _ => .pure _

theorem contaminatedKeysOn_moves (branch : BranchId) (source : SourceRef) :
    Moves Eq (engine.contaminatedKeysOn branch source) :=
  .bind (nodesOn_moves branch) fun _ => .bind (seedsOn_moves branch source) fun _ =>
    .bind (.lift _) fun _ => .pure _

theorem contaminatedKeys_moves (source : SourceRef) (branches : List BranchId) :
    Moves Eq (engine.contaminatedKeys source branches) := by
  induction branches with
  | nil => exact .pure _
  | cons branch branches ih =>
      exact .bind (contaminatedKeysOn_moves branch source) fun _ => .bind ih fun _ => .pure _

theorem taintBranches_moves (source : SourceRef) (branches : List BranchId) (stats : TaintStats)
    (items : List ReversibleItem) :
    Moves Eq (engine.taintBranches source branches stats items) := by
  induction branches generalizing stats items with
  | nil => exact .pure _
  | cons branch branches ih =>
      refine .bind (nodesOn_moves branch) fun nodes =>
        .bind (seedsOn_moves branch source) fun seeds => ?_
      split
      · exact ih _ _
      · exact .bind (.lift _) fun _ => .bind (.lift _) fun _ => ih _ _

theorem taint_moves (source : SourceRef) : Moves Eq (engine.taint source) :=
  .bind .get fun _ => .bind (taintBranches_moves _ _ _ _) fun _ => .pure _

/-! ## Contamination -/

/-- The node that last wrote a key. -/
def LatestNode (map : RecordMap) (key : Key) (id : NodeId) : Prop :=
  nodeOf map[latestNodeKey key]? = some id

/-- The key of a node on the branch that is downstream of the source. -/
def ContaminatedOn (engine : Engine σ ρ) (loom : Loom σ ρ) (source : SourceRef)
    (branch : BranchId) (key : Key) : Prop :=
  ∃ (nodes : NodeMap) (seeds : ExtTreeSet NodeId) (id : NodeId) (node : DerivationNode),
    (engine.nodesOn branch loom).1 = .ok nodes ∧
    (engine.seedsOn branch source loom).1 = .ok seeds ∧
    Downstream nodes seeds id ∧ nodes[id]? = some node ∧ isProvenance node.key = false ∧
    node.key = key

/-- The key is contaminated on some branch. -/
def Contaminated (engine : Engine σ ρ) (loom : Loom σ ρ) (source : SourceRef) (key : Key) :
    Prop :=
  ∃ branch ∈ branchNames loom, ContaminatedOn engine loom source branch key

/-- The keys of what a flood of the branch finds. -/
theorem mem_keys_of_flood {branch : BranchId} {nodes : NodeMap}
    {seeds contaminated : ExtTreeSet NodeId} (hnodes : (engine.nodesOn branch loom).1 = .ok nodes)
    (hseeds : (engine.seedsOn branch source loom).1 = .ok seeds)
    (hflood : floodDownstream nodes seeds = .ok contaminated) {key : Key} :
    key ∈ ((contaminated.toList.filterMap fun id => nodes[id]?).filter fun node =>
        !isProvenance node.key).map DerivationNode.key ↔
      ContaminatedOn engine loom source branch key := by
  simp only [List.mem_map, List.mem_filter, List.mem_filterMap, ExtTreeSet.mem_toList,
    Bool.not_eq_true', mem_floodDownstream hflood]
  constructor
  · rintro ⟨node, ⟨⟨id, hdownstream, hnode⟩, hcaller⟩, rfl⟩
    exact ⟨nodes, seeds, id, node, hnodes, hseeds, hdownstream, hnode, hcaller, rfl⟩
  · rintro ⟨nodes', seeds', id, node, hnodes', hseeds', hdownstream, hnode, hcaller, rfl⟩
    obtain rfl := Except.ok.inj (hnodes.symm.trans hnodes')
    obtain rfl := Except.ok.inj (hseeds.symm.trans hseeds')
    exact ⟨node, ⟨⟨id, hdownstream, hnode⟩, hcaller⟩, rfl⟩

theorem contaminatedKeysOn_spec {branch : BranchId} {keys : List Key}
    (hkeys : engine.contaminatedKeysOn branch source loom = (.ok keys, loom')) :
    loom' = loom ∧ ∀ key, key ∈ keys ↔ ContaminatedOn engine loom source branch key := by
  refine ⟨((contaminatedKeysOn_moves branch source).of_eq hkeys).symm, fun key => ?_⟩
  rw [contaminatedKeysOn, FallibleState.bind_eq_ok] at hkeys
  obtain ⟨nodes, _, hnodes, hkeys⟩ := hkeys
  obtain rfl := (nodesOn_moves branch).of_eq hnodes
  rw [FallibleState.bind_eq_ok] at hkeys
  obtain ⟨seeds, _, hseeds, hkeys⟩ := hkeys
  obtain rfl := (seedsOn_moves branch source).of_eq hseeds
  obtain ⟨found, hflood, hkeys⟩ := FallibleState.lift_bind_eq_ok.mp hkeys
  obtain ⟨rfl, -⟩ := FallibleState.pure_eq_ok.mp hkeys
  rw [mem_sorted]
  exact mem_keys_of_flood (by rw [hnodes]) (by rw [hseeds]) hflood

theorem contaminatedKeys_spec {branches : List BranchId} {keys : List Key}
    (hkeys : engine.contaminatedKeys source branches loom = (.ok keys, loom')) :
    loom' = loom ∧ ∀ key, key ∈ keys ↔
      ∃ branch ∈ branches, ContaminatedOn engine loom source branch key := by
  induction branches generalizing keys loom' with
  | nil =>
      obtain ⟨rfl, rfl⟩ := FallibleState.pure_eq_ok.mp hkeys
      simp
  | cons branch branches ih =>
      rw [contaminatedKeys, FallibleState.bind_eq_ok] at hkeys
      obtain ⟨first, _, hfirst, hkeys⟩ := hkeys
      obtain ⟨rfl, hmemFirst⟩ := contaminatedKeysOn_spec hfirst
      rw [FallibleState.bind_eq_ok] at hkeys
      obtain ⟨more, _, hmore, hkeys⟩ := hkeys
      obtain ⟨rfl, hmemMore⟩ := ih hmore
      obtain ⟨rfl, rfl⟩ := FallibleState.pure_eq_ok.mp hkeys
      refine ⟨rfl, fun key => ?_⟩
      rw [List.mem_append, hmemFirst, hmemMore]
      simp

/-- A plan lists the actions that a contaminated key justified. -/
theorem taintWithActions_spec {actions : List ExecutedAction} {plan : RecallPlan}
    {stats : TaintStats}
    (hplan : engine.taintWithActions source actions loom = (.ok (plan, stats), loom')) :
    loom' = loom ∧ ∀ item, item ∈ plan.irreversible ↔
      ∃ action ∈ actions, (∃ key ∈ action.justifiedBy, Contaminated engine loom source key) ∧
        action.irreversibleItem = item := by
  rw [taintWithActions, FallibleState.bind_eq_ok] at hplan
  obtain ⟨⟨base, counted⟩, _, htaint, hplan⟩ := hplan
  obtain rfl := (taint_moves source).of_eq htaint
  dsimp only at hplan
  rw [FallibleState.get_bind, FallibleState.bind_eq_ok] at hplan
  obtain ⟨keys, _, hkeys, hplan⟩ := hplan
  obtain ⟨rfl, hmem⟩ := contaminatedKeys_spec hkeys
  obtain ⟨heq, rfl⟩ := FallibleState.pure_eq_ok.mp hplan
  obtain ⟨rfl, -⟩ := Prod.mk.inj heq
  refine ⟨rfl, fun item => ?_⟩
  simp only [List.mem_insertionSort, List.mem_map, List.mem_filter, List.any_eq_true,
    decide_eq_true_eq, hmem, and_assoc]
  rfl

/-- A taint of the source returns. -/
def Plans (engine : Engine σ ρ) (loom : Loom σ ρ) (source : SourceRef) : Prop :=
  (∃ base, engine.taint source loom = (.ok base, loom)) ∧
    ∃ keys, engine.contaminatedKeys source (branchNames loom) loom = (.ok keys, loom)

theorem plans_of_isOk (htaint : (engine.taint source loom).1.isOk = true)
    (hkeys : (engine.contaminatedKeys source (branchNames loom) loom).1.isOk = true) :
    engine.Plans loom source := by
  constructor
  · rcases hbase : engine.taint source loom with ⟨error | base, last⟩
    · rw [hbase] at htaint
      cases htaint
    · obtain rfl := (taint_moves source).of_eq hbase
      exact ⟨base, rfl⟩
  · rcases hfound : engine.contaminatedKeys source (branchNames loom) loom with ⟨error | keys, last⟩
    · rw [hfound] at hkeys
      cases hkeys
    · obtain rfl := (contaminatedKeys_moves source _).of_eq hfound
      exact ⟨keys, rfl⟩

/-- The keys that a walk over the branches returns are contaminated. -/
theorem contaminated_of_mem {keys : List Key} {key : Key}
    (hkeys : (engine.contaminatedKeys source (branchNames loom) loom).1 = .ok keys)
    (hmem : key ∈ keys) : engine.Contaminated loom source key := by
  rcases hfound : engine.contaminatedKeys source (branchNames loom) loom with ⟨found, last⟩
  rw [hfound] at hkeys
  obtain rfl : found = .ok keys := hkeys
  exact ((contaminatedKeys_spec hfound).2 key).mp hmem

/-- Whether a taint returns does not depend on the actions. -/
theorem plans_iff (actions : List ExecutedAction) :
    engine.Plans loom source ↔ ∃ plan stats,
      engine.taintWithActions source actions loom = (.ok (plan, stats), loom) := by
  constructor
  · rintro ⟨⟨⟨base, stats⟩, hbase⟩, keys, hkeys⟩
    unfold taintWithActions
    rw [FallibleState.bind_eq, hbase]
    dsimp only
    rw [FallibleState.get_bind, FallibleState.bind_eq, hkeys]
    exact ⟨_, _, rfl⟩
  · rintro ⟨plan, stats, hplan⟩
    rw [taintWithActions, FallibleState.bind_eq_ok] at hplan
    obtain ⟨base, _, htaint, hplan⟩ := hplan
    obtain rfl := (taint_moves source).of_eq htaint
    dsimp only at hplan
    rw [FallibleState.get_bind, FallibleState.bind_eq_ok] at hplan
    obtain ⟨keys, _, hkeys, -⟩ := hplan
    obtain rfl := (contaminatedKeys_moves source _).of_eq hkeys
    exact ⟨⟨base, htaint⟩, keys, hkeys⟩

end Engine

end LoomDB
