import LoomDB.Branch.Session
import LoomDB.Provenance.Recall
import Mathlib.Data.List.Destutter
import Mathlib.Data.List.Sort

/-!
# Taint

Everything downstream of a source on every branch, as a plan that changes
nothing. The walk reads the trees of the branches directly: it takes no token
and enters no read set.
-/

namespace LoomDB

open Std (ExtTreeMap ExtTreeSet)
open KeyValue (entries)

def MAX_DERIVATION_DEPTH : ℕ := 64

/-- What a taint walk did. -/
structure TaintStats where
  branches : ℕ
  nodesExamined : ℕ
  contaminated : ℕ
  deriving DecidableEq

/-! ## The derivation graph of a branch -/

abbrev NodeMap := ExtTreeMap NodeId DerivationNode

/-- The nodes among the records of a tree. -/
def nodesAmong : List (Key × Record) → NodeMap → NodeMap
  | [], nodes => nodes
  | (key, record) :: records, nodes =>
      if PROV_PREFIX.isPrefixOf key then
        match record with
        | .value (.blob bytes) =>
            match DerivationNode.decode bytes with
            | .ok node => nodesAmong records (nodes.insert node.id node)
            | .error _ => nodesAmong records nodes
        | _ => nodesAmong records nodes
      else nodesAmong records nodes

/-- The nodes that the source index has under a source. -/
def seedsAmong (source : SourceRef) : List (Key × Record) → ExtTreeSet NodeId → ExtTreeSet NodeId
  | [], seeds => seeds
  | (key, record) :: records, seeds =>
      if (sourceIndexPrefix source).isPrefixOf key then
        match record with
        | .value (.blob bytes) =>
            match Digest.fromBytes bytes with
            | some node => seedsAmong source records (seeds.insert node)
            | none => seedsAmong source records seeds
        | _ => seedsAmong source records seeds
      else seedsAmong source records seeds

/-- The nodes derived from each node. -/
def childrenOf (nodes : NodeMap) : ExtTreeMap NodeId (List NodeId) :=
  nodes.foldl (fun children _ node =>
    node.derivedFrom.foldl (fun children parent =>
      children.insert parent ((children[parent]?).getD [] ++ [node.id])) children) ∅

/-- The walk down from what is on the stack, each node once. -/
def floodFrom (children : ExtTreeMap NodeId (List NodeId)) :
    ℕ → List (NodeId × ℕ) → ExtTreeSet NodeId → Except LoomError (ExtTreeSet NodeId)
  | _, [], contaminated => .ok contaminated
  | 0, _ :: _, _ => .error .panicked
  | fuel + 1, (id, depth) :: stack, contaminated =>
      if depth > MAX_DERIVATION_DEPTH then .error (.derivationCycle MAX_DERIVATION_DEPTH)
      else if contaminated.contains id then floodFrom children fuel stack contaminated
      else
        floodFrom children fuel
          ((((children[id]?).getD []).reverse.map fun child => (child, depth + 1)) ++ stack)
          (contaminated.insert id)

/-- How many entries the stack of a walk ever gets. -/
def floodLimit (nodes : NodeMap) (seeds : ExtTreeSet NodeId) : ℕ :=
  nodes.foldl (fun total _ node => total + node.derivedFrom.length) seeds.size

def floodDownstream (nodes : NodeMap) (seeds : ExtTreeSet NodeId) :
    Except LoomError (ExtTreeSet NodeId) :=
  floodFrom (childrenOf nodes) (floodLimit nodes seeds)
    (seeds.toList.reverse.map fun id => (id, 0)) ∅

/-- From a node up to one that cites the source, by the first parent each time. -/
def pathFrom (nodes : NodeMap) (source : SourceRef) : ℕ → Option NodeId → List Bytes
  | _, none => []
  | 0, some _ => [ellipsis ++ ascii " (path truncated)"]
  | hops + 1, some id =>
      match nodes[id]? with
      | none => []
      | some node =>
          utf8Lossy node.key ::
            if source ∈ node.sources then [source.toBytes]
            else pathFrom nodes source hops node.derivedFrom.head?

def pathToSource (nodes : NodeMap) (start : NodeId) (source : SourceRef) : List Bytes :=
  (pathFrom nodes source MAX_DERIVATION_DEPTH (some start)).reverse

/-! ## Plans -/

/-- The items for the contaminated nodes of a branch. -/
def reversibleItems (platform : Platform) (nodes : NodeMap) (source : SourceRef) :
    List NodeId → Except LoomError (List ReversibleItem)
  | [] => .ok []
  | id :: contaminated =>
      match nodes[id]? with
      | none => reversibleItems platform nodes source contaminated
      | some node =>
          if isProvenance node.key then reversibleItems platform nodes source contaminated
          else do
            let description ← node.describe platform
            let items ← reversibleItems platform nodes source contaminated
            return {
              branch := node.branch
              commit := node.commit
              actor := node.actor
              description := description
              derivedVia := pathToSource nodes id source
              compensation := .tombstone node.branch [] } :: items

namespace ReversibleItem

/-- By branch, then by description. -/
def le (left right : ReversibleItem) : Bool :=
  (compareLex (compareOn branch) (compareOn description) left right).isLE

/-- The same write, whichever branch it was found on. -/
def Same (left right : ReversibleItem) : Prop :=
  left.branch = right.branch ∧ left.description = right.description ∧ left.commit = right.commit

instance : DecidableRel Same := fun left right =>
  inferInstanceAs (Decidable (left.branch = right.branch ∧ left.description = right.description ∧
    left.commit = right.commit))

/-- `sort_by` and `dedup_by`. -/
def arranged (items : List ReversibleItem) : List ReversibleItem :=
  (items.insertionSort fun left right => left.le right).destutter fun left right =>
    ¬ left.Same right

end ReversibleItem

namespace IrreversibleItem

/-- By type, target and id. -/
def le (left right : IrreversibleItem) : Bool :=
  (compareLex (compareOn actionType) (compareLex (compareOn target) (compareOn actionId))
    left right).isLE

end IrreversibleItem

namespace ExecutedAction

/-- `rsplit('.').next()`. -/
def afterLastDot (text : Bytes) : Bytes :=
  (text.reverse.takeWhile fun byte => byte ≠ 0x2E).reverse

def escalation (action : ExecutedAction) : Bytes :=
  match action.compensatingAction with
  | some compensation =>
      ascii "run the registered compensating action (" ++ compensation ++ ascii ") for " ++
        action.actionType ++ ascii " on " ++ action.target ++
        ascii ", then confirm with the affected party."
  | none =>
      ascii "there is NO registered compensating action for " ++ action.actionType ++
        ascii " on " ++ action.target ++
        ascii ". A human must decide how to make this right " ++ emDash ++
        ascii " rewinding the branch will not un-" ++ afterLastDot action.actionType ++
        ascii " it."

def irreversibleItem (action : ExecutedAction) : IrreversibleItem where
  actionId := action.actionId
  actionType := action.actionType
  target := action.target
  actor := action.actor
  receipt := action.receipt
  justifiedBy := []
  derivedVia := []
  compensatingAction := action.compensatingAction
  escalation := action.escalation

end ExecutedAction

namespace Engine

variable {σ ρ : Type} (engine : Engine σ ρ)

/-! ## Walking the branches -/

/-- Every derivation node on a branch, by id. -/
def nodesOn (branch : BranchId) : LoomM σ ρ NodeMap := do
  let commit ← head branch
  let records ← engine.reading commit entries
  return nodesAmong records ∅

/-- The nodes on a branch that cite a source directly. -/
def seedsOn (branch : BranchId) (source : SourceRef) : LoomM σ ρ (ExtTreeSet NodeId) := do
  let commit ← head branch
  let records ← engine.reading commit entries
  return seedsAmong source records ∅

def branchNames (loom : Loom σ ρ) : List BranchId :=
  loom.refs.branches.keys

def taintBranches (source : SourceRef) :
    List BranchId → TaintStats → List ReversibleItem →
    LoomM σ ρ (List ReversibleItem × TaintStats)
  | [], stats, items => pure (items, stats)
  | branch :: branches, stats, items => do
      let nodes ← engine.nodesOn branch
      let stats := { stats with
        branches := stats.branches + 1
        nodesExamined := stats.nodesExamined + nodes.size }
      let seeds ← engine.seedsOn branch source
      if seeds.isEmpty then taintBranches source branches stats items
      else do
        let contaminated ← FallibleState.lift (floodDownstream nodes seeds)
        let found ← FallibleState.lift
          (reversibleItems engine.platform nodes source contaminated.toList)
        taintBranches source branches
          { stats with contaminated := stats.contaminated + contaminated.size } (items ++ found)

/-- Everything downstream of a source, across every branch. -/
def taint (source : SourceRef) : LoomM σ ρ (RecallPlan × TaintStats) := do
  let loom ← get
  let (items, stats) ← engine.taintBranches source (branchNames loom)
    { branches := 0, nodesExamined := 0, contaminated := 0 } []
  return ({
    source := some source
    irreversible := []
    reversible := ReversibleItem.arranged items }, stats)

/-- The keys downstream of a source on a branch. -/
def contaminatedKeysOn (branch : BranchId) (source : SourceRef) : LoomM σ ρ (List Key) := do
  let nodes ← engine.nodesOn branch
  let seeds ← engine.seedsOn branch source
  let contaminated ← FallibleState.lift (floodDownstream nodes seeds)
  let found := contaminated.toList.filterMap fun id => nodes[id]?
  return DerivationNode.sorted
    ((found.filter fun node => !isProvenance node.key).map DerivationNode.key)

def contaminatedKeys (source : SourceRef) : List BranchId → LoomM σ ρ (List Key)
  | [] => pure []
  | branch :: branches => do
      let keys ← engine.contaminatedKeysOn branch source
      let more ← contaminatedKeys source branches
      return keys ++ more

/-- Taint, with the actions it cannot undo. -/
def taintWithActions (source : SourceRef) (actions : List ExecutedAction) :
    LoomM σ ρ (RecallPlan × TaintStats) := do
  let (plan, stats) ← engine.taint source
  let loom ← get
  let contaminated ← engine.contaminatedKeys source (branchNames loom)
  let downstream := actions.filter fun action =>
    action.justifiedBy.any fun key => key ∈ contaminated
  return ({ plan with
    irreversible :=
      (downstream.map ExecutedAction.irreversibleItem).insertionSort fun left right =>
        left.le right }, stats)

end Engine

end LoomDB
