import LoomDB.Ann.Embedding
import LoomDB.Core.Error
import LoomDB.Foundations.BestFirst
import LoomDB.Foundations.OrderedMap

/-!
# The graph in memory

A navigable graph of unit vectors in layers. A search goes greedily down the upper layers and
explores the lowest one best first; an insert searches every layer of the new node for its
neighbours and links both ways. Nodes are named by their place, and a place that is none is never
asked for. The loops have fuel for one round more than there are nodes.
-/

namespace LoomDB

open Std (ExtTreeMap)

/-- The identity of an indexed item is its record key. -/
abbrev ItemId := Bytes

/-- Links per upper layer, and the most links at the lowest one. -/
def M : ℕ := 16
def M_MAX0 : ℕ := 2 * M

def EF_DEFAULT : ℕ := 64
def EF_CONSTRUCTION : ℕ := 200

structure HnswNode (K : Type) where
  vector : Embedding K
  /-- The adjacency, layer by layer. -/
  neighbours : List (List ℕ)

structure Hnsw (K : Type) where
  nodes : List (HnswNode K)
  ids : List ItemId
  idToIndex : ExtTreeMap ItemId ℕ
  entry : Option ℕ
  maxLevel : ℕ
  dim : Option ℕ
  /-- The epoch of the search that saw a node last. -/
  visited : List U32
  epoch : U32

/-- The state of a search of a layer, with the epochs of what was seen. -/
abbrev LayerState (K : Type) := BestFirst.State (List U32) ℕ K

/-- Whether a node was seen in this search; from now on it was. -/
def seen (epoch : U32) (visited : List U32) (n : ℕ) : Bool × List U32 :=
  if visited[n]? = some epoch then (true, visited) else (false, visited.set n epoch)

namespace Hnsw

variable {K : Type} (arithmetic : Arithmetic K) (graph : Hnsw K)

def empty : Hnsw K where
  nodes := []
  ids := []
  idToIndex := ∅
  entry := none
  maxLevel := 0
  dim := none
  visited := []
  epoch := 0

def vector (n : ℕ) : Embedding K :=
  (graph.nodes[n]?.map HnswNode.vector).getD []

/-- The list of a node at a layer, if it has that layer. -/
def links? (layer n : ℕ) : Option (List ℕ) :=
  graph.nodes[n]?.bind fun node => node.neighbours[layer]?

/-- One less the dot product; what cannot be compared is as far as can be. -/
def dist (a : ℕ) (query : Embedding K) : K :=
  arithmetic.sub arithmetic.one (((graph.vector a).dot arithmetic query).getD arithmetic.negOne)

/-! ## Searching -/

/-- The closer one of the node so far and a neighbour. -/
def closer (query : Embedding K) : ℕ × K × Bool → ℕ → ℕ × K × Bool
  | (current, currentDist, improved), n =>
      let d := graph.dist arithmetic n query
      if arithmetic.lt d currentDist then (n, d, true) else (current, currentDist, improved)

def greedyLoop (query : Embedding K) (layer : ℕ) : ℕ → ℕ → K → Option ℕ
  | 0, _, _ => none
  | fuel + 1, current, currentDist =>
      let (current, currentDist, improved) :=
        match graph.links? layer current with
        | some neighbours =>
            neighbours.foldl (graph.closer arithmetic query) (current, currentDist, false)
        | none => (current, currentDist, false)
      if improved then greedyLoop query layer fuel current currentDist else some current

/-- Hop to the closest neighbour until none is closer. -/
def greedyClosest (query : Embedding K) (start layer : ℕ) : Option ℕ :=
  graph.greedyLoop arithmetic query layer (graph.nodes.length + 1) start
    (graph.dist arithmetic start query)

/-- A node to start from. -/
def enter (query : Embedding K) (epoch : U32) (state : LayerState K) (e : ℕ) : LayerState K :=
  let d := graph.dist arithmetic e query
  { visited := (seen epoch state.visited e).2
    candidates := BinaryHeap.push arithmetic.closest state.candidates (e, d)
    result := BinaryHeap.push arithmetic.farthest state.result (e, d) }

/-- A neighbour is explored and kept if it is new and among the best so far. -/
def visit (query : Embedding K) (ef : ℕ) (epoch : U32) (state : LayerState K) (n : ℕ) :
    LayerState K :=
  match seen epoch state.visited n with
  | (true, _) => state
  | (false, visited) =>
      let d := graph.dist arithmetic n query
      let worst := (state.result.head?.map Prod.snd).getD arithmetic.infinity
      if arithmetic.lt d worst || state.result.length < ef then
        let result := BinaryHeap.push arithmetic.farthest state.result (n, d)
        { visited := visited
          candidates := BinaryHeap.push arithmetic.closest state.candidates (n, d)
          result :=
            if result.length > ef then
              ((BinaryHeap.pop arithmetic.farthest result).map Prod.snd).getD result
            else result }
      else { state with visited := visited }

/-- The closest one to explore is farther than the worst that is kept. -/
def exhausted (ef : ℕ) (d : K) (result : List (ℕ × K)) : Bool :=
  match result.head? with
  | some worst => arithmetic.lt worst.2 d && result.length ≥ ef
  | none => false

def layerLoop (query : Embedding K) (ef : ℕ) (layer : ℕ) (epoch : U32) :
    ℕ → LayerState K → Option (LayerState K)
  | 0, _ => none
  | fuel + 1, state =>
      match BinaryHeap.pop arithmetic.closest state.candidates with
      | none => some state
      | some ((idx, d), candidates) =>
          let state := { state with candidates := candidates }
          if exhausted arithmetic ef d state.result then some state
          else
            match graph.links? layer idx with
            | some neighbours =>
                layerLoop query ef layer epoch fuel
                  (neighbours.foldl (graph.visit arithmetic query ef epoch) state)
            | none => layerLoop query ef layer epoch fuel state

/-- The nearest nodes of a layer, and the graph with what was seen. -/
def searchLayer (query : Embedding K) (entries : List ℕ) (ef layer : ℕ) :
    Option (List (ℕ × K) × Hnsw K) := do
  let visited := graph.visited ++ List.replicate (graph.nodes.length - graph.visited.length) 0
  let epoch := graph.epoch + 1
  let start := entries.foldl (graph.enter arithmetic query epoch)
    { visited := visited, candidates := [], result := [] }
  let state ← graph.layerLoop arithmetic query ef layer epoch (graph.nodes.length + 1) start
  return (arithmetic.sortByDistance state.result,
    { graph with visited := state.visited, epoch := epoch })

/-- Greedily through some layers, one after another. -/
def descend (query : Embedding K) (layers : List ℕ) (start : ℕ) : Option ℕ :=
  layers.foldlM (fun current layer => graph.greedyClosest arithmetic query current layer) start

/-- The nearest items, best first. -/
def search (query : Embedding K) (k ef : ℕ) : Option (List (ItemId × K) × Hnsw K) :=
  match graph.entry with
  | none => some ([], graph)
  | some entry =>
      if graph.dim ≠ some query.length ∨ k = 0 then some ([], graph)
      else
        match query.normalized arithmetic with
        | none => some ([], graph)
        | some query => do
            let current ← graph.descend arithmetic query
              (List.range' 1 graph.maxLevel).reverse entry
            let (found, graph) ← graph.searchLayer arithmetic query [current] (max ef k) 0
            let out := found.map fun (idx, dist) =>
              ((graph.ids[idx]?).getD [], arithmetic.sub arithmetic.one dist)
            return ((arithmetic.sortBySimilarity out).take k, graph)

/-! ## Inserting -/

/-- Keep a candidate unless it is closer to one that is kept than to the base. -/
def selectHeuristic (candidates : List (ℕ × K)) (m : ℕ) : List ℕ :=
  candidates.foldl (fun kept (e, distance) =>
    if kept.length ≥ m then kept
    else
      let redundant := kept.any fun r =>
        arithmetic.lt (graph.dist arithmetic e (graph.vector r)) distance
      if redundant then kept else kept ++ [e]) []

def setLinks (layer n : ℕ) (links : List ℕ) : Hnsw K :=
  { graph with
    nodes := graph.nodes.modify n fun node =>
      { node with neighbours := node.neighbours.set layer links } }

/-- Link a neighbour back, and select anew among its links if there are too many. -/
def backLink (idx layer mMax : ℕ) (graph : Hnsw K) (n : ℕ) : Hnsw K :=
  let links := (graph.links? layer n).getD []
  if idx ∈ links then graph
  else
    let graph := graph.setLinks layer n (links ++ [idx])
    if (links ++ [idx]).length > mMax then
      let nvec := graph.vector n
      let ranked := arithmetic.sortByDistance
        ((links ++ [idx]).map fun m => (m, graph.dist arithmetic m nvec))
      graph.setLinks layer n (graph.selectHeuristic arithmetic ranked mMax)
    else graph

/-- Link a node at one layer, and where to start at the next one. -/
def linkLayer (idx : ℕ) (query : Embedding K) : Hnsw K × ℕ → ℕ → Option (Hnsw K × ℕ)
  | (graph, current), layer => do
      let (found, graph) ← graph.searchLayer arithmetic query [current] EF_CONSTRUCTION layer
      let found := found.filter fun entry => entry.1 ≠ idx
      let selected := graph.selectHeuristic arithmetic found M
      let mMax := if layer = 0 then M_MAX0 else M
      let graph := graph.setLinks layer idx selected
      let graph := selected.foldl (backLink arithmetic idx layer mMax) graph
      return (graph, (found.head?.map Prod.fst).getD current)

/-- Link a node at every layer up to its level. -/
def relink (idx : ℕ) : Option (Hnsw K) :=
  match graph.entry with
  | none => some graph
  | some entry => do
      let nodeLevel := (graph.nodes[idx]?.map fun node => node.neighbours.length).getD 0 - 1
      let query := graph.vector idx
      let current ← graph.descend arithmetic query
        (List.range' (nodeLevel + 1) (graph.maxLevel - nodeLevel)).reverse entry
      let (graph, _) ← (List.range (min nodeLevel graph.maxLevel + 1)).reverse.foldlM
        (linkLayer arithmetic idx query) (graph, current)
      return graph

/-- A node with a new vector and no links. -/
def HnswNode.cleared {K : Type} (vector : Embedding K) (node : HnswNode K) : HnswNode K :=
  { vector := vector, neighbours := node.neighbours.map fun _ => [] }

/-- A node of a level that is not linked yet. -/
def HnswNode.fresh {K : Type} (vector : Embedding K) (level : ℕ) : HnswNode K :=
  { vector := vector, neighbours := List.replicate (level + 1) [] }

/-- Insert an item, or replace its vector and relink it. A vector without a direction or of another
dimension is refused. -/
def insert (levelOf : ItemId → ℕ) (id : ItemId) (vector : Embedding K) :
    Option (Bool × Hnsw K) :=
  match vector.normalized arithmetic with
  | none => some (false, graph)
  | some vector =>
      if graph.dim.any fun dim => dim ≠ vector.length then some (false, graph)
      else
        let graph := { graph with dim := some vector.length }
        match graph.idToIndex[id]? with
        | some idx => do
            let graph : Hnsw K :=
              { graph with nodes := graph.nodes.modify idx (HnswNode.cleared vector) }
            let graph ← graph.relink arithmetic idx
            return (true, graph)
        | none =>
            let level := levelOf id
            let idx := graph.nodes.length
            let graph :=
              { graph with
                nodes := graph.nodes ++ [HnswNode.fresh vector level]
                ids := graph.ids ++ [id]
                idToIndex := graph.idToIndex.insert id idx }
            if graph.entry = none then
              some (true, { graph with entry := some idx, maxLevel := level })
            else do
              let graph ← graph.relink arithmetic idx
              if level > graph.maxLevel then
                return (true, { graph with maxLevel := level, entry := some idx })
              else return (true, graph)

end Hnsw

end LoomDB
