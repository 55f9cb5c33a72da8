import LoomDB.Ann.Hnsw

/-!
# The graph in a store

The same graph with its nodes in a store that may fail, named by their ids. A search reads the nodes
it comes to; an insert writes the new node, then its neighbours, and the new node again with its
links. A node that is not there is as far as can be.
-/

namespace LoomDB

open Std (ExtTreeMap)

structure PersistedNode (K : Type) where
  vector : Embedding K
  /-- The ids that are adjacent, layer by layer. -/
  neighbours : List (List ItemId)

structure HnswMeta where
  entry : Option ItemId
  maxLevel : ℕ
  dim : Option ℕ
  deriving DecidableEq

/-- Where the nodes and the meta live. -/
structure NodeStore (σ ε K : Type) where
  getNode : σ → ItemId → Except ε (Option (PersistedNode K))
  putNode : σ → ItemId → PersistedNode K → Except ε σ
  getMeta : σ → Except ε HnswMeta
  putMeta : σ → HnswMeta → Except ε σ

/-- Why a call does not return an answer. -/
inductive Halt (ε : Type) where
  | store (error : ε)
  | outOfFuel
  deriving DecidableEq

/-- The built graph as nodes for a store: with the vectors of the caller, as far as there are. -/
def Hnsw.exportPersisted {K : Type} (graph : Hnsw K) (raw : ExtTreeMap ItemId (Embedding K)) :
    List (ItemId × PersistedNode K) × HnswMeta :=
  let idOf := fun n => (graph.ids[n]?).getD []
  (graph.nodes.zipIdx.map fun (node, idx) =>
      (idOf idx,
        { vector := (raw[idOf idx]?).getD node.vector
          neighbours := node.neighbours.map fun layer => layer.map idOf }),
    { entry := graph.entry.map idOf, maxLevel := graph.maxLevel, dim := graph.dim })

/-- The state of a search of a layer, with the ids that were seen. -/
abbrev StoreLayerState (K : Type) := BestFirst.State (List ItemId) ItemId K

namespace NodeStore

variable {σ ε K : Type} (arithmetic : Arithmetic K) (store : NodeStore σ ε K)

/-- What cannot be compared is as far as can be. -/
def dist (a b : Embedding K) : K :=
  ((a.cosine arithmetic b).map fun c => arithmetic.sub arithmetic.one c).getD arithmetic.two

section Reads

variable (state : σ)

def read (id : ItemId) : Except (Halt ε) (Option (PersistedNode K)) :=
  (store.getNode state id).mapError .store

/-- How far a stored node is. -/
def distOf (query : Embedding K) (id : ItemId) : Except (Halt ε) K := do
  let node ← store.read state id
  return (node.map fun node => dist arithmetic node.vector query).getD arithmetic.two

/-! ## Searching -/

/-- The closer one of the node so far and a neighbour. -/
def closer (query : Embedding K) : ItemId × K × Bool → ItemId →
    Except (Halt ε) (ItemId × K × Bool)
  | (current, currentDist, improved), n => do
      let d ← store.distOf arithmetic state query n
      if arithmetic.lt d currentDist then return (n, d, true)
      else return (current, currentDist, improved)

def greedyLoop (query : Embedding K) (layer : ℕ) :
    ℕ → ItemId → K → Except (Halt ε) ItemId
  | 0, _, _ => .error .outOfFuel
  | fuel + 1, current, currentDist => do
      let node ← store.read state current
      let (current, currentDist, improved) ←
        match node.bind fun node => node.neighbours[layer]? with
        | some neighbours =>
            neighbours.foldlM (store.closer arithmetic state query) (current, currentDist, false)
        | none => pure (current, currentDist, false)
      if improved then greedyLoop query layer fuel current currentDist else return current

def greedyClosest (fuel : ℕ) (query : Embedding K) (start : ItemId) (layer : ℕ) :
    Except (Halt ε) ItemId := do
  let currentDist ← store.distOf arithmetic state query start
  store.greedyLoop arithmetic state query layer fuel start currentDist

/-- A node to start from. -/
def enter (query : Embedding K) (layerState : StoreLayerState K) (e : ItemId) :
    Except (Halt ε) (StoreLayerState K) := do
  let d ← store.distOf arithmetic state query e
  return {
    visited := e :: layerState.visited
    candidates := BinaryHeap.push arithmetic.closest layerState.candidates (e, d)
    result := BinaryHeap.push arithmetic.farthest layerState.result (e, d) }

/-- A neighbour is explored and kept if it is new and among the best so far. -/
def visit (query : Embedding K) (ef : ℕ) (layerState : StoreLayerState K) (n : ItemId) :
    Except (Halt ε) (StoreLayerState K) :=
  if n ∈ layerState.visited then return layerState
  else do
    let layerState := { layerState with visited := n :: layerState.visited }
    let d ← store.distOf arithmetic state query n
    let worst := (layerState.result.head?.map Prod.snd).getD arithmetic.infinity
    if arithmetic.lt d worst || layerState.result.length < ef then
      let result := BinaryHeap.push arithmetic.farthest layerState.result (n, d)
      return { layerState with
        candidates := BinaryHeap.push arithmetic.closest layerState.candidates (n, d)
        result :=
          if result.length > ef then
            ((BinaryHeap.pop arithmetic.farthest result).map Prod.snd).getD result
          else result }
    else return layerState

/-- The closest one to explore is farther than the worst that is kept. -/
def exhausted (ef : ℕ) (d : K) (result : List (ItemId × K)) : Bool :=
  match result.head? with
  | some worst => arithmetic.lt worst.2 d && result.length ≥ ef
  | none => false

def layerLoop (query : Embedding K) (ef layer : ℕ) :
    ℕ → StoreLayerState K → Except (Halt ε) (StoreLayerState K)
  | 0, _ => .error .outOfFuel
  | fuel + 1, layerState =>
      match BinaryHeap.pop arithmetic.closest layerState.candidates with
      | none => return layerState
      | some ((id, d), candidates) =>
          let layerState := { layerState with candidates := candidates }
          if exhausted arithmetic ef d layerState.result then return layerState
          else do
            let node ← store.read state id
            match node.bind fun node => node.neighbours[layer]? with
            | some neighbours => do
                let layerState ← neighbours.foldlM (store.visit arithmetic state query ef) layerState
                layerLoop query ef layer fuel layerState
            | none => layerLoop query ef layer fuel layerState

/-- The nearest nodes of a layer, best first. -/
def searchLayer (fuel : ℕ) (query : Embedding K) (entries : List ItemId) (ef layer : ℕ) :
    Except (Halt ε) (List (ItemId × K)) := do
  let start ← entries.foldlM (store.enter arithmetic state query)
    { visited := [], candidates := [], result := [] }
  let layerState ← store.layerLoop arithmetic state query ef layer fuel start
  return arithmetic.sortByDistance layerState.result

/-- Greedily through some layers, one after another. -/
def descend (fuel : ℕ) (query : Embedding K) (layers : List ℕ) (start : ItemId) :
    Except (Halt ε) ItemId :=
  layers.foldlM (fun current layer =>
    store.greedyClosest arithmetic state fuel query current layer) start

/-- The nearest ids; only the nodes that the search comes to are read. -/
def search (fuel : ℕ) (query : Embedding K) (k ef : ℕ) :
    Except (Halt ε) (List (ItemId × K)) := do
  let info ← (store.getMeta state).mapError Halt.store
  match info.entry with
  | none => return []
  | some entry =>
      if info.dim ≠ some query.length ∨ k = 0 then return []
      else
        let current ← store.descend arithmetic state fuel query
          (List.range' 1 info.maxLevel).reverse entry
        let found ← store.searchLayer arithmetic state fuel query [current] (max ef k) 0
        let out := found.map fun (id, d) => (id, arithmetic.sub arithmetic.one d)
        return (arithmetic.sortBySimilarity out).take k

end Reads

/-! ## Inserting -/

abbrev StoreM (σ ε : Type) := StateT σ (Except (Halt ε))

/-- A call that only reads. -/
def reading {α : Type} (call : σ → Except (Halt ε) α) : StoreM σ ε α :=
  fun state => (call state).map fun value => (value, state)

def write (id : ItemId) (node : PersistedNode K) : StoreM σ ε Unit :=
  fun state => ((store.putNode state id node).mapError .store).map fun state => ((), state)

def writeMeta (info : HnswMeta) : StoreM σ ε Unit :=
  fun state => ((store.putMeta state info).mapError .store).map fun state => ((), state)

/-- The closest links of a node that has too many. -/
def prune (nvec : Embedding K) (links : List ItemId) (state : σ) :
    Except (Halt ε) (List ItemId) := do
  let ranked ← links.mapM fun m => do
    let d ← (store.distOf arithmetic state nvec m)
    return (m, d)
  return ((arithmetic.sortByDistance ranked).take M).map Prod.fst

/-- Link a neighbour back, and keep the closest of its links if there are too many. -/
def backLink (id : ItemId) (layer : ℕ) (nid : ItemId) : StoreM σ ε Unit := do
  let found ← reading (store.read · nid)
  match found with
  | none => pure ()
  | some neighbour =>
      match neighbour.neighbours[layer]? with
      | none => pure ()
      | some links =>
          if id ∈ links then pure ()
          else do
            let kept ←
              if (links ++ [id]).length > M then
                reading (store.prune arithmetic neighbour.vector (links ++ [id]))
              else pure (links ++ [id])
            store.write nid
              { neighbour with neighbours := neighbour.neighbours.set layer kept }

/-- Link the new node at one layer, and where to start at the next one. -/
def linkLayer (fuel : ℕ) (id : ItemId) (query : Embedding K) :
    PersistedNode K × ItemId → ℕ → StoreM σ ε (PersistedNode K × ItemId)
  | (node, current), layer => do
      let found ← reading (store.searchLayer arithmetic · fuel query [current] EF_DEFAULT layer)
      let selected := ((found.filter fun entry => entry.1 ≠ id).take M).map Prod.fst
      selected.forM (store.backLink arithmetic id layer)
      return ({ node with neighbours := node.neighbours.set layer selected },
        (found.head?.map Prod.fst).getD current)

/-- Insert an item, or replace its vector and link it anew. -/
def insert (levelOf : ItemId → ℕ) (fuel : ℕ) (id : ItemId) (vector : Embedding K) :
    StoreM σ ε Bool := do
  let info ← reading fun state => (store.getMeta state).mapError Halt.store
  if info.dim.any fun dim => dim ≠ vector.length then return false
  else if vector.length = 0 then return false
  else do
    let info := { info with dim := some vector.length }
    let existing ← reading (store.read · id)
    let nodeLevel := (existing.map fun node => node.neighbours.length - 1).getD (levelOf id)
    let node : PersistedNode K :=
      { vector := vector, neighbours := List.replicate (nodeLevel + 1) [] }
    match info.entry with
    | none => do
        store.write id node
        store.writeMeta { info with entry := some id, maxLevel := nodeLevel }
        return true
    | some entry => do
        store.write id node
        let current ← reading (store.descend arithmetic · fuel vector
          (List.range' (nodeLevel + 1) (info.maxLevel - nodeLevel)).reverse entry)
        let (node, _) ← (List.range (min nodeLevel info.maxLevel + 1)).reverse.foldlM
          (store.linkLayer arithmetic fuel id vector) (node, current)
        store.write id node
        if nodeLevel > info.maxLevel then
          store.writeMeta { info with maxLevel := nodeLevel, entry := some id }
        else store.writeMeta info
        return true

end NodeStore

end LoomDB
