import LoomDB.Ann.Shape
import LoomDB.Ann.TreeNodes
import LoomDB.Branch.Session

/-!
# The vector index of a branch

A fold builds a graph of the vectors in the branch's index entries, stores it and empties the buffer
in one commit. It does so away from the branch and then puts the commit on it, if the head has not
moved. A search ranks the buffer and what the graph finds together; the exact search ranks the index
entries. The arithmetic and the levels of the nodes come from outside, and the loops over the stored
graph have fuel.
-/

namespace LoomDB

open Std (ExtTreeMap)

/-- What a call of the index fails with: what the engine fails with, or the place in the index and
what failed there. -/
inductive IndexError where
  | engine (error : LoomError)
  | persistNode (id : ItemId) (cause : StoreError)
  | persistMeta (cause : StoreError)
  | inlineInsert (key : Key) (cause : Halt StoreError)
  | search (cause : Halt StoreError)
  /-- The graph in memory is not built in the rounds it is given. -/
  | outOfFuel
  deriving DecidableEq

/-- A transaction on the tree of a branch. -/
abbrev IndexProgram := StateT Tree (Except IndexError)

/-- A step of the tree itself. -/
def onTree {α : Type} (step : StateT Tree (Except LoomError) α) : IndexProgram α :=
  fun tree => (step tree).mapError .engine

/-- A step of the stored graph, with its place. -/
def onGraph {α ε : Type} (place : ε → IndexError) (step : StateT Tree (Except ε) α) :
    IndexProgram α :=
  fun tree => (step tree).mapError place

/-- The vectors of the index entries among the records. -/
def indexedVectors : List (Key × Record) → Except LoomError (List (Key × Embedding F32))
  | [] => .ok []
  | (key, record) :: records =>
      if RESERVED_INDEX_PREFIX.isPrefixOf key then
        match record with
        | .value (.blob bytes) => do
            let entry ← IndexEntry.decode bytes
            let vectors ← indexedVectors records
            match entry.embedding with
            | some vector => return (entry.key, vector) :: vectors
            | none => return vectors
        | _ => indexedVectors records
      else indexedVectors records

/-- The vectors in the buffer, by the record they are of. -/
def bufferedVectors : List (Key × Record) → Except LoomError (List (Key × Embedding F32))
  | [] => .ok []
  | (key, record) :: records =>
      match annBufferRecordId key, record with
      | some recordId, .value (.blob bytes) =>
          match IndexEntry.embeddingCodec.deserialize bytes with
          | some vector => do
              let vectors ← bufferedVectors records
              return (recordId, vector) :: vectors
          | none => .error (.codec "decode" "ANN buffer vector")
      | _, _ => bufferedVectors records

section Graphs

variable (arithmetic : Arithmetic F32) (levelOf : ItemId → ℕ)

/-- The graph of the vectors as it goes into a store, in the order of the nodes' keys. -/
def exportGraph (vectors : List (Key × Embedding F32)) :
    Option (List (ItemId × PersistedNode F32) × HnswMeta) := do
  let graph ← Hnsw.empty.insertAll arithmetic levelOf vectors
  let raw : ExtTreeMap ItemId (Embedding F32) :=
    vectors.foldl (fun raw (id, vector) => raw.insert id vector) ∅
  let (nodes, info) := graph.exportPersisted raw
  return (Comparison.insertionSort
    (fun node other => compare (hnswNodeKey node.1) (hnswNodeKey other.1)) nodes, info)

/-- The nodes and the meta go into the tree. -/
def persistGraph (nodes : List (ItemId × PersistedNode F32)) (info : HnswMeta) :
    IndexProgram Unit := do
  nodes.forM fun (id, node) => onGraph (.persistNode id) fun tree =>
    ((treeNodeStore Tree.records).putNode tree id node).map fun tree => ((), tree)
  onGraph .persistMeta fun tree =>
    ((treeNodeStore Tree.records).putMeta tree info).map fun tree => ((), tree)

/-- Build the graph of the vectors in the tree, store it and empty the buffer. -/
def rebuildTree : IndexProgram ℕ := do
  let records ← onTree Tree.scan
  let vectors ← onTree fun tree => (indexedVectors records).map fun vectors => (vectors, tree)
  match exportGraph arithmetic levelOf vectors with
  | none => throw .outOfFuel
  | some (nodes, info) => do
      persistGraph nodes info
      let buffered ← onTree (Tree.scanPrefix RESERVED_ANNBUF_PREFIX)
      buffered.forM fun (key, _) => onTree (discard (Tree.remove key))
      return vectors.length

end Graphs

namespace Engine

variable {σ ρ α : Type} (engine : Engine σ ρ)

abbrev IndexM (σ ρ : Type) := ExceptT IndexError (StateM (Loom σ ρ))

/-- A call of the engine. -/
def calling (step : LoomM σ ρ α) : IndexM σ ρ α := fun loom =>
  let (result, loom) := step loom
  (result.mapError .engine, loom)

/-- Run a transaction on the pages of a commit and commit what it changed. -/
def indexTransact (base : CommitId) (program : IndexProgram α) :
    IndexM σ ρ (α × CommitId) := do
  let loom ← get
  let snapshot ← calling (FallibleState.lift
    ((engine.pager.fork loom.pager base).mapError LoomError.pager))
  let tree ← calling (FallibleState.lift (Tree.openTree snapshot))
  let (result, tree) ← FallibleState.lift (program tree)
  let (commit, pager) := engine.pager.commit loom.pager base (Tree.flush tree)
  modify fun loom => { loom with pager := pager }
  let commit ← calling (FallibleState.lift (commit.mapError LoomError.pager))
  return (result, commit)

/-- Run a transaction on the pages of a commit and drop what it changed. -/
def indexReading (commit : CommitId) (program : IndexProgram α) : IndexM σ ρ α := do
  let loom ← get
  let snapshot ← calling (FallibleState.lift
    ((engine.pager.fork loom.pager commit).mapError LoomError.pager))
  let tree ← calling (FallibleState.lift (Tree.openTree snapshot))
  let (result, _) ← FallibleState.lift (program tree)
  return result

/-- A commit goes on its branch. -/
def publish (branch : BranchId) (base commit : CommitId) : LoomM σ ρ Unit := do
  recordCommit commit [base]
  engine.setHead branch commit

/-! ## Folding -/

section Folding

variable (arithmetic : Arithmetic F32) (levelOf : ItemId → ℕ)

/-- A commit with the graph of the vectors at the head, and how many they are. -/
def rebuildGraph (head : CommitId) : IndexM σ ρ (CommitId × ℕ) := do
  let (count, commit) ← engine.indexTransact head (rebuildTree arithmetic levelOf)
  return (commit, count)

/-- Build the index under the write lock. -/
def buildAnnIndex (token : CapabilityToken) (branch : BranchId) : IndexM σ ρ ℕ := do
  calling (engine.authorize token branch)
  let base ← calling (head branch)
  let (commit, count) ← engine.rebuildGraph arithmetic levelOf base
  calling (engine.publish branch base commit)
  return count

def MAX_RETRIES : ℕ := 8

def foldAttempts (branch : BranchId) : ℕ → IndexM σ ρ ℕ
  | 0 => return 0
  | attempts + 1 => do
      let base ← calling (head branch)
      let (commit, count) ← engine.rebuildGraph arithmetic levelOf base
      let current ← calling (head branch)
      if current = base then do
        calling (engine.publish branch base commit)
        return count
      else foldAttempts branch attempts

/-- Build the index beside the writers, and put it on the branch if the head has not moved. -/
def annFold (token : CapabilityToken) (branch : BranchId) : IndexM σ ρ ℕ := do
  calling (engine.authorize token branch)
  engine.foldAttempts arithmetic levelOf branch MAX_RETRIES

/-- Insert one vector into the stored graph. -/
def annInsert (fuel : ℕ) (token : CapabilityToken) (branch : BranchId) (key : Key)
    (embedding : Embedding F32) : IndexM σ ρ Unit := do
  calling (engine.authorize token branch)
  let base ← calling (head branch)
  let (_, commit) ← engine.indexTransact base (onGraph (.inlineInsert key)
    ((treeNodeStore Tree.records).insert arithmetic levelOf fuel key embedding))
  calling (engine.publish branch base commit)

end Folding

/-! ## Searching -/

section Searching

variable (arithmetic : Arithmetic F32)

/-- The vectors that compare with the query, by similarity. -/
def scored (query : Embedding F32) (vectors : List (Key × Embedding F32)) : List (Key × F32) :=
  vectors.filterMap fun (key, vector) =>
    (query.cosine arithmetic vector).map fun similarity => (key, similarity)

/-- The first entry of each key that was not seen yet, behind those that were. -/
def unseen (found : List (Key × F32)) (hits : List (Key × F32)) : List (Key × F32) :=
  hits.foldl (fun found hit => if hit.1 ∈ found.map Prod.fst then found else found ++ [hit]) found

/-- The best keys, best first. -/
def bestKeys (k : ℕ) (found : List (Key × F32)) : List Key :=
  ((arithmetic.sortBySimilarity found).take k).map Prod.fst

/-- The nearest keys of the buffer and of the graph together. -/
def searchTree (fuel : ℕ) (query : Embedding F32) (k : ℕ) : IndexProgram (List Key) := do
  let buffered ← onTree (Tree.scanPrefix RESERVED_ANNBUF_PREFIX)
  let vectors ← onTree fun tree => (bufferedVectors buffered).map fun vectors => (vectors, tree)
  let fresh := unseen [] (scored arithmetic query vectors)
  let hits ← onGraph .search fun tree =>
    ((treeNodeStore Tree.records).search arithmetic tree fuel query (k + fresh.length)
      EF_DEFAULT).map fun hits => (hits, tree)
  return bestKeys arithmetic k (unseen fresh hits)

def searchAnn (fuel : ℕ) (token : CapabilityToken) (branch : BranchId)
    (query : Embedding F32) (k : ℕ) : IndexM σ ρ (List Key) := do
  calling (engine.authorize token branch)
  let commit ← calling (head branch)
  engine.indexReading commit (searchTree arithmetic fuel query k)

/-- The nearest keys of all index entries. -/
def scanTree (query : Embedding F32) (k : ℕ) : IndexProgram (List Key) := do
  let records ← onTree Tree.scan
  let vectors ← onTree fun tree => (indexedVectors records).map fun vectors => (vectors, tree)
  return bestKeys arithmetic k (scored arithmetic query vectors)

def searchScan (token : CapabilityToken) (branch : BranchId) (query : Embedding F32) (k : ℕ) :
    IndexM σ ρ (List Key) := do
  calling (engine.authorize token branch)
  let commit ← calling (head branch)
  engine.indexReading commit (scanTree arithmetic query k)

end Searching

end Engine

end LoomDB
