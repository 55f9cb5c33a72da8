import LoomDB.Ann.HnswStore
import LoomDB.Branch.TreeStore
import LoomDB.Core.Provenance

/-!
# The graph in the tree

The graph of a branch lives in the branch's own tree under reserved keys: a record for each node and
one for the meta. Beside it is the buffer of the vectors that no fold has taken up yet.
-/

namespace LoomDB

/-! ## Keys -/

def RESERVED_HNSW_PREFIX : Bytes := ascii "\x00loom/hnsw/"

def hnswNodeKey (recordId : ItemId) : Key :=
  RESERVED_HNSW_PREFIX ++ ascii "n/" ++ recordId

def hnswMetaKey : Key :=
  RESERVED_HNSW_PREFIX ++ ascii "meta"

/-- The record whose vector is at a key of the buffer. -/
def annBufferRecordId (key : Key) : Option Key :=
  if RESERVED_ANNBUF_PREFIX.isPrefixOf key then some (key.drop RESERVED_ANNBUF_PREFIX.length)
  else none

@[simp]
theorem annBufferRecordId_annBufferKey (recordId : Key) :
    annBufferRecordId (annBufferKey recordId) = some recordId := by
  rw [annBufferRecordId, annBufferKey, if_pos (List.isPrefixOf_iff_prefix.mpr ⟨recordId, rfl⟩),
    List.drop_left]

theorem annBufferRecordId_eq_some {key recordId : Key} :
    annBufferRecordId key = some recordId ↔ key = annBufferKey recordId := by
  constructor
  · intro hfound
    unfold annBufferRecordId at hfound
    split at hfound
    next hstarts =>
      obtain ⟨rest, rfl⟩ := List.isPrefixOf_iff_prefix.mp hstarts
      rw [List.drop_left] at hfound
      rw [annBufferKey, Option.some.inj hfound]
    next => cases hfound
  · rintro rfl
    exact annBufferRecordId_annBufferKey recordId

theorem hnswNodeKey_injective : Function.Injective hnswNodeKey :=
  fun _ _ heq => List.append_cancel_left heq

theorem hnswNodeKey_ne_hnswMetaKey (recordId : ItemId) : hnswNodeKey recordId ≠ hnswMetaKey := by
  intro heq
  rw [hnswNodeKey, hnswMetaKey, List.append_assoc] at heq
  have hrest : ascii "n/" ++ recordId = ascii "meta" := List.append_cancel_left heq
  have hhead := congrArg List.head? hrest
  rw [List.head?_append_of_ne_nil _ (by decide)] at hhead
  exact absurd hhead (by decide)

/-! ## What is stored -/

/-- A number of the size of a word. -/
def usizeCodec : Codec ℕ where
  encode := Codec.encodeLength
  decode := Codec.decodeLength
  decode_encode := Codec.decodeLength_encodeLength

namespace PersistedNode

def codec : Codec (PersistedNode F32) :=
  (Codec.pair IndexEntry.embeddingCodec (Codec.list (Codec.list Codec.bytes))).iso
    (fun ⟨vector, neighbours⟩ => ⟨vector, neighbours⟩)
    (fun node => (node.vector, node.neighbours)) fun _ => rfl

end PersistedNode

namespace HnswMeta

def codec : Codec HnswMeta :=
  (Codec.pair (Codec.option Codec.bytes) (Codec.pair usizeCodec (Codec.option usizeCodec))).iso
    (fun ⟨entry, maxLevel, dim⟩ => ⟨entry, maxLevel, dim⟩)
    (fun info => (info.entry, info.maxLevel, info.dim)) fun _ => rfl

def default : HnswMeta :=
  { entry := none, maxLevel := 0, dim := none }

end HnswMeta

/-! ## The store -/

/-- What a node store over a tree fails with: what the tree fails with, or bytes that do not
decode. -/
inductive StoreError where
  | tree (error : LoomError)
  | undecodable
  deriving DecidableEq

section Store

variable {σ : Type} (records : KeyValue.Store Key Record LoomError σ)

/-- The bytes at a key; a record of another kind counts as none. -/
def readRaw (state : σ) (key : Key) : Except StoreError (Option Bytes) :=
  match records.get key state with
  | .ok (some (.value (.blob bytes)), _) => .ok (some bytes)
  | .ok _ => .ok none
  | .error error => .error (.tree error)

def putRaw (state : σ) (key : Key) (bytes : Bytes) : Except StoreError σ :=
  match records.insert key (Record.blob bytes) state with
  | .ok (_, state) => .ok state
  | .error error => .error (.tree error)

def decodeRaw {α : Type} (codec : Codec α) (bytes : Bytes) : Except StoreError α :=
  match codec.deserialize bytes with
  | some value => .ok value
  | none => .error .undecodable

/-- Nodes and meta as records of a tree. -/
def treeNodeStore : NodeStore σ StoreError F32 where
  getNode state id := do
    match ← readRaw records state (hnswNodeKey id) with
    | some bytes => (decodeRaw PersistedNode.codec bytes).map some
    | none => return none
  putNode state id node :=
    putRaw records state (hnswNodeKey id) (PersistedNode.codec.serialize node)
  getMeta state := do
    match ← readRaw records state hnswMetaKey with
    | some bytes => decodeRaw HnswMeta.codec bytes
    | none => return HnswMeta.default
  putMeta state info := putRaw records state hnswMetaKey (HnswMeta.codec.serialize info)

end Store

end LoomDB
