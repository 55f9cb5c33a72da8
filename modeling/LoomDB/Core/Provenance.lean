import LoomDB.Core.Platform

/-!
# Derivation nodes and reserved keys

Every write of a caller's record leaves a derivation node: which write it was,
what it was based on, and which external sources it cites. The nodes, the source
index and the engine's own bookkeeping live in the same keyspace as the caller's
records, behind the prefixes defined here.
-/

namespace LoomDB

open Std

abbrev NodeId := Digest

/-! ## Keys -/

def PROV_PREFIX : Bytes := ascii "\x01prov/"
def SRC_PREFIX : Bytes := ascii "\x01src/"

/-- Provenance is hidden from the caller, and merged. -/
def isProvenance (key : Key) : Bool :=
  PROV_PREFIX.isPrefixOf key || SRC_PREFIX.isPrefixOf key

def RESERVED_PREFIX : Bytes := ascii "\x00loom/"

/-- The engine's own bookkeeping: hidden from the caller, and never merged. -/
def isReserved (key : Key) : Bool :=
  RESERVED_PREFIX.isPrefixOf key

/-- A key the caller sees. -/
def isCaller (key : Key) : Bool :=
  !isReserved key && !isProvenance key

/-- The branch name behind its two-byte length, and the sequence number. -/
def branchSeq (branch : BranchId) (seq : U64) : Bytes :=
  beBytes 2 branch.length ++ branch ++ beBytes 8 seq.val

def sourceIndexPrefix (source : SourceRef) : Key :=
  SRC_PREFIX ++ source.toBytes ++ ascii "/"

def sourceIndexKey (source : SourceRef) (branch : BranchId) (seq : U64) : Key :=
  SRC_PREFIX ++ source.toBytes ++ ascii "/" ++ branchSeq branch seq

def nodeStorageKey (branch : BranchId) (seq : U64) : Key :=
  PROV_PREFIX ++ branchSeq branch seq

def RESERVED_PROV_SEQ_PREFIX : Bytes := ascii "\x00loom/provseq/"

def provSeqKey (branch : BranchId) : Key :=
  RESERVED_PROV_SEQ_PREFIX ++ branch

def RESERVED_LATEST_PREFIX : Bytes := ascii "\x00loom/latest/"

def latestNodeKey (key : Key) : Key :=
  RESERVED_LATEST_PREFIX ++ key

def mergedFromPrefix : Key :=
  RESERVED_PREFIX ++ ascii "merged-from/"

def mergedFromKey (source : BranchId) : Key :=
  mergedFromPrefix ++ source

/-! ## Keys that are not the caller's -/

theorem isPrefixOf_append_of {start mid : Bytes} (hstart : start.isPrefixOf mid = true)
    (rest : Bytes) : start.isPrefixOf (mid ++ rest) = true :=
  List.isPrefixOf_iff_prefix.mpr
    ((List.isPrefixOf_iff_prefix.mp hstart).trans (List.prefix_append mid rest))

theorem isReserved_append {mid : Bytes} (hmid : RESERVED_PREFIX.isPrefixOf mid = true)
    (rest : Bytes) : isReserved (mid ++ rest) = true :=
  isPrefixOf_append_of hmid rest

@[simp]
theorem isReserved_provSeqKey (branch : BranchId) : isReserved (provSeqKey branch) = true :=
  isReserved_append (by decide) branch

@[simp]
theorem isReserved_latestNodeKey (key : Key) : isReserved (latestNodeKey key) = true :=
  isReserved_append (by decide) key

@[simp]
theorem isReserved_mergedFromKey (source : BranchId) : isReserved (mergedFromKey source) = true :=
  isReserved_append (by decide) source

@[simp]
theorem isProvenance_nodeStorageKey (branch : BranchId) (seq : U64) :
    isProvenance (nodeStorageKey branch seq) = true := by
  rw [isProvenance, nodeStorageKey, isPrefixOf_append_of (by decide), Bool.true_or]

@[simp]
theorem isProvenance_sourceIndexKey (source : SourceRef) (branch : BranchId) (seq : U64) :
    isProvenance (sourceIndexKey source branch seq) = true := by
  have hstarts : SRC_PREFIX.isPrefixOf (sourceIndexKey source branch seq) = true := by
    rw [sourceIndexKey, List.append_assoc, List.append_assoc]
    exact isPrefixOf_append_of (by decide) _
  rw [isProvenance, hstarts, Bool.or_true]

theorem isCaller_of_isReserved {key : Key} (hreserved : isReserved key = true) :
    isCaller key = false := by
  rw [isCaller, hreserved, Bool.not_true, Bool.false_and]

theorem isCaller_of_isProvenance {key : Key} (hprovenance : isProvenance key = true) :
    isCaller key = false := by
  rw [isCaller, hprovenance, Bool.not_true, Bool.and_false]

/-! ## Nodes -/

structure DerivationNode where
  id : NodeId
  branch : BranchId
  commit : CommitId
  key : Key
  actor : ActorId
  delegation : List ActorId
  intent : Bytes
  derivedFrom : List NodeId
  sources : List SourceRef
  deriving DecidableEq

namespace DerivationNode

/-- `sort` and `dedup`. -/
def sorted {α : Type} [Ord α] [TransOrd α] (items : List α) : List α :=
  (ExtTreeSet.ofList items compare).toList

/-- The bytes a node id is the hash of: its fields one after the other. -/
def hashedBytes (branch : BranchId) (commit : CommitId) (key : Key) (actor : ActorId)
    (derivedFrom : List NodeId) (sources : List SourceRef) : Bytes :=
  branch ++ commit.asBytes ++ key ++ actor ++ derivedFrom.flatMap Digest.asBytes ++
    sources.flatMap SourceRef.toBytes

def new (blake3 : Bytes → Digest) (branch : BranchId) (commit : CommitId) (key : Key)
    (actor : ActorId) (delegation : List ActorId) (intent : Bytes)
    (derivedFrom : List NodeId) (sources : List SourceRef) : DerivationNode :=
  let derivedFrom := sorted derivedFrom
  let sources := sorted sources
  { id := blake3 (hashedBytes branch commit key actor derivedFrom sources)
    branch := branch
    commit := commit
    key := key
    actor := actor
    delegation := delegation
    intent := intent
    derivedFrom := derivedFrom
    sources := sources }

def codec : Codec DerivationNode :=
  (Codec.pair Codec.digest (Codec.pair Codec.bytes (Codec.pair Codec.digest
    (Codec.pair Codec.bytes (Codec.pair Codec.bytes (Codec.pair (Codec.list Codec.bytes)
      (Codec.pair Codec.bytes (Codec.pair (Codec.list Codec.digest)
        (Codec.list SourceRef.codec))))))))).iso
    (fun ⟨id, branch, commit, key, actor, delegation, intent, derivedFrom, sources⟩ =>
      ⟨id, branch, commit, key, actor, delegation, intent, derivedFrom, sources⟩)
    (fun node => (node.id, node.branch, node.commit, node.key, node.actor, node.delegation,
      node.intent, node.derivedFrom, node.sources))
    fun _ => rfl

def encode (node : DerivationNode) : Bytes :=
  codec.serialize node

def decode (bytes : Bytes) : Except LoomError DerivationNode :=
  match codec.deserialize bytes with
  | some node => .ok node
  | none => .error (.codec "decode" "derivation node")

@[simp]
theorem decode_encode (node : DerivationNode) : decode node.encode = .ok node := by
  simp [decode, encode]

end DerivationNode

/-! ## Index entries and claim versions -/

structure IndexHint where
  text : Bytes
  embedding : Option (List F32)
  deriving DecidableEq

def RESERVED_INDEX_PREFIX : Bytes := ascii "\x00loom/idx/"

structure IndexEntry where
  key : Key
  text : Bytes
  embedding : Option (List F32)
  citations : List SourceRef
  stale : Bool
  label : TrustClass
  deriving DecidableEq

namespace IndexEntry

/-- An entry without a citation is not made. -/
def new (key : Key) (text : Bytes) (embedding : Option (List F32))
    (citations : List SourceRef) (stale : Bool) (label : TrustClass) : Option IndexEntry :=
  if citations = [] then none
  else some { key, text, embedding, citations, stale, label }

def storageKey (recordKey : Key) : Key :=
  RESERVED_INDEX_PREFIX ++ recordKey

@[simp]
theorem isReserved_storageKey (recordKey : Key) : isReserved (storageKey recordKey) = true :=
  isReserved_append (by decide) recordKey

def embeddingCodec : Codec (List F32) :=
  Codec.list (Codec.uint 4)

def codec : Codec IndexEntry :=
  (Codec.pair Codec.bytes (Codec.pair Codec.bytes (Codec.pair (Codec.option embeddingCodec)
    (Codec.pair (Codec.list SourceRef.codec)
      (Codec.pair Codec.bool TrustClass.codec))))).iso
    (fun ⟨key, text, embedding, citations, stale, label⟩ =>
      ⟨key, text, embedding, citations, stale, label⟩)
    (fun entry => (entry.key, entry.text, entry.embedding, entry.citations, entry.stale,
      entry.label))
    fun _ => rfl

def encode (entry : IndexEntry) : Bytes :=
  codec.serialize entry

def decode (bytes : Bytes) : Except LoomError IndexEntry :=
  match codec.deserialize bytes with
  | some entry => .ok entry
  | none => .error (.codec "decode" "index entry")

@[simp]
theorem decode_encode (entry : IndexEntry) : decode entry.encode = .ok entry := by
  simp [decode, encode]

end IndexEntry

def RESERVED_ANNBUF_PREFIX : Bytes := ascii "\x00loom/annbuf/"

def annBufferKey (recordId : Key) : Key :=
  RESERVED_ANNBUF_PREFIX ++ recordId

@[simp]
theorem isReserved_annBufferKey (recordId : Key) : isReserved (annBufferKey recordId) = true :=
  isReserved_append (by decide) recordId

def RESERVED_HISTORY_PREFIX : Bytes := ascii "\x00loom/clmhist/"

structure ClaimVersion where
  claim : Claim
  seq : U64
  deriving DecidableEq

namespace ClaimVersion

def historyPrefix (subject predicate : Bytes) : Key :=
  RESERVED_HISTORY_PREFIX ++ subject ++ [0] ++ predicate ++ [0]

def storageKey (subject predicate : Bytes) (seq : U64) : Key :=
  RESERVED_HISTORY_PREFIX ++ subject ++ [0] ++ predicate ++ [0] ++ beBytes 8 seq.val

@[simp]
theorem isReserved_storageKey (subject predicate : Bytes) (seq : U64) :
    isReserved (storageKey subject predicate seq) = true := by
  simp only [storageKey, List.append_assoc]
  exact isReserved_append (by decide) _

theorem isReserved_of_historyPrefix {subject predicate : Bytes} {key : Key}
    (hstarts : (historyPrefix subject predicate).isPrefixOf key = true) :
    isReserved key = true := by
  obtain ⟨rest, rfl⟩ := List.isPrefixOf_iff_prefix.mp hstarts
  simp only [historyPrefix, List.append_assoc]
  exact isReserved_append (by decide) _

def codec : Codec ClaimVersion :=
  (Codec.pair Claim.codec Codec.u64).iso (fun ⟨claim, seq⟩ => ⟨claim, seq⟩)
    (fun version => (version.claim, version.seq)) fun _ => rfl

def encode (version : ClaimVersion) : Bytes :=
  codec.serialize version

def decode (bytes : Bytes) : Option ClaimVersion :=
  codec.deserialize bytes

end ClaimVersion

end LoomDB
