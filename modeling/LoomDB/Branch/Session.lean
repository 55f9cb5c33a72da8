import LoomDB.Foundations.Ancestry
import LoomDB.Foundations.FallibleState
import LoomDB.Refs.RefStore
import LoomDB.Core.Envelope
import LoomDB.Branch.Merge
import LoomDB.Branch.Token

/-!
# The engine

One tenant's database: branch heads over a page store, sessions with what they
have read, and the write path, which records where every write came from in the
same commit. Calls are run one at a time, each to its end; an error ends a call
and keeps what it did before.
-/

namespace LoomDB

open Std (ExtTreeMap ExtTreeSet)
open KeyValue (ask put drop entries)

/-- Eight hours. -/
def DEFAULT_SESSION_TTL_MS : U64 := 28800000

def MAIN : BranchId := ascii "main"

structure SessionHandle where
  id : SessionId
  branch : BranchId
  base : CommitId
  deriving DecidableEq

/-- What a session has read since its last write. -/
structure ReadSet where
  nodes : ExtTreeSet NodeId
  sources : ExtTreeSet SourceRef
  minLabel : TrustClass
  deriving DecidableEq

def ReadSet.default : ReadSet :=
  { nodes := ∅, sources := ∅, minLabel := TrustClass.leastRestrictive }

/-- What a merge did. -/
inductive MergeResult where
  | merged (commit : CommitId) (records automatic : ℕ)
  | conflict (conflicts : List MergeConflict)
  | ambiguousHistory (bases : ℕ) (detail : Bytes)
  | policyRefused (key : Key) (reason : Bytes)
  deriving DecidableEq

/-- The parts of an engine that do not change. -/
structure Engine (σ ρ : Type) where
  platform : Platform
  pager : Substrate σ
  store : RefStore ρ
  issuer : TokenIssuer
  tenant : TenantId

/-- The state of an engine. -/
structure Loom (σ ρ : Type) where
  pager : σ
  store : ρ
  actorKeys : Option (ExtTreeMap ActorId Bytes)
  refs : Refs
  /-- Edits made to `refs` and not yet handed to the store. -/
  refEdits : List RefEdit
  readSets : ExtTreeMap SessionId ReadSet
  /-- How often the clock has been read. -/
  clock : ℕ

abbrev LoomM (σ ρ : Type) := ExceptT LoomError (StateM (Loom σ ρ))

/-! ## What a write puts into the tree -/

/-- The sources a record cites. -/
def citationsOf : Record → List SourceRef
  | .observation obs => [obs.source]
  | .claim claim => claim.evidence
  | .value _ => []

def isStale : Record → Bool
  | .claim claim => claim.status = .stale
  | _ => false

/-- A record's own label: only an observation has one. -/
def ownTrust : Record → TrustClass
  | .observation obs => obs.trust
  | _ => TrustClass.leastRestrictive

/-- A transaction on the record store. -/
abbrev RecordProgram := KeyValue Key Record LoomError

/-- One derivation node per key written. -/
def derivationNodes (platform : Platform) (branch : BranchId) (commit : CommitId)
    (written : List (Key × Record)) (envelope : WriteEnvelope) (captured : ReadSet)
    (extraParents : ExtTreeMap Key (List NodeId)) : List DerivationNode :=
  let baseSources := captured.sources.toList ++ envelope.derivedFrom
  let baseParents := captured.nodes.toList
  (written.filter fun entry => !isProvenance entry.1).map fun (key, record) =>
    let derivedFrom := DerivationNode.sorted (baseParents ++ (extraParents[key]?).getD [])
    let sources :=
      match record with
      | .observation obs => baseSources ++ [obs.source]
      | _ => baseSources
    DerivationNode.new platform.blake3 branch commit key envelope.actor envelope.delegation
      envelope.intent derivedFrom sources

/-- A node at its place in the branch's sequence, and the two ways to it: by the
key it wrote, and by each source it cites. -/
def appendNode (branch : BranchId) (node : DerivationNode) (seq : U64) : RecordProgram Unit := do
  put (nodeStorageKey branch seq) (Record.blob node.encode)
  put (latestNodeKey node.key) (Record.blob node.id.asBytes)
  node.sources.forM fun source =>
    put (sourceIndexKey source branch seq) (Record.blob node.id.asBytes)

def appendNodes (branch : BranchId) : List DerivationNode → U64 → RecordProgram U64
  | [], seq => pure seq
  | node :: nodes, seq => do
      appendNode branch node seq
      let next ← KeyValue.lift seq.next
      appendNodes branch nodes next

/-- The branch's next sequence number. -/
def provSeq : Option Record → U64
  | some (.value (.counter value)) => value.toU64
  | _ => 0

def appendProvenance (branch : BranchId) (nodes : List DerivationNode) : RecordProgram Unit := do
  let found ← ask (provSeqKey branch)
  let seq ← appendNodes branch nodes (provSeq found)
  put (provSeqKey branch) (.value (.counter (I64.ofU64 seq)))

/-- A fresh vector waits in the buffer for the next fold. -/
def bufferEmbedding (key : Key) : Option (List F32) → RecordProgram Unit
  | some embedding =>
      put (annBufferKey key) (Record.blob (IndexEntry.embeddingCodec.serialize embedding))
  | none => pure ()

/-- The index entry of a record that has a hint and something to cite. -/
def indexRecord (captured : ReadSet) (hints : ExtTreeMap Key IndexHint) (key : Key)
    (record : Record) : RecordProgram Unit :=
  match hints[key]? with
  | none => pure ()
  | some hint =>
      let label := captured.minLabel.mostRestrictive (ownTrust record)
      match IndexEntry.new key hint.text hint.embedding (citationsOf record) (isStale record)
        label with
      | none => pure ()
      | some entry => do
          put (IndexEntry.storageKey key) (Record.blob entry.encode)
          bufferEmbedding key hint.embedding

/-- The stored versions of a claim, among all records. -/
def versionsAt (start : Key) (records : List (Key × Record)) : List (Key × ClaimVersion) :=
  records.filterMap fun (key, record) =>
    if start.isPrefixOf key then
      match record with
      | .value (.blob bytes) => (ClaimVersion.decode bytes).map fun version => (key, version)
      | _ => none
    else none

/-- A version that a new belief closes. -/
def ClaimVersion.supersededAt (start : Option Timestamp) (version : ClaimVersion) :
    ClaimVersion :=
  { version with
    claim := { version.claim with
      known :=
        match start with
        | some start => version.claim.known.closedAt start
        | none => version.claim.known
      status := .superseded } }

def nextVersion (versions : List ClaimVersion) : Except LoomError U64 :=
  match (versions.map ClaimVersion.seq).max? with
  | some last => last.next
  | none => .ok 0

/-- Append a version, closing the open ones of the same subject and
predicate. -/
def appendClaimVersion (claim : Claim) : RecordProgram Unit := do
  let records ← entries
  let versions := versionsAt (ClaimVersion.historyPrefix claim.subject claim.predicate) records
  let isOpen := versions.filter fun version => version.2.claim.known.stop = none
  isOpen.forM fun (key, version) =>
    put key (Record.blob (ClaimVersion.encode (version.supersededAt claim.known.start)))
  let seq ← KeyValue.lift (nextVersion (versions.map Prod.snd))
  put (ClaimVersion.storageKey claim.subject claim.predicate seq)
    (Record.blob (ClaimVersion.encode { claim := claim, seq := seq }))

def appendHistory : Record → RecordProgram Unit
  | .claim claim => appendClaimVersion claim
  | _ => pure ()

/-- What the engine adds to a write of its own accord. -/
def engineAppends (platform : Platform) (branch : BranchId) (head : CommitId)
    (written : List (Key × Record)) (envelope : WriteEnvelope) (captured : ReadSet)
    (extraParents : ExtTreeMap Key (List NodeId)) (hints : ExtTreeMap Key IndexHint) :
    RecordProgram Unit := do
  if written.any fun entry => !isProvenance entry.1 && !isReserved entry.1 then
    appendProvenance branch
      (derivationNodes platform branch head written envelope captured extraParents)
  written.forM fun (key, record) => indexRecord captured hints key record
  written.forM fun (_, record) => appendHistory record

/-- One write: the caller's records, then the engine's. -/
def writeProgram (platform : Platform) (branch : BranchId) (head : CommitId)
    (written : List (Key × Record)) (envelope : WriteEnvelope) (captured : ReadSet)
    (extraParents : ExtTreeMap Key (List NodeId)) (hints : ExtTreeMap Key IndexHint) :
    RecordProgram Unit := do
  written.forM fun (key, record) => put key record
  engineAppends platform branch head written envelope captured extraParents hints

namespace Engine

variable {σ ρ : Type} (engine : Engine σ ρ)

/-! ## Refs -/

def now : LoomM σ ρ U64 := do
  let loom ← get
  modify fun loom => { loom with clock := loom.clock + 1 }
  return engine.platform.nowMs loom.clock

def authorize (token : CapabilityToken) (branch : BranchId) : LoomM σ ρ Unit := do
  let nowMs ← engine.now
  FallibleState.lift (engine.issuer.authorize engine.platform token branch nowMs)

def noSuchBranch (branch : BranchId) : LoomError :=
  .outOfScope branch (ascii "no such branch")

/-- The commit a branch points at. -/
def head (branch : BranchId) : LoomM σ ρ CommitId := do
  let loom ← get
  match loom.refs.branches[branch]? with
  | some head => return head
  | none => throw (noSuchBranch branch)

def pushEdit (edit : RefEdit) : LoomM σ ρ Unit :=
  modify fun loom => { loom with refEdits := loom.refEdits ++ [edit] }

/-- Hand the pending edits to the store; they are not kept if it refuses. -/
def persist : LoomM σ ρ Unit := do
  let loom ← get
  let (result, store) := engine.store.apply loom.refEdits loom.store
  modify fun loom => { loom with refEdits := [], store := store }
  FallibleState.lift result

def editRefs (edit : RefEdit) : LoomM σ ρ Unit := do
  modify fun loom => { loom with refs := loom.refs.applyEdit edit }
  pushEdit edit

/-- Only the first recording of a commit counts. -/
def recordCommit (commit : CommitId) (parents : List CommitId) : LoomM σ ρ Unit := do
  let loom ← get
  let parents := parents.filter fun parent => parent ≠ commit
  if parents = [] ∨ loom.refs.commits[commit]?.isSome then return ()
  else editRefs (.recordCommit commit parents)

def createBranch (name : BranchId) (commit : CommitId) : LoomM σ ρ Unit := do
  let loom ← get
  if loom.refs.branches[name]?.isSome then throw (.branchExists name)
  else do
    editRefs (.createBranch name commit)
    engine.persist

def setHead (branch : BranchId) (commit : CommitId) : LoomM σ ρ Unit := do
  let loom ← get
  if loom.refs.branches[branch]?.isSome then do
    editRefs (.setHead branch commit)
    engine.persist
  else throw (noSuchBranch branch)

/-! ## Sessions and branches -/

def openSessionNamed (session : SessionId) : LoomM σ ρ (SessionHandle × CapabilityToken) := do
  let base ← head MAIN
  engine.createBranch session base
  let nowMs ← engine.now
  let expiresAtMs ← FallibleState.lift (nowMs.add DEFAULT_SESSION_TTL_MS)
  let token := engine.issuer.issue engine.platform engine.tenant session
    (ExtTreeSet.ofList [session] compare) expiresAtMs
  return ({ id := session, branch := session, base := base }, token)

def openSession : LoomM σ ρ (SessionHandle × CapabilityToken) := do
  let nowMs ← engine.now
  engine.openSessionNamed (ascii "s-" ++ decimal nowMs.val)

def issueCapability (session : SessionId) (branches : List BranchId) (ttlMs : U64) :
    LoomM σ ρ CapabilityToken := do
  branches.forM fun branch => discard (head branch)
  let nowMs ← engine.now
  let expiresAtMs ← FallibleState.lift (nowMs.add ttlMs)
  return engine.issuer.issue engine.platform engine.tenant session
    (ExtTreeSet.ofList branches compare) expiresAtMs

def branch (token : CapabilityToken) (source : BranchId) (name : BranchId) :
    LoomM σ ρ (BranchId × CapabilityToken) := do
  engine.authorize token source
  let commit ← head source
  engine.createBranch name commit
  return (name, engine.issuer.extend engine.platform token name)

def rewind (token : CapabilityToken) (branch : BranchId) (commit : CommitId) :
    LoomM σ ρ CommitId := do
  engine.authorize token branch
  let previous ← head branch
  engine.setHead branch commit
  return previous

/-! ## Reading -/

/-- Run a transaction on the pages of a commit and drop what it changed. -/
def reading {α : Type} (commit : CommitId) (program : RecordProgram α) : LoomM σ ρ α := do
  let loom ← get
  let snapshot ← FallibleState.lift
    ((engine.pager.fork loom.pager commit).mapError LoomError.pager)
  let tree ← FallibleState.lift (Tree.openTree snapshot)
  let (result, _) ← FallibleState.lift (program.run Tree.records tree)
  return result

/-- The node that last wrote a key, as its reserved record says. -/
def nodeOf : Option Record → Option NodeId
  | some (.value (.blob bytes)) => Digest.fromBytes bytes
  | _ => none

def nodeForKey (branch : BranchId) (key : Key) : LoomM σ ρ (Option NodeId) := do
  let commit ← head branch
  let found ← engine.reading commit (ask (latestNodeKey key))
  return nodeOf found

def entryOf : Option Record → Except LoomError (Option IndexEntry)
  | some (.value (.blob bytes)) => (IndexEntry.decode bytes).map some
  | _ => .ok none

def indexEntryFor (branch : BranchId) (key : Key) : LoomM σ ρ (Option IndexEntry) := do
  let commit ← head branch
  let found ← engine.reading commit (ask (IndexEntry.storageKey key))
  FallibleState.lift (entryOf found)

def readSet (session : SessionId) (loom : Loom σ ρ) : ReadSet :=
  (loom.readSets[session]?).getD ReadSet.default

/-- Change a session's read set, which is there from then on. -/
def note (session : SessionId) (change : ReadSet → ReadSet) : LoomM σ ρ Unit :=
  modify fun loom =>
    { loom with readSets := loom.readSets.insert session (change (readSet session loom)) }

def ReadSet.addNode (node : Option NodeId) (set : ReadSet) : ReadSet :=
  match node with
  | some node => { set with nodes := set.nodes.insert node }
  | none => set

def ReadSet.addRecord (record : Record) (set : ReadSet) : ReadSet :=
  match record with
  | .observation obs =>
      { set with
        sources := set.sources.insert obs.source
        minLabel := set.minLabel.mostRestrictive obs.trust }
  | _ => set

def ReadSet.addEntry (entry : Option IndexEntry) (set : ReadSet) : ReadSet :=
  match entry with
  | some entry => { set with minLabel := set.minLabel.mostRestrictive entry.label }
  | none => set

/-- Record what a read saw: the node that wrote it, the source it is, and the
label its index entry carries. -/
def captureRead (session : SessionId) (branch : BranchId) (key : Key) (record : Record) :
    LoomM σ ρ Unit :=
  if isProvenance key then pure ()
  else do
    note session id
    let node ← engine.nodeForKey branch key
    note session (ReadSet.addNode node)
    note session (ReadSet.addRecord record)
    let entry ← engine.indexEntryFor branch key
    note session (ReadSet.addEntry entry)

def captureFound (session : SessionId) (branch : BranchId) (key : Key) :
    Option Record → LoomM σ ρ Unit
  | some record => engine.captureRead session branch key record
  | none => pure ()

def read (token : CapabilityToken) (branch : BranchId) (key : Key) :
    LoomM σ ρ (Option Record) := do
  engine.authorize token branch
  let commit ← head branch
  let record ← engine.reading commit (ask key)
  engine.captureFound token.claims.session branch key record
  return record

/-- A record as of a commit. -/
def readAt (token : CapabilityToken) (branch : BranchId) (commit : CommitId) (key : Key) :
    LoomM σ ρ (Option Record) := do
  engine.authorize token branch
  engine.reading commit (ask key)

/-- Every record a caller sees, in key order. -/
def scan (token : CapabilityToken) (branch : BranchId) : LoomM σ ρ (List (Key × Record)) := do
  engine.authorize token branch
  let commit ← head branch
  let records ← engine.reading commit entries
  return records.filter fun entry => !isReserved entry.1 && !isProvenance entry.1

/-! ## Writing -/

def authenticate (envelope : WriteEnvelope) : LoomM σ ρ Unit := do
  let loom ← get
  match loom.actorKeys with
  | none => pure ()
  | some keys =>
      match keys[envelope.actor]? with
      | none => throw (.unknownActor envelope.actor)
      | some key => FallibleState.lift (envelope.verify engine.platform key)

/-- Take a session's read set; the next write starts afresh. -/
def takeReadSet (session : SessionId) : LoomM σ ρ ReadSet := do
  let loom ← get
  modify fun loom => { loom with readSets := loom.readSets.erase session }
  return readSet session loom

/-- Run a transaction on the pages of a commit and commit what it changed. -/
def transact {α : Type} (base : CommitId) (program : RecordProgram α) :
    LoomM σ ρ (α × CommitId) := do
  let loom ← get
  let snapshot ← FallibleState.lift
    ((engine.pager.fork loom.pager base).mapError LoomError.pager)
  let tree ← FallibleState.lift (Tree.openTree snapshot)
  let (result, tree) ← FallibleState.lift (program.run Tree.records tree)
  let (commit, pager) := engine.pager.commit loom.pager base (Tree.flush tree)
  modify fun loom => { loom with pager := pager }
  let commit ← FallibleState.lift (commit.mapError LoomError.pager)
  return (result, commit)

def requireEnvelope (envelope : WriteEnvelope) : LoomM σ ρ Unit :=
  if envelope.isValid then pure () else throw .missingEnvelope

/-- Put a transaction's commit on a branch. -/
def advance {α : Type} (branch : BranchId) (base : CommitId) (program : RecordProgram α) :
    LoomM σ ρ (α × CommitId) := do
  let (result, commit) ← engine.transact base program
  recordCommit commit [base]
  engine.setHead branch commit
  return (result, commit)

/-- The one write path. -/
def writeAll (token : CapabilityToken) (branch : BranchId) (records : List (Key × Record))
    (envelope : WriteEnvelope) (extraParents : ExtTreeMap Key (List NodeId))
    (hints : ExtTreeMap Key IndexHint) : LoomM σ ρ CommitId := do
  requireEnvelope envelope
  engine.authenticate envelope
  engine.authorize token branch
  let captured ← takeReadSet envelope.session
  let base ← head branch
  let (_, commit) ← engine.advance branch base
    (writeProgram engine.platform branch base records envelope captured extraParents hints)
  return commit

def writeManyDerived (token : CapabilityToken) (branch : BranchId)
    (records : List (Key × Record)) (envelope : WriteEnvelope)
    (extraParents : ExtTreeMap Key (List NodeId)) : LoomM σ ρ CommitId :=
  engine.writeAll token branch records envelope extraParents ∅

def writeMany (token : CapabilityToken) (branch : BranchId) (records : List (Key × Record))
    (envelope : WriteEnvelope) : LoomM σ ρ CommitId :=
  engine.writeManyDerived token branch records envelope ∅

def write (token : CapabilityToken) (branch : BranchId) (key : Key) (record : Record)
    (envelope : WriteEnvelope) : LoomM σ ρ CommitId :=
  engine.writeMany token branch [(key, record)] envelope

def writeIndexedMany (token : CapabilityToken) (branch : BranchId)
    (records : List (Key × Record)) (hints : ExtTreeMap Key IndexHint)
    (envelope : WriteEnvelope) : LoomM σ ρ CommitId :=
  engine.writeAll token branch records envelope ∅ hints

def writeIndexed (token : CapabilityToken) (branch : BranchId) (key : Key) (record : Record)
    (hint : IndexHint) (envelope : WriteEnvelope) : LoomM σ ρ CommitId :=
  engine.writeIndexedMany token branch [(key, record)]
    ((∅ : ExtTreeMap Key IndexHint).insert key hint) envelope

/-- Withdraw one claim. -/
def invalidateClaim (key : Key) : Option Record → RecordProgram Bool
  | some (.claim claim) =>
      if claim.status = .asserted ∨ claim.status = .stale then do
        put key (.claim { claim with status := .invalidated })
        return true
      else pure false
  | _ => pure false

def forgetKeys : List Key → RecordProgram (ℕ × ℕ)
  | [] => pure (0, 0)
  | key :: keys => do
      let deindexed ← drop (IndexEntry.storageKey key)
      let found ← ask key
      let invalidated ← invalidateClaim key found
      let (moreInvalidated, moreDeindexed) ← forgetKeys keys
      return (moreInvalidated + invalidated.toNat, moreDeindexed + deindexed.toNat)

/-- Invalidate the claims at the keys and remove their index entries. -/
def invalidateAndDeindex (token : CapabilityToken) (branch : BranchId) (keys : List Key)
    (envelope : WriteEnvelope) : LoomM σ ρ (ℕ × ℕ) := do
  requireEnvelope envelope
  engine.authenticate envelope
  engine.authorize token branch
  let base ← head branch
  let (counts, _) ← engine.advance branch base (forgetKeys keys)
  return counts

/-! ## Merging -/

/-- The recorded parents of a commit, or the one the page store has. -/
def parentsOf (loom : Loom σ ρ) (commit : CommitId) : List CommitId :=
  match loom.refs.commits[commit]? with
  | some parents => parents
  | none =>
      match engine.pager.parent loom.pager commit with
      | .ok (some parent) => [parent]
      | _ => []

/-- How many steps a walk over the commits can take. -/
def walkLimit (loom : Loom σ ρ) : ℕ :=
  loom.refs.commits.foldl (fun total _ parents => total + parents.length + 1)
    (engine.pager.manifests loom.pager + 1)

/-- Every commit in a commit's history. -/
def fullAncestors (commit : CommitId) : LoomM σ ρ (ExtTreeSet CommitId) := do
  let loom ← get
  match Ancestry.walk (engine.parentsOf loom) (engine.walkLimit loom) [commit] ∅ with
  | some found => return found
  | none => throw .panicked

/-- No other common ancestor descends from the candidate. -/
def isLowest (candidate : CommitId) : List CommitId → LoomM σ ρ Bool
  | [] => pure true
  | other :: common =>
      if other = candidate then isLowest candidate common
      else do
        let ancestors ← engine.fullAncestors other
        if ancestors.contains candidate then return false
        else isLowest candidate common

/-- The lowest common ancestors of two commits. -/
def mergeBases (sourceHead targetHead : CommitId) : LoomM σ ρ (List CommitId) := do
  let sourceAncestors ← engine.fullAncestors sourceHead
  let targetAncestors ← engine.fullAncestors targetHead
  let common := sourceAncestors.toList.filter fun commit => targetAncestors.contains commit
  common.filterM fun candidate => engine.isLowest candidate common

def ambiguousDetail (source target : BranchId) (bases : ℕ) : Bytes :=
  ascii "branches " ++ showBranch source ++ ascii " and " ++ showBranch target ++
    ascii " have merged each other, so their history has " ++ decimal bases ++
    ascii (" equally-valid merge bases and a three-way merge cannot be done safely. " ++
      "Merge one direction only, or rebase one branch onto the other, and retry. " ++
      "(Recursive merge over a virtual base is not implemented.)")

/-- The nodes that last wrote a key on the two sides. -/
def sideNodes (source target : BranchId) (key : Key) : LoomM σ ρ (List NodeId) := do
  let onSource ← FallibleState.attempt (engine.nodeForKey source key)
  let onTarget ← FallibleState.attempt (engine.nodeForKey target key)
  let found : Except LoomError (Option NodeId) → List NodeId
    | .ok (some node) => [node]
    | _ => []
  return found onSource ++ found onTarget

def mergeParents (source target : BranchId) :
    List (Key × Record) → ExtTreeMap Key (List NodeId) →
    LoomM σ ρ (ExtTreeMap Key (List NodeId))
  | [], parents => pure parents
  | (key, _) :: writes, parents =>
      if isReserved key || isProvenance key then mergeParents source target writes parents
      else do
        let nodes ← engine.sideNodes source target key
        mergeParents source target writes
          (if nodes = [] then parents else parents.insert key nodes)

/-- Add the merged head to the parents of a recorded commit. -/
def addMergeEdge (commit second : CommitId) : LoomM σ ρ Unit := do
  let loom ← get
  match loom.refs.commits[commit]? with
  | some parents =>
      if second ∈ parents then pure () else editRefs (.addParent commit second)
  | none => pure ()

/-- A write with a second parent. -/
def writeMerge (token : CapabilityToken) (branch : BranchId) (records : List (Key × Record))
    (envelope : WriteEnvelope) (second : CommitId)
    (parents : ExtTreeMap Key (List NodeId)) : LoomM σ ρ CommitId := do
  let before ← head branch
  let commit ← engine.writeManyDerived token branch records envelope parents
  recordCommit commit [before, second]
  addMergeEdge commit second
  engine.persist
  return commit

/-- The first caller's record a policy forbids. -/
def firstForbidden (forbids : Key → Record → Option Bytes) :
    List (Key × Record) → Option (Key × Bytes)
  | [] => none
  | (key, record) :: writes =>
      if isReserved key || isProvenance key then firstForbidden forbids writes
      else
        match forbids key record with
        | some reason => some (key, reason)
        | none => firstForbidden forbids writes

/-- Carry out a plan without conflicts. -/
def applyPlan (token : CapabilityToken) (source target : BranchId) (sourceHead : CommitId)
    (writes : List (Key × Record)) (automatic : ℕ) (envelope : WriteEnvelope)
    (forbids : Key → Record → Option Bytes) : LoomM σ ρ MergeResult :=
  match firstForbidden forbids writes with
  | some (key, reason) => return .policyRefused key reason
  | none => do
      let records := (writes.filter fun entry =>
        !isReserved entry.1 && !isProvenance entry.1).length
      let writes := writes ++ [(mergedFromKey source, Record.blob sourceHead.asBytes)]
      let parents ← engine.mergeParents source target writes ∅
      let commit ← engine.writeMerge token target writes envelope sourceHead parents
      return .merged commit records automatic

/-- Merge over one base. -/
def mergeOver (token : CapabilityToken) (source target : BranchId)
    (base sourceHead targetHead : CommitId) (policy : MergePolicy) (envelope : WriteEnvelope)
    (forbids : Key → Record → Option Bytes) : LoomM σ ρ MergeResult := do
  let loom ← get
  let outcome ← FallibleState.lift
    (planMerge engine.platform engine.pager loom.pager base sourceHead targetHead policy)
  match outcome with
  | .conflict conflicts => return .conflict conflicts
  | .merged writes automatic =>
      engine.applyPlan token source target sourceHead writes automatic envelope forbids

def mergeChecked (token : CapabilityToken) (source target : BranchId) (policy : MergePolicy)
    (envelope : WriteEnvelope) (forbids : Key → Record → Option Bytes) :
    LoomM σ ρ MergeResult := do
  requireEnvelope envelope
  engine.authorize token source
  engine.authorize token target
  let sourceHead ← head source
  let targetHead ← head target
  let bases ← engine.mergeBases sourceHead targetHead
  match bases with
  | [] =>
      engine.mergeOver token source target sourceHead sourceHead targetHead policy envelope
        forbids
  | [base] =>
      engine.mergeOver token source target base sourceHead targetHead policy envelope forbids
  | bases => return .ambiguousHistory bases.length (ambiguousDetail source target bases.length)

def merge (token : CapabilityToken) (source target : BranchId) (policy : MergePolicy)
    (envelope : WriteEnvelope) : LoomM σ ρ MergeResult :=
  engine.mergeChecked token source target policy envelope fun _ _ => none

/-! ## Actors, and opening a database -/

def productionActorKeys (keys : ExtTreeMap ActorId Bytes) :
    Except LoomError (ExtTreeMap ActorId Bytes) :=
  if keys.isEmpty then
    .error (.invalidSecurityConfiguration "the actor key registry is empty")
  else .ok keys

def replaceActorKeys (keys : ExtTreeMap ActorId Bytes) : LoomM σ ρ Unit := do
  let keys ← FallibleState.lift (productionActorKeys keys)
  modify fun loom => { loom with actorKeys := some keys }

def enabledActorKeys (loom : Loom σ ρ) : Except LoomError (ExtTreeMap ActorId Bytes) :=
  match loom.actorKeys with
  | some keys => .ok keys
  | none => .error (.invalidSecurityConfiguration "actor authentication is not enabled")

def rotateActorKey (actor : ActorId) (key : Bytes) : LoomM σ ρ Unit := do
  let loom ← get
  let keys ← FallibleState.lift (enabledActorKeys loom)
  modify fun loom => { loom with actorKeys := some (keys.insert actor key) }

def revokeActorKey (actor : ActorId) : LoomM σ ρ Bool := do
  let loom ← get
  let keys ← FallibleState.lift (enabledActorKeys loom)
  modify fun loom => { loom with actorKeys := some (keys.erase actor) }
  return keys[actor]?.isSome

/-- The refs of a store; a new one is rooted at the empty commit. -/
def loadRefs (pager : σ) (store : ρ) : Except LoomError (Refs × ρ) := do
  match ← engine.store.load store with
  | some refs => return (refs, store)
  | none =>
      let root ← (engine.pager.rootManifest pager).mapError LoomError.pager
      let refs := Refs.rooted MAIN root
      match engine.store.save refs store with
      | (.ok (), store) => return (refs, store)
      | (.error error, _) => throw error

/-- Open a database on a page store and a ref store. -/
def assemble (pager : σ) (store : ρ) : Except LoomError (Loom σ ρ) := do
  let (refs, store) ← engine.loadRefs pager store
  return {
    pager := pager
    store := store
    actorKeys := none
    refs := refs
    refEdits := []
    readSets := ∅
    clock := 0 }

end Engine

end LoomDB
