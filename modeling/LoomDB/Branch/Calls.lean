import LoomDB.Branch.SessionSpec

/-!
# Calls and runs

The calls a caller can make of an engine, and the databases they lead to: a new
one, what a call leaves, whether it succeeds or fails, and what is there after a
restart.
-/

namespace LoomDB

open Std (ExtTreeMap ExtTreeSet)

def HNSW_PREFIX : Bytes := ascii "\x00loom/hnsw/"

/-- A key of the vector index: a node of its graph or a vector in its buffer. -/
def isVectorKey (key : Key) : Bool :=
  HNSW_PREFIX.isPrefixOf key || RESERVED_ANNBUF_PREFIX.isPrefixOf key

/-- A transaction of the vector index, which keeps to its own keys. -/
abbrev IndexUpkeep :=
  { program : RecordProgram Unit // program.Writes fun key => isVectorKey key }

inductive Call where
  | openSession
  | openSessionNamed (session : SessionId)
  | issueCapability (session : SessionId) (branches : List BranchId) (ttlMs : U64)
  | branch (token : CapabilityToken) (source name : BranchId)
  | rewind (token : CapabilityToken) (branch : BranchId) (commit : CommitId)
  | read (token : CapabilityToken) (branch : BranchId) (key : Key)
  | readAt (token : CapabilityToken) (branch : BranchId) (commit : CommitId) (key : Key)
  | scan (token : CapabilityToken) (branch : BranchId)
  /-- A write, with an index hint for some of its keys. -/
  | write (token : CapabilityToken) (branch : BranchId) (records : List (Key × Record))
      (hints : ExtTreeMap Key IndexHint) (envelope : WriteEnvelope)
  | invalidate (token : CapabilityToken) (branch : BranchId) (keys : List Key)
      (envelope : WriteEnvelope)
  | merge (token : CapabilityToken) (source target : BranchId) (policy : MergePolicy)
      (envelope : WriteEnvelope) (forbids : Key → Record → Option Bytes)
  | maintain (token : CapabilityToken) (branch : BranchId) (upkeep : IndexUpkeep)
  | replaceActorKeys (keys : ExtTreeMap ActorId Bytes)
  | rotateActorKey (actor : ActorId) (key : Bytes)
  | revokeActorKey (actor : ActorId)

/-- What a call returns. -/
inductive Answer where
  | session (handle : SessionHandle) (token : CapabilityToken)
  | token (token : CapabilityToken)
  | branch (name : BranchId) (token : CapabilityToken)
  | commit (commit : CommitId)
  | record (found : Option Record)
  | records (found : List (Key × Record))
  | counts (invalidated deindexed : ℕ)
  | merge (result : MergeResult)
  | done
  | revoked (found : Bool)

namespace Engine

variable {σ ρ : Type} (engine : Engine σ ρ)

/-- An insertion into the vector index, or a rebuild of it. -/
def maintain (token : CapabilityToken) (branch : BranchId) (upkeep : IndexUpkeep) :
    LoomM σ ρ Unit := do
  engine.authorize token branch
  let base ← head branch
  discard (engine.advance branch base upkeep.val)

def call : Call → LoomM σ ρ Answer
  | .openSession => (fun (handle, token) => .session handle token) <$> engine.openSession
  | .openSessionNamed session =>
      (fun (handle, token) => .session handle token) <$> engine.openSessionNamed session
  | .issueCapability session branches ttlMs =>
      .token <$> engine.issueCapability session branches ttlMs
  | .branch token source name =>
      (fun (name, token) => .branch name token) <$> engine.branch token source name
  | .rewind token branch commit => .commit <$> engine.rewind token branch commit
  | .read token branch key => .record <$> engine.read token branch key
  | .readAt token branch commit key => .record <$> engine.readAt token branch commit key
  | .scan token branch => .records <$> engine.scan token branch
  | .write token branch records hints envelope =>
      .commit <$> engine.writeIndexedMany token branch records hints envelope
  | .invalidate token branch keys envelope =>
      (fun (invalidated, deindexed) => .counts invalidated deindexed) <$>
        engine.invalidateAndDeindex token branch keys envelope
  | .merge token source target policy envelope forbids =>
      .merge <$> engine.mergeChecked token source target policy envelope forbids
  | .maintain token branch upkeep => (fun _ => .done) <$> engine.maintain token branch upkeep
  | .replaceActorKeys keys => (fun _ => .done) <$> replaceActorKeys keys
  | .rotateActorKey actor key => (fun _ => .done) <$> rotateActorKey actor key
  | .revokeActorKey actor => .revoked <$> revokeActorKey actor

/-- The database after a call, whatever it returned. -/
def after (call : Call) (loom : Loom σ ρ) : Loom σ ρ :=
  (engine.call call loom).2

/-- Whatever the calls return, the database they leave. -/
def afterAll (calls : List Call) (loom : Loom σ ρ) : Loom σ ρ :=
  calls.foldl (fun loom call => engine.after call loom) loom

/-- An engine on stores in memory. -/
def inMemory (platform : Platform) (pageSize : ℕ) (store : RefStore ρ) (signing : Bytes)
    (tenant : TenantId) : Engine MemPager ρ where
  platform := platform
  pager := MemPager.substrate pageSize
  store := store
  issuer := { signing := signing }
  tenant := tenant

/-- A page store and a ref store with nothing in them. -/
structure Fresh (lawful : engine.pager.Lawful) (pager : σ) (store : ρ) : Prop where
  root : ∀ {root : CommitId}, engine.pager.rootManifest pager = .ok root →
    ∀ commit pages, lawful.pages pager commit = some pages → commit = root
  parents : ∀ {commit parent : CommitId}, engine.pager.parent pager commit ≠ .ok (some parent)
  refs : engine.store.load store = .ok none

/-- What calls and restarts lead to from a new database. -/
inductive Reachable (lawful : engine.pager.Lawful) : Loom σ ρ → Prop
  | opened {pager : σ} {store : ρ} {loom : Loom σ ρ} (hfresh : engine.Fresh lawful pager store)
      (hopened : engine.assemble pager store = .ok loom) : Reachable lawful loom
  | called {loom : Loom σ ρ} (hreachable : Reachable lawful loom) (call : Call) :
      Reachable lawful (engine.after call loom)
  | reopened {loom loom' : Loom σ ρ} (hreachable : Reachable lawful loom)
      (hopened : engine.assemble loom.pager loom.store = .ok loom') : Reachable lawful loom'

variable {engine} {lawful : engine.pager.Lawful}

theorem Reachable.afterAll {loom : Loom σ ρ} (hreachable : engine.Reachable lawful loom)
    (calls : List Call) : engine.Reachable lawful (engine.afterAll calls loom) := by
  induction calls generalizing loom with
  | nil => exact hreachable
  | cons call calls ih => exact ih (hreachable.called call)

/-- A run from a new database that passes a test leads to a reachable database
that does. -/
theorem exists_reachable {pager : σ} {store : ρ} {calls : List Call} {test : Loom σ ρ → Bool}
    (hfresh : engine.Fresh lawful pager store)
    (htest : (engine.assemble pager store).map (fun loom => test (engine.afterAll calls loom)) =
      .ok true) :
    ∃ loom, engine.Reachable lawful loom ∧ test loom = true := by
  cases hopened : engine.assemble pager store with
  | error error =>
      rw [hopened] at htest
      cases htest
  | ok loom =>
      rw [hopened] at htest
      exact ⟨_, (Reachable.opened hfresh hopened).afterAll calls, Except.ok.inj htest⟩

/-- Stores in memory are new when they are empty. -/
theorem inMemory_fresh {platform : Platform} {pageSize : ℕ} {store : RefStore ρ}
    {signing : Bytes} {tenant : TenantId} {state : ρ} (hstate : store.load state = .ok none) :
    (inMemory platform pageSize store signing tenant).Fresh (MemPager.lawful pageSize)
      MemPager.empty state where
  root := by
    intro root hroot commit pages hpages
    obtain rfl : 0 = root := Except.ok.inj hroot
    by_contra hne
    change (MemPager.empty.manifests[commit]?).map Prod.fst = some pages at hpages
    rw [MemPager.empty, OrderedMap.getElem?_insert, if_neg (Ne.symm hne)] at hpages
    simp at hpages
  parents := by
    intro commit parent
    change MemPager.empty.parent commit ≠ .ok (some parent)
    unfold MemPager.parent
    rw [MemPager.empty, OrderedMap.getElem?_insert]
    by_cases heq : 0 = commit
    · simp [heq]
    · simp [heq]
  refs := hstate

/-! ## An engine to evaluate -/

/-- Stores in memory. -/
def memoryEngine : Engine MemPager (Option Refs) :=
  inMemory Platform.plain 4096 MemRefStore [] (ascii "t")

def memoryLawful : memoryEngine.pager.Lawful :=
  MemPager.lawful 4096

/-- What the engine in memory starts from. -/
def memoryLoom : Loom MemPager (Option Refs) where
  pager := MemPager.empty
  store := some (Refs.rooted MAIN 0)
  actorKeys := none
  refs := Refs.rooted MAIN 0
  refEdits := []
  readSets := ∅
  clock := 0

theorem memoryLoom_opened : memoryEngine.assemble MemPager.empty none = .ok memoryLoom := rfl

theorem memoryLoom_reachable : memoryEngine.Reachable memoryLawful memoryLoom :=
  .opened (inMemory_fresh rfl) memoryLoom_opened

/-- A token of session `s` for the branches. -/
def memoryToken (branches : List BranchId) : CapabilityToken :=
  memoryEngine.issuer.issue memoryEngine.platform memoryEngine.tenant (ascii "s")
    (ExtTreeSet.ofList branches compare) DEFAULT_SESSION_TTL_MS

/-- An envelope of session `s`. -/
def memoryEnvelope (branch : BranchId) : WriteEnvelope :=
  WriteEnvelope.new (ascii "a") (ascii "s") branch (ascii "i")

/-- A platform whose hash is not the end of its text. -/
def mixingPlatform : Platform :=
  { Platform.plain with
    blake3 := fun bytes => Fin.ofNat (256 ^ 32) (beValue bytes % (2 ^ 255 - 19)) }

/-- Stores in memory under that platform. -/
def mixingEngine : Engine MemPager (Option Refs) :=
  inMemory mixingPlatform 4096 MemRefStore [] (ascii "t")

def mixingLawful : mixingEngine.pager.Lawful :=
  MemPager.lawful 4096

theorem mixingLoom_opened : mixingEngine.assemble MemPager.empty none = .ok memoryLoom := rfl

theorem mixingLoom_reachable : mixingEngine.Reachable mixingLawful memoryLoom :=
  .opened (inMemory_fresh rfl) mixingLoom_opened

end Engine

end LoomDB
