import LoomDB.Branch.Durability

/-!
# The engine's keyspace

The engine's own records live beside the caller's, under keys of their own. A
write of the caller's keys changes them exactly as the engine's appends alone
would: the appends read no caller's record, and the caller's records land on no
key of the engine.
-/

namespace LoomDB

open Std (ExtTreeMap ExtTreeSet)
open KeyValue (Agree Respects ask put drop entries)

/-- A key of the engine: its bookkeeping or its provenance. -/
abbrev IsEngineKey (key : Key) : Prop :=
  isCaller key = false

theorem isEngineKey_provSeqKey (branch : BranchId) : IsEngineKey (provSeqKey branch) :=
  isCaller_of_isReserved (isReserved_provSeqKey branch)

theorem isEngineKey_storageKey (key : Key) : IsEngineKey (IndexEntry.storageKey key) :=
  isCaller_of_isReserved (IndexEntry.isReserved_storageKey key)

/-! ## What the appends read -/

theorem appendNode_respects (branch : BranchId) (node : DerivationNode) (seq : U64) :
    Respects IsEngineKey (appendNode branch node seq) :=
  .bind (.put _ _) fun _ => .bind (.put _ _) fun _ => .forM fun _ _ => .put _ _

theorem appendNodes_respects (branch : BranchId) (nodes : List DerivationNode) (seq : U64) :
    Respects IsEngineKey (appendNodes branch nodes seq) := by
  induction nodes generalizing seq with
  | nil => exact .pure seq
  | cons node nodes ih =>
      exact .bind (appendNode_respects branch node seq) fun _ => .bind (.lift _) fun next => ih next

theorem appendProvenance_respects (branch : BranchId) (nodes : List DerivationNode) :
    Respects IsEngineKey (appendProvenance branch nodes) :=
  .bind (.ask (isEngineKey_provSeqKey branch)) fun _ =>
    .bind (appendNodes_respects branch nodes _) fun _ => .put _ _

theorem bufferEmbedding_respects (key : Key) (embedding : Option (List F32)) :
    Respects IsEngineKey (bufferEmbedding key embedding) := by
  cases embedding with
  | none => exact .pure _
  | some embedding => exact .put _ _

theorem indexRecord_respects (captured : ReadSet) (hints : ExtTreeMap Key IndexHint) (key : Key)
    (record : Record) : Respects IsEngineKey (indexRecord captured hints key record) := by
  unfold indexRecord
  cases hints[key]? with
  | none => exact .pure _
  | some hint =>
      simp only
      split
      · exact .pure _
      · exact .bind (.put _ _) fun _ => bufferEmbedding_respects key _

theorem versionsAt_eq (start : Key) (records : List (Key × Record)) :
    versionsAt start records =
      versionsAt start (records.filter fun entry => start.isPrefixOf entry.1) := by
  unfold versionsAt
  rw [List.filterMap_filter]
  congr 1
  funext ⟨key, record⟩
  cases hstarts : start.isPrefixOf key <;> simp [hstarts]

/-- The versions of a claim are among the engine's records. -/
theorem versionsAt_congr {subject predicate : Bytes} {map other : RecordMap}
    (hagree : Agree IsEngineKey map other) :
    versionsAt (ClaimVersion.historyPrefix subject predicate) map.toList =
      versionsAt (ClaimVersion.historyPrefix subject predicate) other.toList := by
  rw [versionsAt_eq, versionsAt_eq _ other.toList]
  congr 1
  exact OrderedMap.filter_toList_congr fun key hstarts =>
    hagree key (isCaller_of_isReserved (ClaimVersion.isReserved_of_historyPrefix hstarts))

theorem appendClaimVersion_respects (claim : Claim) :
    Respects IsEngineKey (appendClaimVersion claim) := by
  intro map other map' result hagree hrun
  unfold appendClaimVersion at hrun ⊢
  rw [KeyValue.onMap_entries_bind] at hrun ⊢
  rw [versionsAt_congr hagree] at hrun
  refine Respects.bind (.forM fun _ _ => .put _ _) (fun _ => ?_) _ _ _ _ hagree hrun
  exact .bind (.lift _) fun _ => .put _ _

theorem appendHistory_respects (record : Record) :
    Respects IsEngineKey (appendHistory record) := by
  cases record with
  | claim claim => exact appendClaimVersion_respects claim
  | _ => exact .pure _

theorem engineAppends_respects (platform : Platform) (branch : BranchId) (head : CommitId)
    (written : List (Key × Record)) (envelope : WriteEnvelope) (captured : ReadSet)
    (extraParents : ExtTreeMap Key (List NodeId)) (hints : ExtTreeMap Key IndexHint) :
    Respects IsEngineKey (engineAppends platform branch head written envelope captured
      extraParents hints) := by
  have hrest : Respects IsEngineKey (indexAppends written captured hints) :=
    .bind (.forM fun _ _ => indexRecord_respects _ _ _ _) fun _ =>
      .forM fun _ _ => appendHistory_respects _
  unfold engineAppends
  split
  · exact .bind (appendProvenance_respects _ _) fun _ => hrest
  · exact hrest

/-! ## What the caller's records touch -/

theorem putAll_writes {records : List (Key × Record)}
    (hcaller : ∀ entry ∈ records, isCaller entry.1 = true) :
    (records.forM fun (key, record) => (put key record : RecordProgram Unit)).Writes
      fun key => isCaller key = true :=
  .forM fun entry hentry => ⟨hcaller entry hentry, trivial⟩

/-- A write of the caller's keys does to the engine's records what the engine's
appends do. -/
theorem writeProgram_engineKeys {platform : Platform} {branch : BranchId} {head : CommitId}
    {written : List (Key × Record)} {envelope : WriteEnvelope} {captured : ReadSet}
    {extraParents : ExtTreeMap Key (List NodeId)} {hints : ExtTreeMap Key IndexHint}
    {map map' : RecordMap} (hcaller : ∀ entry ∈ written, isCaller entry.1 = true)
    (hrun : (writeProgram platform branch head written envelope captured extraParents hints).onMap
      map = .ok ((), map')) :
    ∃ appended, (engineAppends platform branch head written envelope captured extraParents
      hints).onMap map = .ok ((), appended) ∧ Agree IsEngineKey appended map' := by
  obtain ⟨_, middle, hput, hrest⟩ := KeyValue.onMap_bind_eq_ok.mp hrun
  have hagree : Agree IsEngineKey middle map := fun key hkey =>
    (putAll_writes hcaller).frame hput
      (by rw [hkey]; exact Bool.false_ne_true)
  obtain ⟨appended, happend, hagree'⟩ :=
    engineAppends_respects platform branch head written envelope captured extraParents hints
      _ _ _ _ hagree hrest
  exact ⟨appended, happend, fun key hkey => (hagree' key hkey).symm⟩

namespace Engine

variable {σ ρ : Type} {engine : Engine σ ρ} {lawful : engine.pager.Lawful} {loom : Loom σ ρ}

theorem invalidateClaim_writes (key : Key) (found : Option Record) :
    (invalidateClaim key found).Writes (· = key) := by
  unfold invalidateClaim
  split
  · split
    · exact ⟨rfl, trivial⟩
    · trivial
  · trivial

/-- A forgotten key, or its place in the index. -/
def Forgets (keys : List Key) (touched : Key) : Prop :=
  touched ∈ keys ∨ ∃ key ∈ keys, touched = IndexEntry.storageKey key

theorem forgetKeys_writes (keys : List Key) : (forgetKeys keys).Writes (Forgets keys) := by
  induction keys with
  | nil => trivial
  | cons key keys ih =>
      have hkeys : (forgetKeys keys).Writes (Forgets (key :: keys)) := by
        refine ih.mono ?_
        rintro touched (hkey | ⟨other, hother, heq⟩)
        · exact Or.inl (List.mem_cons_of_mem _ hkey)
        · exact Or.inr ⟨other, List.mem_cons_of_mem _ hother, heq⟩
      have hclaim : ∀ found, (invalidateClaim key found).Writes (Forgets (key :: keys)) := by
        refine fun found => (invalidateClaim_writes key found).mono ?_
        rintro touched rfl
        exact Or.inl List.mem_cons_self
      have hrest : ∀ (found : Option Record) (deindexed : Bool),
          KeyValue.Writes (Forgets (key :: keys)) (do
            let invalidated ← invalidateClaim key found
            let more ← forgetKeys keys
            return (more.1 + invalidated.toNat, more.2 + deindexed.toNat)) :=
        fun found _ => (hclaim found).bind fun _ => hkeys.bind fun _ => trivial
      exact ⟨Or.inr ⟨key, List.mem_cons_self, rfl⟩, fun deindexed found => hrest found deindexed⟩

/-! ## Runs of writes -/

/-- What a write call may do to the engine's records of a branch: what the
engine's appends do to them, and what deindexing does. -/
def EngineEdits (engine : Engine σ ρ) (loom : Loom σ ρ) (branch : BranchId)
    (map map' : RecordMap) : Call → Prop
  | .write _ target records hints envelope =>
      target = branch ∧ ∃ head appended, loom.refs.branches[branch]? = some head ∧
        (engineAppends engine.platform branch head records envelope
          (readSet envelope.session loom) ∅ hints).onMap map = .ok ((), appended) ∧
        Agree IsEngineKey appended map'
  | .invalidate _ target keys _ =>
      target = branch ∧ ∀ key, IsEngineKey key → (∀ forgotten ∈ keys,
        key ≠ IndexEntry.storageKey forgotten) → map'[key]? = map[key]?
  | _ => False

/-- After a call the engine's records are on every branch what they were, or
what the engine's own edits make of them. -/
def OwnEdits (lawful : engine.pager.Lawful) (loom : Loom σ ρ) (call : Call) : Prop :=
  ∀ branch map, Shows lawful loom branch map →
    ∃ map', Shows lawful (engine.after call loom) branch map' ∧
      (Agree IsEngineKey map map' ∨ EngineEdits engine loom branch map map' call)

/-- A write call that gives the caller's own keys, if it passes its checks. -/
def GivesOwnKeys (engine : Engine σ ρ) (loom : Loom σ ρ) : Call → Prop
  | .write token branch records _ envelope =>
      writeAdmits engine loom token branch envelope = .ok () →
        ∀ entry ∈ records, isCaller entry.1 = true
  | .invalidate token branch keys envelope =>
      writeAdmits engine loom token branch envelope = .ok () → ∀ key ∈ keys, isCaller key = true
  | _ => False

/-- Every call of the run gives the caller's own keys. -/
def AllGiveOwnKeys (engine : Engine σ ρ) : Loom σ ρ → List Call → Prop
  | _, [] => True
  | loom, call :: calls =>
      GivesOwnKeys engine loom call ∧ AllGiveOwnKeys engine (engine.after call loom) calls

theorem ownEdits_write {token : CapabilityToken} {branch : BranchId}
    {records : List (Key × Record)} {hints : ExtTreeMap Key IndexHint}
    {envelope : WriteEnvelope} (hsound : lawful.Sound loom.pager)
    (hgives : GivesOwnKeys engine loom (.write token branch records hints envelope)) :
    OwnEdits lawful loom (.write token branch records hints envelope) := by
  intro other map hshows
  change ∃ map', Shows lawful (((.commit : CommitId → Answer) <$>
    engine.writeAll token branch records envelope ∅ hints : LoomM σ ρ Answer) loom).2 _ _ ∧ _
  rw [FallibleState.snd_map]
  rcases hwrite : engine.writeAll token branch records envelope ∅ hints loom with ⟨outcome, after⟩
  rcases writeAll_cases hwrite with ⟨_, -, -, hafter⟩ | ⟨hadmits, hgoes⟩
  · exact ⟨map, ⟨hafter ▸ hshows.ofHead⟩, Or.inl fun _ _ => rfl⟩
  rcases hgoes with ⟨-, -, rfl⟩ | ⟨base, advanced, hhead, hadvance, -⟩
  · exact ⟨map, ⟨hshows.ofHead⟩, Or.inl fun _ _ => rfl⟩
  have htaken : Shows lawful (taken loom envelope.session) other map := ⟨hshows.ofHead⟩
  rcases advance_shows htaken hsound hhead hadvance with
    hshows' | ⟨rfl, result, map', hrun, hshows'⟩
  · exact ⟨map, hshows', Or.inl fun _ _ => rfl⟩
  · obtain ⟨appended, happends, hagree⟩ := writeProgram_engineKeys (hgives hadmits) hrun
    exact ⟨map', hshows', Or.inr ⟨rfl, base, appended, hhead, happends, hagree⟩⟩

theorem ownEdits_invalidate {token : CapabilityToken} {branch : BranchId}
    {keys : List Key} {envelope : WriteEnvelope} (hsound : lawful.Sound loom.pager)
    (hgives : GivesOwnKeys engine loom (.invalidate token branch keys envelope)) :
    OwnEdits lawful loom (.invalidate token branch keys envelope) := by
  intro other map hshows
  change ∃ map', Shows lawful (((fun counts : ℕ × ℕ => Answer.counts counts.1 counts.2) <$>
    engine.invalidateAndDeindex token branch keys envelope : LoomM σ ρ Answer) loom).2 _ _ ∧ _
  rw [FallibleState.snd_map]
  rcases hinvalidate : engine.invalidateAndDeindex token branch keys envelope loom with
    ⟨outcome, after⟩
  rcases invalidateAndDeindex_cases hinvalidate with ⟨_, -, -, hafter⟩ | ⟨hadmits, hgoes⟩
  · exact ⟨map, ⟨hafter ▸ hshows.ofHead⟩, Or.inl fun _ _ => rfl⟩
  rcases hgoes with ⟨-, -, rfl⟩ | ⟨base, advanced, hhead, hadvance, -⟩
  · exact ⟨map, ⟨hshows.ofHead⟩, Or.inl fun _ _ => rfl⟩
  have hticked : Shows lawful (ticked loom) other map := ⟨hshows.ofHead⟩
  rcases advance_shows hticked hsound hhead hadvance with
    hshows' | ⟨rfl, result, map', hrun, hshows'⟩
  · exact ⟨map, hshows', Or.inl fun _ _ => rfl⟩
  · refine ⟨map', hshows', Or.inr ⟨rfl, fun key hkey hothers => ?_⟩⟩
    refine (forgetKeys_writes keys).frame hrun ?_
    rintro (hmem | ⟨forgotten, hmem, heq⟩)
    · have hcaller := hgives hadmits key hmem
      rw [hkey] at hcaller
      cases hcaller
    · exact hothers forgotten hmem heq

theorem GivesOwnKeys.ownEdits {call : Call} (hsound : lawful.Sound loom.pager)
    (hgives : GivesOwnKeys engine loom call) : OwnEdits lawful loom call := by
  cases call with
  | write token branch records hints envelope => exact ownEdits_write hsound hgives
  | invalidate token branch keys envelope => exact ownEdits_invalidate hsound hgives
  | _ => exact absurd hgives id

/-- In every run of writes of the caller's own keys, each changes the engine's
records only as the engine's own edits do. -/
theorem ownEdits_of_allGiveOwnKeys (hreachable : engine.Reachable lawful loom)
    {calls : List Call} (hgives : AllGiveOwnKeys engine loom calls)
    {earlier later : List Call} {call : Call} (hcalls : calls = earlier ++ call :: later) :
    OwnEdits lawful (engine.afterAll earlier loom) call := by
  induction earlier generalizing loom calls with
  | nil =>
      subst hcalls
      exact hgives.1.ownEdits hreachable.sound
  | cons first earlier ih =>
      subst hcalls
      exact ih (hreachable.called first) hgives.2 rfl

/-- The memory engine after a session was opened and wrote its first record. -/
def writtenLoom : Loom MemPager (Option Refs) :=
  memoryEngine.afterAll [.openSessionNamed (ascii "s"),
    .write (memoryToken [ascii "s"]) (ascii "s")
      [(ascii "k", .value (.counter (I64.ofU64 1)))] ∅ (memoryEnvelope (ascii "s"))] memoryLoom

theorem writtenLoom_reachable : memoryEngine.Reachable memoryLawful writtenLoom :=
  memoryLoom_reachable.afterAll _

/-- The session writes a counter at the key. -/
def counterWrite (key : Key) : Call :=
  .write (memoryToken [ascii "s"]) (ascii "s") [(key, .value (.counter (I64.ofU64 0)))] ∅
    (memoryEnvelope (ascii "s"))

/-- A second record. -/
theorem ownEdits_of_allGiveOwnKeys_second :
    OwnEdits memoryLawful (memoryEngine.afterAll [] writtenLoom) (counterWrite (ascii "l")) := by
  have hgives : AllGiveOwnKeys memoryEngine writtenLoom [counterWrite (ascii "l")] := by
    refine ⟨fun _ entry hentry => ?_, trivial⟩
    rw [List.mem_singleton.mp hentry]
    decide
  exact ownEdits_of_allGiveOwnKeys writtenLoom_reachable hgives rfl

/-- The branch shows a map, and a read of its head returns what the map has. -/
theorem Shows.getElem? {branch : BranchId} {commit : CommitId} {key : Key} {found : Option Record}
    {map : RecordMap} (hshows : Shows lawful loom branch map) (hsound : lawful.Sound loom.pager)
    (hhead : loom.refs.branches[branch]? = some commit)
    (hreading : (engine.reading commit (ask key) loom).1.toOption = some found) :
    map[key]? = found := by
  rcases hresult : engine.reading commit (ask key) loom with ⟨_ | result, loom'⟩
  · rw [hresult] at hreading
    cases hreading
  · rw [hresult] at hreading
    obtain rfl := Option.some.inj hreading
    obtain ⟨-, map', _, hstores, hask⟩ := reading_spec hsound hresult
    obtain rfl := hshows.unique ⟨commit, hhead, hstores⟩
    exact (Prod.mk.inj (Except.ok.inj hask)).1

/-- The engine adds nothing to the write of a counter under a key of its own. -/
theorem engineAppends_counter (platform : Platform) (branch : BranchId) (head : CommitId)
    {key : Key} (value : I64) (envelope : WriteEnvelope) (captured : ReadSet)
    (hkey : isReserved key = true) (map : RecordMap) :
    (engineAppends platform branch head [(key, .value (.counter value))] envelope captured ∅
      ∅).onMap map = .ok ((), map) := by
  unfold engineAppends
  rw [if_neg (by simp [hkey])]
  rfl

/-- A caller writes the counter of the branch's derivation nodes back to zero,
which the engine's appends would leave at one. -/
theorem counter_reset : ¬OwnEdits memoryLawful writtenLoom
    (counterWrite (provSeqKey (ascii "s"))) := by
  intro hedits
  have hsound : memoryLawful.Sound writtenLoom.pager := writtenLoom_reachable.sound
  have hpages : (memoryLawful.pages writtenLoom.pager 1).isSome := by decide +kernel
  obtain ⟨pages, hpages⟩ := Option.isSome_iff_exists.mp hpages
  obtain ⟨map, hstored⟩ := hsound 1 pages hpages
  have hhead : writtenLoom.refs.branches[ascii "s"]? = some 1 := by decide +kernel
  have hshows : Shows memoryLawful writtenLoom (ascii "s") map :=
    ⟨1, hhead, pages, hpages, hstored⟩
  obtain ⟨map', hshows', hown⟩ := hedits (ascii "s") map hshows
  have hone : map[provSeqKey (ascii "s")]? = some (.value (.counter (I64.ofU64 1))) :=
    hshows.getElem? hsound hhead (by decide +kernel)
  have hzero : map'[provSeqKey (ascii "s")]? = some (.value (.counter (I64.ofU64 0))) :=
    hshows'.getElem? (writtenLoom_reachable.called _).sound
      (show _ = some 2 by decide +kernel) (by decide +kernel)
  have hkept : map'[provSeqKey (ascii "s")]? = map[provSeqKey (ascii "s")]? := by
    rcases hown with hagree | ⟨-, head, appended, -, happends, hagree⟩
    · exact (hagree _ (isEngineKey_provSeqKey _)).symm
    · rw [engineAppends_counter _ _ _ _ _ _ (isReserved_provSeqKey _)] at happends
      obtain ⟨-, rfl⟩ := Prod.mk.inj (Except.ok.inj happends)
      exact (hagree _ (isEngineKey_provSeqKey _)).symm
  rw [hone, hzero] at hkept
  revert hkept
  decide

end Engine

end LoomDB
