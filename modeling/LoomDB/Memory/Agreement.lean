import LoomDB.Branch.Maps
import LoomDB.Memory.Forget
import LoomDB.Memory.MergedFacts
import LoomDB.Provenance.Staleness

/-!
# The index and the records

An index entry repeats what its record cites and whether it is stale. It is made with
the record and not looked at again, so it agrees with the record as long as every write
that changes one of the two makes the other anew.
-/

namespace LoomDB

open Std (ExtTreeMap ExtTreeSet)

/-- The entry repeats what the record cites and whether it is stale. -/
structure Describes (entry : IndexEntry) (record : Record) : Prop where
  citations : entry.citations = citationsOf record
  stale : entry.stale = isStale record

/-- Every entry describes the record at its key. -/
def Agrees (map : RecordMap) : Prop :=
  ∀ key entry, EntryAt map key entry →
    ∃ record, map[entry.key]? = some record ∧ Describes entry record

/-- An entry in its place: it is for a caller's key, and describes the record there. -/
structure InPlace (map : RecordMap) (key : Key) (entry : IndexEntry) : Prop where
  caller : isCaller key = true
  named : entry.key = key
  described : ∃ record, map[key]? = some record ∧ Describes entry record

/-- Every entry is in its place. -/
def Indexed (map : RecordMap) : Prop :=
  ∀ key entry, EntryAt map key entry → InPlace map key entry

theorem Indexed.all_agree {map : RecordMap} (hindexed : Indexed map) : Agrees map := by
  intro key entry hentry
  obtain ⟨-, hkey, hdescribed⟩ := hindexed key entry hentry
  rw [hkey]
  exact hdescribed

theorem indexed_empty : Indexed ∅ := by
  intro key entry hentry
  rw [EntryAt, ExtTreeMap.getElem?_empty] at hentry
  cases hentry

/-! ## Writes -/

/-- The write puts no entry of its own making into the index, gives hints for caller's keys
only, and leaves under each caller's key a record that gets an entry, or that the entry
there describes already. -/
structure KeepsEntries (map : RecordMap) (written : List (Key × Record))
    (hints : ExtTreeMap Key IndexHint) : Prop where
  unforged : ∀ key record, (key, record) ∈ written → isEntryKey key = true →
    ∀ bytes, record ≠ Record.blob bytes
  caller : ∀ key record, (key, record) ∈ written → hints[key]? ≠ none → isCaller key = true
  current : ∀ key record, isCaller key = true → lastRecord written key = some record →
    Reindexes hints key record ∨
      (∀ other, (key, other) ∈ written → ¬ Reindexes hints key other) ∧
        ∀ entry, EntryAt map key entry → Describes entry record

theorem entryAt_iff {map : RecordMap} {key : Key} {entry : IndexEntry} :
    EntryAt map key entry ↔ ∃ bytes, map[IndexEntry.storageKey key]? = some (Record.blob bytes) ∧
      IndexEntry.decode bytes = .ok entry := by
  unfold EntryAt Engine.entryOf
  split
  · next bytes hbytes =>
    rw [hbytes]
    constructor
    · intro hentry
      cases hdecode : IndexEntry.decode bytes with
      | error error => rw [hdecode] at hentry; cases hentry
      | ok found =>
          rw [hdecode] at hentry
          exact ⟨bytes, rfl, hdecode.trans (congrArg _ (Option.some.inj (Except.ok.inj hentry)))⟩
    · rintro ⟨bytes', hsame, hdecode⟩
      obtain rfl := Value.blob.inj (Record.value.inj (Option.some.inj hsame))
      rw [hdecode]
      rfl
  · next hnone =>
    refine iff_of_false nofun ?_
    rintro ⟨bytes, hbytes, -⟩
    exact hnone bytes hbytes

section Write

variable {platform : Platform} {branch : BranchId} {head : CommitId}
  {written : List (Key × Record)} {envelope : WriteEnvelope} {captured : ReadSet}
  {extraParents : ExtTreeMap Key (List NodeId)} {hints : ExtTreeMap Key IndexHint}
  {map map' : RecordMap}

/-- Where an entry after a write comes from. -/
theorem entryAt_write (hunforged : ∀ key record, (key, record) ∈ written →
      isEntryKey key = true → ∀ bytes, record ≠ Record.blob bytes)
    (hrun : (writeProgram platform branch head written envelope captured extraParents hints).onMap
      map = .ok ((), map')) {key : Key} {entry : IndexEntry} (hentry : EntryAt map' key entry) :
    lastEntry captured hints written key = some entry ∨
      lastEntry captured hints written key = none ∧ EntryAt map key entry := by
  have hplace := writeProgram_entry hrun key
  cases hlast : lastEntry captured hints written key with
  | some last =>
      rw [hlast] at hplace
      rw [EntryAt, hplace] at hentry
      have hdecoded := congrArg (Except.map some) (IndexEntry.decode_encode last)
      exact Or.inl (Except.ok.inj (hdecoded.symm.trans hentry))
  | none =>
      refine Or.inr ⟨rfl, ?_⟩
      rw [hlast] at hplace
      cases hrecord : lastRecord written (IndexEntry.storageKey key) with
      | none =>
          rw [hrecord] at hplace
          rwa [EntryAt, hplace] at hentry
      | some record =>
          rw [hrecord] at hplace
          obtain ⟨bytes, hbytes, -⟩ := entryAt_iff.mp hentry
          obtain rfl := Option.some.inj (hplace.symm.trans hbytes)
          exact absurd rfl (hunforged _ _ (mem_of_lastRecord hrecord) (isEntryKey_storageKey key)
            bytes)

theorem entryAt_of_lastEntry
    (hrun : (writeProgram platform branch head written envelope captured extraParents hints).onMap
      map = .ok ((), map')) {key : Key} {entry : IndexEntry}
    (hlast : lastEntry captured hints written key = some entry) : EntryAt map' key entry := by
  rw [EntryAt, writeProgram_entry hrun key, hlast]
  exact congrArg (Except.map some) (IndexEntry.decode_encode entry)

theorem entryAt_of_untouched
    (hrun : (writeProgram platform branch head written envelope captured extraParents hints).onMap
      map = .ok ((), map')) {key : Key} {entry : IndexEntry}
    (hnone : ∀ record, (key, record) ∈ written → ¬ Reindexes hints key record)
    (hplace : ∀ record, (IndexEntry.storageKey key, record) ∉ written)
    (hentry : EntryAt map key entry) : EntryAt map' key entry := by
  have hentries : lastEntry captured hints written key = none := by
    by_contra hsome
    obtain ⟨last, hlast⟩ := Option.ne_none_iff_exists'.mp hsome
    obtain ⟨record, hmem, hnew⟩ := mem_of_lastEntry hlast
    exact hnone record hmem ((reindexes_iff captured).mpr ⟨last, hnew⟩)
  have hrecords : lastRecord written (IndexEntry.storageKey key) = none := by
    by_contra hsome
    obtain ⟨last, hlast⟩ := Option.ne_none_iff_exists'.mp hsome
    exact hplace last (mem_of_lastRecord hlast)
  rw [EntryAt, writeProgram_entry hrun key, hentries, hrecords]
  exact hentry

theorem Indexed.of_write (hindexed : Indexed map) (hkeeps : KeepsEntries map written hints)
    (hrun : (writeProgram platform branch head written envelope captured extraParents hints).onMap
      map = .ok ((), map')) : Indexed map' := by
  intro key entry hentry
  rcases entryAt_write hkeeps.unforged hrun hentry with hlast | ⟨hnone, hold⟩
  · obtain ⟨record, hmem, hnew⟩ := mem_of_lastEntry hlast
    have hreindexes := (reindexes_iff captured).mpr ⟨entry, hnew⟩
    have hcaller := hkeeps.caller key record hmem hreindexes.1
    obtain ⟨last, hrecord⟩ := lastRecord_isSome hmem
    have hstored : map'[key]? = some last := by
      rw [writeProgram_record hrun hcaller, hrecord]
      rfl
    rcases hkeeps.current key last hcaller hrecord with hlastly | ⟨hothers, -⟩
    · obtain ⟨entry', hnew'⟩ := (reindexes_iff captured).mp hlastly
      obtain rfl := Option.some.inj (hlast.symm.trans (lastEntry_of_lastRecord hrecord hnew'))
      obtain ⟨hkey, hcitations, hstale⟩ := newEntry_eq_some hnew'
      exact ⟨hcaller, hkey, last, hstored, hcitations, hstale⟩
    · exact absurd hreindexes (hothers record hmem)
  · obtain ⟨hcaller, hkey, record, hrecord, hdescribes⟩ := hindexed key entry hold
    refine ⟨hcaller, hkey, ?_⟩
    rw [writeProgram_record hrun hcaller]
    cases hlast : lastRecord written key with
    | none => exact ⟨record, hrecord, hdescribes⟩
    | some last =>
        refine ⟨last, rfl, ?_⟩
        rcases hkeeps.current key last hcaller hlast with hlastly | ⟨-, hdescribed⟩
        · obtain ⟨entry', hnew'⟩ := (reindexes_iff captured).mp hlastly
          rw [lastEntry_of_lastRecord hlast hnew'] at hnone
          cases hnone
        · exact hdescribed entry hold

end Write

/-- What a write with callers' keys leaves agrees exactly if the write keeps the entries
current. -/
theorem Indexed.write_iff {platform : Platform} {branch : BranchId} {head : CommitId}
    {written : List (Key × Record)} {envelope : WriteEnvelope} {captured : ReadSet}
    {extraParents : ExtTreeMap Key (List NodeId)} {hints : ExtTreeMap Key IndexHint}
    {map map' : RecordMap} (hindexed : Indexed map)
    (hcaller : ∀ key record, (key, record) ∈ written → isCaller key = true)
    (hrun : (writeProgram platform branch head written envelope captured extraParents hints).onMap
      map = .ok ((), map')) :
    Agrees map' ↔ KeepsEntries map written hints := by
  have hplaces : ∀ key record, (key, record) ∈ written → isEntryKey key = false :=
    fun key record hmem => isEntryKey_of_isCaller (hcaller key record hmem)
  constructor
  · intro hagrees
    refine ⟨fun key record hmem hplace => ?_, fun key record hmem _ => hcaller key record hmem,
      fun key last hkey hlast => ?_⟩
    · rw [hplaces key record hmem] at hplace
      cases hplace
    · have hstored : map'[key]? = some last := by
        rw [writeProgram_record hrun hkey, hlast]
        rfl
      by_cases hlastly : Reindexes hints key last
      · exact Or.inl hlastly
      -- An entry that an earlier record of the key was given would cite something.
      have hothers : ∀ other, (key, other) ∈ written → ¬ Reindexes hints key other := by
        intro other hother hreindexes
        obtain ⟨entry, hnew⟩ := (reindexes_iff captured).mp hreindexes
        obtain ⟨found, hfound⟩ : ∃ found, lastEntry captured hints written key = some found := by
          by_contra hnone
          have hlastNone := Option.eq_none_iff_forall_ne_some.mpr fun found hfound =>
            hnone ⟨found, hfound⟩
          rw [newEntry_eq_none_of_lastEntry hlastNone hother] at hnew
          cases hnew
        obtain ⟨record, -, hnew'⟩ := mem_of_lastEntry hfound
        obtain ⟨hnamed, hcitations, -⟩ := newEntry_eq_some hnew'
        obtain ⟨now, hnow, hdescribes⟩ := hagrees key found (entryAt_of_lastEntry hrun hfound)
        rw [hnamed, hstored] at hnow
        obtain rfl := Option.some.inj hnow
        have hcites := ((reindexes_iff captured).mpr ⟨found, hnew'⟩).2
        rw [← hcitations, hdescribes.citations] at hcites
        exact hlastly ⟨hreindexes.1, hcites⟩
      refine Or.inr ⟨hothers, fun entry hentry => ?_⟩
      have hkept := entryAt_of_untouched hrun hothers (fun record hmem => by
        have hplace := hplaces _ record hmem
        rw [isEntryKey_storageKey] at hplace
        cases hplace) hentry
      obtain ⟨now, hnow, hdescribes⟩ := hagrees key entry hkept
      rw [(hindexed key entry hentry).named, hstored] at hnow
      exact Option.some.inj hnow ▸ hdescribes
  · exact fun hkeeps => (hindexed.of_write hkeeps hrun).all_agree

/-! ## Forgetting and the upkeep of vectors -/

theorem Indexed.of_forget {keys : List Key} {counts : ℕ × ℕ} {map map' : RecordMap}
    (hindexed : Indexed map) (hrun : (Engine.forgetKeys keys).onMap map = .ok (counts, map')) :
    Indexed map' := by
  intro key entry hentry
  obtain ⟨bytes, hbytes, hdecode⟩ := entryAt_iff.mp hentry
  obtain ⟨hkey, hold⟩ := Engine.forgetKeys_entry hrun hbytes
  obtain ⟨hcaller, hnamed, hdescribed⟩ := hindexed key entry (entryAt_iff.mpr ⟨bytes, hold, hdecode⟩)
  refine ⟨hcaller, hnamed, ?_⟩
  rwa [Engine.forgetKeys_record hrun hcaller hkey]

theorem Indexed.of_upkeep {upkeep : IndexUpkeep} {map map' : RecordMap} (hindexed : Indexed map)
    (hrun : upkeep.val.onMap map = .ok ((), map')) : Indexed map' := by
  have hsame : ∀ key, ¬ IsBookkeeping key → map'[key]? = map[key]? := fun key hkey =>
    upkeep.property.frame hrun fun hvector => hkey (isBookkeeping_of_isVectorKey hvector)
  intro key entry hentry
  rw [EntryAt, hsame _ (not_isBookkeeping_storageKey key)] at hentry
  obtain ⟨hcaller, hnamed, hdescribed⟩ := hindexed key entry hentry
  refine ⟨hcaller, hnamed, ?_⟩
  rwa [hsame key fun hbookkeeping => Bool.false_ne_true (hbookkeeping.1.symm.trans hcaller)]

/-! ## Runs -/

/-- A change to the database: a call, or what the layers above make of calls. -/
inductive Change where
  | call (call : Call)
  | markStale (token : CapabilityToken) (branch : BranchId) (source : SourceRef)
      (envelope : WriteEnvelope)
  | forget (token : CapabilityToken) (branch : BranchId) (source : SourceRef)
      (envelope : WriteEnvelope)

namespace Engine

variable {σ ρ : Type} {engine : Engine σ ρ} {lawful : engine.pager.Lawful}
  {loom : Loom σ ρ}

def afterChange (engine : Engine σ ρ) (loom : Loom σ ρ) : Change → Loom σ ρ
  | .call call => engine.after call loom
  | .markStale token branch source envelope =>
      (engine.markStale token branch source envelope loom).2
  | .forget token branch source envelope => (engine.forget token branch source envelope loom).2

/-- A call that leaves no entry behind what its record has become: a write keeps the entries
current, and a merge writes no key whose entry says something else. -/
def CallKeepsIndex (lawful : engine.pager.Lawful) (loom : Loom σ ρ) : Call → Prop
  | .write token branch records hints envelope =>
      writeAdmits engine loom token branch envelope = .ok () → ∀ map,
        Shows lawful loom branch map → KeepsEntries map records hints
  | .merge token source target policy envelope forbids =>
      ∀ {sourceHead targetHead base : CommitId} {writes : List (Key × Record)} {automatic : ℕ}
        {parents : ExtTreeMap Key (List NodeId)},
        MergeReady engine loom token source target policy envelope forbids sourceHead targetHead
          base writes automatic parents → ∀ map, Shows lawful loom target map →
        ∀ key record, (key, record) ∈ writes → isCaller key = true →
          ∀ entry, EntryAt map key entry → Describes entry record
  | _ => True

/-- So with marking, which may mark no claim that has an entry. -/
def KeepsIndex (lawful : engine.pager.Lawful) (loom : Loom σ ρ) : Change → Prop
  | .call call => CallKeepsIndex lawful loom call
  | .markStale _ branch source _ => ∀ map, Shows lawful loom branch map →
      ∀ key claim, ContaminatedOn engine loom source branch key →
        map[key]? = some (.claim claim) → claim.status = .asserted →
        ∀ entry, ¬ EntryAt map key entry
  | .forget _ _ _ _ => True

/-- What changes that keep the index and restarts lead to from a new database. -/
inductive IndexKept (lawful : engine.pager.Lawful) : Loom σ ρ → Prop
  | opened {pager : σ} {store : ρ} {loom : Loom σ ρ} (hfresh : engine.Fresh lawful pager store)
      (hopened : engine.assemble pager store = .ok loom) : IndexKept lawful loom
  | changed {loom : Loom σ ρ} (hkept : IndexKept lawful loom) (change : Change)
      (hkeeps : KeepsIndex lawful loom change) : IndexKept lawful (engine.afterChange loom change)
  | reopened {loom loom' : Loom σ ρ} (hkept : IndexKept lawful loom)
      (hopened : engine.assemble loom.pager loom.store = .ok loom') : IndexKept lawful loom'

theorem keepsEntries_merge (hsound : lawful.Sound loom.pager) {token : CapabilityToken}
    {source target : BranchId} {policy : MergePolicy} {envelope : WriteEnvelope}
    {forbids : Key → Record → Option Bytes} {sourceHead targetHead base : CommitId}
    {writes : List (Key × Record)} {automatic : ℕ} {parents : ExtTreeMap Key (List NodeId)}
    {map : RecordMap} (hready : MergeReady engine loom token source target policy envelope forbids
      sourceHead targetHead base writes automatic parents)
    (hcurrent : ∀ key record, (key, record) ∈ writes → isCaller key = true →
      ∀ entry, EntryAt map key entry → Describes entry record) :
    KeepsEntries map (writes ++ [(mergedFromKey source, Record.blob sourceHead.asBytes)]) ∅ := by
  have hplaces := isEntryKey_of_planMerge hready.planned hsound source sourceHead
  refine ⟨fun key record hmem hplace => ?_, fun key record _ hhint => absurd (by simp) hhint,
    fun key record hcaller hlast => Or.inr ⟨fun _ _ => not_reindexes_empty, ?_⟩⟩
  · rw [hplaces _ hmem] at hplace
    cases hplace
  · rcases List.mem_append.mp (mem_of_lastRecord hlast) with hmem | hmem
    · exact hcurrent key record hmem hcaller
    · obtain rfl := (Prod.mk.inj (List.mem_singleton.mp hmem)).1
      rw [isCaller_of_isReserved (isReserved_mergedFromKey source)] at hcaller
      cases hcaller

theorem keepsEntries_stale (hsound : lawful.Sound loom.pager) {branch : BranchId}
    {source : SourceRef} {writes : List (Key × Record)}
    (hclaims : (engine.staleClaims branch source loom).1 = .ok writes) {map : RecordMap}
    (hshows : Shows lawful loom branch map)
    (hnone : ∀ key claim, ContaminatedOn engine loom source branch key →
      map[key]? = some (.claim claim) → claim.status = .asserted →
      ∀ entry, ¬ EntryAt map key entry) :
    KeepsEntries map writes ∅ := by
  refine ⟨fun key record hmem _ bytes => ?_, fun key record _ hhint => absurd (by simp) hhint,
    fun key record _ hlast => Or.inr ⟨fun _ _ => not_reindexes_empty, fun entry hentry => ?_⟩⟩
  · obtain ⟨-, claim, -, -, rfl⟩ := (mem_staleClaims hsound hshows hclaims).mp hmem
    exact nofun
  · obtain ⟨hcontaminated, claim, hclaim, hasserted, -⟩ :=
      (mem_staleClaims hsound hshows hclaims).mp (mem_of_lastRecord hlast)
    exact absurd hentry (hnone key claim hcontaminated hclaim hasserted entry)

theorem indexed_after {call : Call} (hsound : lawful.Sound loom.pager)
    (hall : lawful.AllMaps Indexed loom.pager) (hkeeps : CallKeepsIndex lawful loom call) :
    lawful.AllMaps Indexed (engine.after call loom).pager := by
  refine AllMaps.after hsound hall fun {branch map map'} hshows hmade hindexed => ?_
  cases hmade with
  | wrote _ hadmits hran => exact hindexed.of_write (hkeeps hadmits map hshows) hran
  | forgot _ hran => exact hindexed.of_forget hran
  | kept _ hran => exact hindexed.of_upkeep hran
  | merged hready hran =>
      exact hindexed.of_write (keepsEntries_merge hsound hready (hkeeps hready map hshows)) hran

/-- Changes come to a call or to nothing, so they lead to reachable databases. -/
theorem IndexKept.reachable (hkept : IndexKept lawful loom) : engine.Reachable lawful loom := by
  induction hkept with
  | opened hfresh hopened => exact .opened hfresh hopened
  | @changed loom _ change _ ih =>
      cases change with
      | call call => exact ih.called call
      | markStale token branch source envelope =>
          rcases snd_markStale token branch source envelope loom with hsame | ⟨_, -, hafter⟩
          · rwa [afterChange, hsame]
          · rw [afterChange, hafter]
            exact ih.called _
      | forget token branch source envelope =>
          rcases snd_forget token branch source envelope loom with hsame | ⟨_, -, hafter⟩
          · rwa [afterChange, hsame]
          · rw [afterChange, hafter]
            exact ih.called _
  | reopened _ hopened ih => exact ih.reopened hopened

theorem IndexKept.allMaps (hkept : IndexKept lawful loom) :
    lawful.AllMaps Indexed loom.pager := by
  induction hkept with
  | opened hfresh hopened => exact AllMaps.opened hfresh hopened indexed_empty
  | @changed loom hkept change hkeeps ih =>
      have hsound := hkept.reachable.sound
      cases change with
      | call call => exact indexed_after hsound ih hkeeps
      | markStale token branch source envelope =>
          rcases snd_markStale token branch source envelope loom with hsame | ⟨_, hclaims, hafter⟩
          · rwa [afterChange, hsame]
          · rw [afterChange, hafter]
            exact indexed_after hsound ih fun _ map hshows =>
              keepsEntries_stale hsound hclaims hshows (hkeeps map hshows)
      | forget token branch source envelope =>
          rcases snd_forget token branch source envelope loom with hsame | ⟨_, -, hafter⟩
          · rwa [afterChange, hsame]
          · rw [afterChange, hafter]
            exact indexed_after hsound ih trivial
  | reopened _ hopened ih => exact AllMaps.reopened ih hopened

/-- On every branch of a database whose changes kept the index, every entry describes its
record. -/
theorem IndexKept.agrees (hkept : IndexKept lawful loom) {branch : BranchId} {map : RecordMap}
    (hshows : Shows lawful loom branch map) : Agrees map := by
  obtain ⟨commit, -, hstores⟩ := hshows
  exact (hkept.allMaps commit map hstores).all_agree

theorem hintedLoom_indexKept : IndexKept memoryLawful hintedLoom := by
  have hopened : IndexKept memoryLawful memoryLoom :=
    .opened (inMemory_fresh rfl) memoryLoom_opened
  have hsession := hopened.changed (.call (.openSessionNamed (ascii "s"))) trivial
  refine hsession.changed (.call (.write _ _ _ _ _)) fun _ map _ => ⟨?_, ?_, ?_⟩
  · intro key record hmem hplace
    obtain ⟨rfl, -⟩ := Prod.mk.inj (List.mem_singleton.mp hmem)
    exact absurd hplace (by decide)
  · intro key record hmem _
    obtain ⟨rfl, -⟩ := Prod.mk.inj (List.mem_singleton.mp hmem)
    decide
  · intro key record _ hlast
    obtain ⟨rfl, rfl⟩ := Prod.mk.inj (List.mem_singleton.mp (mem_of_lastRecord hlast))
    exact Or.inl ⟨by decide, by decide⟩

/-- The entry of the page describes it. -/
theorem hintedLoom_agrees : ∃ map, Shows memoryLawful hintedLoom (ascii "s") map ∧
    (∃ entry, EntryAt map (ascii "k") entry) ∧ Agrees map := by
  have hhead : hintedLoom.refs.branches[ascii "s"]? = some 1 := by decide +kernel
  have hsound := hintedLoom_reachable.sound
  obtain ⟨map, hshows⟩ := exists_shows hsound hhead (by decide +kernel)
  have hplace : map[IndexEntry.storageKey (ascii "k")]? = some (Record.blob pageEntry.encode) :=
    hshows.getElem? hsound hhead (by decide +kernel)
  exact ⟨map, hshows, ⟨pageEntry, entryAt_iff.mpr ⟨_, hplace, IndexEntry.decode_encode _⟩⟩,
    hintedLoom_indexKept.agrees hshows⟩

/-- The session writes a counter over its page, without a hint. -/
def overwrittenLoom : Loom MemPager (Option Refs) :=
  memoryEngine.after (.write (memoryToken [ascii "s"]) (ascii "s")
    [(ascii "k", .value (.counter (I64.ofU64 0)))] ∅ (memoryEnvelope (ascii "s"))) hintedLoom

/-- The entry of the page is there, and cites the page for a counter. -/
theorem overwritten_disagrees : memoryEngine.Reachable memoryLawful overwrittenLoom ∧
    ∃ map, Shows memoryLawful overwrittenLoom (ascii "s") map ∧ ¬ Agrees map := by
  have hreachable : memoryEngine.Reachable memoryLawful overwrittenLoom :=
    hintedLoom_reachable.called _
  have hhead : overwrittenLoom.refs.branches[ascii "s"]? = some 2 := by decide +kernel
  have hsound := hreachable.sound
  obtain ⟨map, hshows⟩ := exists_shows hsound hhead (by decide +kernel)
  have hplace : map[IndexEntry.storageKey (ascii "k")]? = some (Record.blob pageEntry.encode) :=
    hshows.getElem? hsound hhead (by decide +kernel)
  have hcounter : map[pageEntry.key]? = some (.value (.counter (I64.ofU64 0))) :=
    hshows.getElem? hsound hhead (by decide +kernel)
  refine ⟨hreachable, map, hshows, fun hagrees => ?_⟩
  obtain ⟨record, hrecord, hdescribes⟩ := hagrees (ascii "k") pageEntry
    (entryAt_iff.mpr ⟨_, hplace, IndexEntry.decode_encode _⟩)
  obtain rfl := Option.some.inj (hcounter.symm.trans hrecord)
  cases hdescribes.citations

end Engine

end LoomDB
