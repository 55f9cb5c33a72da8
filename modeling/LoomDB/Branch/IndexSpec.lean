import LoomDB.Branch.Keyspace

/-!
# The index under writes

An index entry lives in the tree of its branch, at a key of the engine. Of what the
engine adds to a write, only the entries of the records that have a hint and something
to cite reach the index.
-/

namespace LoomDB

open Std (ExtTreeMap ExtTreeSet)
open KeyValue (ask put drop entries)

/-! ## Keys of the index -/

/-- The place of an index entry. -/
def isEntryKey (key : Key) : Bool :=
  RESERVED_INDEX_PREFIX.isPrefixOf key

/-- Two prefixes of one key: one of them starts the other. -/
theorem isPrefixOf_append_eq_false {start mid : Bytes} (hstart : start.isPrefixOf mid = false)
    (hmid : mid.isPrefixOf start = false) (rest : Bytes) :
    start.isPrefixOf (mid ++ rest) = false := by
  rw [Bool.eq_false_iff, ne_eq, List.isPrefixOf_iff_prefix] at *
  intro hprefix
  rcases List.prefix_or_prefix_of_prefix hprefix (List.prefix_append mid rest) with h | h
  · exact hstart h
  · exact hmid h

@[simp]
theorem isEntryKey_storageKey (key : Key) : isEntryKey (IndexEntry.storageKey key) = true :=
  isPrefixOf_append_of (by decide) key

theorem storageKey_inj {key other : Key} :
    IndexEntry.storageKey key = IndexEntry.storageKey other ↔ key = other :=
  List.append_right_inj RESERVED_INDEX_PREFIX

theorem isReserved_of_isEntryKey {key : Key} (hentry : isEntryKey key = true) :
    isReserved key = true := by
  obtain ⟨rest, rfl⟩ := List.isPrefixOf_iff_prefix.mp hentry
  exact isReserved_append (by decide) rest

theorem isEntryKey_of_isCaller {key : Key} (hcaller : isCaller key = true) :
    isEntryKey key = false := by
  by_contra hentry
  rw [isCaller_of_isReserved (isReserved_of_isEntryKey (by simpa using hentry))] at hcaller
  cases hcaller

/-- A key of the engine outside the index. -/
def IsBookkeeping (key : Key) : Prop :=
  isCaller key = false ∧ isEntryKey key = false

theorem not_isBookkeeping_storageKey (key : Key) : ¬ IsBookkeeping (IndexEntry.storageKey key) :=
  fun hbookkeeping => Bool.false_ne_true (hbookkeeping.2.symm.trans (isEntryKey_storageKey key))

theorem isBookkeeping_append {mid : Bytes} (hreserved : RESERVED_PREFIX.isPrefixOf mid = true)
    (hstart : RESERVED_INDEX_PREFIX.isPrefixOf mid = false)
    (hmid : mid.isPrefixOf RESERVED_INDEX_PREFIX = false) (rest : Bytes) :
    IsBookkeeping (mid ++ rest) :=
  ⟨isCaller_of_isReserved (isReserved_append hreserved rest),
    isPrefixOf_append_eq_false hstart hmid rest⟩

theorem isBookkeeping_of_isProvenance {key : Key} (hprovenance : isProvenance key = true) :
    IsBookkeeping key := by
  refine ⟨isCaller_of_isProvenance hprovenance, ?_⟩
  rcases Bool.or_eq_true_iff.mp hprovenance with hstarts | hstarts
  all_goals
    obtain ⟨rest, rfl⟩ := List.isPrefixOf_iff_prefix.mp hstarts
    exact isPrefixOf_append_eq_false (by decide) (by decide) rest

theorem isBookkeeping_provSeqKey (branch : BranchId) : IsBookkeeping (provSeqKey branch) :=
  isBookkeeping_append (by decide) (by decide) (by decide) branch

theorem isBookkeeping_latestNodeKey (key : Key) : IsBookkeeping (latestNodeKey key) :=
  isBookkeeping_append (by decide) (by decide) (by decide) key

theorem isBookkeeping_mergedFromKey (source : BranchId) : IsBookkeeping (mergedFromKey source) :=
  isBookkeeping_append (by decide) (by decide) (by decide) source

theorem isBookkeeping_annBufferKey (key : Key) : IsBookkeeping (annBufferKey key) :=
  isBookkeeping_append (by decide) (by decide) (by decide) key

theorem isBookkeeping_of_historyPrefix {subject predicate : Bytes} {key : Key}
    (hstarts : (ClaimVersion.historyPrefix subject predicate).isPrefixOf key = true) :
    IsBookkeeping key := by
  obtain ⟨rest, rfl⟩ := List.isPrefixOf_iff_prefix.mp hstarts
  simp only [ClaimVersion.historyPrefix, List.append_assoc]
  exact isBookkeeping_append (by decide) (by decide) (by decide) _

theorem isBookkeeping_claimKey (subject predicate : Bytes) (seq : U64) :
    IsBookkeeping (ClaimVersion.storageKey subject predicate seq) := by
  simp only [ClaimVersion.storageKey, List.append_assoc]
  exact isBookkeeping_append (by decide) (by decide) (by decide) _

theorem isReserved_of_isVectorKey {key : Key} (hvector : isVectorKey key = true) :
    isReserved key = true := by
  rcases Bool.or_eq_true_iff.mp hvector with hstarts | hstarts
  all_goals
    obtain ⟨rest, rfl⟩ := List.isPrefixOf_iff_prefix.mp hstarts
    exact isReserved_append (by decide) rest

theorem isBookkeeping_of_isVectorKey {key : Key} (hvector : isVectorKey key = true) :
    IsBookkeeping key := by
  rcases Bool.or_eq_true_iff.mp hvector with hstarts | hstarts
  all_goals
    obtain ⟨rest, rfl⟩ := List.isPrefixOf_iff_prefix.mp hstarts
    exact isBookkeeping_append (by decide) (by decide) (by decide) rest

/-- The tree has an index entry at the place of the key. -/
def EntryAt (map : RecordMap) (key : Key) (entry : IndexEntry) : Prop :=
  Engine.entryOf map[IndexEntry.storageKey key]? = .ok (some entry)

/-! ## What the engine's appends write -/

theorem appendNodes_writes (branch : BranchId) (nodes : List DerivationNode) (seq : U64) :
    (appendNodes branch nodes seq).Writes IsBookkeeping := by
  induction nodes generalizing seq with
  | nil => trivial
  | cons node nodes ih =>
      have hnode : (appendNode branch node seq).Writes IsBookkeeping :=
        ⟨isBookkeeping_of_isProvenance (by simp), isBookkeeping_latestNodeKey _,
          .forM fun source _ => ⟨isBookkeeping_of_isProvenance (by simp), trivial⟩⟩
      refine hnode.bind fun _ => ?_
      cases seq.next with
      | error error => trivial
      | ok next => exact ih next

theorem appendProvenance_writes (branch : BranchId) (nodes : List DerivationNode) :
    (appendProvenance branch nodes).Writes IsBookkeeping :=
  fun _ => (appendNodes_writes branch nodes _).bind fun _ =>
    ⟨isBookkeeping_provSeqKey branch, trivial⟩

/-- Every version found is one of the claim. -/
theorem isPrefixOf_of_mem_versionsAt {start : Key} {records : List (Key × Record)}
    {version : Key × ClaimVersion} (hversion : version ∈ versionsAt start records) :
    start.isPrefixOf version.1 = true := by
  obtain ⟨⟨key, record⟩, -, hfound⟩ := List.mem_filterMap.mp hversion
  simp only at hfound
  split at hfound
  · next hstarts =>
    split at hfound
    · obtain ⟨found, -, rfl⟩ := Option.map_eq_some_iff.mp hfound
      exact hstarts
    · cases hfound
  · cases hfound

theorem appendClaimVersion_writes (claim : Claim) :
    (appendClaimVersion claim).Writes IsBookkeeping := by
  have hentries : (entries : RecordProgram (List (Key × Record))).Writes IsBookkeeping :=
    fun _ => trivial
  refine hentries.bind fun records => ?_
  refine KeyValue.Writes.bind (.forM fun version hversion => ?_) fun _ => ?_
  · have hfound := isPrefixOf_of_mem_versionsAt (List.mem_filter.mp hversion).1
    exact ⟨isBookkeeping_of_historyPrefix hfound, trivial⟩
  · cases nextVersion _ with
    | error error => trivial
    | ok seq => exact ⟨isBookkeeping_claimKey _ _ _, trivial⟩

theorem appendHistory_writes (record : Record) : (appendHistory record).Writes IsBookkeeping := by
  cases record with
  | claim claim => exact appendClaimVersion_writes claim
  | value value => trivial
  | observation obs => trivial

/-! ## Entries -/

/-- The entry that a write makes of a record, if it has a hint and cites anything. -/
def newEntry (captured : ReadSet) (hints : ExtTreeMap Key IndexHint) (key : Key)
    (record : Record) : Option IndexEntry := do
  let hint ← hints[key]?
  IndexEntry.new key hint.text hint.embedding (citationsOf record) (isStale record)
    (captured.minLabel.mostRestrictive (ownTrust record))

def storeEntry (key : Key) : Option IndexEntry → RecordProgram Unit
  | none => pure ()
  | some entry => do
      put (IndexEntry.storageKey key) (Record.blob entry.encode)
      bufferEmbedding key entry.embedding

/-- Indexing a record stores its new entry. -/
theorem indexRecord_eq (captured : ReadSet) (hints : ExtTreeMap Key IndexHint) (key : Key)
    (record : Record) :
    indexRecord captured hints key record =
      storeEntry key (newEntry captured hints key record) := by
  unfold indexRecord newEntry
  cases hints[key]? with
  | none => rfl
  | some hint =>
      by_cases hcites : citationsOf record = []
      · simp [IndexEntry.new, hcites, storeEntry]
      · simp [IndexEntry.new, hcites, storeEntry]

theorem bufferEmbedding_writes (key : Key) (embedding : Option (List F32)) :
    (bufferEmbedding key embedding).Writes IsBookkeeping := by
  cases embedding with
  | none => trivial
  | some embedding => exact ⟨isBookkeeping_annBufferKey key, trivial⟩

theorem indexRecord_writes (captured : ReadSet) (hints : ExtTreeMap Key IndexHint) (key : Key)
    (record : Record) :
    (indexRecord captured hints key record).Writes fun touched => isCaller touched = false := by
  rw [indexRecord_eq]
  cases newEntry captured hints key record with
  | none => trivial
  | some entry =>
      exact ⟨isEngineKey_storageKey key, (bufferEmbedding_writes _ _).mono fun _ => And.left⟩

/-- The entry of a written record, at the place of a key. -/
def entryFor (captured : ReadSet) (hints : ExtTreeMap Key IndexHint) (key : Key)
    (written : Key × Record) : Option IndexEntry :=
  if written.1 = key then newEntry captured hints key written.2 else none

theorem indexRecord_entry {captured : ReadSet} {hints : ExtTreeMap Key IndexHint}
    {written : Key × Record} {map map' : RecordMap} (key : Key)
    (hrun : (indexRecord captured hints written.1 written.2).onMap map = .ok ((), map')) :
    map'[IndexEntry.storageKey key]? =
      ((entryFor captured hints key written).map fun entry => Record.blob entry.encode).or
        map[IndexEntry.storageKey key]? := by
  rw [indexRecord_eq] at hrun
  unfold entryFor
  cases hnew : newEntry captured hints written.1 written.2 with
  | none =>
      rw [hnew] at hrun
      obtain ⟨-, rfl⟩ := Prod.mk.inj (Except.ok.inj hrun)
      split
      · next hkey => rw [← hkey, hnew]; rfl
      · rfl
  | some entry =>
      rw [hnew, storeEntry, KeyValue.onMap_put_bind] at hrun
      rw [(bufferEmbedding_writes _ _).frame hrun (not_isBookkeeping_storageKey key), OrderedMap.getElem?_insert]
      by_cases hkey : written.1 = key
      · rw [if_pos (congrArg _ hkey), if_pos hkey, ← hkey, hnew]
        rfl
      · rw [if_neg hkey, if_neg fun hsame => hkey (storageKey_inj.mp hsame)]
        rfl

section Appends

variable {platform : Platform} {branch : BranchId} {head : CommitId}
  {written : List (Key × Record)} {envelope : WriteEnvelope} {captured : ReadSet}
  {extraParents : ExtTreeMap Key (List NodeId)} {hints : ExtTreeMap Key IndexHint}
  {map map' : RecordMap}

/-- The engine's appends are the provenance, which is outside the index, the entries, and
the history, which is outside the index again. -/
theorem engineAppends_cases
    (hrun : (engineAppends platform branch head written envelope captured extraParents
      hints).onMap map = .ok ((), map')) :
    ∃ before indexed,
      (∀ key, ¬ IsBookkeeping key → before[key]? = map[key]?) ∧
      (written.forM fun (key, record) => indexRecord captured hints key record).onMap before =
        .ok ((), indexed) ∧
      ∀ key, ¬ IsBookkeeping key → map'[key]? = indexed[key]? := by
  have hrest : ∀ before : RecordMap, (do
      written.forM fun (key, record) => indexRecord captured hints key record
      written.forM fun (_, record) => appendHistory record : RecordProgram Unit).onMap before =
        .ok ((), map') → ∃ indexed,
      (written.forM fun (key, record) => indexRecord captured hints key record).onMap before =
        .ok ((), indexed) ∧ ∀ key, ¬ IsBookkeeping key → map'[key]? = indexed[key]? := by
    intro before hrest
    obtain ⟨_, indexed, hindex, hhistory⟩ := KeyValue.onMap_bind_eq_ok.mp hrest
    exact ⟨indexed, hindex, fun _ hkey =>
      (KeyValue.Writes.forM fun _ _ => appendHistory_writes _).frame hhistory hkey⟩
  unfold engineAppends at hrun
  split at hrun
  · obtain ⟨_, before, hprovenance, hrun⟩ := KeyValue.onMap_bind_eq_ok.mp hrun
    obtain ⟨indexed, hindex, hhistory⟩ := hrest before hrun
    exact ⟨before, indexed, fun _ hkey => (appendProvenance_writes _ _).frame hprovenance hkey,
      hindex, hhistory⟩
  · obtain ⟨indexed, hindex, hhistory⟩ := hrest map hrun
    exact ⟨map, indexed, fun _ _ => rfl, hindex, hhistory⟩

end Appends

/-! ## Writes -/

/-- The value that the last of the written records gives a key. -/
def lastRecord (written : List (Key × Record)) (key : Key) : Option Record :=
  (written.filterMap fun entry => if entry.1 = key then some entry.2 else none).getLast?

theorem getElem?_putAll {written : List (Key × Record)} {map map' : RecordMap}
    (hput : (written.forM fun (key, record) => (put key record : RecordProgram Unit)).onMap map =
      .ok ((), map')) (key : Key) :
    map'[key]? = (lastRecord written key).or map[key]? := by
  refine KeyValue.getElem?_forM (fun entry _ before after hround => ?_) hput
  rw [KeyValue.onMap_put] at hround
  obtain ⟨-, rfl⟩ := Prod.mk.inj (Except.ok.inj hround)
  rw [OrderedMap.getElem?_insert]
  split <;> rfl

/-- The entry of the last of the written records of a key that has one. -/
def lastEntry (captured : ReadSet) (hints : ExtTreeMap Key IndexHint)
    (written : List (Key × Record)) (key : Key) : Option IndexEntry :=
  (written.filterMap (entryFor captured hints key)).getLast?

theorem newEntry_eq_some {captured : ReadSet} {hints : ExtTreeMap Key IndexHint} {key : Key}
    {record : Record} {entry : IndexEntry}
    (hentry : newEntry captured hints key record = some entry) :
    entry.key = key ∧ entry.citations = citationsOf record ∧ entry.stale = isStale record := by
  obtain ⟨hint, -, hnew⟩ := Option.bind_eq_some_iff.mp hentry
  unfold IndexEntry.new at hnew
  split at hnew
  · cases hnew
  · obtain rfl := Option.some.inj hnew
    exact ⟨rfl, rfl, rfl⟩

/-- A record gets an entry if its key has a hint and it has something to cite. -/
def Reindexes (hints : ExtTreeMap Key IndexHint) (key : Key) (record : Record) : Prop :=
  hints[key]? ≠ none ∧ citationsOf record ≠ []

theorem reindexes_iff (captured : ReadSet) {hints : ExtTreeMap Key IndexHint} {key : Key}
    {record : Record} :
    Reindexes hints key record ↔ ∃ entry, newEntry captured hints key record = some entry := by
  unfold Reindexes newEntry
  cases hints[key]? with
  | none => simp
  | some hint =>
      by_cases hcites : citationsOf record = []
      · simp [IndexEntry.new, hcites]
      · simp [IndexEntry.new, hcites]

section Last

variable {captured : ReadSet} {hints : ExtTreeMap Key IndexHint} {written : List (Key × Record)}
  {key : Key}

theorem mem_of_lastRecord {record : Record} (hlast : lastRecord written key = some record) :
    (key, record) ∈ written := by
  obtain ⟨entry, hentry, hrecord⟩ := List.mem_filterMap.mp (List.mem_of_getLast? hlast)
  split at hrecord
  · next hkey =>
    obtain rfl := Option.some.inj hrecord
    obtain rfl := hkey
    exact hentry
  · cases hrecord

theorem lastRecord_isSome {record : Record} (hmem : (key, record) ∈ written) :
    ∃ last, lastRecord written key = some last := by
  have hfound : record ∈ written.filterMap fun entry =>
      if entry.1 = key then some entry.2 else none :=
    List.mem_filterMap.mpr ⟨(key, record), hmem, if_pos rfl⟩
  exact ⟨_, List.getLast?_eq_some_getLast (List.ne_nil_of_mem hfound)⟩

theorem mem_of_lastEntry {entry : IndexEntry}
    (hlast : lastEntry captured hints written key = some entry) :
    ∃ record, (key, record) ∈ written ∧ newEntry captured hints key record = some entry := by
  obtain ⟨⟨key', record⟩, hmem, hentry⟩ := List.mem_filterMap.mp (List.mem_of_getLast? hlast)
  unfold entryFor at hentry
  split at hentry
  · next hkey =>
    obtain rfl : key' = key := hkey
    exact ⟨record, hmem, hentry⟩
  · cases hentry

theorem newEntry_eq_none_of_lastEntry (hlast : lastEntry captured hints written key = none)
    {record : Record} (hmem : (key, record) ∈ written) :
    newEntry captured hints key record = none := by
  have hnone := List.filterMap_eq_nil_iff.mp (List.getLast?_eq_none_iff.mp hlast) _ hmem
  rwa [entryFor, if_pos rfl] at hnone

/-- If the last record of a key gets an entry, that is the last entry. -/
theorem lastEntry_of_lastRecord {record : Record} {entry : IndexEntry}
    (hlast : lastRecord written key = some record)
    (hentry : newEntry captured hints key record = some entry) :
    lastEntry captured hints written key = some entry := by
  have hcompose : written.filterMap (entryFor captured hints key) =
      (written.filterMap fun entry => if entry.1 = key then some entry.2 else none).filterMap
        (newEntry captured hints key) := by
    rw [List.filterMap_filterMap]
    congr 1
    funext entry
    unfold entryFor
    split <;> rfl
  obtain ⟨others, hothers⟩ := List.getLast?_eq_some_iff.mp hlast
  rw [lastEntry, hcompose, hothers, List.filterMap_append,
    List.filterMap_cons_some hentry, List.filterMap_nil, List.getLast?_concat]

end Last

section Write

variable {platform : Platform} {branch : BranchId} {head : CommitId}
  {written : List (Key × Record)} {envelope : WriteEnvelope} {captured : ReadSet}
  {extraParents : ExtTreeMap Key (List NodeId)} {hints : ExtTreeMap Key IndexHint}
  {map map' : RecordMap}

/-- After a write a caller's key has the last record written to it. -/
theorem writeProgram_record
    (hrun : (writeProgram platform branch head written envelope captured extraParents hints).onMap
      map = .ok ((), map')) {key : Key} (hkey : isCaller key = true) :
    map'[key]? = (lastRecord written key).or map[key]? := by
  obtain ⟨_, stored, hput, happend⟩ := KeyValue.onMap_bind_eq_ok.mp hrun
  obtain ⟨before, indexed, hbefore, hindex, hafter⟩ := engineAppends_cases happend
  have hengine : ¬ IsBookkeeping key := fun hbookkeeping =>
    Bool.false_ne_true (hbookkeeping.1.symm.trans hkey)
  have hindexed : indexed[key]? = before[key]? :=
    (KeyValue.Writes.forM fun _ _ => indexRecord_writes _ _ _ _).frame hindex (by simp [hkey])
  rw [hafter key hengine, hindexed, hbefore key hengine]
  exact getElem?_putAll hput key

/-- After a write the place of an entry has the last entry made for the key, or else the
last record written right there. -/
theorem writeProgram_entry
    (hrun : (writeProgram platform branch head written envelope captured extraParents hints).onMap
      map = .ok ((), map')) (key : Key) :
    map'[IndexEntry.storageKey key]? =
      ((lastEntry captured hints written key).map fun entry => Record.blob entry.encode).or
        ((lastRecord written (IndexEntry.storageKey key)).or
          map[IndexEntry.storageKey key]?) := by
  obtain ⟨_, stored, hput, happend⟩ := KeyValue.onMap_bind_eq_ok.mp hrun
  obtain ⟨before, indexed, hbefore, hindex, hafter⟩ := engineAppends_cases happend
  have hengine := not_isBookkeeping_storageKey key
  have hindexed := KeyValue.getElem?_forM
    (fun _ _ _ _ hround => indexRecord_entry key hround) hindex
  rw [hafter _ hengine, hindexed, hbefore _ hengine, getElem?_putAll hput, lastEntry,
    ← List.getLast?_map, List.map_filterMap]

end Write

namespace Engine

variable {σ ρ : Type} {engine : Engine σ ρ} {lawful : engine.pager.Lawful} {loom : Loom σ ρ}

/-- A branch whose head has pages shows what they hold. -/
theorem exists_shows (hsound : lawful.Sound loom.pager) {branch : BranchId} {commit : CommitId}
    (hhead : loom.refs.branches[branch]? = some commit)
    (hpages : (lawful.pages loom.pager commit).isSome = true) :
    ∃ map, Shows lawful loom branch map := by
  obtain ⟨pages, hpages⟩ := Option.isSome_iff_exists.mp hpages
  obtain ⟨map, hstored⟩ := hsound commit pages hpages
  exact ⟨map, commit, hhead, pages, hpages, hstored⟩

end Engine

end LoomDB
