import LoomDB.Branch.Capture
import LoomDB.Branch.Containment
import LoomDB.Branch.IndexSpec
import LoomDB.Memory.Retrieval

/-!
# Facts across a merge

A merge hands the write path no hints, so it makes no index entry: what the target has
at the place of an entry is what it had before. A fact that comes from the source is
retrievable on the target if the target had an entry for it already.
-/

namespace LoomDB

open Std (ExtTreeMap ExtTreeSet)
open KeyValue (ask)

/-- The entry says of the record what the other entry said, with the record's own
citations and staleness. -/
structure Recomputed (record : Record) (other entry : IndexEntry) : Prop where
  text : entry.text = other.text
  embedding : entry.embedding = other.embedding
  citations : entry.citations = citationsOf record
  stale : entry.stale = isStale record

/-- The target has, for a key of the source, an entry that says of the record what the
source's entry does. -/
def Indexes (sourceMap targetMap : RecordMap) (key : Key) (record : Record) : Prop :=
  ∀ entry, EntryAt sourceMap key entry → ∃ kept, EntryAt targetMap key kept ∧
    Recomputed record entry kept

/-- The record at the caller's key came from the source: the target did not have it. -/
structure FromSource (sourceMap targetMap mergedMap : RecordMap) (key : Key) (record : Record) :
    Prop where
  caller : isCaller key = true
  source : sourceMap[key]? = some record
  target : targetMap[key]? ≠ some record
  merged : mergedMap[key]? = some record

/-- What a merge should keep: the entries of what comes from the source. -/
def KeepsFacts (sourceMap targetMap mergedMap : RecordMap) : Prop :=
  ∀ key record, FromSource sourceMap targetMap mergedMap key record →
    Indexes sourceMap mergedMap key record

namespace Engine

variable {σ ρ : Type} {engine : Engine σ ρ} {lawful : engine.pager.Lawful}
  {loom loom' : Loom σ ρ} {sourceMap targetMap mergedMap : RecordMap}

/-- The target has an entry already for each key that the plan takes from the source. -/
def IndexedOnTarget (engine : Engine σ ρ) (loom : Loom σ ρ) (source target : BranchId)
    (policy : MergePolicy) (sourceMap targetMap : RecordMap) : Prop :=
  ∀ {sourceHead targetHead base : CommitId} {writes : List (Key × Record)} {automatic : ℕ},
    MergeHeads engine loom source target sourceHead targetHead base →
    planMerge engine.platform engine.pager loom.pager base sourceHead targetHead policy =
      .ok (.merged writes automatic) →
    ∀ key record, (key, record) ∈ writes → isCaller key = true →
      sourceMap[key]? = some record → targetMap[key]? ≠ some record →
      Indexes sourceMap targetMap key record

/-- Two records that a plan writes under one key are one. -/
theorem eq_of_mem_writes {platform : Platform} {policy : MergePolicy}
    {baseMap : RecordMap} {keys : List Key} {plan : Plan}
    (hplan : planOver platform policy baseMap sourceMap targetMap keys Plan.empty = .ok plan)
    {key : Key} {record other : Record} (hrecord : (key, record) ∈ plan.writes)
    (hother : (key, other) ∈ plan.writes) : other = record := by
  rcases (mem_writes_planOver hplan).mp hrecord with hnone | ⟨-, decision, hdecision, hwrites⟩
  · cases hnone
  rcases (mem_writes_planOver hplan).mp hother with hnone | ⟨-, decision', hdecision', hwrites'⟩
  · cases hnone
  obtain rfl := Except.ok.inj (hdecision.symm.trans hdecision')
  rcases hwrites with rfl | rfl
  · rcases hwrites' with heq | heq
    · exact (Decision.write.inj heq).symm
    · cases heq
  · rcases hwrites' with heq | heq
    · cases heq
    · exact (Decision.resolved.inj heq).symm

/-- No key that a merge writes is the place of an entry. -/
theorem isEntryKey_of_planMerge {platform : Platform} {policy : MergePolicy} {state : σ}
    {pager : Substrate σ} {lawful : pager.Lawful} {base sourceHead targetHead : CommitId}
    {writes : List (Key × Record)} {automatic : ℕ}
    (hplan : planMerge platform pager state base sourceHead targetHead policy =
      .ok (.merged writes automatic)) (hsound : lawful.Sound state) (source : BranchId)
    (mark : CommitId) :
    ∀ entry ∈ writes ++ [(mergedFromKey source, Record.blob mark.asBytes)],
      isEntryKey entry.1 = false := by
  obtain ⟨_, _, _, _, _, houtcome, hplanned⟩ := planMerge_spec hplan hsound
  obtain ⟨-, hunreserved⟩ := mem_writes_of_planned hplanned houtcome
  intro entry hentry
  rcases List.mem_append.mp hentry with hentry | hentry
  · by_contra hkey
    have hreserved := isReserved_of_isEntryKey (by simpa using hkey)
    rw [hunreserved entry hentry] at hreserved
    cases hreserved
  · rw [List.mem_singleton.mp hentry]
    exact (isBookkeeping_mergedFromKey source).2

theorem not_reindexes_empty {key : Key} {record : Record} : ¬ Reindexes ∅ key record := by
  simp [Reindexes]

theorem lastEntry_empty (captured : ReadSet) (written : List (Key × Record)) (key : Key) :
    lastEntry captured ∅ written key = none := by
  have hnone : ∀ entry ∈ written, entryFor captured ∅ key entry = none := by
    intro entry _
    unfold entryFor newEntry
    split <;> simp
  rw [lastEntry, List.filterMap_eq_nil_iff.mpr hnone]
  rfl

/-- Under a caller's key the plan and the mark of the merge come to the record planned. -/
theorem lastRecord_planned {platform : Platform} {policy : MergePolicy} {baseMap : RecordMap}
    {keys : List Key} {plan : Plan} {source : BranchId} {mark : Record}
    (hplan : planOver platform policy baseMap sourceMap targetMap keys Plan.empty = .ok plan)
    {key : Key} (hcaller : isCaller key = true) (record : Record) :
    lastRecord (plan.writes ++ [(mergedFromKey source, mark)]) key = some record ↔
      (key, record) ∈ plan.writes := by
  have hunmarked : ∀ found, (key, found) ∈ plan.writes ++ [(mergedFromKey source, mark)] →
      (key, found) ∈ plan.writes := by
    intro found hfound
    rcases List.mem_append.mp hfound with hfound | hfound
    · exact hfound
    · obtain rfl := (Prod.mk.inj (List.mem_singleton.mp hfound)).1
      rw [isCaller_of_isReserved (isReserved_mergedFromKey source)] at hcaller
      cases hcaller
  constructor
  · exact fun hlast => hunmarked record (mem_of_lastRecord hlast)
  · intro hmem
    obtain ⟨last, hlast⟩ := lastRecord_isSome
      (List.mem_append_left [(mergedFromKey source, mark)] hmem)
    rw [hlast, eq_of_mem_writes hplan hmem (hunmarked last (mem_of_lastRecord hlast))]

/-- A merge keeps the facts of its source exactly if its target had an entry for each of
them that it takes. -/
theorem keepsFacts_iff (hsound : lawful.Sound loom.pager) {token : CapabilityToken}
    {source target : BranchId} {policy : MergePolicy} {envelope : WriteEnvelope}
    {forbids : Key → Record → Option Bytes} {commit : CommitId} {records automatic : ℕ}
    (hmerge : engine.mergeChecked token source target policy envelope forbids loom =
      (.ok (.merged commit records automatic), loom'))
    (htarget : Shows lawful loom target targetMap) (hmerged : Shows lawful loom' target mergedMap) :
    KeepsFacts sourceMap targetMap mergedMap ↔
      IndexedOnTarget engine loom source target policy sourceMap targetMap := by
  obtain ⟨sourceHead, targetHead, base, writes, automatic', parents, targetMap', mergedMap',
    hready, -, htarget', hmerged', hrun⟩ := merge_shows hsound hmerge
  obtain rfl := htarget.unique htarget'
  obtain rfl := hmerged.unique hmerged'
  obtain ⟨baseMap, _, _, keys, plan, houtcome, hplanned⟩ := planMerge_spec hready.planned hsound
  obtain ⟨rfl, hunreserved⟩ := mem_writes_of_planned hplanned houtcome
  have hwritten := isEntryKey_of_planMerge hready.planned hsound source sourceHead
  -- The entries of the merged tree are those of the target.
  have hentries : ∀ key entry, EntryAt mergedMap key entry ↔ EntryAt targetMap key entry := by
    intro key entry
    have hnone : lastRecord (plan.writes ++
        [(mergedFromKey source, Record.blob sourceHead.asBytes)]) (IndexEntry.storageKey key) =
          none := by
      by_contra hsome
      obtain ⟨last, hlast⟩ := Option.ne_none_iff_exists'.mp hsome
      have hplace := hwritten _ (mem_of_lastRecord hlast)
      rw [isEntryKey_storageKey] at hplace
      cases hplace
    rw [EntryAt, writeProgram_entry hrun key, lastEntry_empty, hnone]
    rfl
  have hindexes : ∀ key record,
      Indexes sourceMap mergedMap key record ↔ Indexes sourceMap targetMap key record := by
    intro key record
    simp only [Indexes, hentries]
  have hfrom : ∀ key record, FromSource sourceMap targetMap mergedMap key record ↔
      (key, record) ∈ plan.writes ∧ isCaller key = true ∧ sourceMap[key]? = some record ∧
        targetMap[key]? ≠ some record := by
    intro key record
    constructor
    · rintro ⟨hcaller, hrecord, hnew, hmerged⟩
      rw [writeProgram_record hrun hcaller] at hmerged
      cases hlast : lastRecord (plan.writes ++
          [(mergedFromKey source, Record.blob sourceHead.asBytes)]) key with
      | none =>
          rw [hlast] at hmerged
          exact absurd hmerged hnew
      | some last =>
          rw [hlast] at hmerged
          obtain rfl := Option.some.inj hmerged
          exact ⟨(lastRecord_planned hplanned.planned hcaller last).mp hlast, hcaller, hrecord,
            hnew⟩
    · rintro ⟨hmem, hcaller, hrecord, hnew⟩
      refine ⟨hcaller, hrecord, hnew, ?_⟩
      rw [writeProgram_record hrun hcaller,
        (lastRecord_planned hplanned.planned hcaller record).mpr hmem]
      rfl
  constructor
  · intro hkeeps sourceHead' targetHead' base' writes' automatic'' hheads hplan key record hmem
      hcaller hrecord hnew
    obtain ⟨rfl, rfl, rfl⟩ := hready.heads.unique hheads
    obtain ⟨rfl, -⟩ := MergeOutcome.merged.inj (Except.ok.inj (hready.planned.symm.trans hplan))
    exact (hindexes key record).mp
      (hkeeps key record ((hfrom key record).mpr ⟨hmem, hcaller, hrecord, hnew⟩))
  · intro hindexed key record hfact
    obtain ⟨hmem, hcaller, hrecord, hnew⟩ := (hfrom key record).mp hfact
    exact (hindexes key record).mpr
      (hindexed hready.heads hready.planned key record hmem hcaller hrecord hnew)

/-! ## A fact that gets lost -/

/-- What makes the page of session `s` retrievable. -/
def pageHint : ExtTreeMap Key IndexHint :=
  (∅ : ExtTreeMap Key IndexHint).insert (ascii "k")
    { text := ascii "a page", embedding := some [0x3F800000] }

/-- The memory engine after session `s` wrote the page with its hint. -/
def hintedLoom : Loom MemPager (Option Refs) :=
  memoryEngine.afterAll [.openSessionNamed (ascii "s"),
    .write (memoryToken [ascii "s"]) (ascii "s") [(ascii "k", .observation webPage)] pageHint
      (memoryEnvelope (ascii "s"))] memoryLoom

theorem hintedLoom_reachable : memoryEngine.Reachable memoryLawful hintedLoom :=
  memoryLoom_reachable.afterAll _

/-- The session's branch is merged into `main`. -/
def mergeIntoMain (loom : Loom MemPager (Option Refs)) :
    Except LoomError MergeResult × Loom MemPager (Option Refs) :=
  memoryEngine.merge (memoryToken [ascii "s", MAIN]) (ascii "s") MAIN .takeSource
    (memoryEnvelope MAIN) loom

theorem mergeIntoMain_eq {loom : Loom MemPager (Option Refs)}
    {outcome : Except LoomError MergeResult} (houtcome : (mergeIntoMain loom).1 = outcome) :
    memoryEngine.merge (memoryToken [ascii "s", MAIN]) (ascii "s") MAIN .takeSource
      (memoryEnvelope MAIN) loom = (outcome, (mergeIntoMain loom).2) :=
  Prod.ext houtcome rfl

theorem mergeIntoMain_reachable {loom : Loom MemPager (Option Refs)}
    (hreachable : memoryEngine.Reachable memoryLawful loom) :
    memoryEngine.Reachable memoryLawful (mergeIntoMain loom).2 := by
  have hafter := hreachable.called (.merge (memoryToken [ascii "s", MAIN]) (ascii "s") MAIN
    .takeSource (memoryEnvelope MAIN) fun _ _ => none)
  rw [Engine.after, Engine.call, FallibleState.map_eq] at hafter
  exact hafter

/-- The entry of the page. -/
def pageEntry : IndexEntry where
  key := ascii "k"
  text := ascii "a page"
  embedding := some [0x3F800000]
  citations := [webPage.source]
  stale := false
  label := .untrusted

/-- The maps of the two branches before the merge and of `main` after it. -/
theorem mergeIntoMain_shows : ∃ sourceMap targetMap mergedMap,
    Shows memoryLawful hintedLoom (ascii "s") sourceMap ∧
    Shows memoryLawful hintedLoom MAIN targetMap ∧
    Shows memoryLawful (mergeIntoMain hintedLoom).2 MAIN mergedMap ∧
    FromSource sourceMap targetMap mergedMap (ascii "k") (.observation webPage) ∧
    EntryAt sourceMap (ascii "k") pageEntry ∧
    mergedMap[IndexEntry.storageKey (ascii "k")]? = none := by
  have hsource : hintedLoom.refs.branches[ascii "s"]? = some 1 := by decide +kernel
  have htarget : hintedLoom.refs.branches[MAIN]? = some 0 := by decide +kernel
  have hmerged : (mergeIntoMain hintedLoom).2.refs.branches[MAIN]? = some 2 := by decide +kernel
  have hsound := hintedLoom_reachable.sound
  have hsound' := (mergeIntoMain_reachable hintedLoom_reachable).sound
  obtain ⟨sourceMap, hsourceMap⟩ := exists_shows hsound hsource (by decide +kernel)
  obtain ⟨targetMap, htargetMap⟩ := exists_shows hsound htarget (by decide +kernel)
  obtain ⟨mergedMap, hmergedMap⟩ := exists_shows hsound' hmerged (by decide +kernel)
  have hnew : targetMap[ascii "k"]? = none := htargetMap.getElem? hsound htarget (by decide +kernel)
  refine ⟨sourceMap, targetMap, mergedMap, hsourceMap, htargetMap, hmergedMap,
    ⟨by decide, hsourceMap.getElem? hsound hsource (by decide +kernel), ?_,
      hmergedMap.getElem? hsound' hmerged (by decide +kernel)⟩, ?_,
    hmergedMap.getElem? hsound' hmerged (by decide +kernel)⟩
  · rw [hnew]
    exact nofun
  · rw [EntryAt, show sourceMap[IndexEntry.storageKey (ascii "k")]? =
      some (Record.blob pageEntry.encode) from
        hsourceMap.getElem? hsound hsource (by decide +kernel)]
    exact congrArg (Except.map some) (IndexEntry.decode_encode pageEntry)

/-- The target has no entry for the page that the merge takes. -/
theorem not_indexedOnTarget_page : ∃ sourceMap targetMap,
    Shows memoryLawful hintedLoom (ascii "s") sourceMap ∧
    Shows memoryLawful hintedLoom MAIN targetMap ∧
    ¬ IndexedOnTarget memoryEngine hintedLoom (ascii "s") MAIN .takeSource sourceMap
      targetMap := by
  obtain ⟨sourceMap, targetMap, mergedMap, hsource, htarget, hmerged, hfact, hentry, hnone⟩ :=
    mergeIntoMain_shows
  have hmerge : (mergeIntoMain hintedLoom).1 = .ok (.merged 2 1 3) := by decide +kernel
  refine ⟨sourceMap, targetMap, hsource, htarget, fun hindexed => ?_⟩
  have hkeeps := (keepsFacts_iff hintedLoom_reachable.sound (mergeIntoMain_eq hmerge) htarget
    hmerged).mpr hindexed
  obtain ⟨kept, hkept, -⟩ := hkeeps _ _ hfact pageEntry hentry
  rw [EntryAt, hnone] at hkept
  cases hkept

/-- The page of session `s` lands on `main` and is not retrievable there. -/
theorem merged_page_lost : ∃ sourceMap targetMap mergedMap,
    Shows memoryLawful hintedLoom (ascii "s") sourceMap ∧
    Shows memoryLawful hintedLoom MAIN targetMap ∧
    (mergeIntoMain hintedLoom).1 = .ok (.merged 2 1 3) ∧
    Shows memoryLawful (mergeIntoMain hintedLoom).2 MAIN mergedMap ∧
    ¬ KeepsFacts sourceMap targetMap mergedMap := by
  obtain ⟨sourceMap, targetMap, mergedMap, hsource, htarget, hmerged, hfact, hentry, hnone⟩ :=
    mergeIntoMain_shows
  refine ⟨sourceMap, targetMap, mergedMap, hsource, htarget, by decide +kernel, hmerged,
    fun hkeeps => ?_⟩
  obtain ⟨kept, hkept, -⟩ := hkeeps _ _ hfact pageEntry hentry
  rw [EntryAt, hnone] at hkept
  cases hkept

end Engine

end LoomDB
