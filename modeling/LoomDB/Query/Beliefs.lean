import LoomDB.Branch.Maps
import LoomDB.Memory.Forget
import LoomDB.Provenance.Staleness
import LoomDB.Query.AsOf

/-!
# Current records and histories

A write of a claim appends a version to the history of its subject and predicate and closes the
one before it; forgetting changes the record alone. As long as nothing that stands is forgotten,
what is believed now is the current record.
-/

namespace LoomDB

open Std (ExtTreeMap ExtTreeSet)
open KeyValue (ask put drop entries)

/-! ## Appending a version -/

namespace ClaimVersion

/-- A version after a later one was appended. -/
def settled (start : Option Timestamp) (version : ClaimVersion) : ClaimVersion :=
  if version.claim.known.stop = none then version.supersededAt start else version

@[simp]
theorem seq_settled (start : Option Timestamp) (version : ClaimVersion) :
    (version.settled start).seq = version.seq := by
  unfold settled
  split <;> rfl

end ClaimVersion

theorem getLast?_of_forall {α : Type} {items : List α} {item : α} (hmem : item ∈ items)
    (hall : ∀ other ∈ items, other = item) : items.getLast? = some item := by
  have hne := List.ne_nil_of_mem hmem
  rw [List.getLast?_eq_some_getLast hne, hall _ (List.getLast_mem hne)]

/-- The next place of a history is after every version in it. -/
theorem lt_of_nextVersion {versions : List ClaimVersion} {seq : U64}
    (hnext : nextVersion versions = .ok seq) {version : ClaimVersion}
    (hversion : version ∈ versions) : version.seq < seq := by
  unfold nextVersion at hnext
  split at hnext
  · next last hlast =>
    have hle := (List.max?_eq_some_iff.mp hlast).2 _ (List.mem_map_of_mem hversion)
    have hval := Tree.U64.next_eq_ok hnext
    exact lt_of_le_of_lt hle (Fin.lt_def.mpr (by omega))
  · next hnone =>
    rw [List.max?_eq_none_iff, List.map_eq_nil_iff] at hnone
    rw [hnone] at hversion
    cases hversion

section Append

variable {claim : Claim} {map map' : RecordMap}

/-- What is open is closed in its place. -/
theorem getElem?_close {start : Option Timestamp} {versions : List (Key × ClaimVersion)}
    (hrun : (versions.forM fun (key, version) => (put key (Record.blob
      (ClaimVersion.encode (version.supersededAt start))) : RecordProgram Unit)).onMap map =
      .ok ((), map')) (key : Key) :
    map'[key]? = ((versions.filterMap fun entry => if entry.1 = key then
      some (Record.blob (ClaimVersion.encode (entry.2.supersededAt start))) else none).getLast?).or
        map[key]? := by
  refine KeyValue.getElem?_forM (fun entry _ before after hround => ?_) hrun
  rw [KeyValue.onMap_put] at hround
  obtain ⟨-, rfl⟩ := Prod.mk.inj (Except.ok.inj hround)
  rw [OrderedMap.getElem?_insert]
  split <;> rfl

/-- The history of the claim has one version more, and those before it are settled. -/
structure Appended (claim : Claim) (seq : U64) (map map' : RecordMap) : Prop where
  later : ∀ version, VersionIn map claim.subject claim.predicate version → version.seq < seq
  others : ∀ key : Key, ¬ ClaimVersion.historyPrefix claim.subject claim.predicate <+: key →
    map'[key]? = map[key]?
  filed : WellFiled map' claim.subject claim.predicate
  versions : ∀ version, VersionIn map' claim.subject claim.predicate version ↔
    version = { claim := claim, seq := seq } ∨
      ∃ old, VersionIn map claim.subject claim.predicate old ∧
        version = old.settled claim.known.start

theorem appendClaimVersion_spec (hfiled : WellFiled map claim.subject claim.predicate)
    (hrun : (appendClaimVersion claim).onMap map = .ok ((), map')) :
    ∃ seq, Appended claim seq map map' := by
  rw [appendClaimVersion, KeyValue.onMap_entries_bind] at hrun
  obtain ⟨_, closed, hclose, hrest⟩ := KeyValue.onMap_bind_eq_ok.mp hrun
  obtain ⟨seq, closed', hlift, hput⟩ := KeyValue.onMap_bind_eq_ok.mp hrest
  obtain ⟨hnext, hclosed⟩ := KeyValue.onMap_lift_eq_ok.mp hlift
  dsimp only at hnext hclosed
  subst hclosed
  rw [KeyValue.onMap_put] at hput
  obtain ⟨-, rfl⟩ := Prod.mk.inj (Except.ok.inj hput)
  have hlater : ∀ version, VersionIn map claim.subject claim.predicate version →
      version.seq < seq := fun version hversion =>
    lt_of_nextVersion hnext ((mem_versions hfiled).mpr hversion)
  -- A version that is closed, and a key that is none of them.
  have hold : ∀ old, VersionIn map claim.subject claim.predicate old →
      VersionIn closed' claim.subject claim.predicate (old.settled claim.known.start) := by
    intro old hversion
    rw [VersionIn, ClaimVersion.seq_settled, getElem?_close hclose]
    unfold ClaimVersion.settled
    split
    · next hopen =>
      have hclosing : Record.blob (ClaimVersion.encode (old.supersededAt claim.known.start)) ∈
          ((versionsAt (ClaimVersion.historyPrefix claim.subject claim.predicate)
            map.toList).filter fun version => version.2.claim.known.stop = none).filterMap
            fun entry => if entry.1 = ClaimVersion.storageKey claim.subject claim.predicate old.seq
              then some (Record.blob (ClaimVersion.encode
                (entry.2.supersededAt claim.known.start))) else none := by
        refine List.mem_filterMap.mpr ⟨(_, old), List.mem_filter.mpr
          ⟨(mem_versionsAt hfiled).mpr ⟨hversion, rfl⟩, by simpa using hopen⟩, ?_⟩
        rw [if_pos rfl]
      rw [getLast?_of_forall hclosing]
      · rfl
      · intro record hrecord
        obtain ⟨⟨key, found⟩, hmem, heq⟩ := List.mem_filterMap.mp hrecord
        obtain ⟨hin, rfl⟩ := (mem_versionsAt hfiled).mp (List.mem_filter.mp hmem).1
        split at heq
        · next hkey =>
          obtain rfl := hin.unique hversion (claimKey_inj.mp hkey)
          exact (Option.some.inj heq).symm
        · cases heq
    · next hstopped =>
      rw [List.getLast?_eq_none_iff.mpr]
      · exact hversion
      · refine List.filterMap_eq_nil_iff.mpr ?_
        rintro ⟨key, found⟩ hmem
        obtain ⟨hfound, hopen⟩ := List.mem_filter.mp hmem
        obtain ⟨hin, rfl⟩ := (mem_versionsAt hfiled).mp hfound
        refine if_neg fun hkey => hstopped ?_
        obtain rfl := hin.unique hversion (claimKey_inj.mp hkey)
        simpa using hopen
  have hothers : ∀ key : Key, (∀ old, VersionIn map claim.subject claim.predicate old →
      key ≠ ClaimVersion.storageKey claim.subject claim.predicate old.seq) →
      closed'[key]? = map[key]? := by
    intro key hkey
    rw [getElem?_close hclose, List.getLast?_eq_none_iff.mpr]
    · rfl
    · refine List.filterMap_eq_nil_iff.mpr ?_
      rintro ⟨key', found⟩ hmem
      obtain ⟨hin, rfl⟩ := (mem_versionsAt hfiled).mp (List.mem_filter.mp hmem).1
      exact if_neg fun heq => hkey found hin heq.symm
  have hclosedVersions : ∀ key record, closed'[key]? = some record →
      ClaimVersion.historyPrefix claim.subject claim.predicate <+: key →
      ∃ old, VersionIn map claim.subject claim.predicate old ∧
        key = ClaimVersion.storageKey claim.subject claim.predicate old.seq ∧
        record = Record.blob (old.settled claim.known.start).encode := by
    intro key record hrecord hbegins
    by_cases hkey : ∃ old, VersionIn map claim.subject claim.predicate old ∧
        key = ClaimVersion.storageKey claim.subject claim.predicate old.seq
    · obtain ⟨old, hin, rfl⟩ := hkey
      have hsettled := hold old hin
      rw [VersionIn, ClaimVersion.seq_settled, hrecord] at hsettled
      exact ⟨old, hin, rfl, Option.some.inj hsettled⟩
    · push Not at hkey
      rw [hothers key hkey] at hrecord
      obtain ⟨version, rfl, rfl⟩ := hfiled key record hrecord hbegins
      exact absurd rfl (hkey version hrecord)
  refine ⟨seq, hlater, fun key hkey => ?_, fun key record hrecord hbegins => ?_, fun version => ?_⟩
  · rw [OrderedMap.getElem?_insert, if_neg, hothers]
    · rintro old - rfl
      exact hkey (historyPrefix_starts _ _ _)
    · rintro rfl
      exact hkey (historyPrefix_starts _ _ _)
  · rw [OrderedMap.getElem?_insert] at hrecord
    split at hrecord
    · next heq => exact ⟨_, (Option.some.inj hrecord).symm, heq.symm⟩
    · obtain ⟨old, -, rfl, rfl⟩ := hclosedVersions key record hrecord hbegins
      exact ⟨_, rfl, by rw [ClaimVersion.seq_settled]⟩
  · rw [VersionIn, OrderedMap.getElem?_insert]
    constructor
    · intro hversion
      split at hversion
      · exact Or.inl (ClaimVersion.encode_injective
          (Value.blob.inj (Record.value.inj (Option.some.inj hversion)))).symm
      · obtain ⟨old, hin, hkey, hrecord⟩ := hclosedVersions _ _ hversion
          (historyPrefix_starts _ _ _)
        exact Or.inr ⟨old, hin,
          ClaimVersion.encode_injective (Value.blob.inj (Record.value.inj hrecord))⟩
    · rintro (rfl | ⟨old, hin, rfl⟩)
      · rw [if_pos rfl]
      · rw [if_neg]
        · exact hold old hin
        · intro heq
          have hlt := hlater old hin
          rw [claimKey_inj.mp heq, ClaimVersion.seq_settled] at hlt
          exact lt_irrefl _ hlt

end Append

/-! ## The history of a subject and a predicate -/

/-- The claim is about the subject and the predicate. -/
def Concerns (subject predicate : Bytes) (claim : Claim) : Prop :=
  claim.subject = subject ∧ claim.predicate = predicate

instance (subject predicate : Bytes) (claim : Claim) :
    Decidable (Concerns subject predicate claim) :=
  inferInstanceAs (Decidable (claim.subject = subject ∧ claim.predicate = predicate))

/-- No history of the claim runs into that of the subject and the predicate. -/
def Apart (subject predicate : Bytes) (claim : Claim) : Prop :=
  ¬ ClaimVersion.historyPrefix subject predicate <+:
      ClaimVersion.historyPrefix claim.subject claim.predicate ∧
    ¬ ClaimVersion.historyPrefix claim.subject claim.predicate <+:
      ClaimVersion.historyPrefix subject predicate

instance (subject predicate : Bytes) (claim : Claim) :
    Decidable (Apart subject predicate claim) :=
  inferInstanceAs (Decidable (_ ∧ _))

/-- Every version is known from a start on; one without an end is the last, and the end of any
other is no later than the start of one. -/
structure History (map : RecordMap) (subject predicate : Bytes) : Prop where
  filed : WellFiled map subject predicate
  started : ∀ version, VersionIn map subject predicate version →
    version.claim.known.start ≠ none
  last : ∀ version other, VersionIn map subject predicate version →
    VersionIn map subject predicate other → version.claim.known.stop = none →
    other.seq ≤ version.seq
  closed : ∀ version stop, VersionIn map subject predicate version →
    version.claim.known.stop = some stop → ∃ other start,
      VersionIn map subject predicate other ∧ other.claim.known.start = some start ∧ stop ≤ start

/-- The claim is the last version, and not closed. -/
def Latest (map : RecordMap) (subject predicate : Bytes) (claim : Claim) : Prop :=
  claim.known.stop = none ∧
    ∃ version, VersionIn map subject predicate version ∧ version.claim = claim

section History

variable {subject predicate : Bytes} {claim : Claim} {map map' : RecordMap} {seq : U64}

theorem VersionIn.congr {version : ClaimVersion}
    (hsame : ∀ key : Key, ClaimVersion.historyPrefix subject predicate <+: key →
      map'[key]? = map[key]?) :
    VersionIn map' subject predicate version ↔ VersionIn map subject predicate version := by
  rw [VersionIn, hsame _ (historyPrefix_starts subject predicate version.seq), VersionIn]

theorem WellFiled.congr (hfiled : WellFiled map subject predicate)
    (hsame : ∀ key : Key, ClaimVersion.historyPrefix subject predicate <+: key →
      map'[key]? = map[key]?) : WellFiled map' subject predicate :=
  fun key record hrecord hbegins => hfiled key record (hsame key hbegins ▸ hrecord) hbegins

theorem History.congr (hhistory : History map subject predicate)
    (hsame : ∀ key : Key, ClaimVersion.historyPrefix subject predicate <+: key →
      map'[key]? = map[key]?) : History map' subject predicate := by
  refine ⟨hhistory.filed.congr hsame, ?_, ?_, ?_⟩
  · simp only [VersionIn.congr hsame]
    exact hhistory.started
  · simp only [VersionIn.congr hsame]
    exact hhistory.last
  · simp only [VersionIn.congr hsame]
    exact hhistory.closed

/-- Closing keeps the start, and the end of what is settled was there or is the new start. -/
theorem settled_known {start : Timestamp} (version : ClaimVersion) :
    (version.settled (some start)).claim.known.start = version.claim.known.start ∧
      (version.settled (some start)).claim.known.stop =
        some ((version.claim.known.stop).getD start) := by
  unfold ClaimVersion.settled
  split
  · next hopen =>
    rw [hopen]
    exact ⟨rfl, rfl⟩
  · next hstopped =>
    obtain ⟨stop, hstop⟩ := Option.ne_none_iff_exists'.mp hstopped
    rw [hstop]
    exact ⟨rfl, rfl⟩

theorem Appended.history (happended : Appended claim seq map map')
    (hhistory : History map claim.subject claim.predicate) {start : Timestamp}
    (hstart : claim.known.start = some start) (hstop : claim.known.stop = none) :
    History map' claim.subject claim.predicate := by
  have hnew : VersionIn map' claim.subject claim.predicate { claim := claim, seq := seq } :=
    (happended.versions _).mpr (Or.inl rfl)
  refine ⟨happended.filed, fun version hversion => ?_, fun version other hversion hother hopen => ?_,
    fun version stop hversion hclosed => ?_⟩
  · rcases (happended.versions version).mp hversion with rfl | ⟨old, hold, rfl⟩
    · exact hstart ▸ Option.some_ne_none start
    · rw [hstart, (settled_known old).1]
      exact hhistory.started old hold
  · rcases (happended.versions version).mp hversion with rfl | ⟨old, -, rfl⟩
    · rcases (happended.versions other).mp hother with rfl | ⟨old, hold, rfl⟩
      · exact le_refl _
      · rw [ClaimVersion.seq_settled]
        exact le_of_lt (happended.later old hold)
    · rw [hstart, (settled_known old).2] at hopen
      cases hopen
  · rcases (happended.versions version).mp hversion with rfl | ⟨old, hold, rfl⟩
    · rw [hstop] at hclosed
      cases hclosed
    · rw [hstart, (settled_known old).2] at hclosed
      obtain rfl := Option.some.inj hclosed
      cases hold' : old.claim.known.stop with
      | none => exact ⟨_, start, hnew, hstart, le_refl _⟩
      | some stop =>
          obtain ⟨other, begin', hother, hbegin, hle⟩ := hhistory.closed old stop hold hold'
          refine ⟨other.settled claim.known.start, begin',
            (happended.versions _).mpr (Or.inr ⟨other, hother, rfl⟩), ?_, hle⟩
          rw [hstart, (settled_known other).1, hbegin]

/-- The last version is believed from its start on, where it is valid. -/
theorem History.believed_open (hhistory : History map subject predicate)
    (hlatest : Latest map subject predicate claim) {asOf : AsOf} {start : Timestamp}
    (hstart : claim.known.start = some start) (hknown : start ≤ asOf.knownAt)
    (hvalid : claim.valid.contains asOf.validAt = true) :
    believed map subject predicate asOf = some claim := by
  obtain ⟨hopen, version, hversion, rfl⟩ := hlatest
  refine believed_of_last hhistory.filed hversion ?_ fun other hother _ =>
    hhistory.last version other hversion hother hopen
  rw [AsOf.holds, hvalid, Interval.contains, hstart, hopen]
  simpa using hknown

/-- With the current claim last, and every start in the past, the current claim is believed
where it is valid, and nothing is elsewhere. -/
theorem History.believed_latest (hhistory : History map subject predicate)
    (hlatest : Latest map subject predicate claim) {asOf : AsOf}
    (hnow : ∀ version start, VersionIn map subject predicate version →
      version.claim.known.start = some start → start ≤ asOf.knownAt) :
    believed map subject predicate asOf =
      if claim.valid.contains asOf.validAt then some claim else none := by
  obtain ⟨hopen, version, hversion, rfl⟩ := id hlatest
  obtain ⟨start, hstart⟩ := Option.ne_none_iff_exists'.mp (hhistory.started version hversion)
  -- Every other version was closed by a start in the past.
  have honly : ∀ other, VersionIn map subject predicate other → asOf.holds other = true →
      other = version := by
    intro other hother hholds
    cases hstop : other.claim.known.stop with
    | none =>
        exact hother.unique hversion (le_antisymm (hhistory.last version other hversion hother hopen)
          (hhistory.last other version hother hversion hstop))
    | some stop =>
        obtain ⟨closer, start, hcloser, hstart, hle⟩ := hhistory.closed other stop hother hstop
        have hpast := hle.trans (hnow closer start hcloser hstart)
        rw [AsOf.holds, Interval.contains, hstop] at hholds
        simp only [Option.all_some, Bool.and_eq_true, decide_eq_true_eq] at hholds
        exact absurd hpast (not_le.mpr hholds.1.2)
  split
  · next hvalid =>
    exact hhistory.believed_open hlatest hstart (hnow version start hversion hstart) hvalid
  · next hvalid =>
    refine believed_eq_none hhistory.filed fun other hother => ?_
    by_contra hholds
    obtain rfl := honly other hother ((Bool.not_eq_false _).mp hholds)
    rw [AsOf.holds, (Bool.not_eq_true _).mp hvalid, Bool.and_false] at hholds
    exact hholds rfl

end History

/-! ## What a write adds to a history -/

theorem appendClaimVersion_writes_own (claim : Claim) :
    (appendClaimVersion claim).Writes fun key =>
      ClaimVersion.historyPrefix claim.subject claim.predicate <+: key := by
  have hentries : (entries : RecordProgram (List (Key × Record))).Writes fun key =>
      ClaimVersion.historyPrefix claim.subject claim.predicate <+: key := fun _ => trivial
  refine hentries.bind fun records => KeyValue.Writes.bind (.forM fun version hversion => ?_)
    fun _ => ?_
  · exact ⟨List.isPrefixOf_iff_prefix.mp
      (isPrefixOf_of_mem_versionsAt (List.mem_filter.mp hversion).1), trivial⟩
  · cases nextVersion _ with
    | error error => trivial
    | ok seq => exact ⟨historyPrefix_starts _ _ seq, trivial⟩

/-- Histories that are apart have no key in common. -/
theorem Apart.frame {subject predicate : Bytes} {claim : Claim} {map map' : RecordMap}
    (hapart : Apart subject predicate claim)
    (hrun : (appendClaimVersion claim).onMap map = .ok ((), map')) {key : Key}
    (hkey : ClaimVersion.historyPrefix subject predicate <+: key) : map'[key]? = map[key]? := by
  refine (appendClaimVersion_writes_own claim).frame hrun fun hother => ?_
  rcases List.prefix_or_prefix_of_prefix hkey hother with hfirst | hfirst
  · exact hapart.1 hfirst
  · exact hapart.2 hfirst

/-- A record that may be written: a claim about the subject and the predicate only under the
one key, known from a start on and without an end; any other claim apart from these. -/
structure Fits (subject predicate : Bytes) (key : Key) (written : Key) (record : Record) :
    Prop where
  own : ∀ claim, record = .claim claim → Concerns subject predicate claim →
    written = key ∧ claim.known.stop = none ∧ claim.known.start ≠ none
  other : ∀ claim, record = .claim claim → ¬ Concerns subject predicate claim →
    Apart subject predicate claim
  outside : ∀ claim, record = .claim claim → RESERVED_HISTORY_PREFIX.isPrefixOf written = false

/-- The claims about the subject and the predicate, in order. -/
def claimsOn (subject predicate : Bytes) (written : List (Key × Record)) : List Claim :=
  written.filterMap fun entry =>
    match entry.2 with
    | .claim claim => if Concerns subject predicate claim then some claim else none
    | _ => none

section Loop

variable {subject predicate : Bytes} {key : Key} {map map' : RecordMap}

theorem appendHistory_cases {written : Key} {record : Record}
    (hfits : Fits subject predicate key written record)
    (hrun : (appendHistory record).onMap map = .ok ((), map')) :
    (claimsOn subject predicate [(written, record)] = [] ∧
      ∀ other : Key, ClaimVersion.historyPrefix subject predicate <+: other →
        map'[other]? = map[other]?) ∨
    ∃ claim, record = .claim claim ∧ Concerns subject predicate claim ∧
      claimsOn subject predicate [(written, record)] = [claim] ∧
      (appendClaimVersion claim).onMap map = .ok ((), map') := by
  cases record with
  | claim claim =>
      by_cases hconcerns : Concerns subject predicate claim
      · exact Or.inr ⟨claim, rfl, hconcerns, by simp [claimsOn, hconcerns], hrun⟩
      · refine Or.inl ⟨by simp [claimsOn, hconcerns], fun other hother => ?_⟩
        exact (hfits.other claim rfl hconcerns).frame hrun hother
  | value value =>
      obtain ⟨-, rfl⟩ := Prod.mk.inj (Except.ok.inj hrun)
      exact Or.inl ⟨rfl, fun _ _ => rfl⟩
  | observation obs =>
      obtain ⟨-, rfl⟩ := Prod.mk.inj (Except.ok.inj hrun)
      exact Or.inl ⟨rfl, fun _ _ => rfl⟩

/-- The last claim that is written is the last version. -/
theorem History.appendAll {written : List (Key × Record)}
    (hhistory : History map subject predicate)
    (hfits : ∀ entry ∈ written, Fits subject predicate key entry.1 entry.2)
    (hrun : (written.forM fun (_, record) => appendHistory record).onMap map = .ok ((), map')) :
    History map' subject predicate ∧
      (∀ claim, (claimsOn subject predicate written).getLast? = some claim →
        Latest map' subject predicate claim) ∧
      (claimsOn subject predicate written = [] →
        ∀ other : Key, ClaimVersion.historyPrefix subject predicate <+: other →
          map'[other]? = map[other]?) := by
  induction written generalizing map with
  | nil =>
      obtain ⟨-, rfl⟩ := Prod.mk.inj (Except.ok.inj hrun)
      exact ⟨hhistory, by simp [claimsOn], fun _ _ _ => rfl⟩
  | cons entry written ih =>
      obtain ⟨hentry, hwritten⟩ := List.forall_mem_cons.mp hfits
      obtain ⟨_, middle, hfirst, hrest⟩ := KeyValue.onMap_bind_eq_ok.mp hrun
      have hsplit : claimsOn subject predicate (entry :: written) =
          claimsOn subject predicate [entry] ++ claimsOn subject predicate written := by
        rw [claimsOn, ← List.singleton_append, List.filterMap_append]
        rfl
      rcases appendHistory_cases hentry hfirst with
        ⟨hnone, hsame⟩ | ⟨claim, hclaim, hconcerns, hone, happend⟩
      · rw [hsplit, hnone, List.nil_append]
        obtain ⟨hafter, hlatest, hkept⟩ := ih (hhistory.congr hsame) hwritten hrest
        exact ⟨hafter, hlatest, fun hempty other hother =>
          (hkept hempty other hother).trans (hsame other hother)⟩
      · obtain ⟨-, hstop, hstart⟩ := hentry.own claim hclaim hconcerns
        obtain ⟨start, hstart⟩ := Option.ne_none_iff_exists'.mp hstart
        obtain ⟨rfl, rfl⟩ := hconcerns
        obtain ⟨seq, happended⟩ := appendClaimVersion_spec hhistory.filed happend
        obtain ⟨hafter, hlatest, hkept⟩ :=
          ih (happended.history hhistory hstart hstop) hwritten hrest
        rw [hsplit, hone]
        refine ⟨hafter, fun last hlast => ?_, fun hempty => by simp at hempty⟩
        cases hmore : claimsOn claim.subject claim.predicate written with
        | nil =>
            rw [hmore] at hlast
            obtain rfl := Option.some.inj hlast
            refine ⟨hstop, { claim := claim, seq := seq }, ?_, rfl⟩
            rw [VersionIn.congr (hkept hmore)]
            exact (happended.versions _).mpr (Or.inl rfl)
        | cons second more =>
            refine hlatest last ?_
            rw [hmore] at hlast ⊢
            simpa using hlast

/-- Versions of the same known and valid intervals are no change where they do not hold. -/
theorem History.appendAll_aside {written : List (Key × Record)} {known valid : Interval}
    {start : Timestamp} {asOf : AsOf} (hhistory : History map subject predicate)
    (hfits : ∀ entry ∈ written, Fits subject predicate key entry.1 entry.2)
    (hstart : known.start = some start)
    (hclaims : ∀ claim ∈ claimsOn subject predicate written,
      claim.known = known ∧ claim.valid = valid)
    (hopen : ∀ version, VersionIn map subject predicate version →
      version.claim.known.stop = none →
      version.claim.known = known ∧ version.claim.valid = valid)
    (haside : ¬ (start ≤ asOf.knownAt ∧ valid.contains asOf.validAt = true))
    (hrun : (written.forM fun (_, record) => appendHistory record).onMap map = .ok ((), map')) :
    ∀ version, asOf.holds version = true →
      (VersionIn map subject predicate version ↔ VersionIn map' subject predicate version) := by
  have hmisses : ∀ version : ClaimVersion, version.claim.known.start = some start →
      version.claim.valid = valid → asOf.holds version = false := by
    intro version hbegins hvalid
    by_contra hholds
    rw [AsOf.holds, Interval.contains, hbegins, hvalid] at hholds
    simp only [Option.all_some, Bool.not_eq_false, Bool.and_eq_true, decide_eq_true_eq] at hholds
    exact haside ⟨hholds.1.1, hholds.2⟩
  induction written generalizing map with
  | nil =>
      obtain ⟨-, rfl⟩ := Prod.mk.inj (Except.ok.inj hrun)
      exact fun _ _ => Iff.rfl
  | cons entry written ih =>
      obtain ⟨hentry, hwritten⟩ := List.forall_mem_cons.mp hfits
      obtain ⟨_, middle, hfirst, hrest⟩ := KeyValue.onMap_bind_eq_ok.mp hrun
      have hsplit : claimsOn subject predicate (entry :: written) =
          claimsOn subject predicate [entry] ++ claimsOn subject predicate written := by
        rw [claimsOn, ← List.singleton_append, List.filterMap_append]
        rfl
      rw [hsplit] at hclaims
      obtain ⟨hone, hmore⟩ := List.forall_mem_append.mp hclaims
      rcases appendHistory_cases hentry hfirst with
        ⟨-, hsame⟩ | ⟨claim, hclaim, hconcerns, heq, happend⟩
      · intro version hholds
        rw [← ih (hhistory.congr hsame) hwritten hmore ?_ hrest version hholds,
          VersionIn.congr hsame]
        intro other hother
        exact hopen other ((VersionIn.congr hsame).mp hother)
      · obtain ⟨-, hstop, -⟩ := hentry.own claim hclaim hconcerns
        obtain ⟨hknown, hvalid⟩ := hone claim (heq ▸ List.mem_singleton_self claim)
        obtain ⟨rfl, rfl⟩ := hconcerns
        obtain ⟨seq, happended⟩ := appendClaimVersion_spec hhistory.filed happend
        have hbegins : claim.known.start = some start := hknown ▸ hstart
        have hafter := happended.history hhistory hbegins hstop
        have hopen' : ∀ version, VersionIn middle claim.subject claim.predicate version →
            version.claim.known.stop = none →
            version.claim.known = known ∧ version.claim.valid = valid := by
          intro version hversion hopens
          rcases (happended.versions version).mp hversion with rfl | ⟨old, -, rfl⟩
          · exact ⟨hknown, hvalid⟩
          · rw [hbegins, (settled_known old).2] at hopens
            cases hopens
        intro version hholds
        rw [← ih hafter hwritten hmore hopen' hrest version hholds]
        -- A version that is open, or was just closed at its start, does not hold.
        constructor
        · intro hversion
          refine (happended.versions version).mpr (Or.inr ⟨version, hversion, ?_⟩)
          unfold ClaimVersion.settled
          split
          · next hopens =>
            obtain ⟨hsame, hsame'⟩ := hopen version hversion hopens
            rw [hmisses version (hsame ▸ hstart) hsame'] at hholds
            cases hholds
          · rfl
        · intro hversion
          rcases (happended.versions version).mp hversion with rfl | ⟨old, hold, rfl⟩
          · rw [hmisses _ hbegins hvalid] at hholds
            cases hholds
          · by_cases hopens : old.claim.known.stop = none
            · obtain ⟨hsame, hsame'⟩ := hopen old hold hopens
              rw [hmisses] at hholds
              · cases hholds
              · rw [hbegins, (settled_known old).1, hsame, hstart]
              · rw [← hsame', ClaimVersion.settled, if_pos hopens]
                rfl
            · rwa [ClaimVersion.settled, if_neg hopens]

/-- The last record of the key, if it is a claim that concerns, is the last such claim. -/
theorem getLast?_claimsOn {written : List (Key × Record)}
    (hfits : ∀ entry ∈ written, Fits subject predicate key entry.1 entry.2) :
    (∀ claim, lastRecord written key = some (.claim claim) → Concerns subject predicate claim →
      (claimsOn subject predicate written).getLast? = some claim) ∧
    (lastRecord written key = none → claimsOn subject predicate written = []) := by
  have hsplit : claimsOn subject predicate written =
      (written.filterMap fun entry => if entry.1 = key then some entry.2 else none).filterMap
        fun record => match record with
          | .claim claim => if Concerns subject predicate claim then some claim else none
          | _ => none := by
    rw [List.filterMap_filterMap, claimsOn]
    refine List.filterMap_congr fun entry hentry => ?_
    obtain ⟨written, record⟩ := entry
    by_cases hkey : written = key
    · rw [if_pos hkey, Option.bind_some]
    · rw [if_neg hkey, Option.bind_none]
      cases record with
      | claim claim =>
          refine if_neg fun hconcerns => hkey ?_
          exact ((hfits _ hentry).own claim rfl hconcerns).1
      | value value => rfl
      | observation obs => rfl
  rw [hsplit]
  constructor
  · intro claim hlast hconcerns
    obtain ⟨before, hbefore⟩ := List.getLast?_eq_some_iff.mp hlast
    rw [hbefore, List.filterMap_append]
    simp [hconcerns]
  · intro hnone
    rw [lastRecord, List.getLast?_eq_none_iff] at hnone
    rw [hnone]
    rfl

end Loop

/-! ## Writes and forgetting -/

/-- The history is in order, every claim fits, and the current one is the last version. -/
structure Told (map : RecordMap) (subject predicate : Bytes) (key : Key) : Prop where
  history : History map subject predicate
  fits : ∀ (other : Key) (record : Record), map[other]? = some record →
    Fits subject predicate key other record
  current : ∀ claim, map[key]? = some (.claim claim) → Concerns subject predicate claim →
    Latest map subject predicate claim

/-- A key of the engine that is in no history. -/
def IsAside (key : Key) : Prop :=
  isCaller key = false ∧ RESERVED_HISTORY_PREFIX.isPrefixOf key = false

theorem isAside_of_isProvenance {key : Key} (hkey : isProvenance key = true) : IsAside key := by
  refine ⟨isCaller_of_isProvenance hkey, ?_⟩
  rcases Bool.or_eq_true_iff.mp hkey with hstarts | hstarts
  all_goals
    obtain ⟨rest, rfl⟩ := List.isPrefixOf_iff_prefix.mp hstarts
    exact isPrefixOf_append_eq_false (by decide) (by decide) rest

theorem isAside_reserved {mid : Bytes} (hreserved : RESERVED_PREFIX.isPrefixOf mid = true)
    (hstart : RESERVED_HISTORY_PREFIX.isPrefixOf mid = false)
    (hmid : mid.isPrefixOf RESERVED_HISTORY_PREFIX = false) (rest : Bytes) : IsAside (mid ++ rest) :=
  ⟨isCaller_of_isReserved (isReserved_append hreserved rest),
    isPrefixOf_append_eq_false hstart hmid rest⟩

theorem isAside_of_isVectorKey {key : Key} (hvector : isVectorKey key = true) : IsAside key := by
  rcases Bool.or_eq_true_iff.mp hvector with hstarts | hstarts
  all_goals
    obtain ⟨rest, rfl⟩ := List.isPrefixOf_iff_prefix.mp hstarts
    exact isAside_reserved (by decide) (by decide) (by decide) rest

theorem isAside_storageKey (key : Key) : IsAside (IndexEntry.storageKey key) :=
  isAside_reserved (by decide) (by decide) (by decide) key

theorem appendNodes_aside (branch : BranchId) (nodes : List DerivationNode) (seq : U64) :
    (appendNodes branch nodes seq).Writes IsAside := by
  induction nodes generalizing seq with
  | nil => trivial
  | cons node nodes ih =>
      have hnode : (appendNode branch node seq).Writes IsAside :=
        ⟨isAside_of_isProvenance (by simp),
          isAside_reserved (by decide) (by decide) (by decide) node.key,
          .forM fun source _ => ⟨isAside_of_isProvenance (by simp), trivial⟩⟩
      refine hnode.bind fun _ => ?_
      cases seq.next with
      | error error => trivial
      | ok next => exact ih next

theorem indexRecord_aside (captured : ReadSet) (hints : ExtTreeMap Key IndexHint) (key : Key)
    (record : Record) : (indexRecord captured hints key record).Writes IsAside := by
  rw [indexRecord_eq]
  cases newEntry captured hints key record with
  | none => trivial
  | some entry =>
      refine ⟨isAside_storageKey key, ?_⟩
      cases entry.embedding with
      | none => trivial
      | some embedding =>
          exact ⟨isAside_reserved (by decide) (by decide) (by decide) key, trivial⟩

theorem appendHistory_engine (record : Record) :
    (appendHistory record).Writes fun key => isCaller key = false :=
  (appendHistory_writes record).mono fun _ => And.left

/-- The record is no claim. -/
def NoClaim (_ : Key) (record : Record) : Prop :=
  ∀ claim, record ≠ .claim claim

theorem noClaim_value (key : Key) (value : Value) : NoClaim key (.value value) := by
  intro claim heq
  cases heq

theorem appendNodes_noClaim (branch : BranchId) (nodes : List DerivationNode) (seq : U64) :
    (appendNodes branch nodes seq).Inserts NoClaim := by
  induction nodes generalizing seq with
  | nil => trivial
  | cons node nodes ih =>
      exact .bind (.bind (.put (noClaim_value _ _)) fun _ => .bind (.put (noClaim_value _ _))
        fun _ => .forM fun _ _ => .put (noClaim_value _ _)) fun _ => .bind (.lift _) fun _ => ih _

theorem engineAppends_noClaim {platform : Platform} {branch : BranchId} {head : CommitId}
    {written : List (Key × Record)} {envelope : WriteEnvelope} {captured : ReadSet}
    {extraParents : ExtTreeMap Key (List NodeId)} {hints : ExtTreeMap Key IndexHint} :
    (engineAppends platform branch head written envelope captured extraParents hints).Inserts
      NoClaim := by
  have hindex : ∀ key record, (indexRecord captured hints key record).Inserts NoClaim := by
    intro key record
    rw [indexRecord_eq]
    cases newEntry captured hints key record with
    | none => trivial
    | some entry =>
        refine .bind (.put (noClaim_value _ _)) fun _ => ?_
        cases entry.embedding with
        | none => trivial
        | some embedding => exact .put (noClaim_value _ _)
  have hhistory : ∀ record, (appendHistory record).Inserts NoClaim := by
    intro record
    cases record with
    | claim claim =>
        exact .bind .entries fun _ => .bind (.forM fun _ _ => .put (noClaim_value _ _)) fun _ =>
          .bind (.lift _) fun _ => .put (noClaim_value _ _)
    | _ => trivial
  have hrest : KeyValue.Inserts NoClaim (do
      written.forM fun (key, record) => indexRecord captured hints key record
      written.forM fun (_, record) => appendHistory record) :=
    .bind (.forM fun _ _ => hindex _ _) fun _ => .forM fun _ _ => hhistory _
  unfold engineAppends
  split
  · exact .bind (.bind (.ask _) fun _ => .bind (appendNodes_noClaim branch _ _) fun _ =>
      .put (noClaim_value _ _)) fun _ => hrest
  · exact hrest

section Told

variable {subject predicate : Bytes} {key : Key} {map map' : RecordMap}

theorem Fits.of_noClaim {written : Key} {record : Record} (hnone : NoClaim written record) :
    Fits subject predicate key written record :=
  ⟨fun claim heq => absurd heq (hnone claim), fun claim heq => absurd heq (hnone claim),
    fun claim heq => absurd heq (hnone claim)⟩

theorem historyPrefix_isPrefixOf {other : Key}
    (hbegins : ClaimVersion.historyPrefix subject predicate <+: other) :
    RESERVED_HISTORY_PREFIX.isPrefixOf other = true ∧ isCaller other = false := by
  have hstarts : RESERVED_HISTORY_PREFIX <+: ClaimVersion.historyPrefix subject predicate := by
    simp only [ClaimVersion.historyPrefix, List.append_assoc]
    exact List.prefix_append _ _
  refine ⟨List.isPrefixOf_iff_prefix.mpr (hstarts.trans hbegins), ?_⟩
  exact isCaller_of_isReserved (ClaimVersion.isReserved_of_historyPrefix
    (List.isPrefixOf_iff_prefix.mpr hbegins))

theorem frame_of_aside {α : Type} {program : RecordProgram α} {result : α}
    (hwrites : program.Writes IsAside) (hrun : program.onMap map = .ok (result, map')) {other : Key}
    (hother : isCaller other = true ∨ RESERVED_HISTORY_PREFIX.isPrefixOf other = true) :
    map'[other]? = map[other]? := by
  refine hwrites.frame hrun ?_
  rintro ⟨hengine, haside⟩
  rcases hother with hcaller | hhistory
  · exact Bool.false_ne_true (hengine.symm.trans hcaller)
  · exact Bool.false_ne_true (haside.symm.trans hhistory)

/-- What leaves the key and the history alone, and adds no claim. -/
theorem Told.of_aside {α : Type} {program : RecordProgram α} {result : α}
    (htold : Told map subject predicate key) (hcaller : isCaller key = true)
    (hwrites : program.Writes IsAside) (hinserts : program.Inserts NoClaim)
    (hrun : program.onMap map = .ok (result, map')) : Told map' subject predicate key := by
  have hsame : ∀ other : Key, ClaimVersion.historyPrefix subject predicate <+: other →
      map'[other]? = map[other]? := fun other hother =>
    frame_of_aside hwrites hrun (Or.inr (historyPrefix_isPrefixOf hother).1)
  have hkey : map'[key]? = map[key]? := frame_of_aside hwrites hrun (Or.inl hcaller)
  refine ⟨htold.history.congr hsame, fun other record hrecord => ?_, fun claim hclaim hconcerns => ?_⟩
  · exact (hinserts.getElem? hrun hrecord).elim (htold.fits other record) .of_noClaim
  · obtain ⟨hopen, version, hversion, hlast⟩ := htold.current claim (hkey ▸ hclaim) hconcerns
    exact ⟨hopen, version, (VersionIn.congr hsame).mpr hversion, hlast⟩

/-- What may be written: no key of a history, and claims that fit. -/
def Admissible (subject predicate : Bytes) (key : Key) (written : List (Key × Record)) : Prop :=
  ∀ entry ∈ written, RESERVED_HISTORY_PREFIX.isPrefixOf entry.1 = false ∧
    Fits subject predicate key entry.1 entry.2

/-- What the engine adds leaves the key alone and adds the claims to the history. -/
theorem engineAppends_history {platform : Platform} {branch : BranchId} {head : CommitId}
    {written : List (Key × Record)} {envelope : WriteEnvelope} {captured : ReadSet}
    {extraParents : ExtTreeMap Key (List NodeId)} {hints : ExtTreeMap Key IndexHint}
    (hrun : (engineAppends platform branch head written envelope captured extraParents
      hints).onMap map = .ok ((), map')) :
    (∀ other, isCaller other = true → map'[other]? = map[other]?) ∧
      ∃ indexed : RecordMap,
        (∀ other, RESERVED_HISTORY_PREFIX.isPrefixOf other = true →
          indexed[other]? = map[other]?) ∧
        (written.forM fun (_, record) => appendHistory record).onMap indexed = .ok ((), map') := by
  have hrest : ∀ before : RecordMap, (do
      written.forM fun (key, record) => indexRecord captured hints key record
      written.forM fun (_, record) => appendHistory record : RecordProgram Unit).onMap before =
        .ok ((), map') → (∀ other, isCaller other = true → map'[other]? = before[other]?) ∧
      ∃ indexed : RecordMap,
        (∀ other, RESERVED_HISTORY_PREFIX.isPrefixOf other = true →
          indexed[other]? = before[other]?) ∧
        (written.forM fun (_, record) => appendHistory record).onMap indexed =
          .ok ((), map') := by
    intro before hbefore
    obtain ⟨_, indexed, hindex, hhistory⟩ := KeyValue.onMap_bind_eq_ok.mp hbefore
    have hwrites : (written.forM fun (key, record) => indexRecord captured hints key record).Writes
        IsAside := .forM fun _ _ => indexRecord_aside _ _ _ _
    refine ⟨fun other hother => ?_, indexed,
      fun other hother => frame_of_aside hwrites hindex (Or.inr hother), hhistory⟩
    rw [(KeyValue.Writes.forM fun _ _ => appendHistory_engine _).frame hhistory,
      frame_of_aside hwrites hindex (Or.inl hother)]
    rw [hother]
    exact Bool.true_eq_false_eq_False
  unfold engineAppends at hrun
  split at hrun
  · obtain ⟨_, appended, hprovenance, hrun⟩ := KeyValue.onMap_bind_eq_ok.mp hrun
    have hwrites : (appendProvenance branch (derivationNodes platform branch head written envelope
        captured extraParents)).Writes IsAside :=
      fun _ => (appendNodes_aside branch _ _).bind fun _ =>
        ⟨isAside_reserved (by decide) (by decide) (by decide) branch, trivial⟩
    obtain ⟨hcallers, indexed, hhistories, hhistory⟩ := hrest appended hrun
    exact ⟨fun other hother => (hcallers other hother).trans
        (frame_of_aside hwrites hprovenance (Or.inl hother)), indexed,
      fun other hother => (hhistories other hother).trans
        (frame_of_aside hwrites hprovenance (Or.inr hother)), hhistory⟩
  · exact hrest map hrun

/-- A write of claims that fit. -/
theorem Told.writeProgram {platform : Platform} {branch : BranchId} {head : CommitId}
    {written : List (Key × Record)} {envelope : WriteEnvelope} {captured : ReadSet}
    {extraParents : ExtTreeMap Key (List NodeId)} {hints : ExtTreeMap Key IndexHint}
    (htold : Told map subject predicate key) (hcaller : isCaller key = true)
    (hwritten : Admissible subject predicate key written)
    (hrun : (writeProgram platform branch head written envelope captured extraParents hints).onMap
      map = .ok ((), map')) : Told map' subject predicate key := by
  obtain ⟨_, put', hput, happends⟩ := KeyValue.onMap_bind_eq_ok.mp hrun
  have hfits : ∀ entry ∈ written, Fits subject predicate key entry.1 entry.2 :=
    fun entry hentry => (hwritten entry hentry).2
  have hputWrites : (written.forM fun (key, record) => (put key record : RecordProgram Unit)).Writes
      fun other => RESERVED_HISTORY_PREFIX.isPrefixOf other = false :=
    .forM fun entry hentry => ⟨(hwritten entry hentry).1, trivial⟩
  have hputInserts : (written.forM fun (key, record) =>
      (put key record : RecordProgram Unit)).Inserts (Fits subject predicate key) :=
    .forM fun entry hentry => .put (hfits entry hentry)
  obtain ⟨hcallers, indexed, hhistories, hhistory⟩ := engineAppends_history happends
  have hsame : ∀ other : Key, ClaimVersion.historyPrefix subject predicate <+: other →
      indexed[other]? = map[other]? := by
    intro other hother
    have hstarts := (historyPrefix_isPrefixOf hother).1
    rw [hhistories other hstarts, hputWrites.frame hput]
    rw [hstarts]
    exact Bool.true_eq_false_eq_False
  obtain ⟨hafter, hlatest, hkept⟩ := (htold.history.congr hsame).appendAll hfits hhistory
  refine ⟨hafter, fun other record hrecord => ?_, fun claim hclaim hconcerns => ?_⟩
  · rcases engineAppends_noClaim.getElem? happends hrecord with hold | hnone
    · rcases hputInserts.getElem? hput hold with hold | hnew
      · exact htold.fits other record hold
      · exact hnew
    · exact .of_noClaim hnone
  · rw [hcallers key hcaller, getElem?_putAll hput] at hclaim
    obtain ⟨hlast, hnone⟩ := getLast?_claimsOn hfits
    cases hrecord : lastRecord written key with
    | some record =>
        rw [hrecord, Option.some_or] at hclaim
        obtain rfl := Option.some.inj hclaim
        exact hlatest claim (hlast claim hrecord hconcerns)
    | none =>
        rw [hrecord, Option.none_or] at hclaim
        obtain ⟨hopen, version, hversion, rfl⟩ := htold.current claim hclaim hconcerns
        refine ⟨hopen, version, ?_, rfl⟩
        rwa [VersionIn.congr (hkept (hnone hrecord)), VersionIn.congr hsame]

/-! ### Forgetting -/

/-- What a claim is after it was withdrawn. -/
def Claim.withdrawn (claim : Claim) : Claim :=
  { claim with status := .invalidated }

/-- The claim still stands. -/
def Claim.Stands (claim : Claim) : Prop :=
  claim.status = .asserted ∨ claim.status = .stale

theorem invalidateClaim_cases {found : Option Record} {done : Bool}
    (hrun : (Engine.invalidateClaim key found).onMap map = .ok (done, map')) :
    map' = map ∨ ∃ claim, found = some (.claim claim) ∧ claim.Stands ∧
      map' = map.insert key (.claim claim.withdrawn) := by
  unfold Engine.invalidateClaim at hrun
  split at hrun
  · next claim =>
    split at hrun
    · next hstands =>
      rw [KeyValue.onMap_put_bind] at hrun
      obtain ⟨-, rfl⟩ := Prod.mk.inj (Except.ok.inj hrun)
      exact Or.inr ⟨claim, rfl, hstands, rfl⟩
    · obtain ⟨-, rfl⟩ := Prod.mk.inj (Except.ok.inj hrun)
      exact Or.inl rfl
  · obtain ⟨-, rfl⟩ := Prod.mk.inj (Except.ok.inj hrun)
    exact Or.inl rfl

/-- A record that forgetting leaves was there, or is a claim that was withdrawn. -/
theorem forgetKeys_cases {keys : List Key} {counts : ℕ × ℕ}
    (hrun : (Engine.forgetKeys keys).onMap map = .ok (counts, map')) {other : Key}
    {record : Record} (hrecord : map'[other]? = some record) :
    map[other]? = some record ∨ other ∈ keys ∧ ∃ claim, map[other]? = some (.claim claim) ∧
      claim.Stands ∧ record = .claim claim.withdrawn := by
  induction keys generalizing map counts with
  | nil =>
      obtain ⟨-, rfl⟩ := Prod.mk.inj (Except.ok.inj hrun)
      exact Or.inl hrecord
  | cons first keys ih =>
      rw [Engine.forgetKeys, KeyValue.onMap_drop_bind, KeyValue.onMap_ask_bind] at hrun
      obtain ⟨_, middle, hclaim, hrest⟩ := KeyValue.onMap_bind_eq_ok.mp hrun
      obtain ⟨⟨_, _⟩, last, hkeys, hreturn⟩ := KeyValue.onMap_bind_eq_ok.mp hrest
      obtain ⟨-, rfl⟩ := Prod.mk.inj (Except.ok.inj hreturn)
      have herased : ∀ {found : Record},
          (map.erase (IndexEntry.storageKey first))[other]? = some found →
          map[other]? = some found := by
        intro found hfound
        rw [OrderedMap.getElem?_erase] at hfound
        split at hfound
        · cases hfound
        · exact hfound
      have hmiddle : ∀ {found : Record}, middle[other]? = some found →
          map[other]? = some found ∨ other = first ∧ ∃ claim,
            map[other]? = some (.claim claim) ∧ claim.Stands ∧
            found = .claim claim.withdrawn := by
        intro found hfound
        rcases invalidateClaim_cases hclaim with rfl | ⟨claim, hasked, hstands, rfl⟩
        · exact Or.inl (herased hfound)
        · rw [OrderedMap.getElem?_insert] at hfound
          split at hfound
          · next heq =>
            subst heq
            exact Or.inr ⟨rfl, claim, herased hasked, hstands, (Option.some.inj hfound).symm⟩
          · exact Or.inl (herased hfound)
      rcases ih hkeys with hsame | ⟨hmem, claim, hfound, hstands, rfl⟩
      · rcases hmiddle hsame with hsame | ⟨rfl, hwithdrawn⟩
        · exact Or.inl hsame
        · exact Or.inr ⟨List.mem_cons_self, hwithdrawn⟩
      · rcases hmiddle hfound with hsame | ⟨rfl, claim', -, -, heq⟩
        · exact Or.inr ⟨List.mem_cons_of_mem _ hmem, claim, hsame, hstands, rfl⟩
        · obtain rfl := Record.claim.inj heq
          rcases hstands with hstatus | hstatus <;> cases hstatus

theorem forgetKeys_history {keys : List Key} {counts : ℕ × ℕ}
    (hfiled : WellFiled map subject predicate)
    (hrun : (Engine.forgetKeys keys).onMap map = .ok (counts, map')) {other : Key}
    (hother : ClaimVersion.historyPrefix subject predicate <+: other) :
    map'[other]? = map[other]? := by
  induction keys generalizing map counts with
  | nil =>
      obtain ⟨-, rfl⟩ := Prod.mk.inj (Except.ok.inj hrun)
      rfl
  | cons first keys ih =>
      rw [Engine.forgetKeys, KeyValue.onMap_drop_bind, KeyValue.onMap_ask_bind] at hrun
      obtain ⟨_, middle, hclaim, hrest⟩ := KeyValue.onMap_bind_eq_ok.mp hrun
      obtain ⟨⟨_, _⟩, last, hkeys, hreturn⟩ := KeyValue.onMap_bind_eq_ok.mp hrest
      obtain ⟨-, rfl⟩ := Prod.mk.inj (Except.ok.inj hreturn)
      have herased : ∀ other : Key, ClaimVersion.historyPrefix subject predicate <+: other →
          (map.erase (IndexEntry.storageKey first))[other]? = map[other]? := by
        intro other hbegins
        rw [OrderedMap.getElem?_erase, if_neg]
        rintro rfl
        have haside := (isAside_storageKey first).2
        rw [(historyPrefix_isPrefixOf hbegins).1] at haside
        cases haside
      have hmiddle : ∀ other : Key, ClaimVersion.historyPrefix subject predicate <+: other →
          middle[other]? = map[other]? := by
        intro other hbegins
        rcases invalidateClaim_cases hclaim with rfl | ⟨claim, hasked, -, rfl⟩
        · exact herased other hbegins
        · rw [OrderedMap.getElem?_insert, if_neg, herased other hbegins]
          rintro rfl
          rw [herased first hbegins] at hasked
          obtain ⟨version, hblob, -⟩ := hfiled first _ hasked hbegins
          cases hblob
      rw [ih (hfiled.congr hmiddle) hkeys, hmiddle other hother]

/-- Forgetting that withdraws no current claim. -/
theorem Told.forgetKeys {keys : List Key} {counts : ℕ × ℕ}
    (htold : Told map subject predicate key)
    (hspares : key ∈ keys → ∀ claim, map[key]? = some (.claim claim) →
      Concerns subject predicate claim → ¬ claim.Stands)
    (hrun : (Engine.forgetKeys keys).onMap map = .ok (counts, map')) :
    Told map' subject predicate key := by
  have hsame : ∀ other : Key, ClaimVersion.historyPrefix subject predicate <+: other →
      map'[other]? = map[other]? := fun other hother =>
    forgetKeys_history htold.history.filed hrun hother
  refine ⟨htold.history.congr hsame, fun other record hrecord => ?_, fun claim hclaim hconcerns => ?_⟩
  · rcases forgetKeys_cases hrun hrecord with hold | ⟨-, claim, hold, -, rfl⟩
    · exact htold.fits other record hold
    · have hfits := htold.fits other _ hold
      refine ⟨fun other' heq => ?_, fun other' heq => ?_, fun _ _ => hfits.outside claim rfl⟩
      · obtain rfl := Record.claim.inj heq
        exact hfits.own claim rfl
      · obtain rfl := Record.claim.inj heq
        exact hfits.other claim rfl
  · have hold : map[key]? = some (.claim claim) := by
      rcases forgetKeys_cases hrun hclaim with hold | ⟨hmem, standing, hold, hstands, heq⟩
      · exact hold
      · obtain rfl := Record.claim.inj heq
        exact absurd hstands (hspares hmem standing hold hconcerns)
    obtain ⟨hopen, version, hversion, rfl⟩ := htold.current claim hold hconcerns
    exact ⟨hopen, version, (VersionIn.congr hsame).mpr hversion, rfl⟩

/-! ### Marking -/

/-- What a claim is after it was marked. -/
def Claim.marked (claim : Claim) : Claim :=
  { claim with status := .stale }

/-- The writes mark claims of the map that are asserted. -/
def Marks (map : RecordMap) (written : List (Key × Record)) : Prop :=
  ∀ entry ∈ written, ∃ claim, map[entry.1]? = some (.claim claim) ∧ claim.status = .asserted ∧
    entry.2 = .claim claim.marked

/-- What is marked fits as it did. -/
theorem Told.admissible (htold : Told map subject predicate key) {written : List (Key × Record)}
    (hmarks : Marks map written) : Admissible subject predicate key written := by
  intro entry hentry
  obtain ⟨claim, hclaim, -, hrecord⟩ := hmarks entry hentry
  have hfits := htold.fits entry.1 _ hclaim
  have houtside := hfits.outside claim rfl
  refine ⟨houtside, ?_⟩
  rw [hrecord]
  refine ⟨fun other heq => ?_, fun other heq => ?_, fun _ _ => houtside⟩
  · obtain rfl := Record.claim.inj heq
    exact hfits.own claim rfl
  · obtain rfl := Record.claim.inj heq
    exact hfits.other claim rfl

/-- The current claim was known and valid at the instants. -/
def HeldAt (map : RecordMap) (subject predicate : Bytes) (key : Key) (asOf : AsOf) : Prop :=
  ∃ claim start, map[key]? = some (.claim claim) ∧ Concerns subject predicate claim ∧
    claim.known.start = some start ∧ start ≤ asOf.knownAt ∧
    claim.valid.contains asOf.validAt = true

/-- Marking the current claim changes what is believed wherever the claim held, the past included,
and nowhere else. -/
theorem Told.believed_marked {platform : Platform} {branch : BranchId} {head : CommitId}
    {written : List (Key × Record)} {envelope : WriteEnvelope} {captured : ReadSet}
    {extraParents : ExtTreeMap Key (List NodeId)} {hints : ExtTreeMap Key IndexHint}
    (htold : Told map subject predicate key) (hcaller : isCaller key = true)
    (hmarks : Marks map written)
    (hrun : (LoomDB.writeProgram platform branch head written envelope captured extraParents
      hints).onMap map = .ok ((), map')) (asOf : AsOf) :
    believed map' subject predicate asOf = believed map subject predicate asOf ↔
      ¬ (key ∈ written.map Prod.fst ∧ HeldAt map subject predicate key asOf) := by
  have hadmissible := htold.admissible hmarks
  have htold' := htold.writeProgram hcaller hadmissible hrun
  have hfits : ∀ entry ∈ written, Fits subject predicate key entry.1 entry.2 :=
    fun entry hentry => (hadmissible entry hentry).2
  obtain ⟨_, put', hput, happends⟩ := KeyValue.onMap_bind_eq_ok.mp hrun
  obtain ⟨hcallers, indexed, hhistories, hhistory⟩ := engineAppends_history happends
  have hputWrites : (written.forM fun (key, record) => (put key record : RecordProgram Unit)).Writes
      fun other => RESERVED_HISTORY_PREFIX.isPrefixOf other = false :=
    .forM fun entry hentry => ⟨(hadmissible entry hentry).1, trivial⟩
  have hsame : ∀ other : Key, ClaimVersion.historyPrefix subject predicate <+: other →
      indexed[other]? = map[other]? := by
    intro other hother
    have hstarts := (historyPrefix_isPrefixOf hother).1
    rw [hhistories other hstarts, hputWrites.frame hput]
    rw [hstarts]
    exact Bool.true_eq_false_eq_False
  -- A claim that concerns was written under the key, and is the current one.
  have hmarked : ∀ claim ∈ claimsOn subject predicate written, key ∈ written.map Prod.fst ∧
      ∃ current, map[key]? = some (.claim current) ∧ Concerns subject predicate current ∧
        claim = current.marked := by
    intro claim hclaim
    obtain ⟨⟨written', record⟩, hentry, hfound⟩ := List.mem_filterMap.mp hclaim
    obtain ⟨current, hcurrent, -, hrecord⟩ := hmarks _ hentry
    dsimp only at hrecord hcurrent hfound
    subst hrecord
    dsimp only at hfound
    split at hfound
    · next hconcerns =>
      obtain rfl := Option.some.inj hfound
      obtain ⟨rfl, -, -⟩ := (hfits _ hentry).own _ rfl hconcerns
      exact ⟨List.mem_map_of_mem hentry, current, hcurrent, hconcerns, rfl⟩
    · cases hfound
  constructor
  · rintro heq ⟨hkey, claim, start, hclaim, hconcerns, hstart, hknown, hvalid⟩
    obtain ⟨⟨written', record⟩, hentry, rfl⟩ := List.mem_map.mp hkey
    obtain ⟨last, hlast⟩ := lastRecord_isSome hentry
    obtain ⟨current, hcurrent, hasserted, hrecord⟩ := hmarks _ (mem_of_lastRecord hlast)
    dsimp only at hcurrent hrecord hclaim hlast hasserted
    obtain rfl := Record.claim.inj (Option.some.inj (hclaim.symm.trans hcurrent))
    have hafter : map'[written']? = some (.claim claim.marked) := by
      rw [hcallers written' hcaller, getElem?_putAll hput, hlast, Option.some_or, hrecord]
    have hbefore := htold.history.believed_open (htold.current claim hclaim hconcerns) hstart hknown
      hvalid
    have hnow := htold'.history.believed_open (htold'.current claim.marked hafter hconcerns) hstart
      hknown hvalid
    rw [hbefore, hnow] at heq
    have hstatus := congrArg Claim.status (Option.some.inj heq)
    rw [hasserted] at hstatus
    cases hstatus
  · intro hunheld
    refine believed_congr htold.history.filed htold'.history.filed fun version hholds => ?_
    cases hclaims : claimsOn subject predicate written with
    | nil =>
        obtain ⟨-, -, hkept⟩ := (htold.history.congr hsame).appendAll hfits hhistory
        rw [VersionIn.congr (hkept hclaims), VersionIn.congr hsame]
    | cons first rest =>
        obtain ⟨hkey, current, hcurrent, hconcerns, -⟩ :=
          hmarked first (hclaims ▸ List.mem_cons_self)
        obtain ⟨-, hstop, hstart⟩ := (htold.fits key _ hcurrent).own current rfl hconcerns
        obtain ⟨start, hstart⟩ := Option.ne_none_iff_exists'.mp hstart
        have hopen : ∀ version, VersionIn indexed subject predicate version →
            version.claim.known.stop = none →
            version.claim.known = current.known ∧ version.claim.valid = current.valid := by
          intro version hversion hopens
          rw [VersionIn.congr hsame] at hversion
          obtain ⟨-, latest, hlatest, rfl⟩ := htold.current current hcurrent hconcerns
          obtain rfl := hversion.unique hlatest (le_antisymm
            (htold.history.last latest version hlatest hversion hstop)
            (htold.history.last version latest hversion hlatest hopens))
          exact ⟨rfl, rfl⟩
        have haside : ¬ (start ≤ asOf.knownAt ∧ current.valid.contains asOf.validAt = true) :=
          fun ⟨hknown, hvalid⟩ =>
            hunheld ⟨hkey, current, start, hcurrent, hconcerns, hstart, hknown, hvalid⟩
        rw [← (htold.history.congr hsame).appendAll_aside hfits hstart ?_ hopen haside hhistory
          version hholds, VersionIn.congr hsame]
        intro claim hclaim
        obtain ⟨-, current', hcurrent', -, rfl⟩ := hmarked claim hclaim
        obtain rfl := Record.claim.inj (Option.some.inj (hcurrent.symm.trans hcurrent'))
        exact ⟨rfl, rfl⟩

theorem told_empty : Told ∅ subject predicate key := by
  refine ⟨⟨fun other record hrecord => ?_, fun version hversion => ?_, fun version _ hversion => ?_,
    fun version _ hversion => ?_⟩, fun other record hrecord => ?_, fun claim hclaim => ?_⟩
  · simp at hrecord
  · simp [VersionIn] at hversion
  · simp [VersionIn] at hversion
  · simp [VersionIn] at hversion
  · simp at hrecord
  · simp at hclaim

end Told

end LoomDB
