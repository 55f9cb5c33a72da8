import LoomDB.Branch.IndexSpec

/-!
# Questions about a time

What was believed of a subject and a predicate, and when: among the versions of the history
whose known and valid intervals contain the asked instants, the one that was appended last.
-/

namespace LoomDB

open Std (ExtTreeMap)
open KeyValue (entries)

/-- The instants a question is asked at. -/
structure AsOf where
  validAt : Timestamp
  knownAt : Timestamp
  deriving DecidableEq

/-- The claim that was believed, and the instants it is the answer for. -/
structure AsOfAnswer where
  claim : Option Claim
  asOf : AsOf
  deriving DecidableEq

/-- The version holds at both instants. -/
def AsOf.holds (asOf : AsOf) (version : ClaimVersion) : Bool :=
  version.claim.known.contains asOf.knownAt && version.claim.valid.contains asOf.validAt

/-- Of two versions that hold the later one, the first one if neither is. -/
def laterOf (version : ClaimVersion) : Option ClaimVersion → ClaimVersion
  | some prev => if version.seq ≤ prev.seq then prev else version
  | none => version

def bestVersion (asOf : AsOf) : List ClaimVersion → Option ClaimVersion → Option ClaimVersion
  | [], best => best
  | version :: versions, best =>
      bestVersion asOf versions (if asOf.holds version then some (laterOf version best) else best)

/-- The version that answers, among all records. -/
def believedAmong (subject predicate : Bytes) (asOf : AsOf) (records : List (Key × Record)) :
    Option ClaimVersion :=
  bestVersion asOf
    ((versionsAt (ClaimVersion.historyPrefix subject predicate) records).map Prod.snd) none

namespace Engine

variable {σ ρ : Type} (engine : Engine σ ρ)

def asOf (token : CapabilityToken) (branch : BranchId) (subject predicate : Bytes)
    (asOf : AsOf) : LoomM σ ρ AsOfAnswer := do
  engine.authorize token branch
  let commit ← head branch
  let records ← engine.reading commit entries
  return { claim := (believedAmong subject predicate asOf records).map ClaimVersion.claim, asOf }

end Engine

/-! ## The version that answers -/

/-- The best version so far holds, and so does none that is later. -/
theorem bestVersion_spec {asOf : AsOf} {versions : List ClaimVersion}
    {best found : Option ClaimVersion} (hfound : bestVersion asOf versions best = found) :
    (∀ version, found = some version →
      best = some version ∨ version ∈ versions ∧ asOf.holds version = true) ∧
    ∀ other, best = some other ∨ other ∈ versions ∧ asOf.holds other = true →
      ∃ version, found = some version ∧ other.seq ≤ version.seq := by
  induction versions generalizing best with
  | nil =>
      subst hfound
      refine ⟨fun version hversion => Or.inl hversion, ?_⟩
      rintro other (hother | ⟨hmem, -⟩)
      · exact ⟨other, hother, le_refl _⟩
      · cases hmem
  | cons first versions ih =>
      rw [bestVersion] at hfound
      obtain ⟨hfrom, hlast⟩ := ih hfound
      have hlater : first.seq ≤ (laterOf first best).seq ∧
          (∀ prev, best = some prev → prev.seq ≤ (laterOf first best).seq) ∧
          (best = some (laterOf first best) ∨ laterOf first best = first) := by
        cases best with
        | none => simp [laterOf]
        | some prev =>
            simp only [laterOf]
            split
            · next hle =>
              refine ⟨hle, fun other hother => ?_, Or.inl rfl⟩
              rw [Option.some.inj hother]
            · next hlt =>
              refine ⟨le_refl _, fun other hother => ?_, Or.inr rfl⟩
              exact Option.some.inj hother ▸ le_of_lt (not_le.mp hlt)
      constructor
      · intro version hversion
        rcases hfrom version hversion with hbest | ⟨hmem, hholds⟩
        · split at hbest
          · next hfirst =>
            obtain rfl := Option.some.inj hbest
            rcases hlater.2.2 with hprev | hnew
            · exact Or.inl hprev
            · rw [hnew]
              exact Or.inr ⟨List.mem_cons_self, hfirst⟩
          · exact Or.inl hbest
        · exact Or.inr ⟨List.mem_cons_of_mem _ hmem, hholds⟩
      · intro other hother
        by_cases hfirst : asOf.holds first = true
        · rw [if_pos hfirst] at hlast
          obtain ⟨version, hversion, hle⟩ := hlast (laterOf first best) (Or.inl rfl)
          rcases hother with hbest | ⟨hmem, hholds⟩
          · exact ⟨version, hversion, (hlater.2.1 other hbest).trans hle⟩
          · rcases List.mem_cons.mp hmem with rfl | hmem
            · exact ⟨version, hversion, hlater.1.trans hle⟩
            · exact hlast other (Or.inr ⟨hmem, hholds⟩)
        · rw [if_neg hfirst] at hlast
          rcases hother with hbest | ⟨hmem, hholds⟩
          · exact hlast other (Or.inl hbest)
          · rcases List.mem_cons.mp hmem with rfl | hmem
            · exact absurd hholds hfirst
            · exact hlast other (Or.inr ⟨hmem, hholds⟩)

/-! ## Versions of a map -/

section Versions

variable {subject predicate : Bytes} {map : RecordMap}

/-- A version in the history of a subject and a predicate. -/
def VersionIn (map : RecordMap) (subject predicate : Bytes) (version : ClaimVersion) : Prop :=
  map[ClaimVersion.storageKey subject predicate version.seq]? = some (Record.blob version.encode)

/-- The history has nothing but versions, each at its place. -/
def WellFiled (map : RecordMap) (subject predicate : Bytes) : Prop :=
  ∀ (key : Key) (record : Record), map[key]? = some record →
    ClaimVersion.historyPrefix subject predicate <+: key → ∃ version : ClaimVersion,
      record = Record.blob version.encode ∧
        key = ClaimVersion.storageKey subject predicate version.seq

@[simp]
theorem ClaimVersion.decode_encode (version : ClaimVersion) :
    ClaimVersion.decode version.encode = some version := by
  simp [ClaimVersion.decode, ClaimVersion.encode]

theorem ClaimVersion.encode_injective {version other : ClaimVersion}
    (heq : version.encode = other.encode) : version = other := by
  have hdecode := ClaimVersion.decode_encode version
  rw [heq, ClaimVersion.decode_encode] at hdecode
  exact (Option.some.inj hdecode).symm

theorem historyPrefix_starts (subject predicate : Bytes) (seq : U64) :
    ClaimVersion.historyPrefix subject predicate <+:
      ClaimVersion.storageKey subject predicate seq :=
  List.prefix_append _ _

theorem claimKey_inj {seq seq' : U64} :
    ClaimVersion.storageKey subject predicate seq =
      ClaimVersion.storageKey subject predicate seq' ↔ seq = seq' := by
  constructor
  · intro heq
    exact Fin.ext (beBytes_inj seq.isLt seq'.isLt (List.append_cancel_left heq))
  · rintro rfl
    rfl

theorem VersionIn.unique {version other : ClaimVersion}
    (hversion : VersionIn map subject predicate version)
    (hother : VersionIn map subject predicate other) (hseq : version.seq = other.seq) :
    version = other := by
  rw [VersionIn, hseq, hother] at hversion
  exact (ClaimVersion.encode_injective
    (Value.blob.inj (Record.value.inj (Option.some.inj hversion)))).symm

/-- Versions found are the versions of the history. -/
theorem mem_versionsAt {key : Key} {version : ClaimVersion} (hfiled : WellFiled map subject predicate) :
    (key, version) ∈ versionsAt (ClaimVersion.historyPrefix subject predicate) map.toList ↔
      VersionIn map subject predicate version ∧
        key = ClaimVersion.storageKey subject predicate version.seq := by
  rw [versionsAt, List.mem_filterMap]
  constructor
  · rintro ⟨⟨key', record⟩, hentry, hfound⟩
    have hrecord := ExtTreeMap.mem_toList_iff_getElem?_eq_some.mp hentry
    dsimp only at hfound
    split at hfound
    · next hstarts =>
      obtain ⟨stored, rfl, rfl⟩ :=
        hfiled key' record hrecord (List.isPrefixOf_iff_prefix.mp hstarts)
      simp only [Record.blob, ClaimVersion.decode_encode, Option.map_some,
        Option.some.injEq, Prod.mk.injEq] at hfound
      obtain ⟨rfl, rfl⟩ := hfound
      exact ⟨hrecord, rfl⟩
    · cases hfound
  · rintro ⟨hversion, rfl⟩
    refine ⟨(_, Record.blob version.encode),
      ExtTreeMap.mem_toList_iff_getElem?_eq_some.mpr hversion, ?_⟩
    dsimp only
    rw [if_pos (List.isPrefixOf_iff_prefix.mpr (historyPrefix_starts subject predicate _))]
    simp [Record.blob]

/-- What a map says was believed. -/
def believed (map : RecordMap) (subject predicate : Bytes) (asOf : AsOf) : Option Claim :=
  (believedAmong subject predicate asOf map.toList).map ClaimVersion.claim

theorem mem_versions {version : ClaimVersion} (hfiled : WellFiled map subject predicate) :
    version ∈ (versionsAt (ClaimVersion.historyPrefix subject predicate) map.toList).map Prod.snd ↔
      VersionIn map subject predicate version := by
  rw [List.mem_map]
  constructor
  · rintro ⟨⟨key, found⟩, hmem, rfl⟩
    exact ((mem_versionsAt hfiled).mp hmem).1
  · exact fun hversion => ⟨(_, version), (mem_versionsAt hfiled).mpr ⟨hversion, rfl⟩, rfl⟩

/-- The last version that holds is believed. -/
theorem believed_of_last {asOf : AsOf} {version : ClaimVersion}
    (hfiled : WellFiled map subject predicate) (hversion : VersionIn map subject predicate version)
    (hholds : asOf.holds version = true)
    (hlast : ∀ other, VersionIn map subject predicate other → asOf.holds other = true →
      other.seq ≤ version.seq) :
    believed map subject predicate asOf = some version.claim := by
  obtain ⟨hfrom, hbest⟩ := @bestVersion_spec asOf
    ((versionsAt (ClaimVersion.historyPrefix subject predicate) map.toList).map Prod.snd) none _ rfl
  obtain ⟨found, hfound, hle⟩ := hbest version (Or.inr ⟨(mem_versions hfiled).mpr hversion, hholds⟩)
  rcases hfrom found hfound with hnone | ⟨hmem, hfoundHolds⟩
  · cases hnone
  · have hin := (mem_versions hfiled).mp hmem
    obtain rfl := hversion.unique hin (le_antisymm hle (hlast found hin hfoundHolds))
    rw [believed, believedAmong, hfound]
    rfl

/-- If none holds nothing is believed. -/
theorem believed_eq_none {asOf : AsOf} (hfiled : WellFiled map subject predicate)
    (hnone : ∀ version, VersionIn map subject predicate version → asOf.holds version = false) :
    believed map subject predicate asOf = none := by
  obtain ⟨hfrom, -⟩ := @bestVersion_spec asOf
    ((versionsAt (ClaimVersion.historyPrefix subject predicate) map.toList).map Prod.snd) none _ rfl
  rw [believed, Option.map_eq_none_iff]
  by_contra hsome
  obtain ⟨found, hfound⟩ := Option.ne_none_iff_exists'.mp hsome
  rcases hfrom found hfound with hempty | ⟨hmem, hholds⟩
  · cases hempty
  · rw [hnone found ((mem_versions hfiled).mp hmem)] at hholds
    cases hholds

/-- Histories with the same versions that hold answer the same. -/
theorem believed_congr {map' : RecordMap} {asOf : AsOf} (hfiled : WellFiled map subject predicate)
    (hfiled' : WellFiled map' subject predicate)
    (hsame : ∀ version, asOf.holds version = true →
      (VersionIn map subject predicate version ↔ VersionIn map' subject predicate version)) :
    believed map' subject predicate asOf = believed map subject predicate asOf := by
  obtain ⟨hfrom, hbest⟩ := @bestVersion_spec asOf
    ((versionsAt (ClaimVersion.historyPrefix subject predicate) map.toList).map Prod.snd) none _ rfl
  cases hfound : believedAmong subject predicate asOf map.toList with
  | none =>
      rw [believed_eq_none hfiled', believed, hfound]
      · rfl
      · intro version hversion
        by_contra hholds
        have hholds := (Bool.not_eq_false _).mp hholds
        obtain ⟨found, hsome, -⟩ := hbest version
          (Or.inr ⟨(mem_versions hfiled).mpr ((hsame version hholds).mpr hversion), hholds⟩)
        rw [believedAmong] at hfound
        rw [hfound] at hsome
        cases hsome
  | some version =>
      rcases hfrom version hfound with hempty | ⟨hmem, hholds⟩
      · cases hempty
      · have hin := (mem_versions hfiled).mp hmem
        rw [believed_of_last hfiled' ((hsame version hholds).mp hin) hholds, believed, hfound]
        · rfl
        · intro other hother hotherHolds
          obtain ⟨found, hsome, hle⟩ := hbest other
            (Or.inr ⟨(mem_versions hfiled).mpr ((hsame other hotherHolds).mpr hother),
              hotherHolds⟩)
          rw [believedAmong] at hfound
          obtain rfl := Option.some.inj (hfound.symm.trans hsome)
          exact hle

end Versions

end LoomDB
