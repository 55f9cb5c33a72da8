import LoomDB.Query.Beliefs

/-!
# Appends and other answers

An append answers nothing else: neither questions about a time before the new belief starts, nor
questions about another subject and predicate, as long as the keys of the two histories do not run
into each other.
-/

namespace LoomDB

open Std (ExtTreeMap)
open KeyValue (put)

variable {subject predicate : Bytes} {map map' : RecordMap} {claim : Claim}

/-! ## Questions about the past -/

/-- The claim without what closing a version rewrites. -/
def Claim.unclosed (claim : Claim) : Claim :=
  { claim with known := { claim.known with stop := none }, status := .asserted }

theorem ClaimVersion.unclosed_settled (start : Option Timestamp) (version : ClaimVersion) :
    (version.settled start).claim.unclosed = version.claim.unclosed := by
  unfold ClaimVersion.settled
  split
  · cases start <;> rfl
  · rfl

/-- A version that is closed at an instant held as before until then. -/
theorem AsOf.holds_settled {asOf : AsOf} {start : Timestamp} (hbefore : asOf.knownAt < start)
    (version : ClaimVersion) :
    asOf.holds (version.settled (some start)) = asOf.holds version := by
  unfold ClaimVersion.settled
  split
  next hopen => simp [AsOf.holds, ClaimVersion.supersededAt, Interval.closedAt, Interval.contains,
    hopen, hbefore]
  next => rfl

/-- A belief that starts later does not change what was believed. -/
theorem Appended.believed_past {seq : U64} (happended : Appended claim seq map map')
    (hfiled : WellFiled map claim.subject claim.predicate) {start : Timestamp}
    (hstart : claim.known.start = some start) {asOf : AsOf} (hbefore : asOf.knownAt < start) :
    (believed map' claim.subject claim.predicate asOf).map Claim.unclosed =
      (believed map claim.subject claim.predicate asOf).map Claim.unclosed := by
  have hnew : asOf.holds { claim := claim, seq := seq } = false := by
    simp [AsOf.holds, Interval.contains, hstart, hbefore]
  have hversions : ∀ version, VersionIn map' claim.subject claim.predicate version →
      asOf.holds version = true → ∃ old, VersionIn map claim.subject claim.predicate old ∧
        version = old.settled (some start) ∧ asOf.holds old = true := by
    intro version hversion hholds
    rcases (happended.versions version).mp hversion with rfl | ⟨old, hold, rfl⟩
    · rw [hnew] at hholds
      cases hholds
    · rw [hstart, AsOf.holds_settled hbefore] at hholds
      exact ⟨old, hold, by rw [hstart], hholds⟩
  obtain ⟨hfrom, hbest⟩ := @bestVersion_spec asOf
    ((versionsAt (ClaimVersion.historyPrefix claim.subject claim.predicate)
      map.toList).map Prod.snd) none _ rfl
  cases hfound : believedAmong claim.subject claim.predicate asOf map.toList with
  | none =>
      have hnone : believed map' claim.subject claim.predicate asOf = none := by
        refine believed_eq_none happended.filed fun version hversion => ?_
        by_contra hholds
        obtain ⟨old, hold, -, holdHolds⟩ :=
          hversions version hversion ((Bool.not_eq_false _).mp hholds)
        obtain ⟨found, hsome, -⟩ := hbest old (Or.inr ⟨(mem_versions hfiled).mpr hold, holdHolds⟩)
        rw [believedAmong] at hfound
        rw [hfound] at hsome
        cases hsome
      rw [hnone, believed, hfound]
      rfl
  | some version =>
      rcases hfrom version hfound with hempty | ⟨hmem, hholds⟩
      · cases hempty
      · have hin := (mem_versions hfiled).mp hmem
        have hsettled : VersionIn map' claim.subject claim.predicate
            (version.settled (some start)) :=
          (happended.versions _).mpr (Or.inr ⟨version, hin, by rw [hstart]⟩)
        have hlast : believed map' claim.subject claim.predicate asOf =
            some (version.settled (some start)).claim := by
          refine believed_of_last happended.filed hsettled
            ((AsOf.holds_settled hbefore version).trans hholds) fun other hother hotherHolds => ?_
          obtain ⟨old, hold, rfl, holdHolds⟩ := hversions other hother hotherHolds
          obtain ⟨found, hsome, hle⟩ :=
            hbest old (Or.inr ⟨(mem_versions hfiled).mpr hold, holdHolds⟩)
          rw [believedAmong] at hfound
          obtain rfl := Option.some.inj (hfound.symm.trans hsome)
          rwa [ClaimVersion.seq_settled, ClaimVersion.seq_settled]
        rw [hlast, believed, hfound, Option.map_some, Option.map_some, Option.map_some,
          ClaimVersion.unclosed_settled]

theorem wellFiled_of_appends {claims : List Claim}
    (hfiled : WellFiled map subject predicate)
    (hclaims : ∀ claim ∈ claims, Concerns subject predicate claim)
    (hrun : (claims.forM appendClaimVersion).onMap map = .ok ((), map')) :
    WellFiled map' subject predicate := by
  induction claims generalizing map with
  | nil =>
      obtain ⟨-, rfl⟩ := Prod.mk.inj (Except.ok.inj hrun)
      exact hfiled
  | cons claim claims ih =>
      obtain ⟨hclaim, hmore⟩ := List.forall_mem_cons.mp hclaims
      obtain ⟨_, middle, hfirst, hrest⟩ := KeyValue.onMap_bind_eq_ok.mp hrun
      obtain ⟨rfl, rfl⟩ := hclaim
      obtain ⟨seq, happended⟩ := appendClaimVersion_spec hfiled hfirst
      exact ih happended.filed hmore hrest

/-- In a history that appends have made, in whatever order the beliefs start, one more append
leaves every answer about a time before its start, but for the end and the status. -/
theorem believed_append_past {start : RecordMap} {claims : List Claim}
    (hempty : ∀ key : Key, ClaimVersion.historyPrefix subject predicate <+: key →
      start[key]? = none)
    (hclaims : ∀ claim ∈ claims, Concerns subject predicate claim)
    (hrun : (claims.forM appendClaimVersion).onMap start = .ok ((), map))
    (hconcerns : Concerns subject predicate claim) {begins : Timestamp}
    (hbegins : claim.known.start = some begins)
    (happend : (appendClaimVersion claim).onMap map = .ok ((), map'))
    (asOf : AsOf) (hbefore : asOf.knownAt < begins) :
    (believed map' subject predicate asOf).map Claim.unclosed =
      (believed map subject predicate asOf).map Claim.unclosed := by
  have hstarted : WellFiled start subject predicate := by
    intro key record hrecord hkey
    rw [hempty key hkey] at hrecord
    cases hrecord
  have hfiled := wellFiled_of_appends hstarted hclaims hrun
  obtain ⟨rfl, rfl⟩ := hconcerns
  obtain ⟨seq, happended⟩ := appendClaimVersion_spec hfiled happend
  exact happended.believed_past hfiled hbegins hbefore

/-! ## Appends to small maps -/

/-- A claim that is valid always and known from an instant on. -/
def bareClaim (subject predicate : Bytes) (start : Option Timestamp) : Claim where
  id := 0
  predicate := predicate
  subject := subject
  object := .bool true
  valid := { start := none, stop := none }
  known := { start := start, stop := none }
  confidence := { value := ⟨0⟩, method := .rule, calibration := [] }
  evidence := []
  status := .asserted
  policy := none
  actor := []

theorem toList_singleton (key : Key) (record : Record) :
    ((∅ : RecordMap).insert key record).toList = [(key, record)] := by
  refine OrderedMap.toList_eq (List.pairwise_singleton _ _) fun other value => ?_
  rw [OrderedMap.getElem?_insert]
  split
  next heq => simp [heq, eq_comm]
  next hne => simp [Ne.symm hne]

theorem versionsAt_singleton {start key : Key} (hstarts : start <+: key) (version : ClaimVersion) :
    versionsAt start ((∅ : RecordMap).insert key (Record.blob version.encode)).toList =
      [(key, version)] := by
  rw [toList_singleton]
  simp [versionsAt, Record.blob, hstarts]

/-- The map with the first version of a claim. -/
def firstVersion (claim : Claim) : RecordMap :=
  (∅ : RecordMap).insert (ClaimVersion.storageKey claim.subject claim.predicate 0)
    (Record.blob (ClaimVersion.encode { claim := claim, seq := 0 }))

theorem onMap_append_empty (claim : Claim) :
    (appendClaimVersion claim).onMap ∅ = .ok ((), firstVersion claim) := by
  rfl

/-- An append that finds the first version of another claim closes it. -/
theorem onMap_append_firstVersion (claim other : Claim) (hopen : other.known.stop = none)
    (hstarts : ClaimVersion.historyPrefix claim.subject claim.predicate <+:
      ClaimVersion.storageKey other.subject other.predicate 0) :
    (appendClaimVersion claim).onMap (firstVersion other) = .ok ((),
      ((firstVersion other).insert (ClaimVersion.storageKey other.subject other.predicate 0)
        (Record.blob (ClaimVersion.encode
          (ClaimVersion.supersededAt claim.known.start { claim := other, seq := 0 })))).insert
        (ClaimVersion.storageKey claim.subject claim.predicate 1)
        (Record.blob (ClaimVersion.encode { claim := claim, seq := 1 }))) := by
  have hversions : versionsAt (ClaimVersion.historyPrefix claim.subject claim.predicate)
      (firstVersion other).toList =
        [(ClaimVersion.storageKey other.subject other.predicate 0, { claim := other, seq := 0 })] :=
    versionsAt_singleton hstarts _
  have hnext : nextVersion [{ claim := other, seq := 0 }] = .ok 1 := rfl
  rw [appendClaimVersion, KeyValue.onMap_entries_bind]
  simp only [hversions, List.filter_cons, hopen, decide_true, if_true, List.filter_nil,
    List.map_cons, List.map_nil, hnext]
  rfl

/-- A belief from 2 on, which one from 5 on closes, and a question about 3: it is still answered
with the closed one. -/
theorem believed_append_past_page :
    ∃ map map' : RecordMap,
      ([bareClaim (ascii "s") (ascii "p") (some 2)].forM appendClaimVersion).onMap ∅ =
          .ok ((), map) ∧
        (appendClaimVersion (bareClaim (ascii "s") (ascii "p") (some 5))).onMap map =
          .ok ((), map') ∧
        (believed map' (ascii "s") (ascii "p") { validAt := 0, knownAt := 3 }).map Claim.unclosed =
          some (bareClaim (ascii "s") (ascii "p") (some 2)) := by
  have hwritten : ([bareClaim (ascii "s") (ascii "p") (some 2)].forM appendClaimVersion).onMap ∅ =
      .ok ((), firstVersion (bareClaim (ascii "s") (ascii "p") (some 2))) := rfl
  have happend := onMap_append_firstVersion (bareClaim (ascii "s") (ascii "p") (some 5))
    (bareClaim (ascii "s") (ascii "p") (some 2)) rfl (historyPrefix_starts _ _ 0)
  have hbelieved : believed (firstVersion (bareClaim (ascii "s") (ascii "p") (some 2)))
      (ascii "s") (ascii "p") { validAt := 0, knownAt := 3 } =
        some (bareClaim (ascii "s") (ascii "p") (some 2)) := by
    rw [believed, believedAmong]
    erw [versionsAt_singleton (historyPrefix_starts _ _ 0) { claim := bareClaim _ _ _, seq := 0 }]
    rfl
  refine ⟨_, _, hwritten, happend, ?_⟩
  exact (believed_append_past (fun _ _ => by simp) (by simp [Concerns, bareClaim]) hwritten
    ⟨rfl, rfl⟩ rfl happend { validAt := 0, knownAt := 3 } (by decide)).trans
      (congrArg (Option.map Claim.unclosed) hbelieved)

/-! ## Questions about another subject and predicate -/

/-- What is believed depends on the records of the history alone. -/
theorem believed_congr_prefix
    (hsame : ∀ key : Key, ClaimVersion.historyPrefix subject predicate <+: key →
      map'[key]? = map[key]?) (asOf : AsOf) :
    believed map' subject predicate asOf = believed map subject predicate asOf := by
  have hfilter : ∀ records : List (Key × Record),
      versionsAt (ClaimVersion.historyPrefix subject predicate) records =
        versionsAt (ClaimVersion.historyPrefix subject predicate) (records.filter fun entry =>
          (ClaimVersion.historyPrefix subject predicate).isPrefixOf entry.1) := by
    intro records
    rw [versionsAt, versionsAt, List.filterMap_filter]
    refine List.filterMap_congr fun entry _ => ?_
    by_cases hstarts : (ClaimVersion.historyPrefix subject predicate).isPrefixOf entry.1 = true
    · simp only [if_pos hstarts]
    · simp only [if_neg hstarts]
  have hkeep : ∀ key : Key,
      (ClaimVersion.historyPrefix subject predicate).isPrefixOf key = true → map'[key]? = map[key]? :=
    fun key hkey => hsame key (List.isPrefixOf_iff_prefix.mp hkey)
  have hkept := OrderedMap.filter_toList_congr hkeep
  rw [believed, believed, believedAmong, believedAmong, hfilter map'.toList, hkept, ← hfilter]

theorem exists_of_believed {asOf : AsOf}
    (hbelieved : believed map subject predicate asOf = some claim) :
    ∃ (key : Key) (bytes : Bytes) (version : ClaimVersion),
      ClaimVersion.historyPrefix subject predicate <+: key ∧
        map[key]? = some (Record.blob bytes) ∧ ClaimVersion.decode bytes = some version ∧
        version.claim = claim ∧ asOf.holds version = true := by
  obtain ⟨version, hversion, hclaim⟩ := Option.map_eq_some_iff.mp hbelieved
  obtain ⟨hfrom, -⟩ := bestVersion_spec (hversion : bestVersion asOf _ none = some version)
  rcases hfrom version rfl with hnone | ⟨hmem, hholds⟩
  · cases hnone
  obtain ⟨⟨key, found⟩, hfound, rfl⟩ := List.mem_map.mp hmem
  rw [versionsAt, List.mem_filterMap] at hfound
  obtain ⟨⟨key', record⟩, hentry, hread⟩ := hfound
  have hrecord := ExtTreeMap.mem_toList_iff_getElem?_eq_some.mp hentry
  dsimp only at hread
  split at hread
  next hstarts =>
    split at hread
    next bytes =>
      obtain ⟨version, hdecode, heq⟩ := Option.map_eq_some_iff.mp hread
      obtain ⟨rfl, rfl⟩ := Prod.mk.inj heq
      exact ⟨_, bytes, version, List.isPrefixOf_iff_prefix.mp hstarts, hrecord, hdecode, hclaim,
        hholds⟩
    next => cases hread
  next => cases hread

/-- On no tree, whatever claims were written to it, does an append for the one subject and
predicate change an answer about the other. -/
def Isolated (subject predicate otherSubject otherPredicate : Bytes) : Prop :=
  ∀ (start map map' : RecordMap) (claims : List Claim) (claim : Claim),
    (claims.forM appendClaimVersion).onMap start = .ok ((), map) →
      Concerns subject predicate claim →
        (appendClaimVersion claim).onMap map = .ok ((), map') →
          ∀ asOf, believed map' otherSubject otherPredicate asOf =
            believed map otherSubject otherPredicate asOf

section Isolation

variable {otherSubject otherPredicate : Bytes}

theorem believed_firstVersion
    (hstarts : ClaimVersion.historyPrefix subject predicate <+:
      ClaimVersion.storageKey claim.subject claim.predicate 0) {asOf : AsOf}
    (hholds : asOf.holds { claim := claim, seq := 0 } = true) :
    believed (firstVersion claim) subject predicate asOf = some claim := by
  have hversions : versionsAt (ClaimVersion.historyPrefix subject predicate)
      (firstVersion claim).toList =
        [(ClaimVersion.storageKey claim.subject claim.predicate 0, { claim := claim, seq := 0 })] :=
    versionsAt_singleton hstarts _
  rw [believed, believedAmong, hversions, List.map_cons, List.map_nil, bestVersion, if_pos hholds]
  rfl

/-- The first version of the one is seen in the history of the other. -/
theorem not_isolated_of_seen
    (hseen : ClaimVersion.historyPrefix otherSubject otherPredicate <+:
      ClaimVersion.historyPrefix subject predicate) :
    ¬ Isolated subject predicate otherSubject otherPredicate := by
  intro hisolated
  have hempty : (([] : List Claim).forM appendClaimVersion).onMap ∅ = .ok ((), ∅) := rfl
  have hconcerns : Concerns subject predicate (bareClaim subject predicate none) := ⟨rfl, rfl⟩
  have hsame := hisolated ∅ ∅ _ [] _ hempty hconcerns (onMap_append_empty _)
    { validAt := 0, knownAt := 0 }
  have hseen' : ClaimVersion.historyPrefix otherSubject otherPredicate <+:
      ClaimVersion.storageKey (bareClaim subject predicate none).subject
        (bareClaim subject predicate none).predicate 0 := hseen.trans (historyPrefix_starts _ _ 0)
  have hfirst : believed (firstVersion (bareClaim subject predicate none)) otherSubject
      otherPredicate { validAt := 0, knownAt := 0 } = some (bareClaim subject predicate none) :=
    believed_firstVersion hseen' rfl
  have hnone : believed ∅ otherSubject otherPredicate { validAt := 0, knownAt := 0 } = none := rfl
  rw [hfirst, hnone] at hsame
  exact Option.some_ne_none _ hsame

/-- The first version of the other is closed by an append for the one. -/
theorem not_isolated_of_closed
    (hseen : ClaimVersion.historyPrefix subject predicate <+:
      ClaimVersion.historyPrefix otherSubject otherPredicate) :
    ¬ Isolated subject predicate otherSubject otherPredicate := by
  intro hisolated
  have hseen' : ClaimVersion.historyPrefix subject predicate <+:
      ClaimVersion.storageKey otherSubject otherPredicate 0 :=
    hseen.trans (historyPrefix_starts _ _ 0)
  have hwritten : ([bareClaim otherSubject otherPredicate none].forM appendClaimVersion).onMap ∅ =
      .ok ((), firstVersion (bareClaim otherSubject otherPredicate none)) := rfl
  have hsame := hisolated ∅ _ _ [bareClaim otherSubject otherPredicate none]
    (bareClaim subject predicate (some 1)) hwritten ⟨rfl, rfl⟩
    (onMap_append_firstVersion _ _ rfl hseen')
    { validAt := 0, knownAt := 1 }
  have hfirst : believed (firstVersion (bareClaim otherSubject otherPredicate none)) otherSubject
      otherPredicate { validAt := 0, knownAt := 1 } =
        some (bareClaim otherSubject otherPredicate none) :=
    believed_firstVersion (historyPrefix_starts _ _ 0) rfl
  rw [hfirst] at hsame
  -- What is believed after the append is neither closed nor the claim appended.
  obtain ⟨key, bytes, version, -, hrecord, hdecode, hclaim, hholds⟩ := exists_of_believed hsame
  rw [OrderedMap.getElem?_insert] at hrecord
  split at hrecord
  · obtain rfl := Value.blob.inj (Record.value.inj (Option.some.inj hrecord))
    rw [ClaimVersion.decode_encode] at hdecode
    obtain rfl := Option.some.inj hdecode
    have hknown := congrArg (fun claim => claim.known.start) hclaim
    cases hknown
  · rw [OrderedMap.getElem?_insert] at hrecord
    split at hrecord
    · obtain rfl := Value.blob.inj (Record.value.inj (Option.some.inj hrecord))
      rw [ClaimVersion.decode_encode] at hdecode
      obtain rfl := Option.some.inj hdecode
      cases hholds
    next hkey =>
      rw [firstVersion, OrderedMap.getElem?_insert, if_neg hkey] at hrecord
      simp at hrecord

/-- Two histories are isolated exactly if neither's keys begin with the start of the other's. -/
theorem isolated_iff (subject predicate otherSubject otherPredicate : Bytes) :
    Isolated subject predicate otherSubject otherPredicate ↔
      ¬ ClaimVersion.historyPrefix subject predicate <+:
          ClaimVersion.historyPrefix otherSubject otherPredicate ∧
        ¬ ClaimVersion.historyPrefix otherSubject otherPredicate <+:
          ClaimVersion.historyPrefix subject predicate := by
  constructor
  · intro hisolated
    exact ⟨fun hseen => not_isolated_of_closed hseen hisolated,
      fun hseen => not_isolated_of_seen hseen hisolated⟩
  · rintro ⟨hfirst, hsecond⟩ start map map' claims claim - ⟨rfl, rfl⟩ happend asOf
    have hapart : Apart otherSubject otherPredicate claim := ⟨hsecond, hfirst⟩
    exact believed_congr_prefix (fun key hkey => hapart.frame happend hkey) asOf

/-- A predicate that begins with another one and a zero byte. -/
theorem not_isolated_zero :
    ¬ Isolated (ascii "a") (ascii "b") (ascii "a") (ascii "b\x00c") :=
  not_isolated_of_closed (by decide)

end Isolation

end LoomDB
