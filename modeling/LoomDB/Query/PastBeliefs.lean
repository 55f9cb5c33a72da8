import LoomDB.Branch.Containment
import LoomDB.Provenance.Lineage
import LoomDB.Query.Beliefs

/-!
# Present and past beliefs

A database whose claims about a subject and a predicate are kept under one key: as long as
none of them is withdrawn, the claim believed now is the current record. Marking a claim
rewrites what was believed where the claim held.
-/

namespace LoomDB

open Std (ExtTreeMap ExtTreeSet)
open KeyValue (entries)

section Merging

variable {subject predicate : Bytes} {key : Key}

/-- The policy gives, of its own, no claim that could enter the history: one that does is a record
of the conflict. -/
def MergePolicy.InventsNoClaim (policy : MergePolicy) (subject predicate : Bytes) : Prop :=
  match policy with
  | .custom resolve => ∀ report claim, resolve report = .replace (.claim claim) →
      ¬ Apart subject predicate claim → some (.claim claim) = report.records.base ∨
        some (.claim claim) = report.records.source ∨
          some (.claim claim) = report.records.target
  | _ => True

theorem mergeTyped_claim {platform : Platform} {base : Option Record} {source target : Record}
    {claim : Claim} (hmerged : mergeTyped platform base source target = some (.claim claim)) :
    source = .claim claim ∨ target = .claim claim := by
  unfold mergeTyped at hmerged
  split at hmerged
  · cases hmerged
  · cases hmerged
  · unfold mergeClaims at hmerged
    dsimp only at hmerged
    split at hmerged
    · split at hmerged
      · obtain hchosen := Record.claim.inj (Option.some.inj hmerged)
        split at hchosen
        · exact Or.inl (hchosen ▸ rfl)
        · exact Or.inr (hchosen ▸ rfl)
      · cases hmerged
    · split at hmerged
      · cases hmerged
      · obtain hchosen := Record.claim.inj (Option.some.inj hmerged)
        split at hchosen
        · exact Or.inl (hchosen ▸ rfl)
        · exact Or.inr (hchosen ▸ rfl)
  · cases hmerged

/-- A claim that a merge decides on is one of the three records, or apart. -/
theorem claim_of_decide {platform : Platform} {written : Key} {base source target : Option Record}
    {policy : MergePolicy} {decision : Decision} {claim : Claim}
    (hdecide : decide platform written base source target policy = .ok decision)
    (hwrites : decision = .write (.claim claim) ∨ decision = .resolved (.claim claim))
    (hinvents : policy.InventsNoClaim subject predicate)
    (hnear : ¬ Apart subject predicate claim) :
    some (.claim claim) = base ∨ some (.claim claim) = source ∨ some (.claim claim) = target := by
  rcases decide_writes hdecide hwrites with
    hsource | htyped | ⟨report, answer, hconflict, rfl, hanswer⟩
  · exact Or.inr (Or.inl hsource)
  · unfold typedDecision at htyped
    split at htyped
    · rcases mergeTyped_claim htyped with rfl | rfl
      · exact Or.inr (Or.inl rfl)
      · exact Or.inr (Or.inr rfl)
    · cases htyped
  · have hside := hinvents report claim hanswer hnear
    rwa [records_conflictOf hconflict] at hside

theorem not_apart_of_concerns {claim : Claim} (hconcerns : Concerns subject predicate claim) :
    ¬ Apart subject predicate claim := by
  obtain ⟨rfl, rfl⟩ := hconcerns
  exact fun hapart => hapart.1 List.prefix_rfl

theorem isPrefixOf_history_of_isReserved {written : Key} (hkey : isReserved written = false) :
    RESERVED_HISTORY_PREFIX.isPrefixOf written = false := by
  by_contra hstarts
  obtain ⟨rest, rfl⟩ := List.isPrefixOf_iff_prefix.mp ((Bool.not_eq_false _).mp hstarts)
  rw [isReserved_append (by decide) rest] at hkey
  cases hkey

/-- What a merge of told maps writes may be written. -/
theorem Planned.admissible {σ : Type} {pager : Substrate σ} {lawful : pager.Lawful}
    {platform : Platform} {policy : MergePolicy} {state : σ} {base source target : CommitId}
    {baseMap sourceMap targetMap : RecordMap} {keys : List Key} {plan : Plan}
    (hplanned : Planned lawful platform policy state base source target baseMap sourceMap
      targetMap keys plan)
    (htold : lawful.AllMaps (fun map => Told map subject predicate key) state)
    (hinvents : policy.InventsNoClaim subject predicate) :
    Admissible subject predicate key plan.writes := by
  intro entry hentry
  rcases (mem_writes_planOver hplanned.planned).mp hentry with
    hnone | ⟨hkey, decision, hdecide, hwrites⟩
  · cases hnone
  have houtside := isPrefixOf_history_of_isReserved (hplanned.unreserved entry.1 hkey)
  have hside : ∀ claim, entry.2 = .claim claim → ¬ Apart subject predicate claim →
      Fits subject predicate key entry.1 entry.2 := by
    intro claim hclaim hnear
    rw [hclaim] at hwrites ⊢
    rcases claim_of_decide hdecide hwrites hinvents hnear with hbase | hsource | htarget
    · exact (htold _ _ hplanned.base).fits _ _ hbase.symm
    · exact (htold _ _ hplanned.source).fits _ _ hsource.symm
    · exact (htold _ _ hplanned.target).fits _ _ htarget.symm
  refine ⟨houtside, fun claim hclaim hconcerns => ?_, fun claim hclaim hother => ?_,
    fun _ _ => houtside⟩
  · exact (hside claim hclaim (not_apart_of_concerns hconcerns)).own claim hclaim hconcerns
  · by_contra hnear
    exact hnear ((hside claim hclaim hnear).other claim hclaim hother)

end Merging

namespace Engine

variable {σ ρ : Type} {engine : Engine σ ρ} {lawful : engine.pager.Lawful} {loom loom' : Loom σ ρ}
  {subject predicate : Bytes} {key : Key}

/-! ## Runs -/

/-- The calls that keep the claims of a subject and a predicate under one key, and withdraw none
that stands. -/
def Faithful (lawful : engine.pager.Lawful) (subject predicate : Bytes) (key : Key)
    (loom : Loom σ ρ) : Call → Prop
  | .write _ _ records _ _ => Admissible subject predicate key records
  | .invalidate _ branch keys _ => ∀ map claim, Shows lawful loom branch map →
      map[key]? = some (.claim claim) → Concerns subject predicate claim → key ∈ keys →
        ¬ claim.Stands
  | .merge _ _ _ policy _ _ => policy.InventsNoClaim subject predicate
  | .maintain _ _ upkeep => upkeep.val.Inserts NoClaim
  | _ => True

/-- What such calls and marking lead to from a new database. -/
inductive Recorded (lawful : engine.pager.Lawful) (subject predicate : Bytes) (key : Key) :
    Loom σ ρ → Prop
  | opened {pager : σ} {store : ρ} {loom : Loom σ ρ} (fresh : engine.Fresh lawful pager store)
      (opened : engine.assemble pager store = .ok loom) : Recorded lawful subject predicate key loom
  | called {loom : Loom σ ρ} {call : Call} (recorded : Recorded lawful subject predicate key loom)
      (faithful : Faithful lawful subject predicate key loom call) :
      Recorded lawful subject predicate key (engine.after call loom)
  | marked {loom : Loom σ ρ} (recorded : Recorded lawful subject predicate key loom)
      (token : CapabilityToken) (branch : BranchId) (source : SourceRef)
      (envelope : WriteEnvelope) :
      Recorded lawful subject predicate key (engine.markStale token branch source envelope loom).2
  | reopened {loom loom' : Loom σ ρ} (recorded : Recorded lawful subject predicate key loom)
      (opened : engine.assemble loom.pager loom.store = .ok loom') :
      Recorded lawful subject predicate key loom'

theorem Recorded.reachable (hrecorded : Recorded lawful subject predicate key loom) :
    engine.Reachable lawful loom := by
  induction hrecorded with
  | opened hfresh hopened => exact .opened hfresh hopened
  | called _ _ ih => exact ih.called _
  | marked _ token branch source envelope ih =>
      rcases snd_markStale token branch source envelope _ with heq | ⟨writes, -, heq⟩
      · exact heq.symm ▸ ih
      · exact heq.symm ▸ ih.called _
  | reopened _ hopened ih => exact ih.reopened hopened

theorem Makes.told {call : Call} {branch : BranchId} {map map' : RecordMap}
    (hmakes : Makes engine loom call branch map map') (hcaller : isCaller key = true)
    (hsound : lawful.Sound loom.pager)
    (hfaithful : Faithful lawful subject predicate key loom call)
    (hshows : Shows lawful loom branch map)
    (hall : lawful.AllMaps (fun map => Told map subject predicate key) loom.pager)
    (htold : Told map subject predicate key) : Told map' subject predicate key := by
  cases hmakes with
  | wrote _ _ hrun => exact htold.writeProgram hcaller hfaithful hrun
  | forgot _ hrun =>
      exact htold.forgetKeys (fun hmem claim hclaim hconcerns =>
        hfaithful map claim hshows hclaim hconcerns hmem) hrun
  | @kept _ _ upkeep _ _ _ hrun =>
      exact htold.of_aside hcaller
        (upkeep.property.mono fun _ => isAside_of_isVectorKey) hfaithful hrun
  | @merged _ source _ _ _ _ _ _ _ writes _ _ _ _ hready hrun =>
      refine htold.writeProgram hcaller (fun entry hentry => ?_) hrun
      rcases List.mem_append.mp hentry with hmem | hmem
      · obtain ⟨_, _, _, _, plan, houtcome, hplanned⟩ := planMerge_spec hready.planned hsound
        obtain ⟨rfl, -⟩ := mem_writes_of_planned hplanned houtcome
        exact hplanned.admissible hall hfaithful entry hmem
      · obtain rfl := List.mem_singleton.mp hmem
        have haside : IsAside (mergedFromKey source) :=
          isAside_reserved (by decide) (by decide) (by decide) source
        exact ⟨haside.2, Fits.of_noClaim (noClaim_value _ _)⟩

/-- What marking writes are marks on the claims of the branch. -/
theorem marks_of_staleClaims {branch : BranchId} {source : SourceRef} {map : RecordMap}
    {writes : List (Key × Record)} (hsound : lawful.Sound loom.pager)
    (hshows : Shows lawful loom branch map)
    (hclaims : (engine.staleClaims branch source loom).1 = .ok writes) : Marks map writes :=
  fun _ hentry => ((mem_staleClaims hsound hshows hclaims).mp hentry).2

/-- Every commit tells the history of its current claim. -/
theorem Recorded.told (hrecorded : Recorded lawful subject predicate key loom)
    (hcaller : isCaller key = true) :
    lawful.AllMaps (fun map => Told map subject predicate key) loom.pager := by
  induction hrecorded with
  | opened hfresh hopened => exact AllMaps.opened hfresh hopened told_empty
  | called hrecorded hfaithful ih =>
      have hsound := hrecorded.reachable.sound
      exact AllMaps.after hsound ih fun hshows hmakes hmap =>
        hmakes.told hcaller hsound hfaithful hshows ih hmap
  | marked hrecorded token branch source envelope ih =>
      have hsound := hrecorded.reachable.sound
      rcases snd_markStale token branch source envelope _ with heq | ⟨writes, hclaims, heq⟩
      · exact heq.symm ▸ ih
      · rw [heq]
        refine AllMaps.after hsound ih fun hshows hmakes hmap => ?_
        cases hmakes with
        | wrote _ _ hrun =>
            exact hmap.writeProgram hcaller
              (hmap.admissible (marks_of_staleClaims hsound hshows hclaims)) hrun
  | reopened _ hopened ih => exact AllMaps.reopened ih hopened

/-! ## Answers -/

/-- The answer on a branch is what its map believes. -/
theorem asOf_spec {token : CapabilityToken} {branch : BranchId} {asOf : AsOf} {answer : AsOfAnswer}
    {map : RecordMap} (hsound : lawful.Sound loom.pager) (hshows : Shows lawful loom branch map)
    (hanswer : (engine.asOf token branch subject predicate asOf loom).1 = .ok answer) :
    answer = { claim := believed map subject predicate asOf, asOf } := by
  rcases hresult : engine.asOf token branch subject predicate asOf loom with ⟨result, after⟩
  rw [hresult] at hanswer
  obtain rfl : result = .ok answer := hanswer
  simp only [Engine.asOf, FallibleState.bind_eq_ok, authorize_eq_ok, head_eq_ok,
    FallibleState.pure_eq_ok] at hresult
  obtain ⟨_, _, ⟨-, rfl⟩, commit, _, ⟨hhead, rfl⟩, records, _, hreading, rfl, rfl⟩ := hresult
  have hsound' : lawful.Sound (ticked loom).pager := hsound
  obtain ⟨-, map', _, hstores, hran⟩ := reading_spec hsound' hreading
  obtain rfl := hshows.unique ⟨commit, hhead, hstores⟩
  obtain ⟨rfl, -⟩ := Prod.mk.inj (Except.ok.inj hran)
  rfl

theorem exists_shows_of_asOf {token : CapabilityToken} {branch : BranchId} {asOf : AsOf}
    {answer : AsOfAnswer} (hsound : lawful.Sound loom.pager)
    (hanswer : (engine.asOf token branch subject predicate asOf loom).1 = .ok answer) :
    ∃ map, Shows lawful loom branch map := by
  rcases hresult : engine.asOf token branch subject predicate asOf loom with ⟨result, after⟩
  rw [hresult] at hanswer
  obtain rfl : result = .ok answer := hanswer
  simp only [Engine.asOf, FallibleState.bind_eq_ok, authorize_eq_ok, head_eq_ok] at hresult
  obtain ⟨_, _, ⟨-, rfl⟩, commit, _, ⟨hhead, rfl⟩, records, _, hreading, -⟩ := hresult
  have hsound' : lawful.Sound (ticked loom).pager := hsound
  obtain ⟨-, map, _, hstores, -⟩ := reading_spec hsound' hreading
  exact ⟨map, commit, hhead, hstores⟩

/-- Withdrawing claims leaves every belief as it is. -/
theorem exists_shows_invalidate {branch other : BranchId} {map : RecordMap} {keys : List Key}
    (token : CapabilityToken) (envelope : WriteEnvelope) (asOf : AsOf)
    (hsound : lawful.Sound loom.pager) (hshows : Shows lawful loom branch map)
    (hfiled : WellFiled map subject predicate) :
    ∃ map', Shows lawful (engine.after (.invalidate token other keys envelope) loom) branch map' ∧
      believed map' subject predicate asOf = believed map subject predicate asOf := by
  rcases hcall : engine.call (.invalidate token other keys envelope) loom with ⟨outcome, loom'⟩
  rw [after, hcall]
  cases call_step hsound hcall with
  | asked hasks => cases hasks
  | refused hunmoved => exact ⟨map, hunmoved.shows hshows, rfl⟩
  | opened hopens => rcases hopens with hopens | hopens <;> cases hopens
  | forgot _ hadvanced =>
      rcases hadvanced.shows hshows with ⟨-, hshows'⟩ | ⟨rfl, rfl, hshows'⟩
      · exact ⟨map, hshows', rfl⟩
      · have hsame : ∀ place : Key, ClaimVersion.historyPrefix subject predicate <+: place →
            _ = map[place]? := fun place hplace =>
          forgetKeys_history hfiled hadvanced.transacted.ran hplace
        refine ⟨_, hshows', believed_congr hfiled (hfiled.congr hsame) fun version _ => ?_⟩
        exact (VersionIn.congr hsame).symm

/-! ## The two records of a claim -/

/-- Marking the source would rewrite what is believed at the instants: the standing claim is
downstream of the source, and held then. -/
def Rewrites (lawful : engine.pager.Lawful) (loom : Loom σ ρ) (branch : BranchId)
    (subject predicate : Bytes) (key : Key) (source : SourceRef) (asOf : AsOf) : Prop :=
  ContaminatedOn engine loom source branch key ∧ ∃ map claim start, Shows lawful loom branch map ∧
    map[key]? = some (.claim claim) ∧ claim.status = .asserted ∧
    Concerns subject predicate claim ∧ claim.known.start = some start ∧ start ≤ asOf.knownAt ∧
    claim.valid.contains asOf.validAt = true

/-- The current record and the history agree: what is believed now is the current record, and what
was believed at any time stays, but for what marking rewrites. -/
structure BeliefsAgree (lawful : engine.pager.Lawful) (loom : Loom σ ρ) (branch : BranchId)
    (subject predicate : Bytes) (key : Key) : Prop where
  current : ∀ {token : CapabilityToken} {asOf : AsOf} {answer : AsOfAnswer} {map : RecordMap}
    {claim : Claim}, (engine.asOf token branch subject predicate asOf loom).1 = .ok answer →
    Shows lawful loom branch map → map[key]? = some (.claim claim) →
    Concerns subject predicate claim →
    (∀ version start, VersionIn map subject predicate version →
      version.claim.known.start = some start → start ≤ asOf.knownAt) →
    answer.claim = if claim.valid.contains asOf.validAt then some claim else none
  forgotten : ∀ {token token' token'' : CapabilityToken} {place : BranchId} {source : SourceRef}
    {envelope : WriteEnvelope} {asOf : AsOf} {answer answer' : AsOfAnswer},
    (engine.asOf token branch subject predicate asOf loom).1 = .ok answer →
    (engine.asOf token' branch subject predicate asOf
      (engine.forget token'' place source envelope loom).2).1 = .ok answer' → answer' = answer
  marked : ∀ {token token' token'' : CapabilityToken} {place : BranchId} {source : SourceRef}
    {envelope : WriteEnvelope} {asOf : AsOf} {answer answer' : AsOfAnswer} {keys : List Key},
    (engine.asOf token branch subject predicate asOf loom).1 = .ok answer →
    (engine.markStale token' place source envelope loom).1 = .ok keys →
    (engine.asOf token'' branch subject predicate asOf
      (engine.markStale token' place source envelope loom).2).1 = .ok answer' →
    (answer' = answer ↔
      ¬ (place = branch ∧ Rewrites lawful loom branch subject predicate key source asOf))

/-- Forgetting on a branch leaves what it shows, or shows what the withdrawal left; either way the
beliefs are the same. -/
theorem exists_shows_forget {branch place : BranchId} {map : RecordMap} (token : CapabilityToken)
    (source : SourceRef) (envelope : WriteEnvelope) (asOf : AsOf)
    (hsound : lawful.Sound loom.pager) (hshows : Shows lawful loom branch map)
    (hfiled : WellFiled map subject predicate) :
    ∃ map', Shows lawful (engine.forget token place source envelope loom).2 branch map' ∧
      believed map' subject predicate asOf = believed map subject predicate asOf := by
  rcases snd_forget token place source envelope loom with heq | ⟨keys, -, heq⟩
  · exact ⟨map, heq.symm ▸ hshows, rfl⟩
  · rw [heq]
    exact exists_shows_invalidate token envelope asOf hsound hshows hfiled

/-- The standing claim is marked and held at the instants exactly if marking the source rewrites
what is believed then. -/
theorem rewrites_iff {branch : BranchId} {source : SourceRef} {map : RecordMap} {asOf : AsOf}
    {writes : List (Key × Record)} (hsound : lawful.Sound loom.pager)
    (hshows : Shows lawful loom branch map)
    (hclaims : (engine.staleClaims branch source loom).1 = .ok writes) :
    Rewrites lawful loom branch subject predicate key source asOf ↔
      key ∈ writes.map Prod.fst ∧ HeldAt map subject predicate key asOf := by
  constructor
  · rintro ⟨hcontaminated, map', claim, start, hshows', hclaim, hasserted, hconcerns, hheld⟩
    obtain rfl := hshows.unique hshows'
    have hmem : (key, Record.claim claim.marked) ∈ writes :=
      (mem_staleClaims hsound hshows hclaims).mpr ⟨hcontaminated, claim, hclaim, hasserted, rfl⟩
    exact ⟨List.mem_map_of_mem hmem, claim, start, hclaim, hconcerns, hheld⟩
  · rintro ⟨hmem, claim, start, hclaim, hconcerns, hheld⟩
    obtain ⟨⟨written, record⟩, hentry, rfl⟩ := List.mem_map.mp hmem
    obtain ⟨hcontaminated, claim', hclaim', hasserted, -⟩ :=
      (mem_staleClaims hsound hshows hclaims).mp hentry
    obtain rfl := Record.claim.inj (Option.some.inj (hclaim.symm.trans hclaim'))
    exact ⟨hcontaminated, map, claim, start, hshows, hclaim, hasserted, hconcerns, hheld⟩

/-- While no claim that stands is withdrawn, the current record and the history agree. -/
theorem asOf_agrees (hrecorded : Recorded lawful subject predicate key loom)
    (hcaller : isCaller key = true) (branch : BranchId) :
    BeliefsAgree lawful loom branch subject predicate key where
  current := by
    intro token asOf answer map claim hanswer hshows hclaim hconcerns hnow
    have hsound := hrecorded.reachable.sound
    obtain ⟨commit, -, hstores⟩ := hshows.ofHead
    have htold := hrecorded.told hcaller commit map hstores
    rw [asOf_spec hsound hshows hanswer]
    exact htold.history.believed_latest (htold.current claim hclaim hconcerns) hnow
  forgotten := by
    intro token token' token'' place source envelope asOf answer answer' hanswer hanswer'
    have hsound := hrecorded.reachable.sound
    obtain ⟨map, hshows⟩ := exists_shows_of_asOf hsound hanswer
    obtain ⟨commit, -, hstores⟩ := hshows.ofHead
    have htold := hrecorded.told hcaller commit map hstores
    have hsound' : lawful.Sound (engine.forget token'' place source envelope loom).2.pager := by
      rcases snd_forget token'' place source envelope loom with heq | ⟨keys, -, heq⟩
      · exact heq.symm ▸ hsound
      · exact heq.symm ▸ (hrecorded.reachable.called _).sound
    obtain ⟨map', hshows', hbelieved⟩ :=
      exists_shows_forget token'' source envelope asOf hsound hshows htold.history.filed
    rw [asOf_spec hsound hshows hanswer, asOf_spec hsound' hshows' hanswer', hbelieved]
  marked := by
    intro token token' token'' place source envelope asOf answer answer' keys hanswer hmarked
      hanswer'
    have hsound := hrecorded.reachable.sound
    have hsound' := (hrecorded.marked token' place source envelope).reachable.sound
    obtain ⟨map, hshows⟩ := exists_shows_of_asOf hsound hanswer
    obtain ⟨commit, -, hstores⟩ := hshows.ofHead
    have htold := hrecorded.told hcaller commit map hstores
    obtain ⟨writes, hclaims, -, hends⟩ := markStale_eq_ok hsound hmarked
    rcases hends with ⟨rfl, heq⟩ | ⟨base, last, before, map', hadvanced⟩
    · rw [asOf_spec hsound hshows hanswer,
        asOf_spec hsound' (heq.symm ▸ hshows : Shows lawful _ branch map) hanswer']
      refine iff_of_true rfl ?_
      rintro ⟨rfl, hrewrites⟩
      rw [rewrites_iff hsound hshows hclaims] at hrewrites
      cases hrewrites.1
    · rcases hadvanced.shows hshows with ⟨hother, hshows'⟩ | ⟨rfl, rfl, hshows'⟩
      · rw [asOf_spec hsound hshows hanswer, asOf_spec hsound' hshows' hanswer']
        exact iff_of_true rfl fun hplace => hother hplace.1.symm
      · rw [asOf_spec hsound hshows hanswer, asOf_spec hsound' hshows' hanswer',
          rewrites_iff hsound hshows hclaims, AsOfAnswer.mk.injEq]
        simp only [and_true, true_and]
        exact htold.believed_marked hcaller (marks_of_staleClaims hsound hshows hclaims)
          hadvanced.transacted.ran asOf

/-! ## A claim that is withdrawn, and one that is marked -/

def forgottenLoom : Loom MemPager (Option Refs) :=
  (memoryEngine.forget (memoryToken [MAIN]) MAIN claimPage pageEnvelope toldLoom).2

def markedLoom : Loom MemPager (Option Refs) :=
  (memoryEngine.markStale (memoryToken [MAIN]) MAIN claimPage pageEnvelope toldLoom).2

theorem toldLoom_recorded :
    Recorded memoryLawful (ascii "s") (ascii "p") (ascii "k") toldLoom := by
  refine .called (.opened (inMemory_fresh rfl) memoryLoom_opened) fun entry hentry => ?_
  obtain rfl := List.mem_singleton.mp hentry
  refine ⟨by decide, fun claim hclaim _ => ?_, fun claim hclaim hother => ?_, fun _ _ => by decide⟩
  · obtain rfl := Record.claim.inj hclaim
    exact ⟨rfl, rfl, nofun⟩
  · obtain rfl := Record.claim.inj hclaim
    exact absurd ⟨rfl, rfl⟩ hother

theorem asOf_agrees_page :
    BeliefsAgree memoryLawful toldLoom MAIN (ascii "s") (ascii "p") (ascii "k") :=
  asOf_agrees toldLoom_recorded (by decide) MAIN

/-- What is believed at the second instant. -/
def believedThen (loom : Loom MemPager (Option Refs)) : Option AsOfAnswer :=
  (memoryEngine.asOf (memoryToken [MAIN]) MAIN (ascii "s") (ascii "p")
    { validAt := 2, knownAt := 2 } loom).1.toOption

def currentRecord (loom : Loom MemPager (Option Refs)) : Option Record :=
  (memoryEngine.read (memoryToken [MAIN]) MAIN (ascii "k") loom).1.toOption.join

/-- A withdrawn claim is believed still, and marking a claim changes what was believed. -/
theorem believedThen_disagrees :
    Recorded memoryLawful (ascii "s") (ascii "p") (ascii "k") toldLoom ∧
      currentRecord forgottenLoom = some (.claim pageClaim.withdrawn) ∧
      (believedThen forgottenLoom).bind AsOfAnswer.claim = some pageClaim ∧
      (believedThen toldLoom).bind AsOfAnswer.claim = some pageClaim ∧
      (believedThen markedLoom).bind AsOfAnswer.claim = some pageClaim.marked :=
  ⟨toldLoom_recorded, by decide +kernel, by decide +kernel, by decide +kernel, by decide +kernel⟩

end Engine

end LoomDB
