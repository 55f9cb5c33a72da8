import LoomDB.Core.Describe
import LoomDB.Foundations.OrderedMap
import LoomDB.Foundations.StateExcept
import Mathlib.Data.List.Perm.Basic
import Mathlib.Data.List.Sort

/-!
# Retention

Which of the backups under a root may be removed. A plan is made over a survey of the root,
newest backup first, and every rule of it is a reason to keep: a legal hold, a place among the
newest copies, an age within the policy.
-/

namespace LoomDB

open Std (ExtTreeMap)
open StateExcept (except_bind_eq_ok except_forM_eq_ok)

namespace Retention

/-- Why a backup is kept, or that it is not. -/
inductive Decision where
  | keepLegalHold
  | keepMinimumCopies
  | keepRecent
  | prune
  deriving DecidableEq

/-- Where the time of a backup is from. -/
inductive CreatedFrom where
  | receipt
  | filesystem
  deriving DecidableEq

structure Candidate where
  name : Bytes
  path : Bytes
  createdUnix : U64
  createdFrom : CreatedFrom
  decision : Decision
  holdReason : Option Bytes
  deriving DecidableEq

structure Plan where
  root : Bytes
  candidates : List Candidate
  skipped : List Bytes
  applied : Bool
  deriving DecidableEq

/-- An entry of a root, as the survey sees it. -/
structure ShelfEntry where
  name : Bytes
  path : Bytes
  /-- A directory, and not a link to one. -/
  isDir : Bool
  hasManifest : Bool
  /-- The time in the receipt beside it, if there is one and it can be read. -/
  receipt : Except Bytes (Option U64)
  /-- When it was last modified, if that is after the epoch. -/
  modified : Option U64

/-- A root, as the planner sees it. -/
structure Shelf where
  root : Bytes
  isDir : Bool
  /-- The lock of a live store is in it. -/
  locked : Bool
  /-- The entries in the order of the directory, if it can be listed. -/
  listing : Except Bytes (List ShelfEntry)

/-! ## The survey -/

def ShelfEntry.recognized (entry : ShelfEntry) : Bool :=
  entry.isDir && entry.hasManifest

def directoryMtimeUnix (entry : ShelfEntry) : U64 :=
  entry.modified.getD 0

/-- A recognized entry before anything is decided about it. -/
def ShelfEntry.candidate (entry : ShelfEntry) : Except Bytes Candidate := do
  let receipt ← entry.receipt
  let (createdUnix, createdFrom) := match receipt with
    | some createdUnix => (createdUnix, CreatedFrom.receipt)
    | none => (directoryMtimeUnix entry, CreatedFrom.filesystem)
  return {
    name := entry.name
    path := entry.path
    createdUnix := createdUnix
    createdFrom := createdFrom
    decision := .prune
    holdReason := none }

def surveyEntries : List ShelfEntry → Except Bytes (List Candidate × List Bytes)
  | [] => .ok ([], [])
  | entry :: entries =>
      if entry.recognized then do
        let candidate ← entry.candidate
        let (candidates, skipped) ← surveyEntries entries
        return (candidate :: candidates, skipped)
      else do
        let (candidates, skipped) ← surveyEntries entries
        return (candidates, entry.name :: skipped)

/-- The later first, and those of one instant by name. -/
def newestFirst (left right : Candidate) : Bool :=
  right.createdUnix < left.createdUnix ||
    (left.createdUnix = right.createdUnix && left.name ≤ right.name)

def survey (shelf : Shelf) : Except Bytes (List Candidate × List Bytes) := do
  let entries ← shelf.listing
  let (candidates, skipped) ← surveyEntries entries
  return (candidates.mergeSort newestFirst, skipped.mergeSort fun left right => left ≤ right)

/-! ## The plan -/

/-- The legal holds: the name of a backup, and the reason. -/
abbrev LegalHolds := ExtTreeMap Bytes Bytes

/-- A number of days in seconds, as `saturating_mul` counts them. -/
def horizon (keepDays : U32) : ℕ :=
  min (keepDays.val * 86400) (256 ^ 8 - 1)

/-- The rules in their order, for the backup at a place of the survey. -/
def Candidate.decided (holds : LegalHolds) (keepDays : U32) (minimumCopies : ℕ) (nowUnix : U64)
    (index : ℕ) (candidate : Candidate) : Candidate :=
  match holds[candidate.name]? with
  | some reason => { candidate with decision := .keepLegalHold, holdReason := some reason }
  | none =>
      if index < minimumCopies then { candidate with decision := .keepMinimumCopies }
      else if nowUnix.val - candidate.createdUnix.val ≤ horizon keepDays then
        { candidate with decision := .keepRecent }
      else { candidate with decision := .prune }

def plan (shelf : Shelf) (keepDays : U32) (minimumCopies : ℕ) (holds : LegalHolds)
    (nowUnix : U64) : Except Bytes Plan :=
  if keepDays = 0 then .error (ascii "--keep-days must be at least 1")
  else if minimumCopies = 0 then
    .error (ascii ("--minimum-copies must be at least 1; a retention policy that can empty the " ++
      "shelf will"))
  else if !shelf.isDir then
    .error (ascii "backup root does not exist or is not a directory: " ++ shelf.root)
  else if shelf.locked then
    .error (shelf.root ++ ascii (" looks like a live LoomDB store (loom/store.lock is present), " ++
      "not a backup root; refusing to apply retention to a database"))
  else do
    let (candidates, skipped) ← survey shelf
    return {
      root := shelf.root
      candidates := candidates.mapIdx (Candidate.decided holds keepDays minimumCopies nowUnix)
      skipped := skipped
      applied := false }

namespace Plan

def toPrune (plan : Plan) : List Candidate :=
  plan.candidates.filter fun entry => entry.decision = .prune

def retained (plan : Plan) : ℕ :=
  plan.candidates.length - plan.toPrune.length

def legalHoldRetained (plan : Plan) : ℕ :=
  (plan.candidates.filter fun entry => entry.decision = .keepLegalHold).length

/-- Remove what the plan says, with the function that removes a backup and its receipt. -/
def apply (remove : Bytes → Except Bytes Unit) (plan : Plan) : Except Bytes Plan := do
  (plan.toPrune.map Candidate.path).forM remove
  return { plan with applied := true }

end Plan

/-! ## The order of a survey -/

theorem newestFirst_iff {left right : Candidate} :
    newestFirst left right = true ↔ right.createdUnix < left.createdUnix ∨
      (left.createdUnix = right.createdUnix ∧ left.name ≤ right.name) := by
  simp only [newestFirst, Bool.or_eq_true, Bool.and_eq_true, decide_eq_true_eq]

theorem newestFirst_total (left right : Candidate) :
    (newestFirst left right || newestFirst right left) = true := by
  rw [Bool.or_eq_true, newestFirst_iff, newestFirst_iff]
  rcases lt_trichotomy left.createdUnix right.createdUnix with hlt | heq | hgt
  · exact .inr (.inl hlt)
  · rcases le_total left.name right.name with hle | hle
    · exact .inl (.inr ⟨heq, hle⟩)
    · exact .inr (.inr ⟨heq.symm, hle⟩)
  · exact .inl (.inl hgt)

theorem newestFirst_trans (first second third : Candidate)
    (hfirst : newestFirst first second = true) (hsecond : newestFirst second third = true) :
    newestFirst first third = true := by
  rw [newestFirst_iff] at hfirst hsecond ⊢
  rcases hfirst with hlt | ⟨heq, hle⟩
  · rcases hsecond with hlt' | ⟨heq', -⟩
    · exact .inl (hlt'.trans hlt)
    · exact .inl (heq' ▸ hlt)
  · rcases hsecond with hlt' | ⟨heq', hle'⟩
    · exact .inl (heq ▸ hlt')
    · exact .inr ⟨heq.trans heq', hle.trans hle'⟩

/-- The order that a sort leaves is that of the items, where no two of them tie. -/
theorem mergeSort_eq_of_perm {α : Type} {le : α → α → Bool} {left right : List α}
    (htrans : ∀ first second third, le first second = true → le second third = true →
      le first third = true)
    (htotal : ∀ first second, (le first second || le second first) = true)
    (hperm : left.Perm right)
    (hapart : ∀ first ∈ left, ∀ second ∈ left, le first second = true → le second first = true →
      first = second) : left.mergeSort le = right.mergeSort le := by
  have hsorted := List.pairwise_mergeSort htrans htotal
  refine (((List.mergeSort_perm left le).trans hperm).trans
    (List.mergeSort_perm right le).symm).eq_of_pairwise ?_ (hsorted left) (hsorted right)
  intro first second hfirst hsecond hle hge
  exact hapart first ((List.mergeSort_perm left le).mem_iff.mp hfirst) second
    (hperm.mem_iff.mpr ((List.mergeSort_perm right le).mem_iff.mp hsecond)) hle hge

/-! ## What a survey finds -/

/-- The recognized entries of a listing, each with the candidate it makes. -/
def Found (entries : List ShelfEntry) (candidates : List Candidate) : Prop :=
  List.Forall₂ (fun entry candidate => entry.candidate = .ok candidate)
    (entries.filter ShelfEntry.recognized) candidates

/-- The names of the entries that are passed over. -/
def passedOver (entries : List ShelfEntry) : List Bytes :=
  (entries.filter fun entry => !entry.recognized).map ShelfEntry.name

theorem surveyEntries_eq_ok {entries : List ShelfEntry} {candidates : List Candidate}
    {skipped : List Bytes} :
    surveyEntries entries = .ok (candidates, skipped) ↔
      Found entries candidates ∧ skipped = passedOver entries := by
  induction entries generalizing candidates skipped with
  | nil =>
      simp only [surveyEntries, Except.ok.injEq, Prod.mk.injEq, Found, passedOver,
        List.filter_nil, List.map_nil, List.forall₂_nil_left_iff, eq_comm]
  | cons entry entries ih =>
      cases hrecognized : entry.recognized with
      | true =>
          rw [surveyEntries, if_pos hrecognized, except_bind_eq_ok]
          simp only [except_bind_eq_ok, Found, passedOver, List.filter_cons, hrecognized, if_true,
            List.forall₂_cons_left_iff, Prod.exists, ih]
          constructor
          · rintro ⟨candidate, hcandidate, rest, _, ⟨hrest, rfl⟩, hdone⟩
            cases hdone
            exact ⟨⟨candidate, rest, hcandidate, hrest, rfl⟩, rfl⟩
          · rintro ⟨⟨candidate, rest, hcandidate, hrest, rfl⟩, rfl⟩
            exact ⟨candidate, hcandidate, rest, _, ⟨hrest, rfl⟩, rfl⟩
      | false =>
          rw [surveyEntries, if_neg (by rw [hrecognized]; exact Bool.false_ne_true),
            except_bind_eq_ok]
          simp only [Found, passedOver, List.filter_cons, hrecognized, Prod.exists, ih]
          constructor
          · rintro ⟨found, _, ⟨hfound, rfl⟩, hdone⟩
            cases hdone
            exact ⟨hfound, rfl⟩
          · rintro ⟨hfound, rfl⟩
            exact ⟨candidates, _, ⟨hfound, rfl⟩, rfl⟩

theorem survey_eq_ok {shelf : Shelf} {surveyed : List Candidate} {skipped : List Bytes} :
    survey shelf = .ok (surveyed, skipped) ↔ ∃ entries found, shelf.listing = .ok entries ∧
      Found entries found ∧ surveyed = found.mergeSort newestFirst ∧
        skipped = (passedOver entries).mergeSort fun left right => left ≤ right := by
  simp only [survey, except_bind_eq_ok, Prod.exists, surveyEntries_eq_ok]
  constructor
  · rintro ⟨entries, hlisting, found, _, ⟨hfound, rfl⟩, hdone⟩
    cases hdone
    exact ⟨entries, found, hlisting, hfound, rfl, rfl⟩
  · rintro ⟨entries, found, hlisting, hfound, rfl, rfl⟩
    exact ⟨entries, hlisting, found, _, ⟨hfound, rfl⟩, rfl⟩

/-- A candidate as the survey leaves it. -/
def Candidate.undecided (candidate : Candidate) : Candidate :=
  { candidate with decision := .prune, holdReason := none }

theorem candidate_eq_ok {entry : ShelfEntry} {candidate : Candidate}
    (hcandidate : entry.candidate = .ok candidate) :
    candidate.name = entry.name ∧ candidate.undecided = candidate := by
  obtain ⟨receipt, -, hdone⟩ := except_bind_eq_ok.mp hcandidate
  cases receipt <;> cases hdone <;> exact ⟨rfl, rfl⟩

theorem Found.map_name {entries : List ShelfEntry} {found : List Candidate}
    (hfound : Found entries found) :
    found.map Candidate.name = (entries.filter ShelfEntry.recognized).map ShelfEntry.name := by
  unfold Found at hfound
  generalize entries.filter ShelfEntry.recognized = kept at hfound ⊢
  induction hfound with
  | nil => rfl
  | cons hcandidate _ ih =>
      rw [List.map_cons, List.map_cons, ih, (candidate_eq_ok hcandidate).1]

theorem Found.undecided {entries : List ShelfEntry} {found : List Candidate}
    (hfound : Found entries found) : ∀ candidate ∈ found, candidate.undecided = candidate := by
  unfold Found at hfound
  generalize entries.filter ShelfEntry.recognized = kept at hfound
  induction hfound with
  | nil => exact fun _ hmem => absurd hmem List.not_mem_nil
  | cons hcandidate _ ih =>
      exact List.forall_mem_cons.mpr ⟨(candidate_eq_ok hcandidate).2, ih⟩

/-- The order of the directory does not show, if no two backups have one name. -/
theorem survey_of_perm {shelf : Shelf} {entries reordered : List ShelfEntry}
    {surveyed : List Candidate} {skipped : List Bytes}
    (hsurvey : survey shelf = .ok (surveyed, skipped)) (hlisting : shelf.listing = .ok entries)
    (hperm : entries.Perm reordered)
    (hnames : ((entries.filter ShelfEntry.recognized).map ShelfEntry.name).Nodup) :
    survey { shelf with listing := .ok reordered } = .ok (surveyed, skipped) := by
  obtain ⟨listed, found, hlisted, hfound, rfl, rfl⟩ := survey_eq_ok.mp hsurvey
  obtain rfl := Except.ok.inj (hlisting.symm.trans hlisted)
  obtain ⟨found', hfound', hpermFound⟩ := List.perm_comp_forall₂ (hperm.symm.filter _) hfound
  refine survey_eq_ok.mpr ⟨reordered, found', rfl, hfound', ?_, ?_⟩
  · refine mergeSort_eq_of_perm newestFirst_trans newestFirst_total hpermFound.symm ?_
    intro first hfirst second hsecond hle hge
    rw [newestFirst_iff] at hle hge
    have hname : first.name = second.name := by
      rcases hle with hlt | ⟨heq, hle⟩
      · rcases hge with hgt | ⟨heq, -⟩
        · exact absurd hlt (lt_asymm hgt)
        · exact absurd hlt (heq ▸ lt_irrefl _)
      · rcases hge with hgt | ⟨-, hge⟩
        · exact absurd hgt (heq ▸ lt_irrefl _)
        · exact le_antisymm hle hge
    rw [← hfound.map_name] at hnames
    exact List.inj_on_of_nodup_map hnames hfirst hsecond hname
  · have hnamesPerm := (hperm.filter fun entry => !entry.recognized).map ShelfEntry.name
    refine mergeSort_eq_of_perm ?_ ?_ hnamesPerm ?_
    · intro first second third hfirst hsecond
      simp only [decide_eq_true_eq] at hfirst hsecond ⊢
      exact hfirst.trans hsecond
    · intro first second
      simpa using le_total first second
    · intro first _ second _ hle hge
      exact le_antisymm (of_decide_eq_true hle) (of_decide_eq_true hge)

/-! ## What a plan does -/

/-- The product that is saturated never is: a number of days has 32 bits. -/
theorem horizon_eq (keepDays : U32) : horizon keepDays = keepDays.val * 86400 := by
  have hbound := keepDays.isLt
  simp only [horizon]
  omega

section Decided

variable {holds : LegalHolds} {keepDays : U32} {minimumCopies index : ℕ} {nowUnix : U64}
  {candidate : Candidate}

/-- A backup may go if no hold names it, it is not among the newest, and it is too old. -/
def Expendable (holds : LegalHolds) (keepDays : U32) (minimumCopies : ℕ) (nowUnix : U64)
    (index : ℕ) (candidate : Candidate) : Prop :=
  holds[candidate.name]? = none ∧ minimumCopies ≤ index ∧
    candidate.createdUnix.val + keepDays.val * 86400 < nowUnix.val

theorem decided_eq_prune :
    (candidate.decided holds keepDays minimumCopies nowUnix index).decision = .prune ↔
      Expendable holds keepDays minimumCopies nowUnix index candidate := by
  simp only [Candidate.decided, Expendable, horizon_eq]
  cases hhold : holds[candidate.name]? with
  | some reason => exact iff_of_false nofun nofun
  | none =>
      simp only [true_and]
      split
      · next hnewest => exact iff_of_false nofun fun hrest => absurd hrest.1 (Nat.not_le.mpr hnewest)
      · next holder =>
        split
        · next hrecent =>
          refine iff_of_false nofun fun hrest => ?_
          omega
        · next hold =>
          refine iff_of_true rfl ⟨Nat.le_of_not_lt holder, ?_⟩
          omega

theorem decided_of_expendable
    (hexpendable : Expendable holds keepDays minimumCopies nowUnix index candidate) :
    candidate.decided holds keepDays minimumCopies nowUnix index =
      { candidate with decision := .prune } := by
  obtain ⟨hhold, hnewest, hage⟩ := hexpendable
  have holder : ¬ nowUnix.val - candidate.createdUnix.val ≤ horizon keepDays := by
    rw [horizon_eq]
    omega
  simp only [Candidate.decided, hhold]
  rw [if_neg (Nat.not_lt.mpr hnewest), if_neg holder]

theorem undecided_decided :
    (candidate.decided holds keepDays minimumCopies nowUnix index).undecided =
      candidate.undecided := by
  unfold Candidate.decided
  split
  · rfl
  · split
    · rfl
    · split <;> rfl

theorem expendable_congr {other : Candidate} (hsame : candidate.undecided = other.undecided) :
    Expendable holds keepDays minimumCopies nowUnix index candidate ↔
      Expendable holds keepDays minimumCopies nowUnix index other := by
  have hname : candidate.undecided.name = other.undecided.name := congrArg Candidate.name hsame
  have hcreated : candidate.undecided.createdUnix = other.undecided.createdUnix :=
    congrArg Candidate.createdUnix hsame
  simp only [Candidate.undecided] at hname hcreated
  rw [Expendable, Expendable, hname, hcreated]

/-- What is expendable stays so later, and under a laxer policy. -/
theorem Expendable.mono {keepDays' : U32} {minimumCopies' : ℕ} {nowUnix' : U64}
    (hexpendable : Expendable holds keepDays minimumCopies nowUnix index candidate)
    (hdays : keepDays' ≤ keepDays) (hcopies : minimumCopies' ≤ minimumCopies)
    (hnow : nowUnix ≤ nowUnix') :
    Expendable holds keepDays' minimumCopies' nowUnix' index candidate := by
  obtain ⟨hhold, hnewest, hage⟩ := hexpendable
  refine ⟨hhold, hcopies.trans hnewest, ?_⟩
  calc candidate.createdUnix.val + keepDays'.val * 86400
      ≤ candidate.createdUnix.val + keepDays.val * 86400 :=
        Nat.add_le_add_left (Nat.mul_le_mul_right _ hdays) _
    _ < nowUnix.val := hage
    _ ≤ nowUnix'.val := hnow

end Decided

section Planned

variable {shelf : Shelf} {holds : LegalHolds} {keepDays : U32} {minimumCopies : ℕ}
  {nowUnix : U64} {result : Plan}

theorem plan_eq_ok :
    plan shelf keepDays minimumCopies holds nowUnix = .ok result ↔
      keepDays ≠ 0 ∧ minimumCopies ≠ 0 ∧ shelf.isDir = true ∧ shelf.locked = false ∧
        ∃ surveyed skipped, survey shelf = .ok (surveyed, skipped) ∧
          result = {
            root := shelf.root
            candidates :=
              surveyed.mapIdx (Candidate.decided holds keepDays minimumCopies nowUnix)
            skipped := skipped
            applied := false } := by
  unfold plan
  split
  · next hdays => exact iff_of_false nofun fun hplan => hplan.1 hdays
  next hdays =>
  split
  · next hcopies => exact iff_of_false nofun fun hplan => hplan.2.1 hcopies
  next hcopies =>
  split
  · next hdir => exact iff_of_false nofun fun hplan => by simp [hplan.2.2.1] at hdir
  next hdir =>
  split
  · next hlocked => exact iff_of_false nofun fun hplan => by simp [hplan.2.2.2.1] at hlocked
  next hlocked =>
  simp only [except_bind_eq_ok, Prod.exists, ne_eq, hdays, hcopies, not_false_eq_true, true_and]
  have hdir : shelf.isDir = true := by simpa using hdir
  have hlocked : shelf.locked = false := by simpa using hlocked
  simp only [hdir, hlocked, true_and]
  constructor
  · rintro ⟨surveyed, skipped, hsurvey, hdone⟩
    exact ⟨surveyed, skipped, hsurvey, (Except.ok.inj hdone).symm⟩
  · rintro ⟨surveyed, skipped, hsurvey, rfl⟩
    exact ⟨surveyed, skipped, hsurvey, rfl⟩

/-- A plan prunes exactly what the rules let go, over a survey that is in order. -/
structure Prunes (holds : LegalHolds) (keepDays : U32) (minimumCopies : ℕ) (nowUnix : U64)
    (found : List Candidate) (result : Plan) : Prop where
  surveyed : (result.candidates.map Candidate.undecided).Perm found
  ordered : result.candidates.Pairwise fun left right => newestFirst left right = true
  prunes : ∀ (index : ℕ) candidate, result.candidates[index]? = some candidate →
    (candidate.decision = .prune ↔
      Expendable holds keepDays minimumCopies nowUnix index candidate)

theorem map_undecided {surveyed : List Candidate}
    (hsurveyed : ∀ candidate ∈ surveyed, candidate.undecided = candidate) :
    (surveyed.mapIdx (Candidate.decided holds keepDays minimumCopies nowUnix)).map
      Candidate.undecided = surveyed := by
  apply List.ext_getElem?
  intro index
  rw [List.getElem?_map, List.getElem?_mapIdx]
  cases hcandidate : surveyed[index]? with
  | none => rfl
  | some candidate =>
      rw [Option.map_some, Option.map_some, undecided_decided,
        hsurveyed candidate (List.mem_of_getElem? hcandidate)]

theorem prunes_of_plan (hplan : plan shelf keepDays minimumCopies holds nowUnix = .ok result) :
    ∃ entries found, shelf.listing = .ok entries ∧ Found entries found ∧
      Prunes holds keepDays minimumCopies nowUnix found result := by
  obtain ⟨-, -, -, -, surveyed, skipped, hsurvey, rfl⟩ := plan_eq_ok.mp hplan
  obtain ⟨entries, found, hlisting, hfound, rfl, -⟩ := survey_eq_ok.mp hsurvey
  have hperm := List.mergeSort_perm found newestFirst
  have hundecided : ((found.mergeSort newestFirst).mapIdx
      (Candidate.decided holds keepDays minimumCopies nowUnix)).map Candidate.undecided =
        found.mergeSort newestFirst :=
    map_undecided fun candidate hmem => hfound.undecided candidate (hperm.mem_iff.mp hmem)
  refine ⟨entries, found, hlisting, hfound, ?_, ?_, ?_⟩
  · rw [hundecided]
    exact hperm
  · have hsorted := List.pairwise_mergeSort newestFirst_trans newestFirst_total found
    rw [← hundecided, List.pairwise_map] at hsorted
    exact hsorted
  · intro index candidate hcandidate
    rw [List.getElem?_mapIdx] at hcandidate
    obtain ⟨before, -, rfl⟩ := Option.map_eq_some_iff.mp hcandidate
    rw [decided_eq_prune]
    exact (expendable_congr undecided_decided).symm

/-- Later, or under a laxer policy, a plan over the same survey prunes what it pruned before. -/
theorem toPrune_mono {keepDays' : U32} {minimumCopies' : ℕ} {nowUnix' : U64}
    (hplan : plan shelf keepDays minimumCopies holds nowUnix = .ok result)
    (hpositive : keepDays' ≠ 0) (hpositive' : minimumCopies' ≠ 0) (hdays : keepDays' ≤ keepDays)
    (hcopies : minimumCopies' ≤ minimumCopies) (hnow : nowUnix ≤ nowUnix') :
    ∃ result', plan shelf keepDays' minimumCopies' holds nowUnix' = .ok result' ∧
      result.toPrune ⊆ result'.toPrune := by
  obtain ⟨-, -, hdir, hlocked, surveyed, skipped, hsurvey, rfl⟩ := plan_eq_ok.mp hplan
  refine ⟨_, plan_eq_ok.mpr ⟨hpositive, hpositive', hdir, hlocked, surveyed, skipped, hsurvey,
    rfl⟩, ?_⟩
  intro candidate hcandidate
  obtain ⟨hmem, hprune⟩ := List.mem_filter.mp hcandidate
  obtain ⟨index, hindex⟩ := List.getElem?_of_mem hmem
  rw [List.getElem?_mapIdx] at hindex
  obtain ⟨before, hbefore, rfl⟩ := Option.map_eq_some_iff.mp hindex
  have hexpendable := decided_eq_prune.mp (of_decide_eq_true hprune)
  have hlater := hexpendable.mono hdays hcopies hnow
  refine List.mem_filter.mpr ⟨?_, hprune⟩
  rw [decided_of_expendable hexpendable, ← decided_of_expendable hlater]
  apply List.mem_of_getElem?
  rw [List.getElem?_mapIdx, hbefore]
  rfl

/-- Applying a plan removes what it prunes, and asks for nothing else to be removed. -/
theorem Plan.apply_eq_ok {remove : Bytes → Except Bytes Unit} {applied : Plan} :
    result.apply remove = .ok applied ↔
      (∀ candidate ∈ result.toPrune, remove candidate.path = .ok ()) ∧
        applied = { result with applied := true } := by
  simp only [Plan.apply, except_bind_eq_ok, except_forM_eq_ok, List.forall_mem_map]
  constructor
  · rintro ⟨_, hremoved, hdone⟩
    exact ⟨hremoved, (Except.ok.inj hdone).symm⟩
  · rintro ⟨hremoved, rfl⟩
    exact ⟨(), hremoved, rfl⟩

end Planned

/-- A plan prunes the backups that no hold names, that are not among the newest and that are too
old, and no others; it prunes no less later or under a laxer policy; and the order in which the
directory lists the backups does not show. -/
theorem retention_safe (shelf : Shelf) (keepDays : U32) (minimumCopies : ℕ) (holds : LegalHolds)
    (nowUnix : U64) (result : Plan)
    (hplan : plan shelf keepDays minimumCopies holds nowUnix = .ok result) :
    (∃ entries found, shelf.listing = .ok entries ∧ Found entries found ∧
      Prunes holds keepDays minimumCopies nowUnix found result) ∧
    (∀ keepDays' minimumCopies' nowUnix', keepDays' ≠ 0 → minimumCopies' ≠ 0 →
      keepDays' ≤ keepDays → minimumCopies' ≤ minimumCopies → nowUnix ≤ nowUnix' →
      ∃ result', plan shelf keepDays' minimumCopies' holds nowUnix' = .ok result' ∧
        result.toPrune ⊆ result'.toPrune) ∧
    ∀ entries reordered, shelf.listing = .ok entries → entries.Perm reordered →
      ((entries.filter ShelfEntry.recognized).map ShelfEntry.name).Nodup →
      plan { shelf with listing := .ok reordered } keepDays minimumCopies holds nowUnix =
        .ok result := by
  refine ⟨prunes_of_plan hplan, fun _ _ _ hpositive hpositive' => toPrune_mono hplan hpositive
    hpositive', ?_⟩
  intro entries reordered hlisting hperm hnames
  obtain ⟨hdays, hcopies, hdir, hlocked, surveyed, skipped, hsurvey, rfl⟩ := plan_eq_ok.mp hplan
  exact plan_eq_ok.mpr ⟨hdays, hcopies, hdir, hlocked, surveyed, skipped,
    survey_of_perm hsurvey hlisting hperm hnames, rfl⟩

/-! ## A root to evaluate -/

def backupAt (name : Bytes) (createdUnix : U64) : ShelfEntry where
  name := name
  path := ascii "/shelf/" ++ name
  isDir := true
  hasManifest := true
  receipt := .ok (some createdUnix)
  modified := none

/-- Five backups and a file, listed in no order, under a policy of one copy and two days. -/
def fullListing : List ShelfEntry := [
  backupAt (ascii "old") 100, backupAt (ascii "past") 827199,
  { backupAt (ascii "notes") 0 with isDir := false }, backupAt (ascii "held") 200,
  backupAt (ascii "next") 1000100, backupAt (ascii "edge") 827200]

def fullShelf : Shelf where
  root := ascii "/shelf"
  isDir := true
  locked := false
  listing := .ok fullListing

def oneHold : LegalHolds := (∅ : LegalHolds).insert (ascii "held") (ascii "matter 7")

/-- At a million seconds: the newest is dated later than that, one backup is two days old to the
second, and the next is a second older. -/
def fullShelfPlan : Plan where
  root := ascii "/shelf"
  candidates := [
    ⟨ascii "next", ascii "/shelf/next", 1000100, .receipt, .keepMinimumCopies, none⟩,
    ⟨ascii "edge", ascii "/shelf/edge", 827200, .receipt, .keepRecent, none⟩,
    ⟨ascii "past", ascii "/shelf/past", 827199, .receipt, .prune, none⟩,
    ⟨ascii "held", ascii "/shelf/held", 200, .receipt, .keepLegalHold, some (ascii "matter 7")⟩,
    ⟨ascii "old", ascii "/shelf/old", 100, .receipt, .prune, none⟩]
  skipped := [ascii "notes"]
  applied := false

theorem plan_fullShelf : plan fullShelf 2 1 oneHold 1000000 = .ok fullShelfPlan := by
  refine plan_eq_ok.mpr ⟨by decide, by decide, rfl, rfl,
    fullShelfPlan.candidates.map Candidate.undecided, [ascii "notes"], ?_, by decide +kernel⟩
  refine survey_eq_ok.mpr ⟨_, _, rfl,
    .cons rfl (.cons rfl (.cons rfl (.cons rfl (.cons rfl .nil)))), ?_, ?_⟩
  · -- the newest first is an order that the survey is in
    have hordered : (fullShelfPlan.candidates.map Candidate.undecided).mergeSort newestFirst =
        fullShelfPlan.candidates.map Candidate.undecided :=
      List.mergeSort_of_pairwise (by decide +kernel)
    exact hordered.symm.trans (mergeSort_eq_of_perm newestFirst_trans newestFirst_total
      (by decide +kernel) (by decide +kernel))
  · simp [passedOver, fullListing, ShelfEntry.recognized, backupAt]

/-- The newest, the one two days old and the one held stay; the two others go, they also go a day
later under a policy of a day, and it is the same plan if the directory lists them backwards. -/
theorem retention_safe_shelf :
    (∃ entries found, fullShelf.listing = .ok entries ∧ Found entries found ∧
      Prunes oneHold 2 1 1000000 found fullShelfPlan) ∧
    (∃ result', plan fullShelf 1 1 oneHold 1086400 = .ok result' ∧
      [⟨ascii "past", ascii "/shelf/past", 827199, .receipt, .prune, none⟩,
        ⟨ascii "old", ascii "/shelf/old", 100, .receipt, .prune, none⟩] ⊆ result'.toPrune) ∧
    plan { fullShelf with listing := .ok fullListing.reverse } 2 1 oneHold 1000000 =
      .ok fullShelfPlan := by
  obtain ⟨hprunes, hmono, hreordered⟩ :=
    retention_safe fullShelf 2 1 oneHold 1000000 fullShelfPlan plan_fullShelf
  obtain ⟨result', hplan, hsubset⟩ :=
    hmono 1 1 1086400 (by decide) (by decide) (by decide) (by decide) (by decide)
  exact ⟨hprunes, ⟨result', hplan, hsubset⟩,
    hreordered fullListing fullListing.reverse rfl (List.reverse_perm _).symm (by decide +kernel)⟩

end Retention

end LoomDB
