import LoomDB.Branch.Dag
import LoomDB.Branch.Naive

/-!
# The engine refines the versions

Forgetting the pages, the engine's own records and the tokens, every call is a step of the
versions kept whole, and every run of calls is a run of them.
-/

namespace LoomDB

open Std (ExtTreeMap ExtTreeSet)
open Function (update update_self update_of_ne)
open Ancestry (MaximalCommon)

/-! ## What programs do to the caller's keys -/

/-- What a caller sees of the records of a commit. -/
def visible (map : RecordMap) : View :=
  fun key => if isCaller key then map[key]? else none

theorem visible_of_isCaller {map : RecordMap} {key : Key} (hkey : isCaller key = true) :
    visible map key = map[key]? :=
  if_pos hkey

theorem visible_ext {map map' : RecordMap}
    (hsame : ∀ key, isCaller key = true → map'[key]? = map[key]?) : visible map' = visible map := by
  funext key
  unfold visible
  split
  · next hkey => exact hsame key hkey
  · rfl

section Programs

variable {map map' : RecordMap}

theorem visible_written {platform : Platform} {branch : BranchId} {head : CommitId}
    {written : List (Key × Record)} {envelope : WriteEnvelope} {captured : ReadSet}
    {extraParents : ExtTreeMap Key (List NodeId)} {hints : ExtTreeMap Key IndexHint}
    (hrun : (writeProgram platform branch head written envelope captured extraParents hints).onMap
      map = .ok ((), map')) : visible map' = Naive.written written (visible map) := by
  funext key
  unfold Naive.written
  split
  · next hkey =>
    rw [visible_of_isCaller hkey, visible_of_isCaller hkey, writeProgram_record hrun hkey]
  · next hkey => rw [visible, visible, if_neg hkey, if_neg hkey]

theorem getElem?_withdraw {key : Key} {done : Bool}
    (hrun : (Engine.invalidateClaim key map[key]?).onMap map = .ok (done, map')) (other : Key) :
    map'[other]? = if other = key then map[other]?.map Naive.withdrawn else map[other]? := by
  unfold Engine.invalidateClaim at hrun
  split at hrun
  · next claim hclaim =>
    split at hrun
    · next hstands =>
      rw [KeyValue.onMap_put_bind] at hrun
      obtain ⟨-, rfl⟩ := Prod.mk.inj (Except.ok.inj hrun)
      rw [OrderedMap.getElem?_insert]
      by_cases hother : key = other
      · rw [if_pos hother, if_pos hother.symm, ← hother, hclaim, Option.map_some, Naive.withdrawn,
          if_pos hstands]
      · rw [if_neg hother, if_neg (Ne.symm hother)]
    · next hstands =>
      obtain ⟨-, rfl⟩ := Prod.mk.inj (Except.ok.inj hrun)
      split
      · next hother => rw [hother, hclaim, Option.map_some, Naive.withdrawn, if_neg hstands]
      · rfl
  · next hother =>
    obtain ⟨-, rfl⟩ := Prod.mk.inj (Except.ok.inj hrun)
    split
    · next heq =>
      rw [heq]
      cases hfound : map[key]? with
      | none => rfl
      | some record =>
          cases record with
          | claim claim => exact absurd hfound (hother claim)
          | _ => rfl
    · rfl

theorem withdrawn_withdrawn (record : Record) :
    Naive.withdrawn (Naive.withdrawn record) = Naive.withdrawn record := by
  cases record with
  | claim claim =>
      by_cases hstands : claim.status = .asserted ∨ claim.status = .stale
      · rw [Naive.withdrawn, if_pos hstands, Naive.withdrawn, if_neg]
        rintro (hstatus | hstatus) <;> cases hstatus
      · rw [Naive.withdrawn, if_neg hstands, Naive.withdrawn, if_neg hstands]
  | _ => rfl

theorem getElem?_forgotten {keys : List Key} {counts : ℕ × ℕ}
    (hrun : (Engine.forgetKeys keys).onMap map = .ok (counts, map')) {key : Key}
    (hkey : isCaller key = true) :
    map'[key]? = if key ∈ keys then map[key]?.map Naive.withdrawn else map[key]? := by
  induction keys generalizing map counts with
  | nil =>
      obtain ⟨-, rfl⟩ := Prod.mk.inj (Except.ok.inj hrun)
      rw [if_neg List.not_mem_nil]
  | cons first keys ih =>
      rw [Engine.forgetKeys, KeyValue.onMap_drop_bind, KeyValue.onMap_ask_bind] at hrun
      obtain ⟨_, middle, hclaim, hrest⟩ := KeyValue.onMap_bind_eq_ok.mp hrun
      obtain ⟨⟨_, _⟩, last, hkeys, hreturn⟩ := KeyValue.onMap_bind_eq_ok.mp hrest
      obtain ⟨-, rfl⟩ := Prod.mk.inj (Except.ok.inj hreturn)
      have herased : (map.erase (IndexEntry.storageKey first))[key]? = map[key]? := by
        rw [OrderedMap.getElem?_erase, if_neg]
        rintro rfl
        rw [isEngineKey_storageKey first] at hkey
        cases hkey
      have hwithdrawn := getElem?_withdraw hclaim key
      rw [ih hkeys, hwithdrawn, herased]
      by_cases hfirst : key = first
      · rw [if_pos hfirst, if_pos (List.mem_cons.mpr (Or.inl hfirst)), Option.map_map]
        split
        · exact congrArg (fun change => map[key]?.map change) (funext withdrawn_withdrawn)
        · rfl
      · rw [if_neg hfirst]
        by_cases hmem : key ∈ keys
        · rw [if_pos hmem, if_pos (List.mem_cons_of_mem _ hmem)]
        · rw [if_neg hmem, if_neg (List.not_mem_cons_of_ne_of_not_mem hfirst hmem)]

theorem visible_forgotten {keys : List Key} {counts : ℕ × ℕ}
    (hrun : (Engine.forgetKeys keys).onMap map = .ok (counts, map')) :
    visible map' = Naive.forgotten keys (visible map) := by
  funext key
  unfold Naive.forgotten
  by_cases hkey : isCaller key = true
  · rw [visible_of_isCaller hkey, visible_of_isCaller hkey, getElem?_forgotten hrun hkey]
  · rw [visible, visible, if_neg hkey, if_neg hkey]
    split <;> rfl

theorem visible_kept {upkeep : IndexUpkeep} (hrun : upkeep.val.onMap map = .ok ((), map')) :
    visible map' = visible map := by
  refine visible_ext fun key hkey => upkeep.property.frame hrun ?_
  intro hvector
  rw [isCaller_of_isReserved (isReserved_of_isVectorKey hvector)] at hkey
  cases hkey

end Programs

/-! ## The versions of a database -/

namespace Substrate.Lawful

variable {σ : Type} {pager : Substrate σ} {lawful : pager.Lawful} {before after state : σ}
  {commit : CommitId} {map : RecordMap} {view : View}

open Classical in
/-- What a commit holds for a caller. -/
noncomputable def heldAt (lawful : pager.Lawful) (state : σ) (commit : CommitId) : Option View :=
  if hstored : ∃ map, lawful.Stores state commit map then some (visible hstored.choose) else none

theorem Stores.heldAt (hstores : lawful.Stores state commit map) :
    lawful.heldAt state commit = some (visible map) := by
  have hstored : ∃ map, lawful.Stores state commit map := ⟨map, hstores⟩
  rw [Lawful.heldAt, dif_pos hstored, hstored.choose_spec.unique hstores]

theorem heldAt_of_missing (hmissing : lawful.pages state commit = none) :
    lawful.heldAt state commit = none := by
  rw [heldAt, dif_neg]
  rintro ⟨map, pages, hpages, -⟩
  rw [hmissing] at hpages
  cases hpages

theorem heldAt_congr (hpages : lawful.pages after commit = lawful.pages before commit) :
    lawful.heldAt after commit = lawful.heldAt before commit := by
  have hstores : lawful.Stores after commit = lawful.Stores before commit := by
    funext map
    rw [Stores, Stores, hpages]
  rw [heldAt, heldAt, hstores]

end Substrate.Lawful

namespace Engine

variable {σ ρ α : Type} {engine : Engine σ ρ} {lawful : engine.pager.Lawful}
  {loom loom' : Loom σ ρ}

/-- The branches, with what the commits hold and were made from. -/
noncomputable def versions (lawful : engine.pager.Lawful) (loom : Loom σ ρ) : NaiveStore where
  heads branch := loom.refs.branches[branch]?
  contents := lawful.heldAt loom.pager
  parents := engine.parentsOf loom

theorem Shows.versions {branch : BranchId} {map : RecordMap} (hshows : Shows lawful loom branch map) :
    (versions lawful loom).Shows branch (visible map) := by
  obtain ⟨commit, hhead, hstores⟩ := hshows.ofHead
  exact ⟨commit, hhead, hstores.heldAt⟩

theorem Unmoved.versions (hunmoved : Unmoved lawful loom loom') :
    versions lawful loom' = versions lawful loom := by
  have hheld : lawful.heldAt loom'.pager = lawful.heldAt loom.pager :=
    funext fun commit => Substrate.Lawful.heldAt_congr (congrFun hunmoved.pager.pages commit)
  rw [Engine.versions, Engine.versions, hunmoved.refs, hheld, hunmoved.parentsOf]

/-- A branch set to a commit, by a call that does no more. -/
theorem versions_point {branch : BranchId} {commit : CommitId}
    (hpager : loom'.pager = loom.pager)
    (hbranches : loom'.refs.branches = loom.refs.branches.insert branch commit)
    (hcommits : loom'.refs.commits = loom.refs.commits) :
    versions lawful loom' = (versions lawful loom).point branch commit := by
  have hheads : (fun other => loom'.refs.branches[other]?) =
      update (fun other => loom.refs.branches[other]?) branch (some commit) := by
    funext other
    rw [hbranches, OrderedMap.getElem?_insert, Function.update_apply]
    exact if_congr eq_comm rfl rfl
  have hparents : engine.parentsOf loom' = engine.parentsOf loom :=
    parentsOf_congr hcommits (congrArg _ hpager)
  rw [versions, versions, Versions.point, hheads, hparents, hpager]

/-- A commit that is new has its base for a parent. -/
theorem Advanced.base_mem_parentsOf {program : RecordProgram α} {branch : BranchId}
    {base commit : CommitId} {result : α} {map map' : RecordMap}
    {persisted : Except LoomError Unit} (hall : AllAlong engine (StoredEdge lawful) loom)
    (hadvanced : Advanced lawful program branch base commit result map map' persisted loom loom')
    (hnew : base ≠ commit) : base ∈ engine.parentsOf loom' commit := by
  rw [Engine.parentsOf, hadvanced.recorded hall hnew]
  exact List.mem_singleton.mpr rfl

/-- A transaction put on a branch is a version made on top of it. -/
theorem Advanced.grows {program : RecordProgram α} {branch : BranchId}
    {base commit : CommitId} {result : α} {map map' : RecordMap}
    {persisted : Except LoomError Unit} (hall : AllAlong engine (StoredEdge lawful) loom)
    (hadvanced : Advanced lawful program branch base commit result map map' persisted loom loom') :
    Versions.Grows branch [] (visible map) (visible map') base commit (versions lawful loom)
      (versions lawful loom') where
  head := hadvanced.head
  holds := hadvanced.transacted.stored.heldAt
  heads := by
    funext other
    change loom'.refs.branches[other]? = _
    rw [hadvanced.branches, OrderedMap.getElem?_insert, Function.update_apply]
    exact if_congr eq_comm rfl rfl
  contents := by
    funext other
    rw [Function.update_apply]
    split
    · next heq => exact heq ▸ hadvanced.transacted.stores.heldAt
    · next hne => exact Substrate.Lawful.heldAt_congr (hadvanced.transacted.others other hne)
  fresh := by
    refine hadvanced.transacted.fresh.imp (fun heq => ⟨heq, ?_⟩)
      Substrate.Lawful.heldAt_of_missing
    subst heq
    have hkept := hadvanced.transacted.extended.stores hadvanced.transacted.stored
    rw [hadvanced.transacted.stores.unique hkept]
  others other hother :=
    (hadvanced.parentsOf other).resolve_right fun hnew => hother hnew.1
  parents parent hparent := by
    change parent ∈ engine.parentsOf loom' commit at hparent
    rcases hadvanced.parentsOf commit with hsame | ⟨-, -, hbase⟩
    · rw [hsame] at hparent
      exact Or.inl hparent
    · rw [hbase] at hparent
      exact Or.inr hparent
  joins parent hparent hne := by
    obtain rfl := List.mem_singleton.mp hparent
    exact hadvanced.base_mem_parentsOf hall hne

/-- The edges a merge adds are there after it. -/
theorem joined_mem_parentsOf {commit before second : CommitId}
    {persisted : Except LoomError Unit}
    (hfiled : Filed engine (joinEdits loom.refs commit before second) persisted loom loom')
    (hbefore : before ≠ commit → before ∈ engine.parentsOf loom commit) {parent : CommitId}
    (hparent : parent ∈ [before, second]) (hne : parent ≠ commit) :
    parent ∈ engine.parentsOf loom' commit := by
  cases hrecorded : loom.refs.commits[commit]? with
  | some parents =>
      have hold : engine.parentsOf loom commit = parents := by
        rw [Engine.parentsOf, hrecorded]
      have hafter : loom'.refs.commits[commit]? =
          some (if second ∈ parents then parents else parents ++ [second]) := by
        rw [hfiled.refs, commits_joinEdits_self hrecorded]
      rw [Engine.parentsOf, hafter]
      rcases List.mem_cons.mp hparent with rfl | hmem
      · have hthere : parent ∈ parents := hold ▸ hbefore hne
        dsimp only
        split
        · exact hthere
        · exact List.mem_append_left _ hthere
      · obtain rfl := List.mem_singleton.mp hmem
        dsimp only
        split
        · next hthere => exact hthere
        · exact List.mem_append_right _ (List.mem_singleton.mpr rfl)
  | none =>
      have hmem : parent ∈ [before, second].filter fun parent => parent ≠ commit :=
        List.mem_filter.mpr ⟨hparent, by simpa using hne⟩
      have hrecord : recordEdits loom.refs commit [before, second] =
          [.recordCommit commit ([before, second].filter fun parent => parent ≠ commit)] := by
        rw [recordEdits, if_neg]
        rintro (hnil | hsome)
        · rw [hnil] at hmem
          cases hmem
        · rw [hrecorded] at hsome
          cases hsome
      have hmiddle : (loom.refs.replay (recordEdits loom.refs commit
          [before, second])).commits[commit]? =
            some ([before, second].filter fun parent => parent ≠ commit) := by
        rw [hrecord]
        exact (OrderedMap.getElem?_insert _ _ _ _).trans (if_pos rfl)
      have hafter : ∃ parents, loom'.refs.commits[commit]? = some parents ∧ parent ∈ parents := by
        rw [hfiled.refs, joinEdits, Refs.replay_append, edgeEdits, hmiddle]
        dsimp only
        split
        · exact ⟨_, hmiddle, hmem⟩
        · next hsecond =>
          refine ⟨([before, second].filter fun parent => parent ≠ commit) ++ [second], ?_,
            List.mem_append_left _ hmem⟩
          rw [Refs.replay_cons, Refs.replay_nil, Refs.applyEdit, hmiddle, Option.getD_some,
            if_neg hsecond, OrderedMap.getElem?_insert, if_pos rfl]
      obtain ⟨parents, hparents, hthere⟩ := hafter
      rw [Engine.parentsOf, hparents]
      exact hthere

/-- A merge is a version made on top of the target, with the source joined to it. -/
theorem grows_joined {branch : BranchId} {held held' : View} {base commit second : CommitId}
    {persisted : Except LoomError Unit} {middle : Loom σ ρ}
    (hgrows : Versions.Grows branch [] held held' base commit (versions lawful loom)
      (versions lawful middle))
    (hpager : loom'.pager = middle.pager)
    (hfiled : Filed engine (joinEdits middle.refs commit base second) persisted middle loom') :
    Versions.Grows branch [second] held held' base commit (versions lawful loom)
      (versions lawful loom') where
  head := hgrows.head
  holds := hgrows.holds
  heads := by
    rw [← hgrows.heads]
    funext other
    change loom'.refs.branches[other]? = middle.refs.branches[other]?
    rw [hfiled.branches, branches_joinEdits]
  contents := by
    rw [← hgrows.contents]
    exact congrArg lawful.heldAt hpager
  fresh := hgrows.fresh
  others other hother := by
    rw [← hgrows.others other hother]
    change engine.parentsOf loom' other = engine.parentsOf middle other
    rw [Engine.parentsOf, Engine.parentsOf, hfiled.refs, commits_joinEdits_of_ne hother, hpager]
  parents parent hparent := by
    rcases mem_parentsOf_joined hfiled hpager hparent with hmiddle | ⟨-, rfl | rfl⟩
    · refine (hgrows.parents parent hmiddle).imp_right fun hmem => ?_
      exact List.mem_cons.mpr (Or.inl (List.mem_singleton.mp hmem))
    · exact Or.inr List.mem_cons_self
    · exact Or.inr (List.mem_cons_of_mem _ (List.mem_singleton.mpr rfl))
  joins parent hparent hne :=
    joined_mem_parentsOf hfiled
      (fun hbase => hgrows.joins base (List.mem_singleton.mpr rfl) hbase) hparent hne

/-! ## Merges -/

section Planned

variable {platform : Platform} {policy : MergePolicy} {base source target : CommitId}
  {baseMap sourceMap targetMap : RecordMap} {keys : List Key} {plan : Plan} {state : σ}

/-- A plan decides every key it looks at. -/
theorem decided_of_planOver {plan' : Plan}
    (hplan : planOver platform policy baseMap sourceMap targetMap keys plan = .ok plan')
    {key : Key} (hkey : key ∈ keys) :
    ∃ decision, decide platform key baseMap[key]? sourceMap[key]? targetMap[key]? policy =
      .ok decision := by
  induction keys generalizing plan with
  | nil => cases hkey
  | cons first keys ih =>
      obtain ⟨decision, hdecision, hrest⟩ := planOver_cons_eq_ok.mp hplan
      rcases List.mem_cons.mp hkey with rfl | hmem
      · exact ⟨decision, hdecision⟩
      · exact ih hrest hmem

/-- The last record of a key is none, if the key is not written. -/
theorem lastRecord_eq_none {written : List (Key × Record)} {key : Key}
    (hnone : ∀ record, (key, record) ∉ written) : lastRecord written key = none := by
  cases hlast : lastRecord written key with
  | none => rfl
  | some record => exact absurd (mem_of_lastRecord hlast) (hnone record)

/-- What the plan of a merge writes is what the decisions make of the target. -/
theorem merged_of_planned
    (hplanned : Planned lawful platform policy state base source target baseMap sourceMap
      targetMap keys plan) {writes : List (Key × Record)} {automatic : ℕ}
    (houtcome : MergeOutcome.merged writes automatic = plan.outcome) (aside : Key × Record)
    (haside : isCaller aside.1 = false) :
    Naive.Merged platform policy (visible baseMap) (visible sourceMap) (visible targetMap)
      (Naive.written (writes ++ [aside]) (visible targetMap)) := by
  obtain ⟨rfl, -⟩ := mem_writes_of_planned hplanned houtcome
  have hconflicts : plan.conflicts = [] := by
    by_contra hne
    rw [Plan.outcome, if_neg hne] at houtcome
    cases houtcome
  intro key hkey
  have hmem : ∀ record, (key, record) ∈ plan.writes ++ [aside] ↔
      key ∈ keys ∧ ∃ decision,
        decide platform key baseMap[key]? sourceMap[key]? targetMap[key]? policy = .ok decision ∧
          (decision = .write record ∨ decision = .resolved record) := by
    intro record
    rw [List.mem_append, mem_writes_planOver hplanned.planned, List.mem_singleton]
    constructor
    · rintro ((hnil | hdecided) | rfl)
      · cases hnil
      · exact hdecided
      · rw [haside] at hkey
        cases hkey
    · exact fun hdecided => Or.inl (Or.inr hdecided)
  simp only [visible_of_isCaller hkey, Naive.written, if_pos hkey]
  by_cases hlooked : key ∈ keys
  · right
    obtain ⟨decision, hdecision⟩ := decided_of_planOver hplanned.planned hlooked
    refine ⟨decision, hdecision, ?_, ?_⟩
    · rintro report rfl
      have hreport := (mem_conflicts_planOver hplanned.planned).mpr
        (Or.inr ⟨key, hlooked, hdecision⟩)
      rw [hconflicts] at hreport
      cases hreport
    · have hwrites : ∀ record, (decision = .write record ∨ decision = .resolved record) →
          lastRecord (plan.writes ++ [aside]) key = some record := by
        intro record hdecided
        obtain ⟨last, hlast⟩ := lastRecord_isSome
          ((hmem record).mpr ⟨hlooked, decision, hdecision, hdecided⟩)
        obtain ⟨-, decision', hdecision', hdecided'⟩ := (hmem last).mp (mem_of_lastRecord hlast)
        obtain rfl := Except.ok.inj (hdecision.symm.trans hdecision')
        rw [hlast]
        rcases hdecided with rfl | rfl <;> rcases hdecided' with heq | heq <;> cases heq <;> rfl
      have hskips : (∀ record, decision ≠ .write record ∧ decision ≠ .resolved record) →
          lastRecord (plan.writes ++ [aside]) key = none := by
        refine fun hneither => lastRecord_eq_none fun record hwritten => ?_
        obtain ⟨-, decision', hdecision', hdecided⟩ := (hmem record).mp hwritten
        obtain rfl := Except.ok.inj (hdecision.symm.trans hdecision')
        exact hdecided.elim (hneither record).1 (hneither record).2
      cases decision with
      | nothing => rw [hskips (by simp)]; rfl
      | write record => rw [hwrites record (Or.inl rfl)]; rfl
      | resolved record => rw [hwrites record (Or.inr rfl)]; rfl
      | conflict report => rw [hskips (by simp)]; rfl
  · left
    have hunreserved : isReserved key = false := by
      simp only [isCaller, Bool.and_eq_true, Bool.not_eq_true'] at hkey
      exact hkey.1
    have hunmoved := mt (hplanned.covers key hunreserved) hlooked
    rw [not_or, not_not, not_not] at hunmoved
    refine ⟨hunmoved.1, hunmoved.2, ?_⟩
    rw [lastRecord_eq_none fun record hwritten => hlooked ((hmem record).mp hwritten).1]
    rfl

/-- A key that is no caller's and is merged is provenance. -/
theorem isProvenance_of_unreserved {key : Key} (hunreserved : isReserved key = false)
    (hkey : isCaller key ≠ true) : isProvenance key = true := by
  rw [isCaller, hunreserved] at hkey
  simpa using hkey

theorem unreserved_of_isCaller {key : Key} (hkey : isCaller key = true) :
    isReserved key = false := by
  simp only [isCaller, Bool.and_eq_true, Bool.not_eq_true'] at hkey
  exact hkey.1

/-- A plan that is not carried out reports the conflicts. -/
theorem reports_of_planned
    (hplanned : Planned lawful platform policy state base source target baseMap sourceMap
      targetMap keys plan) {reports : List MergeConflict}
    (houtcome : MergeOutcome.conflict reports = plan.outcome) :
    Naive.Reports platform policy (visible baseMap) (visible sourceMap) (visible targetMap)
      reports := by
  have hreports : plan.conflicts ≠ [] ∧ reports = plan.conflicts := by
    unfold Plan.outcome at houtcome
    split at houtcome
    · cases houtcome
    · next hne => exact ⟨hne, MergeOutcome.conflict.inj houtcome⟩
  obtain ⟨hne, rfl⟩ := hreports
  constructor
  · exact hne
  · intro key report hkey hmoved hdecision
    simp only [visible_of_isCaller hkey] at hmoved hdecision
    have hlooked := hplanned.covers key (unreserved_of_isCaller hkey) hmoved
    exact (mem_conflicts_planOver hplanned.planned).mpr (Or.inr ⟨key, hlooked, hdecision⟩)
  · intro report hreport
    rcases (mem_conflicts_planOver hplanned.planned).mp hreport with hnil | ⟨key, hmem, hdecision⟩
    · cases hnil
    · refine ⟨key, ?_⟩
      by_cases hkey : isCaller key = true
      · right
        rw [visible_of_isCaller hkey, visible_of_isCaller hkey, visible_of_isCaller hkey]
        exact hdecision
      · exact Or.inl (isProvenance_of_unreserved (hplanned.unreserved key hmem) hkey)

theorem mem_of_firstForbidden {forbids : Key → Record → Option Bytes}
    {writes : List (Key × Record)} {key : Key} {reason : Bytes}
    (hfirst : firstForbidden forbids writes = some (key, reason)) :
    isCaller key = true ∧ ∃ record, (key, record) ∈ writes ∧ forbids key record = some reason := by
  induction writes with
  | nil => cases hfirst
  | cons entry writes ih =>
      obtain ⟨first, record⟩ := entry
      have hrest : firstForbidden forbids writes = some (key, reason) → isCaller key = true ∧
          ∃ found, (key, found) ∈ (first, record) :: writes ∧ forbids key found = some reason := by
        intro hlater
        obtain ⟨hkey, found, hmem, hforbids⟩ := ih hlater
        exact ⟨hkey, found, List.mem_cons_of_mem _ hmem, hforbids⟩
      unfold firstForbidden at hfirst
      split at hfirst
      · exact hrest hfirst
      · next hcaller =>
        cases hforbids : forbids first record with
        | none =>
            rw [hforbids] at hfirst
            exact hrest hfirst
        | some found =>
            rw [hforbids] at hfirst
            obtain ⟨rfl, rfl⟩ := Prod.mk.inj (Option.some.inj hfirst)
            refine ⟨?_, record, List.mem_cons_self, hforbids⟩
            simpa [isCaller] using hcaller

/-- A forbidden record is one the merge would put on the target. -/
theorem plans_of_planned
    (hplanned : Planned lawful platform policy state base source target baseMap sourceMap
      targetMap keys plan) {writes : List (Key × Record)} {automatic : ℕ}
    (houtcome : MergeOutcome.merged writes automatic = plan.outcome) {key : Key} {record : Record}
    (hkey : isCaller key = true) (hmem : (key, record) ∈ writes) :
    Naive.Plans platform policy (visible baseMap) (visible sourceMap) (visible targetMap) key
      record := by
  obtain ⟨rfl, -⟩ := mem_writes_of_planned hplanned houtcome
  rcases (mem_writes_planOver hplanned.planned).mp hmem with hnil | ⟨-, decision, hdecision, hwrites⟩
  · cases hnil
  · refine ⟨hkey, decision, ?_, hwrites⟩
    rw [visible_of_isCaller hkey, visible_of_isCaller hkey, visible_of_isCaller hkey]
    exact hdecision

end Planned

theorem MergeHeads.merging {source target : BranchId} {sourceHead targetHead base : CommitId}
    {platform : Platform} {policy : MergePolicy} {baseMap sourceMap targetMap : RecordMap}
    {keys : List Key} {plan : Plan}
    (hheads : MergeHeads engine loom source target sourceHead targetHead base)
    (hplanned : Planned lawful platform policy loom.pager base sourceHead targetHead baseMap
      sourceMap targetMap keys plan) :
    Naive.Merging (versions lawful loom) source target sourceHead targetHead base (visible baseMap)
      (visible sourceMap) (visible targetMap) :=
  ⟨hheads.source, hheads.target, hheads.maximal, hplanned.base.heldAt, hplanned.source.heldAt,
    hplanned.target.heldAt⟩

/-- A merge that stops leaves the versions, and says why. -/
theorem MergeStopped.does {token : CapabilityToken} {source target : BranchId}
    {policy : MergePolicy} {envelope : WriteEnvelope} {forbids : Key → Record → Option Bytes}
    {result : MergeResult} (hsound : lawful.Sound loom.pager)
    (hstopped : MergeStopped engine loom source target policy forbids result) :
    Naive.Does engine.platform (versions lawful loom)
      (.merge token source target policy envelope forbids) (.merge result)
      (versions lawful loom) := by
  cases hstopped with
  | conflict hheads hplan =>
      obtain ⟨_, _, _, _, _, houtcome, hplanned⟩ := planMerge_spec hplan hsound
      exact .conflicted (hheads.merging hplanned) (reports_of_planned hplanned houtcome)
  | refused hheads hplan hforbidden =>
      obtain ⟨_, _, _, _, _, houtcome, hplanned⟩ := planMerge_spec hplan hsound
      obtain ⟨hkey, record, hmem, hforbids⟩ := mem_of_firstForbidden hforbidden
      exact .refused (hheads.merging hplanned) (plans_of_planned hplanned houtcome hkey hmem)
        hforbids
  | ambiguous hsource htarget hnodup hcommon hseveral =>
      exact .ambiguous hsource htarget hnodup hcommon hseveral

/-! ## Every call is a step -/

theorem asked_does {call : Call} {answer : Answer} (hsound : lawful.Sound loom.pager)
    (hasks : call.asks = true) (hcall : engine.call call loom = (.ok answer, loom')) :
    Naive.Does engine.platform (versions lawful loom) call answer (versions lawful loom) := by
  cases call with
  | issueCapability session branches ttlMs => exact .keptHouse rfl
  | replaceActorKeys keys => exact .keptHouse rfl
  | rotateActorKey actor key => exact .keptHouse rfl
  | revokeActorKey actor => exact .keptHouse rfl
  | read token branch key =>
      rw [Engine.call, FallibleState.map_eq_ok] at hcall
      obtain ⟨found, hread, rfl⟩ := hcall
      obtain ⟨-, map, hshows, rfl, -⟩ := read_spec hsound hread
      exact .read hshows.versions fun hkey => (visible_of_isCaller hkey).symm
  | readAt token branch commit key =>
      rw [Engine.call, FallibleState.map_eq_ok] at hcall
      obtain ⟨found, hread, rfl⟩ := hcall
      obtain ⟨-, -, map, hstores, rfl⟩ := readAt_spec hsound hread
      exact .readAt hstores.heldAt fun hkey => (visible_of_isCaller hkey).symm
  | scan token branch =>
      rw [Engine.call, FallibleState.map_eq_ok] at hcall
      obtain ⟨found, hscan, rfl⟩ := hcall
      obtain ⟨-, -, map, hshows, rfl⟩ := scan_spec hsound hscan
      refine .scanned hshows.versions ((OrderedMap.sorted_toList map).filter _) fun key record => ?_
      rw [List.mem_filter, ExtTreeMap.mem_toList_iff_getElem?_eq_some, visible]
      by_cases hkey : isCaller key = true
      · rw [if_pos hkey]
        exact and_iff_left hkey
      · rw [if_neg hkey]
        exact iff_of_false (fun hboth => hkey hboth.2) (fun hnone => by cases hnone)
  | _ => cases hasks

/-- What a call leaves is a step of the versions. -/
theorem Step.refines {call : Call} {outcome : Except LoomError Answer}
    (hsound : lawful.Sound loom.pager) (hall : AllAlong engine (StoredEdge lawful) loom)
    (hcall : engine.call call loom = (outcome, loom'))
    (hstep : Step lawful loom call outcome loom') :
    Naive.Step engine.platform (versions lawful loom) (call, outcome) (versions lawful loom') := by
  have hsettles : ∀ {answer : Answer} {persisted : Except LoomError Unit},
      Naive.Does engine.platform (versions lawful loom) call answer (versions lawful loom') →
      Naive.Step engine.platform (versions lawful loom) (call, persisted.map fun _ => answer)
        (versions lawful loom') := by
    intro answer persisted hdoes
    cases persisted with
    | error error => exact .all hdoes
    | ok done => exact hdoes
  cases hstep with
  | asked hasks hstill =>
      rw [hstill.unmoved.versions]
      cases outcome with
      | error error => exact .nothing call
      | ok answer => exact asked_does hsound hasks hcall
  | refused hunmoved =>
      rw [hunmoved.versions]
      exact .nothing call
  | opened hopens hhead hfree hpager hfiled =>
      have hpoint : versions lawful loom' = (versions lawful loom).point _ _ :=
        versions_point hpager (by rw [hfiled.refs]; rfl) (by rw [hfiled.refs]; rfl)
      rw [hpoint]
      cases outcome with
      | error error =>
          exact .all (.opened hopens hhead hfree : Naive.Does engine.platform _ call .done _)
      | ok answer => exact .opened hopens hhead hfree
  | branched _ hhead hfree hpager hfiled =>
      have hpoint : versions lawful loom' = (versions lawful loom).point _ _ :=
        versions_point hpager (by rw [hfiled.refs]; rfl) (by rw [hfiled.refs]; rfl)
      exact hsettles (hpoint ▸ .branched hhead hfree)
  | rewound _ hhead hpager hfiled =>
      have hpoint : versions lawful loom' = (versions lawful loom).point _ _ :=
        versions_point hpager (by rw [hfiled.refs]; rfl) (by rw [hfiled.refs]; rfl)
      exact hsettles (hpoint ▸ .rewound hhead)
  | wrote _ hadvanced =>
      have hgrows := hadvanced.grows hall
      rw [visible_written hadvanced.transacted.ran] at hgrows
      exact hsettles (.wrote hgrows)
  | forgot _ hadvanced =>
      have hgrows := hadvanced.grows hall
      rw [visible_forgotten hadvanced.transacted.ran] at hgrows
      exact hsettles (.forgot hgrows)
  | kept _ hadvanced =>
      have hgrows := hadvanced.grows hall
      rw [visible_kept hadvanced.transacted.ran] at hgrows
      exact hsettles (.kept hgrows)
  | stopped hstill _ hstops =>
      rw [hstill.unmoved.versions]
      exact hstops.does hsound
  | halted hready hadvanced =>
      obtain ⟨_, _, targetMap, _, _, houtcome, hplanned⟩ := planMerge_spec hready.planned hsound
      have hgrows := hadvanced.grows hall
      obtain rfl := hplanned.target.unique hadvanced.transacted.stored
      rw [visible_written hadvanced.transacted.ran] at hgrows
      exact .unjoined (hready.heads.merging hplanned)
        (merged_of_planned hplanned houtcome _ (isCaller_of_isReserved (by simp))) hgrows
  | merged hready hadvanced hpager hfiled =>
      obtain ⟨_, _, targetMap, _, _, houtcome, hplanned⟩ := planMerge_spec hready.planned hsound
      have hgrows := grows_joined (hadvanced.grows hall) hpager hfiled
      obtain rfl := hplanned.target.unique hadvanced.transacted.stored
      rw [visible_written hadvanced.transacted.ran] at hgrows
      exact hsettles (.merged (hready.heads.merging hplanned)
        (merged_of_planned hplanned houtcome _ (isCaller_of_isReserved (by simp))) hgrows)

/-- The calls of a run, each with its outcome. -/
def outcomes (engine : Engine σ ρ) : Loom σ ρ → List Call → List (Call × Except LoomError Answer)
  | _, [] => []
  | loom, call :: calls =>
      (call, (engine.call call loom).1) :: engine.outcomes (engine.after call loom) calls

/-- Every run of calls on a reachable database is a run of the versions kept whole. -/
theorem runs_refine (hcuts : engine.store.Cuts) (hreachable : engine.Reachable lawful loom)
    (calls : List Call) :
    Versions.Steps (Naive.Step engine.platform) (versions lawful loom)
      (engine.outcomes loom calls) (versions lawful (engine.afterAll calls loom)) := by
  induction calls generalizing loom with
  | nil => exact .nil _
  | cons call calls ih =>
      have hstep := call_step hreachable.sound (Prod.ext rfl rfl :
        engine.call call loom = ((engine.call call loom).1, engine.after call loom))
      exact .cons (hstep.refines hreachable.sound (hreachable.allStored hcuts) rfl)
        (ih (hreachable.called call))

/-- A session writes a record, branches and merges the branch back. -/
theorem runs_refine_branches :
    Versions.Steps (Naive.Step memoryEngine.platform) (versions memoryLawful memoryLoom)
      (memoryEngine.outcomes memoryLoom [.openSessionNamed (ascii "s"), counterWrite (ascii "k"),
        .branch (memoryToken [ascii "s"]) (ascii "s") (ascii "b"),
        .merge (memoryToken [ascii "s", ascii "b"]) (ascii "b") (ascii "s") .conflict
          (memoryEnvelope (ascii "s")) fun _ _ => none])
      (versions memoryLawful (memoryEngine.afterAll [.openSessionNamed (ascii "s"),
        counterWrite (ascii "k"), .branch (memoryToken [ascii "s"]) (ascii "s") (ascii "b"),
        .merge (memoryToken [ascii "s", ascii "b"]) (ascii "b") (ascii "s") .conflict
          (memoryEnvelope (ascii "s")) fun _ _ => none] memoryLoom)) :=
  runs_refine MemRefStore.cuts memoryLoom_reachable _

end Engine

end LoomDB
