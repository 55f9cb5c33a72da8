import LoomDB.Branch.Durability

/-!
# Garbage collection

A sweep drops the commits that no branch and no tag reaches. Heads name commits in
the store as long as nobody moves one by hand to a commit that is not there.
-/

namespace LoomDB

open Std (ExtTreeMap ExtTreeSet)
open Ancestry (Ancestor)

/-- The sweep of a page store, given the commits to start from. -/
structure Collector (σ : Type) where
  gc : σ → List CommitId → Except PagerError Unit × σ

namespace Substrate

variable {σ : Type} (pager : Substrate σ)

/-- The parent that the page store records, if any. -/
def recordedParents (state : σ) (commit : CommitId) : List CommitId :=
  match pager.parent state commit with
  | .ok (some parent) => [parent]
  | _ => []

/-- What the engine relies on in a sweep: what the roots reach stays, and nothing
comes up that was not there. -/
structure Sweeps {pager : Substrate σ} (lawful : pager.Lawful) (collector : Collector σ) :
    Prop where
  kept : ∀ (state : σ) {roots : List CommitId} {root commit : CommitId}, root ∈ roots →
    Ancestor (pager.recordedParents state) root commit →
      lawful.pages (collector.gc state roots).2 commit = lawful.pages state commit
  old : ∀ {state : σ} {roots : List CommitId} {commit : CommitId} {pages : Pages},
    lawful.pages (collector.gc state roots).2 commit = some pages →
      lawful.pages state commit = some pages

end Substrate

/-! ## Sweeping in memory -/

namespace MemPager

def parentsIn (state : MemPager) (commit : CommitId) : List CommitId :=
  match state.manifests[commit]? with
  | some (_, some parent) => [parent]
  | _ => []

/-- Drop all commits but these and the root. -/
def retain (state : MemPager) (live : ExtTreeSet CommitId) : MemPager where
  manifests := state.manifests.filter fun commit _ => live.contains commit || commit == state.root
  root := state.root
  rooted := by
    rw [ExtTreeMap.getElem?_filter', state.rooted]
    simp

/-- Mark what the roots reach and sweep the rest. -/
def gc (state : MemPager) (roots : List CommitId) : Except PagerError Unit × MemPager :=
  match Ancestry.walk state.parentsIn (2 * state.manifests.size + roots.length + 1) roots ∅ with
  | some live => (.ok (), state.retain live)
  | none => (.error .commitFailed, state)

def collector : Collector MemPager where
  gc := gc

theorem pages_retain (state : MemPager) (live : ExtTreeSet CommitId) (commit : CommitId) :
    (state.retain live).pages commit =
      if live.contains commit || commit == state.root then state.pages commit else none := by
  unfold pages retain
  rw [ExtTreeMap.getElem?_filter']
  cases state.manifests[commit]? with
  | none => split <;> rfl
  | some entry => split <;> simp_all

theorem recordedParents_eq (pageSize : ℕ) (state : MemPager) :
    (substrate pageSize).recordedParents state = state.parentsIn := by
  funext commit
  simp only [Substrate.recordedParents, substrate, parent, parentsIn]
  cases state.manifests[commit]? with
  | none => rfl
  | some entry =>
      obtain ⟨_, parent⟩ := entry
      cases parent <;> rfl

theorem collector_sweeps (pageSize : ℕ) :
    Substrate.Sweeps (lawful pageSize) collector where
  kept := by
    intro state roots root commit hroot hreach
    rw [recordedParents_eq] at hreach
    change (gc state roots).2.pages commit = state.pages commit
    unfold gc
    split
    · next live hwalk =>
      have hlive : commit ∈ live :=
        (Ancestry.mem_walk (by simp) hwalk).mpr (Or.inr ⟨root, hroot, hreach⟩)
      rw [pages_retain, if_pos (by simp [hlive])]
    · rfl
  old := by
    intro state roots commit pages hpages
    change (gc state roots).2.pages commit = some pages at hpages
    change state.pages commit = some pages
    unfold gc at hpages
    split at hpages
    · rw [pages_retain] at hpages
      split at hpages
      · exact hpages
      · cases hpages
    · exact hpages

end MemPager

namespace Engine

variable {σ ρ : Type} {engine : Engine σ ρ} {lawful : engine.pager.Lawful}
  {collector : Collector σ} {loom : Loom σ ρ}

/-- Sweep everything no branch and no tag points at. -/
def gc (collector : Collector σ) : LoomM σ ρ Unit := do
  let loom ← get
  let (result, pager) := collector.gc loom.pager loom.refs.roots
  modify fun loom => { loom with pager := pager }
  FallibleState.lift (result.mapError LoomError.pager)

/-- A call, or a sweep. -/
inductive Action where
  | call (call : Call)
  | gc

def afterAction (engine : Engine σ ρ) (collector : Collector σ) (loom : Loom σ ρ) :
    Action → Loom σ ρ
  | .call call => engine.after call loom
  | .gc => (gc collector loom).2

/-- Every head names a commit that is in the store and whose pages stand for a
map. -/
def HeadsReadable (lawful : engine.pager.Lawful) (loom : Loom σ ρ) : Prop :=
  ∀ (branch : BranchId) (commit : CommitId), loom.refs.branches[branch]? = some commit →
    ∃ map, lawful.Stores loom.pager commit map

/-- A rewind that will be carried out names a commit in the store. -/
def NamesStored (lawful : engine.pager.Lawful) (loom : Loom σ ρ) : Action → Prop
  | .call (.rewind token branch commit) =>
      admits engine loom token branch = .ok () → loom.refs.branches[branch]?.isSome →
        (lawful.pages loom.pager commit).isSome
  | _ => True

theorem mem_roots {refs : Refs} {branch : BranchId} {commit : CommitId}
    (hhead : refs.branches[branch]? = some commit) : commit ∈ refs.roots := by
  rw [Refs.roots, ExtTreeSet.mem_toList, ExtTreeSet.mem_ofList, List.contains_iff_mem,
    List.mem_append]
  exact Or.inl (List.mem_map.mpr
    ⟨(branch, commit), ExtTreeMap.mem_toList_iff_getElem?_eq_some.mpr hhead, rfl⟩)

/-- Heads moved to commits in the store stay readable through every effect. -/
theorem Effect.headsReadable {rewinds : Rewinds} {before after : Loom σ ρ}
    (heffect : Effect lawful rewinds before after) (hsound : lawful.Sound before.pager)
    (hrewinds : ∀ branch commit, rewinds branch commit →
      (lawful.pages before.pager commit).isSome)
    (hheads : HeadsReadable lawful before) : HeadsReadable lawful after := by
  intro other head hother
  have hkept : before.refs.branches[other]? = some head →
      ∃ map, lawful.Stores after.pager head map := fun hold =>
    (hheads other head hold).imp fun _ => heffect.extended.stores
  cases heffect with
  | aside _ hrefs => exact hkept (hrefs ▸ hother)
  | wrote _ htransacted hfiled =>
      rw [hfiled.branches, branches_advanceEdits, OrderedMap.getElem?_insert] at hother
      split at hother
      · obtain rfl := Option.some.inj hother
        exact ⟨_, htransacted.stores⟩
      · exact hkept hother
  | @branched source name commit _ hpager hhead _ hfiled =>
      rw [hfiled.branches] at hother
      change (before.refs.branches.insert name commit)[other]? = _ at hother
      rw [OrderedMap.getElem?_insert] at hother
      split at hother
      · obtain rfl := Option.some.inj hother
        exact hpager ▸ hheads source commit hhead
      · exact hkept hother
  | @rewound branch commit _ hpager _ hallowed hfiled =>
      rw [hfiled.branches] at hother
      change (before.refs.branches.insert branch commit)[other]? = _ at hother
      rw [OrderedMap.getElem?_insert] at hother
      split at hother
      · obtain rfl := Option.some.inj hother
        obtain ⟨pages, hpages⟩ := Option.isSome_iff_exists.mp (hrewinds _ _ hallowed)
        obtain ⟨map, hstored⟩ := hsound commit pages hpages
        exact ⟨map, pages, hpager ▸ hpages, hstored⟩
      · exact hkept hother
  | joined _ hfiled =>
      rw [hfiled.branches, branches_joinEdits] at hother
      exact hkept hother

/-- A rewind that is refused leaves the heads. -/
theorem rewind_refused {token : CapabilityToken} {branch : BranchId} {commit : CommitId}
    (hrefused : ¬(admits engine loom token branch = .ok () ∧
      loom.refs.branches[branch]?.isSome)) :
    engine.after (.rewind token branch commit) loom = ticked loom := by
  change ((Answer.commit <$> engine.rewind token branch commit : LoomM σ ρ Answer) loom).2 = _
  rw [map_eq_pure_bind, FallibleState.snd_bind_pure]
  unfold rewind
  rw [FallibleState.bind_eq, authorize_eq]
  cases hadmits : admits engine loom token branch with
  | error error => rfl
  | ok done =>
      simp only
      rw [head_bind]
      cases hhead : (ticked loom).refs.branches[branch]? with
      | none => rfl
      | some head =>
          exact absurd ⟨hadmits, Option.isSome_iff_exists.mpr ⟨head, hhead⟩⟩ hrefused

theorem call_headsReadable {call : Call} (hsound : lawful.Sound loom.pager)
    (hnames : NamesStored lawful loom (.call call)) (hheads : HeadsReadable lawful loom) :
    HeadsReadable lawful (engine.after call loom) := by
  by_cases hrewinds : ∀ branch commit, rewindsOf call branch commit →
      (lawful.pages loom.pager commit).isSome
  · have hpath := call_path hsound call
    suffices hall : lawful.Sound (engine.after call loom).pager ∧
        (∀ branch commit, rewindsOf call branch commit →
          (lawful.pages (engine.after call loom).pager commit).isSome) ∧
        HeadsReadable lawful (engine.after call loom) from hall.2.2
    generalize engine.after call loom = last at hpath ⊢
    induction hpath with
    | refl => exact ⟨hsound, hrewinds, hheads⟩
    | tail _ heffect ih =>
        obtain ⟨hsound, hrewinds, hheads⟩ := ih
        refine ⟨heffect.extended.sound hsound, fun branch commit hallowed => ?_,
          heffect.headsReadable hsound hrewinds hheads⟩
        obtain ⟨pages, hpages⟩ := Option.isSome_iff_exists.mp (hrewinds branch commit hallowed)
        rw [heffect.extended.kept hpages]
        rfl
  · -- Only a rewind that was refused names a commit that is not there.
    push Not at hrewinds
    obtain ⟨branch, commit, hallowed, hmissing⟩ := hrewinds
    cases call with
    | rewind token other target =>
        obtain ⟨rfl, rfl⟩ := hallowed
        rw [rewind_refused fun hadmitted => hmissing (hnames hadmitted.1 hadmitted.2)]
        exact hheads
    | _ => exact absurd hallowed id

theorem gc_headsReadable (hsweeps : Substrate.Sweeps lawful collector)
    (hheads : HeadsReadable lawful loom) :
    HeadsReadable lawful (gc collector loom : _ × Loom σ ρ).2 := by
  intro branch commit hhead
  obtain ⟨map, pages, hpages, hstored⟩ := hheads branch commit hhead
  exact ⟨map, pages, (hsweeps.kept _ (mem_roots hhead) (.refl _ _)).trans hpages, hstored⟩

theorem gc_sound (hsweeps : Substrate.Sweeps lawful collector)
    (hsound : lawful.Sound loom.pager) :
    lawful.Sound (gc collector loom : _ × Loom σ ρ).2.pager :=
  fun commit pages hpages => hsound commit pages (hsweeps.old hpages)

/-- The one branch of a new database is at the root. -/
theorem fresh_headsReadable {pager : σ} {store : ρ} (hfresh : engine.Fresh lawful pager store)
    (hopened : engine.assemble pager store = .ok loom) : HeadsReadable lawful loom := by
  obtain ⟨hload, rfl, -⟩ := assemble_eq_ok hopened
  rcases loadRefs_eq_ok hload with ⟨hstored, -⟩ | ⟨root, -, hroot, hrefs, -⟩
  · rw [hfresh.refs] at hstored
    cases hstored
  · intro branch commit hhead
    rw [hrefs] at hhead
    change ((∅ : ExtTreeMap Bytes CommitId).insert MAIN root)[branch]? = some commit at hhead
    rw [OrderedMap.getElem?_insert] at hhead
    split at hhead
    · obtain rfl := Option.some.inj hhead
      exact ⟨∅, ∅, (lawful.root_eq_ok hroot).1, Tree.stored_empty _⟩
    · simp at hhead

/-- A run of calls and sweeps in which every rewind that is carried out names a
commit in the store. -/
def AllNameStored (lawful : engine.pager.Lawful) (collector : Collector σ) :
    Loom σ ρ → List Action → Prop
  | _, [] => True
  | loom, action :: actions =>
      NamesStored lawful loom action ∧
        AllNameStored lawful collector (engine.afterAction collector loom action) actions

/-- In such a run from a new database the heads are readable after every step. -/
theorem headsReadable_of_allNameStored (hsweeps : Substrate.Sweeps lawful collector)
    {pager : σ} {store : ρ} (hfresh : engine.Fresh lawful pager store)
    (hopened : engine.assemble pager store = .ok loom) {actions : List Action}
    (hnames : AllNameStored lawful collector loom actions) :
    HeadsReadable lawful (actions.foldl (engine.afterAction collector) loom) := by
  have hstart : lawful.Sound loom.pager ∧ HeadsReadable lawful loom :=
    ⟨(Reachable.opened hfresh hopened).sound, fresh_headsReadable hfresh hopened⟩
  clear hopened hfresh
  induction actions generalizing loom with
  | nil => exact hstart.2
  | cons action actions ih =>
      obtain ⟨hname, hrest⟩ := hnames
      apply ih hrest
      cases action with
      | call call =>
          exact ⟨(call_extended hstart.1 call).sound hstart.1,
            call_headsReadable hstart.1 hname hstart.2⟩
      | gc => exact ⟨gc_sound hsweeps hstart.1, gc_headsReadable hsweeps hstart.2⟩

/-- A write, a way back, and a sweep. -/
def writeRewindSweep : List Action :=
  [.call (.openSessionNamed (ascii "s")),
    .call (.write (memoryToken [ascii "s"]) (ascii "s")
      [(ascii "k", .value (.counter (I64.ofU64 1)))] ∅ (memoryEnvelope (ascii "s"))),
    .call (.rewind (memoryToken [ascii "s"]) (ascii "s") 0),
    .gc]

/-- A run with a rewind to the root. -/
theorem headsReadable_of_allNameStored_root :
    HeadsReadable memoryLawful
      (writeRewindSweep.foldl (memoryEngine.afterAction MemPager.collector) memoryLoom) :=
  headsReadable_of_allNameStored (MemPager.collector_sweeps 4096) (inMemory_fresh rfl)
    memoryLoom_opened
    ⟨trivial, trivial, fun _ _ => by decide +kernel, trivial, trivial⟩

/-- After the sweep, a rewind back to the commit that was written. -/
def sweptLoom : Loom MemPager (Option Refs) :=
  memoryEngine.after (.rewind (memoryToken [ascii "s"]) (ascii "s") 1)
    (writeRewindSweep.foldl (memoryEngine.afterAction MemPager.collector) memoryLoom)

/-- The rewind is carried out, and the branch points at nothing. -/
theorem rewind_to_swept_dangles : ¬HeadsReadable memoryLawful sweptLoom := by
  intro hheads
  have hhead : sweptLoom.refs.branches[ascii "s"]? = some 1 := by decide +kernel
  have hmissing : memoryLawful.pages sweptLoom.pager 1 = none := by decide +kernel
  obtain ⟨map, pages, hpages, -⟩ := hheads _ _ hhead
  rw [hmissing] at hpages
  cases hpages

end Engine

end LoomDB
