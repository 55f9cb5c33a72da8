import LoomDB.Branch.Effects

/-!
# Durable refs

The engine changes its refs in memory, keeps the edits, and hands them to the ref
store at the end of a call. As long as every batch becomes durable, the durable
refs are those in memory. A batch that the store refuses is not kept for the next
attempt.
-/

namespace LoomDB

open Std (ExtTreeMap ExtTreeSet)
open Relation (ReflTransGen)

theorem RefStore.Lawful.traced {ρ : Type} {store : RefStore ρ} (hstore : store.Lawful) :
    store.traced.Lawful where
  save_eq_ok := by
    rintro refs state ⟨saved, trace⟩ hsave
    obtain ⟨hresult, hsaved⟩ := Prod.mk.inj hsave
    obtain ⟨hsaved, -⟩ := Prod.mk.inj hsaved
    exact hstore.save_eq_ok (Prod.ext hresult hsaved)
  apply_eq_ok := by
    rintro edits state ⟨saved, trace⟩ refs happly hload
    obtain ⟨hresult, hsaved⟩ := Prod.mk.inj happly
    obtain ⟨hsaved, -⟩ := Prod.mk.inj hsaved
    exact hstore.apply_eq_ok (Prod.ext hresult hsaved) hload

theorem Applied.kept_of_ok {ρ : Type} {store : RefStore ρ} (hstore : store.Lawful)
    {applied : Applied ρ}
    (happly : store.apply applied.edits applied.before = (.ok (), applied.after)) :
    applied.Kept store :=
  fun _ hload => hstore.apply_eq_ok happly hload

namespace Engine

variable {σ ρ : Type} {engine : Engine σ ρ} {lawful : engine.pager.Lawful}

/-! ## Soundness of reachable databases -/

theorem loadRefs_eq_ok {pager : σ} {store store' : ρ} {refs : Refs}
    (hload : engine.loadRefs pager store = .ok (refs, store')) :
    (engine.store.load store = .ok (some refs) ∧ store' = store) ∨
      ∃ root, engine.store.load store = .ok none ∧
        engine.pager.rootManifest pager = .ok root ∧ refs = Refs.rooted MAIN root ∧
        engine.store.save refs store = (.ok (), store') := by
  unfold loadRefs at hload
  cases hstored : engine.store.load store with
  | error error =>
      rw [hstored] at hload
      cases hload
  | ok found =>
      rw [hstored] at hload
      cases found with
      | some stored =>
          obtain ⟨rfl, rfl⟩ := Prod.mk.inj (Except.ok.inj hload)
          exact Or.inl ⟨rfl, rfl⟩
      | none =>
          right
          change ((engine.pager.rootManifest pager).mapError LoomError.pager >>= _) = _ at hload
          cases hroot : engine.pager.rootManifest pager with
          | error error =>
              rw [hroot] at hload
              cases hload
          | ok root =>
              rw [hroot] at hload
              obtain ⟨found, heq, hload⟩ := StateExcept.except_bind_eq_ok.mp hload
              obtain rfl := Except.ok.inj heq
              dsimp only at hload
              rcases hsave : engine.store.save (Refs.rooted MAIN root) store with
                ⟨error | done, saved⟩
              · rw [hsave] at hload
                cases hload
              · rw [hsave] at hload
                obtain ⟨rfl, rfl⟩ := Prod.mk.inj (Except.ok.inj hload)
                exact ⟨root, rfl, rfl, rfl, hsave⟩

theorem assemble_eq_ok {pager : σ} {store : ρ} {loom : Loom σ ρ}
    (hopened : engine.assemble pager store = .ok loom) :
    engine.loadRefs pager store = .ok (loom.refs, loom.store) ∧ loom.pager = pager ∧
      loom.actorKeys = none ∧ loom.refEdits = [] ∧ loom.readSets = ∅ ∧ loom.clock = 0 := by
  unfold assemble at hopened
  cases hload : engine.loadRefs pager store with
  | error error =>
      rw [hload] at hopened
      cases hopened
  | ok loaded =>
      rw [hload] at hopened
      obtain rfl := Except.ok.inj hopened
      exact ⟨rfl, rfl, rfl, rfl, rfl, rfl⟩

theorem Fresh.sound {pager : σ} {store : ρ} {root : CommitId}
    (hfresh : engine.Fresh lawful pager store)
    (hroot : engine.pager.rootManifest pager = .ok root) : lawful.Sound pager := by
  intro commit pages hpages
  obtain rfl := hfresh.root hroot commit pages hpages
  rw [(lawful.root_eq_ok hroot).1] at hpages
  obtain rfl := Option.some.inj hpages
  exact ⟨∅, Tree.stored_empty _⟩

theorem Reachable.sound {loom : Loom σ ρ} (hreachable : engine.Reachable lawful loom) :
    lawful.Sound loom.pager := by
  induction hreachable with
  | opened hfresh hopened =>
      obtain ⟨hload, rfl, -⟩ := assemble_eq_ok hopened
      rcases loadRefs_eq_ok hload with ⟨hstored, -⟩ | ⟨root, -, hroot, -⟩
      · rw [hfresh.refs] at hstored
        cases hstored
      · exact hfresh.sound hroot
  | called _ call ih => exact (call_extended ih call).sound ih
  | reopened _ hopened ih =>
      obtain ⟨-, hpager, -⟩ := assemble_eq_ok hopened
      rwa [hpager]

/-! ## Durable and remembered refs -/

/-- A restart would load the refs in memory, and no edit is pending. -/
structure Durable (engine : Engine σ ρ) (loom : Loom σ ρ) : Prop where
  stored : engine.store.load loom.store = .ok (some loom.refs)
  refEdits : loom.refEdits = []

theorem assemble_durable {pager : σ} {store : ρ} {loom : Loom σ ρ}
    (hstore : engine.store.Lawful) (hopened : engine.assemble pager store = .ok loom) :
    Durable engine loom := by
  obtain ⟨hload, -, -, hrefEdits, -⟩ := assemble_eq_ok hopened
  refine ⟨?_, hrefEdits⟩
  rcases loadRefs_eq_ok hload with ⟨hstored, heq⟩ | ⟨root, -, -, -, hsave⟩
  · rw [heq, hstored]
  · exact hstore.save_eq_ok hsave

/-- An engine whose ref store remembers its appends. -/
def traced (engine : Engine σ ρ) : Engine σ (ρ × List (Applied ρ)) :=
  { engine with store := engine.store.traced }

/-- No append of the run failed, unless its batch became durable all the same. -/
def AllKept (engine : Engine σ ρ) (loom : Loom σ (ρ × List (Applied ρ))) : Prop :=
  ∀ applied ∈ loom.store.2, applied.result = .ok () ∨ applied.Kept engine.store

theorem Filed.durable (hstore : engine.store.Lawful) {edits : List RefEdit}
    {persisted : Except LoomError Unit} {before after : Loom σ (ρ × List (Applied ρ))}
    (hfiled : Filed engine.traced edits persisted before after) (hkept : AllKept engine after) :
    AllKept engine before ∧ (Durable engine.traced before → Durable engine.traced after) := by
  have happlied := hfiled.applied
  change ((_, _, _) : Except LoomError Unit × ρ × List (Applied ρ)) = _ at happlied
  obtain ⟨-, heq⟩ := Prod.mk.inj happlied
  have hall : ∀ applied ∈ after.store.2, applied.result = .ok () ∨ applied.Kept engine.store :=
    hkept
  rw [← heq] at hall
  constructor
  · exact fun applied hmem => hall applied (List.mem_append_left _ hmem)
  · intro hbefore
    refine ⟨?_, hfiled.refEdits⟩
    have hlast : Applied.Kept engine.store _ :=
      (hall _ (List.mem_append_right _ List.mem_cons_self)).elim
        (fun hok => Applied.kept_of_ok hstore (Prod.ext hok rfl)) id
    have hloaded := hlast before.refs hbefore.stored
    rw [hbefore.refEdits, List.nil_append] at hloaded
    rw [hfiled.refs, ← heq, hbefore.refEdits]
    exact hloaded

theorem Effect.durable (hstore : engine.store.Lawful) {before after : Loom σ (ρ × List (Applied ρ))}
    {lawful : engine.traced.pager.Lawful} {rewinds : Rewinds}
    (heffect : Effect lawful rewinds before after) (hkept : AllKept engine after) :
    AllKept engine before ∧ (Durable engine.traced before → Durable engine.traced after) := by
  cases heffect with
  | aside _ hrefs hrefEdits hsame =>
      exact ⟨fun applied hmem => hkept applied (hsame ▸ hmem), fun hbefore =>
        ⟨by rw [hsame, hrefs, hbefore.stored], hrefEdits.trans hbefore.refEdits⟩⟩
  | wrote _ _ hfiled => exact hfiled.durable hstore hkept
  | branched _ _ _ hfiled => exact hfiled.durable hstore hkept
  | rewound _ _ _ hfiled => exact hfiled.durable hstore hkept
  | joined _ hfiled => exact hfiled.durable hstore hkept

theorem call_durable (hstore : engine.store.Lawful) {lawful : engine.traced.pager.Lawful}
    {loom : Loom σ (ρ × List (Applied ρ))} (hsound : lawful.Sound loom.pager) (call : Call)
    (hkept : AllKept engine (engine.traced.after call loom)) :
    AllKept engine loom ∧
      (Durable engine.traced loom → Durable engine.traced (engine.traced.after call loom)) := by
  have hpath := call_path hsound call
  generalize engine.traced.after call loom = last at hpath hkept ⊢
  induction hpath with
  | refl => exact ⟨hkept, id⟩
  | tail _ heffect ih =>
      obtain ⟨hkept, hstep⟩ := heffect.durable hstore hkept
      obtain ⟨hkept, hrest⟩ := ih hkept
      exact ⟨hkept, hstep ∘ hrest⟩

/-- In every run in which each append became durable, a restart would load the
refs in memory: nothing that memory shows would be gone. -/
theorem durable_of_allKept {lawful : engine.traced.pager.Lawful} (hstore : engine.store.Lawful)
    {loom : Loom σ (ρ × List (Applied ρ))} (hreachable : engine.traced.Reachable lawful loom)
    (hkept : AllKept engine loom) : Durable engine.traced loom := by
  induction hreachable with
  | opened _ hopened => exact assemble_durable hstore.traced hopened
  | called hreachable call ih =>
      obtain ⟨hkept, hstep⟩ := call_durable hstore hreachable.sound call hkept
      exact hstep (ih hkept)
  | reopened _ hopened => exact assemble_durable hstore.traced hopened

/-- No append failed, and there are three branches. -/
def hasThreeKept (loom : Loom MemPager (Option Refs × List (Applied (Option Refs)))) : Bool :=
  (loom.store.2.all fun applied => applied.result.isOk) && loom.refs.branches.size == 3

theorem eq_ok_of_isOk {result : Except LoomError Unit} (hok : result.isOk = true) :
    result = .ok () := by
  cases result with
  | ok done => rfl
  | error error => cases hok

/-- Two sessions opened on stores in memory. -/
theorem durable_of_allKept_sessions :
    ∃ loom, memoryEngine.traced.Reachable (MemPager.lawful 4096) loom ∧
      Durable memoryEngine.traced loom ∧ loom.refs.branches.size = 3 := by
  have htest : (memoryEngine.traced.assemble MemPager.empty (none, [])).map
      (fun loom => hasThreeKept (memoryEngine.traced.afterAll
        [.openSessionNamed (ascii "a"), .openSessionNamed (ascii "b")] loom)) = .ok true := by
    decide +kernel
  obtain ⟨loom, hreachable, hkept⟩ := exists_reachable (inMemory_fresh rfl) htest
  simp only [hasThreeKept, Bool.and_eq_true, List.all_eq_true, beq_iff_eq] at hkept
  exact ⟨loom, hreachable, durable_of_allKept MemRefStore.lawful hreachable
    fun applied hmem => Or.inl (eq_ok_of_isOk (hkept.1 applied hmem)), hkept.2⟩

/-! ## A refused batch -/

/-- Refs in memory, whose appends fail as planned. -/
def failingRefStore : RefStore (Option Refs × List Bool) where
  load state := .ok state.1
  save refs state := (.ok (), some refs, state.2)
  apply edits state :=
    match state.2 with
    | true :: plan => (.error (.corruptNode 0 "cannot append"), state.1, plan)
    | _ => (.ok (), some ((state.1.getD Refs.default).replay edits), state.2.tail)

theorem failingRefStore_lawful : failingRefStore.Lawful where
  save_eq_ok := by
    intro refs state state' hsave
    obtain ⟨-, rfl⟩ := Prod.mk.inj hsave
    rfl
  apply_eq_ok := by
    rintro edits ⟨stored, plan⟩ state' refs happly hload
    obtain rfl : stored = some refs := Except.ok.inj hload
    cases plan with
    | nil =>
        obtain ⟨-, rfl⟩ := Prod.mk.inj happly
        rfl
    | cons fails plan =>
        cases fails with
        | false =>
            obtain ⟨-, rfl⟩ := Prod.mk.inj happly
            rfl
        | true => cases (Prod.mk.inj happly).1

/-- An engine on a store that may refuse appends. -/
def failingEngine : Engine MemPager (Option Refs × List Bool) :=
  inMemory Platform.plain 4096 failingRefStore [] (ascii "t")

/-- The last append succeeded, and yet memory has a branch that a restart would
not load. -/
def hasDropped (loom : Loom MemPager ((Option Refs × List Bool) ×
    List (Applied (Option Refs × List Bool)))) : Bool :=
  (loom.store.2.getLast?.any fun applied => applied.result.isOk) &&
    loom.refs.branches.contains (ascii "a") &&
    !(loom.store.1.1.getD Refs.default).branches.contains (ascii "a")

/-- Two sessions are opened: the store refuses the first branch and takes the
second, and the first one is never handed to it again. -/
theorem refused_edit_is_dropped :
    ∃ loom, failingEngine.traced.Reachable (MemPager.lawful 4096) loom ∧
      (∃ applied, loom.store.2.getLast? = some applied ∧ applied.result = .ok ()) ∧
      ¬Durable failingEngine.traced loom := by
  have hfresh : failingEngine.traced.Fresh (MemPager.lawful 4096) MemPager.empty
      ((none, [true]), []) := inMemory_fresh rfl
  have htest : (failingEngine.traced.assemble MemPager.empty ((none, [true]), [])).map
      (fun loom => hasDropped (failingEngine.traced.afterAll
        [.openSessionNamed (ascii "a"), .openSessionNamed (ascii "b")] loom)) = .ok true := by
    decide +kernel
  obtain ⟨loom, hreachable, hdropped⟩ := exists_reachable hfresh htest
  simp only [hasDropped, Bool.and_eq_true, Bool.not_eq_true'] at hdropped
  obtain ⟨⟨hlast, hmemory⟩, hdurable⟩ := hdropped
  refine ⟨loom, hreachable, ?_, fun hdurably => ?_⟩
  · obtain ⟨applied, happlied, hok⟩ := Option.any_eq_true _ _ |>.mp hlast
    exact ⟨applied, happlied, eq_ok_of_isOk hok⟩
  · have hstored : loom.store.1.1 = some loom.refs := Except.ok.inj hdurably.stored
    rw [hstored, Option.getD_some, hmemory] at hdurable
    cases hdurable

end Engine

end LoomDB
