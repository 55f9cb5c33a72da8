import LoomDB.Branch.Refinement

/-!
# What a caller can rely on

A commit reads the same for ever, a branch changes only by the calls that name it, and a
record is the one last written there. All of it is read off the runs of the versions.
-/

namespace LoomDB

open Std (ExtTreeMap)

namespace Call

/-- Whether a call may set the head of a branch that exists. -/
def moves (branch : BranchId) : Call → Bool
  | .write _ onto _ _ _ => onto = branch
  | .invalidate _ onto _ _ => onto = branch
  | .merge _ _ target _ _ _ => target = branch
  | .maintain _ onto _ => onto = branch
  | .rewind _ onto _ => onto = branch
  | _ => false

/-- Whether a call leaves the record of a branch under a key alone: it does not set the
branch, or does not name the key. -/
def spares (branch : BranchId) (key : Key) : Call → Bool
  | .write _ onto records _ _ => onto ≠ branch || records.all fun entry => entry.1 ≠ key
  | .invalidate _ onto keys _ => onto ≠ branch || keys.all fun other => other ≠ key
  | .merge _ _ target _ _ _ => target ≠ branch
  | .rewind _ onto _ => onto ≠ branch
  | _ => true

end Call

namespace Naive

variable {platform : Platform} {before after : NaiveStore} {call : Call}
  {outcome : Except LoomError Answer} {branch : BranchId} {view : View}

/-! ## One step -/

theorem Does.keeps {answer : Answer} (hdoes : Does platform before call answer after) :
    Versions.Kept before after := by
  cases hdoes with
  | opened => exact Versions.kept_point _ _ _
  | branched => exact Versions.kept_point _ _ _
  | rewound => exact Versions.kept_point _ _ _
  | wrote hgrows => exact hgrows.kept
  | forgot hgrows => exact hgrows.kept
  | kept hgrows => exact hgrows.kept
  | merged _ _ hgrows => exact hgrows.kept
  | _ => exact .refl _

theorem ne_of_free {name : BranchId} (hshows : before.Shows branch view)
    (hfree : before.heads name = none) : branch ≠ name := by
  rintro rfl
  obtain ⟨commit, hhead, -⟩ := hshows
  rw [hfree] at hhead
  cases hhead

/-- A call that does not set a branch leaves what it shows. -/
theorem Does.shows {answer : Answer} (hdoes : Does platform before call answer after)
    (hmoves : call.moves branch = false) (hshows : before.Shows branch view) :
    after.Shows branch view := by
  cases hdoes with
  | opened _ _ hfree => exact (Versions.shows_point (ne_of_free hshows hfree) _).mpr hshows
  | branched _ hfree => exact (Versions.shows_point (ne_of_free hshows hfree) _).mpr hshows
  | rewound =>
      have hother := of_decide_eq_false hmoves
      exact (Versions.shows_point (Ne.symm hother) _).mpr hshows
  | wrote hgrows => exact hgrows.shows_of_ne (Ne.symm (of_decide_eq_false hmoves)) hshows
  | forgot hgrows => exact hgrows.shows_of_ne (Ne.symm (of_decide_eq_false hmoves)) hshows
  | kept hgrows => exact hgrows.shows_of_ne (Ne.symm (of_decide_eq_false hmoves)) hshows
  | merged _ _ hgrows => exact hgrows.shows_of_ne (Ne.symm (of_decide_eq_false hmoves)) hshows
  | _ => exact hshows

theorem written_of_all {records : List (Key × Record)} {key : Key}
    (hall : (records.all fun entry => entry.1 ≠ key) = true) : written records view key = view key := by
  unfold written
  split
  · rw [Engine.lastRecord_eq_none, Option.none_or]
    intro record hmem
    simpa using List.all_eq_true.mp hall (key, record) hmem
  · rfl

theorem forgotten_of_all {keys : List Key} {key : Key}
    (hall : (keys.all fun other => other ≠ key) = true) : forgotten keys view key = view key := by
  rw [forgotten, if_neg]
  intro hmem
  simpa using List.all_eq_true.mp hall key hmem

/-- A call that spares a record leaves it. -/
theorem Does.finds {answer : Answer} {key : Key} (hdoes : Does platform before call answer after)
    (hspares : call.spares branch key = true) (hshows : before.Shows branch view) :
    ∃ view', after.Shows branch view' ∧ view' key = view key := by
  have hgrown : ∀ {onto : BranchId} {joined : List CommitId} {held held' : View}
      {base commit : CommitId}, Versions.Grows onto joined held held' base commit before after →
      (onto = branch → held' key = held key) →
      ∃ view', after.Shows branch view' ∧ view' key = view key := by
    intro onto joined held held' base commit hgrows hsame
    by_cases honto : onto = branch
    · subst honto
      obtain rfl := hshows.unique hgrows.was_shown
      exact ⟨held', hgrows.shows, hsame rfl⟩
    · exact ⟨view, hgrows.shows_of_ne (Ne.symm honto) hshows, rfl⟩
  have hnames : ∀ {onto : BranchId} {absent : Bool},
      (Decidable.decide (onto ≠ branch) || absent) = true → onto = branch → absent = true := by
    intro onto absent hor honto
    rcases Bool.or_eq_true_iff.mp hor with hne | habsent
    · exact absurd honto (of_decide_eq_true hne)
    · exact habsent
  cases hdoes with
  | wrote hgrows => exact hgrown hgrows fun honto => written_of_all (hnames hspares honto)
  | forgot hgrows => exact hgrown hgrows fun honto => forgotten_of_all (hnames hspares honto)
  | kept hgrows => exact hgrown hgrows fun _ => rfl
  | merged _ _ hgrows =>
      exact hgrown hgrows fun honto => absurd honto (of_decide_eq_true hspares)
  | rewound hhead =>
      have hother := of_decide_eq_true hspares
      exact ⟨view, (Versions.shows_point (Ne.symm hother) _).mpr hshows, rfl⟩
  | opened _ _ hfree => exact ⟨view, (Versions.shows_point (ne_of_free hshows hfree) _).mpr hshows, rfl⟩
  | branched _ hfree => exact ⟨view, (Versions.shows_point (ne_of_free hshows hfree) _).mpr hshows, rfl⟩
  | _ => exact ⟨view, hshows, rfl⟩

/-! ## Whatever the outcome -/

section Outcomes

variable {label : Call × Except LoomError Answer}

/-- What holds of every success, and of a merge that is left unjoined, holds of every step. -/
theorem Step.elim {P : NaiveStore → Prop} (hstep : Step platform before label after)
    (hbefore : P before)
    (hdoes : ∀ {answer : Answer}, Does platform before label.1 answer after → P after)
    (hunjoined : ∀ {token : CapabilityToken} {source target : BranchId} {policy : MergePolicy}
      {envelope : WriteEnvelope} {forbids : Key → Record → Option Bytes} {base commit : CommitId}
      {held held' : View}, label.1 = .merge token source target policy envelope forbids →
      Versions.Grows target [] held held' base commit before after → P after) : P after := by
  obtain ⟨call, error | answer⟩ := label
  · cases hstep with
    | nothing => exact hbefore
    | all hall => exact hdoes hall
    | unjoined _ _ hgrows => exact hunjoined rfl hgrows
  · exact hdoes hstep

theorem Step.keeps (hstep : Step platform before label after) : Versions.Kept before after :=
  hstep.elim (.refl before) Does.keeps fun _ hgrows => hgrows.kept

theorem Step.shows (hstep : Step platform before label after)
    (hmoves : label.1.moves branch = false) (hshows : before.Shows branch view) :
    after.Shows branch view := by
  refine hstep.elim (P := fun after => after.Shows branch view) hshows
    (fun hdoes => hdoes.shows hmoves hshows) fun hmerge hgrows => ?_
  rw [hmerge] at hmoves
  exact hgrows.shows_of_ne (Ne.symm (of_decide_eq_false hmoves)) hshows

theorem Step.finds {key : Key} (hstep : Step platform before label after)
    (hspares : label.1.spares branch key = true) (hshows : before.Shows branch view) :
    ∃ view', after.Shows branch view' ∧ view' key = view key := by
  refine hstep.elim (P := fun after => ∃ view', after.Shows branch view' ∧ view' key = view key)
    ⟨view, hshows, rfl⟩ (fun hdoes => hdoes.finds hspares hshows) fun hmerge hgrows => ?_
  rw [hmerge] at hspares
  exact ⟨view, hgrows.shows_of_ne (Ne.symm (of_decide_eq_true hspares)) hshows, rfl⟩

end Outcomes

/-! ## Runs -/

section Runs

variable {labels : List (Call × Except LoomError Answer)}

/-- A branch that no call of a run sets shows what it showed. -/
theorem shows_of_steps (hsteps : Versions.Steps (Step platform) before labels after)
    (hmoves : ∀ label ∈ labels, label.1.moves branch = false) (hshows : before.Shows branch view) :
    after.Shows branch view :=
  hsteps.keeps (P := fun before after => before.Shows branch view → after.Shows branch view)
    (fun _ => id) (fun hfirst hsecond hshown => hsecond (hfirst hshown))
    (fun label hlabel hstep => hstep.shows (hmoves label hlabel)) hshows

/-- A record that every call of a run spares is there at its end. -/
theorem finds_of_steps {key : Key} (hsteps : Versions.Steps (Step platform) before labels after)
    (hspares : ∀ label ∈ labels, label.1.spares branch key = true)
    (hshows : before.Shows branch view) : ∃ view', after.Shows branch view' ∧ view' key = view key :=
  hsteps.keeps (P := fun before after => ∀ view, before.Shows branch view →
      ∃ view', after.Shows branch view' ∧ view' key = view key)
    (fun _ view hshown => ⟨view, hshown, rfl⟩)
    (fun hfirst hsecond view hshown => by
      obtain ⟨middle, hmiddle, hsame⟩ := hfirst view hshown
      obtain ⟨last, hlast, hsame'⟩ := hsecond middle hmiddle
      exact ⟨last, hlast, hsame'.trans hsame⟩)
    (fun label hlabel hstep _ hshown => hstep.finds (hspares label hlabel) hshown) view hshows

end Runs

end Naive

namespace Engine

variable {σ ρ : Type} {engine : Engine σ ρ} {lawful : engine.pager.Lawful}
  {loom loom' : Loom σ ρ}

/-! ## Calls of the engine -/

theorem mem_outcomes {calls : List Call} {label : Call × Except LoomError Answer}
    (hlabel : label ∈ engine.outcomes loom calls) : label.1 ∈ calls := by
  induction calls generalizing loom with
  | nil => cases hlabel
  | cons call calls ih =>
      rcases List.mem_cons.mp hlabel with rfl | hrest
      · exact List.mem_cons_self
      · exact List.mem_cons_of_mem _ (ih hrest)

/-- A call that succeeds is a step of the versions. -/
theorem Reachable.does (hcuts : engine.store.Cuts) (hreachable : engine.Reachable lawful loom)
    {call : Call} {answer : Answer} (hcall : (engine.call call loom).1 = .ok answer) :
    Naive.Does engine.platform (versions lawful loom) call answer
      (versions lawful (engine.after call loom)) := by
  have heq : engine.call call loom = (.ok answer, engine.after call loom) := Prod.ext hcall rfl
  exact (call_step hreachable.sound heq).refines hreachable.sound (hreachable.allStored hcuts) heq

/-- A branch shows what its source showed when it was made, whatever is written elsewhere. -/
theorem branch_is_snapshot (hcuts : engine.store.Cuts) (hreachable : engine.Reachable lawful loom)
    {token token' token'' : CapabilityToken} {source name : BranchId} {answer : Answer}
    {calls : List Call} {found found' : List (Key × Record)}
    (hscan : (engine.call (.scan token source) loom).1 = .ok (.records found))
    (hbranch : (engine.call (.branch token' source name) loom).1 = .ok answer)
    (hmoves : ∀ call ∈ calls, call.moves name = false)
    (hscan' : (engine.call (.scan token'' name) (engine.afterAll calls
      (engine.after (.branch token' source name) loom))).1 = .ok (.records found')) :
    found' = found := by
  have hbranched := hreachable.called (.branch token' source name)
  have hfirst := hreachable.does hcuts hscan
  have hdoes := hreachable.does hcuts hbranch
  have hsecond := (hbranched.afterAll calls).does hcuts hscan'
  have hsteps := runs_refine hcuts hbranched calls
  generalize versions lawful (engine.after (.scan token source) loom) = aside at hfirst
  generalize versions lawful (engine.after (.scan token'' name) _) = aside' at hsecond
  generalize versions lawful (engine.afterAll calls _) = last at hsteps hsecond
  generalize versions lawful (engine.after (.branch token' source name) loom) = next
    at hdoes hsteps
  cases hdoes with
  | keptHouse hhouse => cases hhouse
  | opened hopens => rcases hopens with hopens | hopens <;> cases hopens
  | @branched _ _ _ _ commit hhead hfree =>
  cases hfirst with
  | keptHouse hhouse => cases hhouse
  | opened hopens => rcases hopens with hopens | hopens <;> cases hopens
  | scanned hshown hordered hfinds =>
  cases hsecond with
  | keptHouse hhouse => cases hhouse
  | opened hopens => rcases hopens with hopens | hopens <;> cases hopens
  | scanned hshown' hordered' hfinds' =>
  obtain ⟨head, hhead', hheld⟩ := hshown
  obtain rfl := Option.some.inj (hhead.symm.trans hhead')
  have hnamed : ((versions lawful loom).point name commit).Shows name _ :=
    ⟨commit, Function.update_self _ _ _, hheld⟩
  have hkept := Naive.shows_of_steps hsteps
    (fun label hlabel => hmoves label.1 (mem_outcomes hlabel)) hnamed
  obtain rfl := hkept.unique hshown'
  apply OrderedMap.eq_of_sorted hordered' hordered
  rintro ⟨key, record⟩
  rw [hfinds', hfinds]

/-- A branch is made, its source is written on, and the branch is scanned. -/
theorem branch_is_snapshot_written :
    ∃ found found', (memoryEngine.call (.scan (memoryToken [ascii "s"]) (ascii "s"))
        writtenLoom).1 = .ok (.records found) ∧
      (memoryEngine.call (.scan (memoryToken [ascii "b"]) (ascii "b"))
        (memoryEngine.afterAll [counterWrite (ascii "k")]
          (memoryEngine.after (.branch (memoryToken [ascii "s"]) (ascii "s") (ascii "b"))
            writtenLoom))).1 = .ok (.records found') ∧ found' = found := by
  have hscanned : (memoryEngine.scan (memoryToken [ascii "s"]) (ascii "s") writtenLoom).1 =
      .ok [(ascii "k", .value (.counter (I64.ofU64 1)))] := by decide +kernel
  have hscan : (memoryEngine.call (.scan (memoryToken [ascii "s"]) (ascii "s")) writtenLoom).1 =
      .ok (.records [(ascii "k", .value (.counter (I64.ofU64 1)))]) := by
    rw [Engine.call, FallibleState.map_eq, hscanned]
    rfl
  have hbranched : ((memoryEngine.branch (memoryToken [ascii "s"]) (ascii "s") (ascii "b")
      writtenLoom).1.map Prod.fst) = .ok (ascii "b") := by decide +kernel
  have hscanned' : (memoryEngine.scan (memoryToken [ascii "b"]) (ascii "b")
      (memoryEngine.afterAll [counterWrite (ascii "k")]
        (memoryEngine.after (.branch (memoryToken [ascii "s"]) (ascii "s") (ascii "b"))
          writtenLoom))).1 = .ok [(ascii "k", .value (.counter (I64.ofU64 1)))] := by
    decide +kernel
  have hscan' : (memoryEngine.call (.scan (memoryToken [ascii "b"]) (ascii "b"))
      (memoryEngine.afterAll [counterWrite (ascii "k")]
        (memoryEngine.after (.branch (memoryToken [ascii "s"]) (ascii "s") (ascii "b"))
          writtenLoom))).1 = .ok (.records [(ascii "k", .value (.counter (I64.ofU64 1)))]) := by
    rw [Engine.call, FallibleState.map_eq, hscanned']
    rfl
  cases hbranch : (memoryEngine.branch (memoryToken [ascii "s"]) (ascii "s") (ascii "b")
      writtenLoom).1 with
  | error error =>
      rw [hbranch] at hbranched
      cases hbranched
  | ok named =>
      refine ⟨_, _, hscan, hscan', branch_is_snapshot MemRefStore.cuts writtenLoom_reachable hscan
        (by rw [Engine.call, FallibleState.map_eq, hbranch]; rfl) ?_ hscan'⟩
      intro call hcall
      rw [List.mem_singleton.mp hcall]
      decide

/-! ## Commits for ever -/

/-- What calls and restarts lead to from a database. -/
inductive Later (engine : Engine σ ρ) (loom : Loom σ ρ) : Loom σ ρ → Prop
  | refl : Later engine loom loom
  | called {loom' : Loom σ ρ} (hlater : Later engine loom loom') (call : Call) :
      Later engine loom (engine.after call loom')
  | reopened {loom' loom'' : Loom σ ρ} (hlater : Later engine loom loom')
      (hopened : engine.assemble loom'.pager loom'.store = .ok loom'') : Later engine loom loom''

theorem Later.reachable (hlater : Later engine loom loom')
    (hreachable : engine.Reachable lawful loom) : engine.Reachable lawful loom' := by
  induction hlater with
  | refl => exact hreachable
  | called _ call ih => exact ih.called call
  | reopened _ hopened ih => exact ih.reopened hopened

theorem Later.extended (hlater : Later engine loom loom')
    (hreachable : engine.Reachable lawful loom) : lawful.Extends loom.pager loom'.pager := by
  induction hlater with
  | refl => exact .refl _
  | called hlater call ih => exact ih.trans (call_extended (hlater.reachable hreachable).sound call)
  | reopened _ hopened ih =>
      obtain ⟨-, hpager, -⟩ := assemble_eq_ok hopened
      rwa [hpager]

/-- A commit that was read reads the same for ever, through whatever branch and token. -/
theorem readAt_stable (hreachable : engine.Reachable lawful loom)
    (hlater : Later engine loom loom') {token token' : CapabilityToken}
    {branch branch' : BranchId} {commit : CommitId} {key : Key} {found found' : Option Record}
    (hread : (engine.call (.readAt token branch commit key) loom).1 = .ok (.record found))
    (hread' : (engine.call (.readAt token' branch' commit key) loom').1 = .ok (.record found')) :
    found' = found := by
  have hfound : ∀ {loom : Loom σ ρ} {token : CapabilityToken} {branch : BranchId}
      {found : Option Record}, lawful.Sound loom.pager →
      (engine.call (.readAt token branch commit key) loom).1 = .ok (.record found) →
      ∃ map, lawful.Stores loom.pager commit map ∧ found = map[key]? := by
    intro loom token branch found hsound hcall
    rcases hresult : engine.readAt token branch commit key loom with ⟨error | record, last⟩
    · rw [Engine.call, FallibleState.map_eq, hresult] at hcall
      cases hcall
    · rw [Engine.call, FallibleState.map_eq, hresult] at hcall
      obtain rfl := Answer.record.inj (Except.ok.inj hcall)
      exact (readAt_spec hsound hresult).2.2
  obtain ⟨map, hstores, rfl⟩ := hfound hreachable.sound hread
  obtain ⟨map', hstores', rfl⟩ := hfound (hlater.reachable hreachable).sound hread'
  rw [hstores'.unique ((hlater.extended hreachable).stores hstores)]

/-- The first commit of a session, read before and after it writes the key again. -/
theorem readAt_stable_overwritten :
    ∃ found found', (memoryEngine.call (.readAt (memoryToken [ascii "s"]) (ascii "s") 1
        (ascii "k")) writtenLoom).1 = .ok (.record found) ∧
      (memoryEngine.call (.readAt (memoryToken [ascii "s"]) (ascii "s") 1 (ascii "k"))
        (memoryEngine.after (counterWrite (ascii "k")) writtenLoom)).1 = .ok (.record found') ∧
      found' = found := by
  have hone : (memoryEngine.readAt (memoryToken [ascii "s"]) (ascii "s") 1 (ascii "k")
      writtenLoom).1 = .ok (some (.value (.counter (I64.ofU64 1)))) := by decide +kernel
  have htwo : (memoryEngine.readAt (memoryToken [ascii "s"]) (ascii "s") 1 (ascii "k")
      (memoryEngine.after (counterWrite (ascii "k")) writtenLoom)).1 =
        .ok (some (.value (.counter (I64.ofU64 1)))) := by decide +kernel
  have hread : (memoryEngine.call (.readAt (memoryToken [ascii "s"]) (ascii "s") 1 (ascii "k"))
      writtenLoom).1 = .ok (.record (some (.value (.counter (I64.ofU64 1))))) := by
    rw [Engine.call, FallibleState.map_eq, hone]
    rfl
  have hread' : (memoryEngine.call (.readAt (memoryToken [ascii "s"]) (ascii "s") 1 (ascii "k"))
      (memoryEngine.after (counterWrite (ascii "k")) writtenLoom)).1 =
        .ok (.record (some (.value (.counter (I64.ofU64 1))))) := by
    rw [Engine.call, FallibleState.map_eq, htwo]
    rfl
  exact ⟨_, _, hread, hread', readAt_stable writtenLoom_reachable
    (.called .refl (counterWrite (ascii "k"))) hread hread'⟩

end Engine

end LoomDB
