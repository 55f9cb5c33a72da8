import LoomDB.Branch.Calls
import LoomDB.Branch.MergeSpec

/-!
# What each call does

Every call leaves the commits and the refs alone, moves one head by hand, adds a
branch, or puts one transaction on a branch; a merge then adds a second parent.
Every invariant of the development is derived from this.
-/

namespace LoomDB

open Std (ExtTreeMap ExtTreeSet)
open FallibleState (Moves)

/-- Reads, tokens and actor keys. -/
def Call.asks : Call → Bool
  | .read .. => true
  | .readAt .. => true
  | .scan .. => true
  | .issueCapability .. => true
  | .replaceActorKeys .. => true
  | .rotateActorKey .. => true
  | .revokeActorKey .. => true
  | _ => false

namespace Engine

variable {σ ρ α : Type} {engine : Engine σ ρ} {lawful : engine.pager.Lawful}
  {loom loom' : Loom σ ρ}

/-! ## Steps that leave the commits and the refs -/

/-- The commits, the refs and their store are as they were. -/
structure Still (before after : Loom σ ρ) : Prop where
  pager : after.pager = before.pager
  refs : after.refs = before.refs
  refEdits : after.refEdits = before.refEdits
  store : after.store = before.store

instance : IsPreorder (Loom σ ρ) Still where
  refl _ := ⟨rfl, rfl, rfl, rfl⟩
  trans _ _ _ hfirst hsecond :=
    ⟨hsecond.pager.trans hfirst.pager, hsecond.refs.trans hfirst.refs,
      hsecond.refEdits.trans hfirst.refEdits, hsecond.store.trans hfirst.store⟩

theorem Still.of_eq (heq : loom = loom') : Still loom loom' :=
  heq ▸ refl loom

theorem now_still : Moves Still engine.now :=
  .bind .get fun _ => .bind (.modify fun _ => ⟨rfl, rfl, rfl, rfl⟩) fun _ => .pure _

theorem authorize_still (token : CapabilityToken) (branch : BranchId) :
    Moves Still (engine.authorize token branch) :=
  .bind now_still fun _ => .lift _

theorem head_still (branch : BranchId) : Moves Still (head branch : LoomM σ ρ CommitId) :=
  (head_moves branch).mono fun _ _ => .of_eq

theorem reading_still (commit : CommitId) (program : RecordProgram α) :
    Moves Still (engine.reading commit program) :=
  (reading_moves commit program).mono fun _ _ => .of_eq

theorem note_still (session : SessionId) (change : ReadSet → ReadSet) :
    Moves Still (note session change : LoomM σ ρ Unit) :=
  .modify fun _ => ⟨rfl, rfl, rfl, rfl⟩

theorem captureRead_still (session : SessionId) (branch : BranchId) (key : Key)
    (record : Record) : Moves Still (engine.captureRead session branch key record) := by
  unfold captureRead
  split
  · exact .pure _
  · have hnode : Moves Still (engine.nodeForKey branch key) :=
      (nodeForKey_moves branch key).mono fun _ _ => .of_eq
    have hentry : Moves Still (engine.indexEntryFor branch key) :=
      .bind (head_still branch) fun _ => .bind (reading_still _ _) fun _ => .lift _
    exact .bind (note_still _ _) fun _ => .bind hnode fun _ => .bind (note_still _ _) fun _ =>
      .bind (note_still _ _) fun _ => .bind hentry fun _ => note_still _ _

theorem captureFound_still (session : SessionId) (branch : BranchId) (key : Key)
    (found : Option Record) : Moves Still (engine.captureFound session branch key found) := by
  cases found with
  | none => exact .pure _
  | some record => exact captureRead_still session branch key record

theorem modifyActorKeys_still (keys : Option (ExtTreeMap ActorId Bytes)) :
    Moves Still (modify fun loom => { loom with actorKeys := keys } : LoomM σ ρ Unit) :=
  .modify fun _ => ⟨rfl, rfl, rfl, rfl⟩

theorem asks_still {call : Call} (hasks : call.asks = true) : Moves Still (engine.call call) := by
  cases call with
  | issueCapability session branches ttlMs =>
      exact .map _ (.bind (.forM fun branch => .discard (head_still branch)) fun _ =>
        .bind now_still fun _ => .bind (.lift _) fun _ => .pure _)
  | read token branch key =>
      exact .map _ (.bind (authorize_still _ _) fun _ => .bind (head_still _) fun _ =>
        .bind (reading_still _ _) fun _ => .bind (captureFound_still _ _ _ _) fun _ => .pure _)
  | readAt token branch commit key =>
      exact .map _ (.bind (authorize_still _ _) fun _ => reading_still _ _)
  | scan token branch =>
      exact .map _ (.bind (authorize_still _ _) fun _ => .bind (head_still _) fun _ =>
        .bind (reading_still _ _) fun _ => .pure _)
  | replaceActorKeys keys => exact .map _ (.bind (.lift _) fun _ => modifyActorKeys_still _)
  | rotateActorKey actor key =>
      exact .map _ (.bind .get fun _ => .bind (.lift _) fun _ => modifyActorKeys_still _)
  | revokeActorKey actor =>
      exact .map _ (.bind .get fun _ => .bind (.lift _) fun _ =>
        .bind (modifyActorKeys_still _) fun _ => .pure _)
  | _ => cases hasks

/-! ## Steps that change them -/

/-- Edits made to the refs and handed to the store with those still pending. -/
structure Filed (engine : Engine σ ρ) (edits : List RefEdit) (persisted : Except LoomError Unit)
    (before after : Loom σ ρ) : Prop where
  refs : after.refs = before.refs.replay edits
  refEdits : after.refEdits = []
  applied : engine.store.apply (before.refEdits ++ edits) before.store = (persisted, after.store)

theorem Filed.branches {edits : List RefEdit} {persisted : Except LoomError Unit}
    {before after : Loom σ ρ} (hfiled : Filed engine edits persisted before after) :
    after.refs.branches = (before.refs.replay edits).branches := by
  rw [hfiled.refs]

theorem filed_of_persist {edits : List RefEdit} {persisted : Except LoomError Unit}
    (hpersist : engine.persist (edited loom edits) = (persisted, loom')) :
    Filed engine edits persisted loom loom' ∧ loom'.pager = loom.pager := by
  rw [persist_eq] at hpersist
  obtain ⟨rfl, rfl⟩ := Prod.mk.inj hpersist
  exact ⟨⟨rfl, rfl, rfl⟩, rfl⟩

/-- A transaction on the head of a branch, put on the branch. -/
structure Advanced (lawful : engine.pager.Lawful) (program : RecordProgram α)
    (branch : BranchId) (base commit : CommitId) (result : α) (map map' : RecordMap)
    (persisted : Except LoomError Unit) (before after : Loom σ ρ) : Prop where
  head : before.refs.branches[branch]? = some base
  transacted : Transacted lawful program base result commit before.pager after.pager map map'
  filed : Filed engine (advanceEdits before.refs branch base commit) persisted before after

/-- The same commits and refs, as far as can be seen. -/
structure Unmoved (lawful : engine.pager.Lawful) (before after : Loom σ ρ) : Prop where
  pager : lawful.Same before.pager after.pager
  refs : after.refs = before.refs
  refEdits : after.refEdits = before.refEdits
  store : after.store = before.store

theorem Still.unmoved (hstill : Still loom loom') : Unmoved lawful loom loom' :=
  ⟨hstill.pager ▸ .refl _, hstill.refs, hstill.refEdits, hstill.store⟩

theorem Unmoved.of_clock (hafter : loom' = { loom with clock := loom'.clock }) :
    Unmoved lawful loom loom' := by
  rw [hafter]
  exact ⟨.refl _, rfl, rfl, rfl⟩

/-- A write that fails leaves the commits, or is on the branch. The state it starts
from may have been prepared by checks. -/
theorem advance_step {start : Loom σ ρ} {branch : BranchId} {base : CommitId}
    {program : RecordProgram α} {outcome : Except LoomError (α × CommitId)}
    (hstart : Still loom start) (hsound : lawful.Sound loom.pager)
    (hhead : loom.refs.branches[branch]? = some base)
    (hadvance : engine.advance branch base program start = (outcome, loom')) :
    ((∃ error, outcome = .error error) ∧ Unmoved lawful loom loom') ∨
      ∃ result commit map map' persisted,
        Advanced lawful program branch base commit result map map' persisted loom loom' ∧
        outcome = persisted.map fun _ => (result, commit) := by
  have hbranch : start.refs.branches[branch]?.isSome := by rw [hstart.refs, hhead]; rfl
  have hsound' : lawful.Sound start.pager := hstart.pager ▸ hsound
  rcases advance_cases hsound' hbranch hadvance with
    ⟨error, rfl, -, hafter, hsame⟩ |
    ⟨result, commit, map, map', -, htransacted, hafter, persisted, happly, rfl⟩
  · rw [hstart.pager] at hsame
    refine Or.inl ⟨⟨error, rfl⟩, hsame, ?_, ?_, ?_⟩
    · rw [hafter, ← hstart.refs]
    · rw [hafter, ← hstart.refEdits]
    · rw [hafter, ← hstart.store]
  · rw [hstart.pager] at htransacted
    rw [hstart.refEdits, hstart.refs, hstart.store] at happly
    refine Or.inr ⟨result, commit, map, map', persisted, ⟨hhead, htransacted, ?_, ?_, happly⟩, rfl⟩
    · rw [hafter, ← hstart.refs]
    · rw [hafter]

/-! ## The graph of commits -/

theorem parentsOf_congr (hcommits : loom'.refs.commits = loom.refs.commits)
    (hparent : engine.pager.parent loom'.pager = engine.pager.parent loom.pager) :
    engine.parentsOf loom' = engine.parentsOf loom := by
  funext commit
  unfold parentsOf
  rw [hcommits, hparent]

theorem Unmoved.parentsOf (hunmoved : Unmoved lawful loom loom') :
    engine.parentsOf loom' = engine.parentsOf loom :=
  parentsOf_congr (congrArg Refs.commits hunmoved.refs) hunmoved.pager.parents

/-- Edits that record no commit leave the graph. -/
theorem Filed.parentsOf {edits : List RefEdit} {persisted : Except LoomError Unit}
    (hfiled : Filed engine edits persisted loom loom')
    (hcommits : (loom.refs.replay edits).commits = loom.refs.commits)
    (hpager : loom'.pager = loom.pager) : engine.parentsOf loom' = engine.parentsOf loom :=
  parentsOf_congr ((congrArg Refs.commits hfiled.refs).trans hcommits)
    (congrArg engine.pager.parent hpager)

theorem commits_recordEdits (refs : Refs) (commit : CommitId) (parents : List CommitId)
    (other : CommitId) :
    (refs.replay (recordEdits refs commit parents)).commits[other]? = refs.commits[other]? ∨
      other = commit ∧ refs.commits[commit]? = none ∧
        (refs.replay (recordEdits refs commit parents)).commits[other]? =
          some (parents.filter fun parent => parent ≠ commit) ∧
        (parents.filter fun parent => parent ≠ commit) ≠ [] := by
  unfold recordEdits
  split
  · exact Or.inl rfl
  · next hrecords =>
    rw [not_or, Option.not_isSome_iff_eq_none] at hrecords
    obtain ⟨hne, hnone⟩ := hrecords
    have hcommits : (refs.replay [.recordCommit commit
        (parents.filter fun parent => parent ≠ commit)]).commits[other]? =
          if commit = other then some (parents.filter fun parent => parent ≠ commit)
          else refs.commits[other]? := OrderedMap.getElem?_insert _ _ _ _
    rw [hcommits]
    by_cases heq : commit = other
    · rw [if_pos heq]
      exact Or.inr ⟨heq.symm, hnone, rfl, hne⟩
    · rw [if_neg heq]
      exact Or.inl rfl

/-- A write gives its commit the base as a parent, if the commit is new. -/
theorem Advanced.parentsOf {program : RecordProgram α} {branch : BranchId}
    {base commit : CommitId} {result : α} {map map' : RecordMap}
    {persisted : Except LoomError Unit}
    (hadvanced : Advanced lawful program branch base commit result map map' persisted loom loom')
    (other : CommitId) :
    engine.parentsOf loom' other = engine.parentsOf loom other ∨
      other = commit ∧ lawful.pages loom.pager commit = none ∧
        engine.parentsOf loom' other = [base] := by
  have hcommits : loom'.refs.commits[other]? =
      (loom.refs.replay (recordEdits loom.refs commit [base])).commits[other]? := by
    rw [hadvanced.filed.refs, advanceEdits, Refs.replay_append]
    rfl
  unfold Engine.parentsOf
  rcases commits_recordEdits loom.refs commit [base] other with hsame | ⟨rfl, -, hnew, hne⟩
  · rw [hcommits, hsame]
    cases loom.refs.commits[other]? with
    | some parents => exact Or.inl rfl
    | none =>
        rcases hadvanced.transacted.grows other with hparent | ⟨rfl, hmissing, hparent⟩
        · rw [hparent]
          exact Or.inl rfl
        · rw [hparent]
          exact Or.inr ⟨rfl, hmissing, rfl⟩
  · by_cases heq : base = other
    · simp [heq] at hne
    · rw [hcommits, hnew]
      refine Or.inr ⟨rfl, hadvanced.transacted.fresh.resolve_left (Ne.symm heq), ?_⟩
      simp [heq]

theorem commits_edgeEdits (refs : Refs) (commit second other : CommitId) :
    (refs.replay (edgeEdits refs commit second)).commits[other]? = refs.commits[other]? ∨
      other = commit ∧ ∃ parents, refs.commits[commit]? = some parents ∧
        (refs.replay (edgeEdits refs commit second)).commits[other]? =
          some (parents ++ [second]) := by
  unfold edgeEdits
  cases hparents : refs.commits[commit]? with
  | none => exact Or.inl rfl
  | some parents =>
      simp only
      split
      · exact Or.inl rfl
      · next hnew =>
        have hcommits : (refs.replay [.addParent commit second]).commits[other]? =
            if commit = other then some (parents ++ [second]) else refs.commits[other]? := by
          rw [Refs.replay_cons, Refs.replay_nil, Refs.applyEdit, hparents, Option.getD_some,
            if_neg hnew]
          exact OrderedMap.getElem?_insert refs.commits commit other (parents ++ [second])
        rw [hcommits]
        by_cases heq : commit = other
        · rw [if_pos heq]
          exact Or.inr ⟨heq.symm, parents, rfl, rfl⟩
        · rw [if_neg heq]
          exact Or.inl rfl

/-- A merge adds no edge but those from its commit to the two heads. -/
theorem mem_parentsOf_joined {commit before second : CommitId}
    {persisted : Except LoomError Unit}
    (hfiled : Filed engine (joinEdits loom.refs commit before second) persisted loom loom')
    (hpager : loom'.pager = loom.pager) {child parent : CommitId}
    (hparent : parent ∈ engine.parentsOf loom' child) :
    parent ∈ engine.parentsOf loom child ∨
      child = commit ∧ (parent = before ∨ parent = second) := by
  have hcommits : loom'.refs.commits[child]? =
      ((loom.refs.replay (recordEdits loom.refs commit [before, second])).replay (edgeEdits
        (loom.refs.replay (recordEdits loom.refs commit [before, second])) commit
          second)).commits[child]? := by
    rw [hfiled.refs, joinEdits, Refs.replay_append]
  unfold Engine.parentsOf at hparent ⊢
  rw [hcommits, hpager] at hparent
  have hpair : ∀ parent, parent ∈ [before, second].filter (fun parent => parent ≠ commit) →
      parent = before ∨ parent = second := by
    intro parent hmem
    simpa using (List.mem_filter.mp hmem).1
  have hrecorded := commits_recordEdits loom.refs commit [before, second]
  rcases commits_edgeEdits (loom.refs.replay (recordEdits loom.refs commit [before, second])) commit
    second child with hsame | ⟨rfl, parents, hold, hnew⟩
  · rw [hsame] at hparent
    rcases hrecorded child with hkept | ⟨rfl, -, hadded, -⟩
    · rw [hkept] at hparent
      exact Or.inl hparent
    · rw [hadded] at hparent
      exact Or.inr ⟨rfl, hpair _ hparent⟩
  · rw [hnew] at hparent
    rcases List.mem_append.mp hparent with hmem | hmem
    · rcases hrecorded child with hkept | ⟨-, -, hadded, -⟩
      · rw [← hkept, hold]
        exact Or.inl hmem
      · rw [hold] at hadded
        rw [Option.some.inj hadded] at hmem
        exact Or.inr ⟨rfl, hpair _ hmem⟩
    · exact Or.inr ⟨rfl, Or.inr (List.mem_singleton.mp hmem)⟩

/-! ## Calls -/

/-- What a call returns and leaves. -/
inductive Step (lawful : engine.pager.Lawful) (loom : Loom σ ρ) :
    Call → Except LoomError Answer → Loom σ ρ → Prop
  | asked {call : Call} {outcome : Except LoomError Answer} {after : Loom σ ρ}
      (asks : call.asks = true) (still : Still loom after) : Step lawful loom call outcome after
  | refused {call : Call} {error : LoomError} {after : Loom σ ρ}
      (unmoved : Unmoved lawful loom after) : Step lawful loom call (.error error) after
  | opened {call : Call} {session : SessionId} {base : CommitId}
      {persisted : Except LoomError Unit} {outcome : Except LoomError Answer} {after : Loom σ ρ}
      (opens : call = .openSession ∨ call = .openSessionNamed session)
      (head : loom.refs.branches[MAIN]? = some base) (free : loom.refs.branches[session]? = none)
      (pager : after.pager = loom.pager)
      (filed : Filed engine [.createBranch session base] persisted loom after) :
      Step lawful loom call outcome after
  | branched {token : CapabilityToken} {source name : BranchId} {commit : CommitId}
      {persisted : Except LoomError Unit} {after : Loom σ ρ}
      (admitted : admits engine loom token source = .ok ())
      (head : loom.refs.branches[source]? = some commit)
      (free : loom.refs.branches[name]? = none) (pager : after.pager = loom.pager)
      (filed : Filed engine [.createBranch name commit] persisted loom after) :
      Step lawful loom (.branch token source name) (persisted.map fun _ =>
        .branch name (engine.issuer.extend engine.platform token name)) after
  | rewound {token : CapabilityToken} {branch : BranchId} {previous commit : CommitId}
      {persisted : Except LoomError Unit} {after : Loom σ ρ}
      (admitted : admits engine loom token branch = .ok ())
      (head : loom.refs.branches[branch]? = some previous) (pager : after.pager = loom.pager)
      (filed : Filed engine [.setHead branch commit] persisted loom after) :
      Step lawful loom (.rewind token branch commit)
        (persisted.map fun _ => .commit previous) after
  | wrote {token : CapabilityToken} {branch : BranchId} {records : List (Key × Record)}
      {hints : ExtTreeMap Key IndexHint} {envelope : WriteEnvelope} {base commit : CommitId}
      {map map' : RecordMap} {persisted : Except LoomError Unit} {after : Loom σ ρ}
      (admitted : writeAdmits engine loom token branch envelope = .ok ())
      (advanced : Advanced lawful (writeProgram engine.platform branch base records envelope
        (readSet envelope.session loom) ∅ hints) branch base commit () map map' persisted loom
        after) :
      Step lawful loom (.write token branch records hints envelope)
        (persisted.map fun _ => .commit commit) after
  | forgot {token : CapabilityToken} {branch : BranchId} {keys : List Key}
      {envelope : WriteEnvelope} {base commit : CommitId} {counts : ℕ × ℕ}
      {map map' : RecordMap} {persisted : Except LoomError Unit} {after : Loom σ ρ}
      (admitted : writeAdmits engine loom token branch envelope = .ok ())
      (advanced : Advanced lawful (forgetKeys keys) branch base commit counts map map' persisted
        loom after) :
      Step lawful loom (.invalidate token branch keys envelope)
        (persisted.map fun _ => .counts counts.1 counts.2) after
  | kept {token : CapabilityToken} {branch : BranchId} {upkeep : IndexUpkeep}
      {base commit : CommitId} {map map' : RecordMap} {persisted : Except LoomError Unit}
      {after : Loom σ ρ} (admitted : admits engine loom token branch = .ok ())
      (advanced : Advanced lawful upkeep.val branch base commit () map map' persisted loom
        after) :
      Step lawful loom (.maintain token branch upkeep) (persisted.map fun _ => .done) after
  /-- A merge that did not write. -/
  | stopped {token : CapabilityToken} {source target : BranchId} {policy : MergePolicy}
      {envelope : WriteEnvelope} {forbids : Key → Record → Option Bytes} {result : MergeResult}
      {after : Loom σ ρ} (still : Still loom after)
      (admitted : mergeAdmits engine loom token source target envelope = .ok ())
      (stops : MergeStopped engine loom source target policy forbids result) :
      Step lawful loom (.merge token source target policy envelope forbids) (.ok (.merge result))
        after
  /-- A merge whose write the ref store refused. -/
  | halted {token : CapabilityToken} {source target : BranchId} {policy : MergePolicy}
      {envelope : WriteEnvelope} {forbids : Key → Record → Option Bytes}
      {sourceHead targetHead base : CommitId} {writes : List (Key × Record)} {automatic : ℕ}
      {parents : ExtTreeMap Key (List NodeId)} {commit : CommitId} {map map' : RecordMap}
      {error : LoomError} {after : Loom σ ρ}
      (ready : MergeReady engine loom token source target policy envelope forbids sourceHead
        targetHead base writes automatic parents)
      (advanced : Advanced lawful (writeProgram engine.platform target targetHead
        (writes ++ [(mergedFromKey source, Record.blob sourceHead.asBytes)]) envelope
        (readSet envelope.session loom) parents ∅) target targetHead commit () map map'
        (.error error) loom after) :
      Step lawful loom (.merge token source target policy envelope forbids) (.error error) after
  /-- A merge that wrote, and then added the second parent. -/
  | merged {token : CapabilityToken} {source target : BranchId} {policy : MergePolicy}
      {envelope : WriteEnvelope} {forbids : Key → Record → Option Bytes}
      {sourceHead targetHead base : CommitId} {writes : List (Key × Record)} {automatic : ℕ}
      {parents : ExtTreeMap Key (List NodeId)} {commit : CommitId} {map map' : RecordMap}
      {persisted : Except LoomError Unit} {middle after : Loom σ ρ}
      (ready : MergeReady engine loom token source target policy envelope forbids sourceHead
        targetHead base writes automatic parents)
      (advanced : Advanced lawful (writeProgram engine.platform target targetHead
        (writes ++ [(mergedFromKey source, Record.blob sourceHead.asBytes)]) envelope
        (readSet envelope.session loom) parents ∅) target targetHead commit () map map' (.ok ())
        loom middle)
      (pager : after.pager = middle.pager)
      (filed : Filed engine (joinEdits middle.refs commit targetHead sourceHead) persisted middle
        after) :
      Step lawful loom (.merge token source target policy envelope forbids)
        (persisted.map fun _ => .merge (.merged commit (mergedRecords writes) automatic)) after

theorem openSessionNamed_step {start : Loom σ ρ} {call : Call} {session : SessionId}
    {outcome : Except LoomError (SessionHandle × CapabilityToken)}
    (hcall : call = .openSession ∨ call = .openSessionNamed session) (hstart : Still loom start)
    (hopen : engine.openSessionNamed session start = (outcome, loom')) :
    Step lawful loom call (outcome.map fun (handle, token) => .session handle token) loom' := by
  have hunmoved : Unmoved lawful loom start := hstart.unmoved
  unfold openSessionNamed at hopen
  rw [head_bind] at hopen
  cases hhead : start.refs.branches[MAIN]? with
  | none =>
      rw [hhead] at hopen
      obtain ⟨rfl, rfl⟩ := Prod.mk.inj hopen
      exact .refused hunmoved
  | some base =>
  simp only [hhead] at hopen
  rw [FallibleState.bind_eq] at hopen
  cases hname : start.refs.branches[session]? with
  | some taken =>
      rw [createBranch_taken (by rw [hname]; rfl)] at hopen
      obtain ⟨rfl, rfl⟩ := Prod.mk.inj hopen
      exact .refused hunmoved
  | none =>
      rw [createBranch_eq hname] at hopen
      rcases hpersist : engine.persist (edited start [.createBranch session base]) with
        ⟨persisted, middle⟩
      obtain ⟨hfiled, hpager⟩ := filed_of_persist hpersist
      have hmiddle : Filed engine [.createBranch session base] persisted loom middle := by
        refine ⟨?_, hfiled.refEdits, ?_⟩
        · rw [← hstart.refs, hfiled.refs]
        · rw [← hstart.refEdits, ← hstart.store, hfiled.applied]
      rw [hpersist] at hopen
      rw [hstart.refs] at hhead hname
      -- Whatever the clock says, the branch is there by now.
      suffices hstill : Still middle loom' by
        have hafter : Filed engine [.createBranch session base] persisted loom loom' :=
          ⟨hstill.refs.trans hmiddle.refs, hstill.refEdits.trans hmiddle.refEdits,
            hstill.store ▸ hmiddle.applied⟩
        exact .opened hcall hhead hname ((hstill.pager.trans hpager).trans hstart.pager) hafter
      cases persisted with
      | error error =>
          obtain ⟨-, rfl⟩ := Prod.mk.inj hopen
          exact .of_eq rfl
      | ok done =>
          exact (Moves.bind now_still fun _ => .bind (.lift _) fun _ => .pure _).of_eq hopen

/-- The states a write starts from, once its checks are through. -/
theorem ticked_still : Still loom (ticked loom) :=
  ⟨rfl, rfl, rfl, rfl⟩

theorem taken_still (session : SessionId) : Still loom (taken loom session) :=
  ⟨rfl, rfl, rfl, rfl⟩

theorem write_step {token : CapabilityToken} {branch : BranchId} {records : List (Key × Record)}
    {hints : ExtTreeMap Key IndexHint} {envelope : WriteEnvelope}
    {outcome : Except LoomError CommitId} (hsound : lawful.Sound loom.pager)
    (hwrite : engine.writeAll token branch records envelope ∅ hints loom = (outcome, loom')) :
    Step lawful loom (.write token branch records hints envelope) (outcome.map .commit) loom' := by
  rcases writeAll_cases hwrite with
    ⟨error, -, rfl, hafter⟩ |
    ⟨hadmits, ⟨-, rfl, rfl⟩ | ⟨base, advanced, hhead, hadvance, rfl⟩⟩
  · exact .refused (.of_clock hafter)
  · exact .refused (taken_still _).unmoved
  · rcases advance_step (taken_still _) hsound hhead hadvance with
      ⟨⟨error, rfl⟩, hunmoved⟩ | ⟨⟨⟩, commit, map, map', persisted, hadvanced, rfl⟩
    · exact .refused hunmoved
    · cases persisted with
      | error error => exact .wrote hadmits hadvanced
      | ok done => exact .wrote hadmits hadvanced

theorem invalidate_step {token : CapabilityToken} {branch : BranchId} {keys : List Key}
    {envelope : WriteEnvelope} {outcome : Except LoomError (ℕ × ℕ)}
    (hsound : lawful.Sound loom.pager)
    (hinvalidate : engine.invalidateAndDeindex token branch keys envelope loom =
      (outcome, loom')) :
    Step lawful loom (.invalidate token branch keys envelope)
      (outcome.map fun (invalidated, deindexed) => .counts invalidated deindexed) loom' := by
  rcases invalidateAndDeindex_cases hinvalidate with
    ⟨error, -, rfl, hafter⟩ |
    ⟨hadmits, ⟨-, rfl, rfl⟩ | ⟨base, advanced, hhead, hadvance, rfl⟩⟩
  · exact .refused (.of_clock hafter)
  · exact .refused ticked_still.unmoved
  · rcases advance_step ticked_still hsound hhead hadvance with
      ⟨⟨error, rfl⟩, hunmoved⟩ | ⟨counts, commit, map, map', persisted, hadvanced, rfl⟩
    · exact .refused hunmoved
    · cases persisted with
      | error error => exact .forgot hadmits hadvanced
      | ok done => exact .forgot hadmits hadvanced

theorem maintain_step {token : CapabilityToken} {branch : BranchId} {upkeep : IndexUpkeep}
    {outcome : Except LoomError Unit} (hsound : lawful.Sound loom.pager)
    (hmaintain : engine.maintain token branch upkeep loom = (outcome, loom')) :
    Step lawful loom (.maintain token branch upkeep) (outcome.map fun _ => .done) loom' := by
  unfold maintain at hmaintain
  rw [FallibleState.bind_eq, authorize_eq] at hmaintain
  cases hadmits : admits engine loom token branch with
  | error error =>
      rw [hadmits] at hmaintain
      obtain ⟨rfl, rfl⟩ := Prod.mk.inj hmaintain
      exact .refused ticked_still.unmoved
  | ok done =>
  rw [hadmits] at hmaintain
  simp only at hmaintain
  cases hhead : loom.refs.branches[branch]? with
  | none =>
      rw [head_bind_none (show (ticked loom).refs.branches[branch]? = none from hhead)] at hmaintain
      obtain ⟨rfl, rfl⟩ := Prod.mk.inj hmaintain
      exact .refused ticked_still.unmoved
  | some base =>
  rw [head_bind_some (show (ticked loom).refs.branches[branch]? = some base from hhead)] at hmaintain
  rcases hadvance : engine.advance branch base upkeep.val (ticked loom) with ⟨advanced, after⟩
  change ((fun _ => ()) <$> engine.advance branch base upkeep.val) (ticked loom) = _ at hmaintain
  rw [FallibleState.map_eq, hadvance] at hmaintain
  obtain ⟨rfl, rfl⟩ := Prod.mk.inj hmaintain
  rcases advance_step ticked_still hsound hhead hadvance with
    ⟨⟨error, rfl⟩, hunmoved⟩ | ⟨⟨⟩, commit, map, map', persisted, hadvanced, rfl⟩
  · exact .refused hunmoved
  · cases persisted with
    | error error => exact .kept hadmits hadvanced
    | ok done => exact .kept hadmits hadvanced

theorem branch_step {token : CapabilityToken} {source name : BranchId}
    {outcome : Except LoomError (BranchId × CapabilityToken)}
    (hbranch : engine.branch token source name loom = (outcome, loom')) :
    Step lawful loom (.branch token source name)
      (outcome.map fun (name, token) => .branch name token) loom' := by
  rcases branch_cases hbranch with
    ⟨-, ⟨error, rfl⟩, rfl⟩ | ⟨hadmits, commit, persisted, hhead, hfree, hpersist, rfl⟩
  · exact .refused ticked_still.unmoved
  · obtain ⟨hfiled, hpager⟩ := filed_of_persist hpersist
    cases persisted with
    | error error => exact .branched hadmits hhead hfree hpager ⟨hfiled.1, hfiled.2, hfiled.3⟩
    | ok done => exact .branched hadmits hhead hfree hpager ⟨hfiled.1, hfiled.2, hfiled.3⟩

theorem rewind_step {token : CapabilityToken} {branch : BranchId} {commit : CommitId}
    {outcome : Except LoomError CommitId}
    (hrewind : engine.rewind token branch commit loom = (outcome, loom')) :
    Step lawful loom (.rewind token branch commit) (outcome.map .commit) loom' := by
  rcases rewind_cases hrewind with
    ⟨-, ⟨error, rfl⟩, rfl⟩ | ⟨hadmits, head, persisted, hhead, hpersist, rfl⟩
  · exact .refused ticked_still.unmoved
  · obtain ⟨hfiled, hpager⟩ := filed_of_persist hpersist
    cases persisted with
    | error error => exact .rewound hadmits hhead hpager ⟨hfiled.1, hfiled.2, hfiled.3⟩
    | ok done => exact .rewound hadmits hhead hpager ⟨hfiled.1, hfiled.2, hfiled.3⟩

theorem merge_step {token : CapabilityToken} {source target : BranchId} {policy : MergePolicy}
    {envelope : WriteEnvelope} {forbids : Key → Record → Option Bytes}
    {outcome : Except LoomError MergeResult} (hsound : lawful.Sound loom.pager)
    (hmerge : engine.mergeChecked token source target policy envelope forbids loom =
      (outcome, loom')) :
    Step lawful loom (.merge token source target policy envelope forbids) (outcome.map .merge)
      loom' := by
  rcases mergeChecked_cases hmerge with
    ⟨error, rfl, hafter⟩ | ⟨hadmits, ⟨result, rfl, rfl, hstopped⟩ |
      ⟨sourceHead, targetHead, base, writes, automatic, parents, written, hwritten, rfl⟩⟩
  · exact .refused (.of_clock hafter)
  · exact .stopped ⟨rfl, rfl, rfl, rfl⟩ hadmits hstopped
  · have hready := hwritten.ready hadmits
    have htwice : Still loom (ticked (ticked loom)) := ⟨rfl, rfl, rfl, rfl⟩
    have hhead : (ticked (ticked loom)).refs.branches[target]? = some targetHead :=
      hwritten.heads.target
    obtain ⟨wrote, middle, hwrote, hends⟩ := writeMerge_cases hhead hwritten.wrote
    rcases writeAll_cases hwrote with
      ⟨error, -, rfl, hafter⟩ |
      ⟨-, ⟨-, rfl, rfl⟩ | ⟨head, advanced, hhead, hadvance, rfl⟩⟩
    · rcases hends with ⟨_, heq, rfl, rfl⟩ | ⟨_, _, heq, -⟩
      · obtain rfl := Except.error.inj heq
        exact .refused (.of_clock hafter)
      · cases heq
    · rcases hends with ⟨_, heq, rfl, rfl⟩ | ⟨_, _, heq, -⟩
      · obtain rfl := Except.error.inj heq
        exact .refused ⟨.refl _, rfl, rfl, rfl⟩
      · cases heq
    · have hhead : loom.refs.branches[target]? = some head := hhead
      obtain rfl := Option.some.inj (hwritten.heads.target.symm.trans hhead)
      have htaken : Still loom (taken (ticked (ticked loom)) envelope.session) :=
        ⟨rfl, rfl, rfl, rfl⟩
      rcases advance_step htaken hsound hhead hadvance with
        ⟨⟨error, rfl⟩, hunmoved⟩ | ⟨⟨⟩, commit, map, map', persisted, hadvanced, rfl⟩
      · rcases hends with ⟨_, heq, rfl, rfl⟩ | ⟨_, _, heq, -⟩
        · obtain rfl := Except.error.inj heq
          exact .refused hunmoved
        · cases heq
      · cases persisted with
        | error error =>
            rcases hends with ⟨_, heq, rfl, rfl⟩ | ⟨_, _, heq, -⟩
            · obtain rfl := Except.error.inj heq
              exact .halted hready hadvanced
            · cases heq
        | ok done =>
            rcases hends with ⟨_, heq, -⟩ | ⟨_, persisted, heq, hpersist, rfl⟩
            · cases heq
            · obtain rfl := Except.ok.inj heq
              obtain ⟨hfiled, hpager⟩ := filed_of_persist hpersist
              cases persisted with
              | error error => exact .merged hready hadvanced hpager hfiled
              | ok done => exact .merged hready hadvanced hpager hfiled

theorem call_step {call : Call} {outcome : Except LoomError Answer}
    (hsound : lawful.Sound loom.pager) (hcall : engine.call call loom = (outcome, loom')) :
    Step lawful loom call outcome loom' := by
  by_cases hasks : call.asks = true
  · exact .asked hasks ((asks_still hasks).of_eq hcall)
  · cases call with
    | openSession =>
        rw [Engine.call, FallibleState.map_eq] at hcall
        obtain ⟨rfl, rfl⟩ := Prod.mk.inj hcall
        exact openSessionNamed_step (Or.inl rfl) ticked_still rfl
    | openSessionNamed session =>
        rw [Engine.call, FallibleState.map_eq] at hcall
        obtain ⟨rfl, rfl⟩ := Prod.mk.inj hcall
        exact openSessionNamed_step (Or.inr rfl) (refl loom) rfl
    | branch token source name =>
        rw [Engine.call, FallibleState.map_eq] at hcall
        obtain ⟨rfl, rfl⟩ := Prod.mk.inj hcall
        exact branch_step rfl
    | rewind token branch commit =>
        rw [Engine.call, FallibleState.map_eq] at hcall
        obtain ⟨rfl, rfl⟩ := Prod.mk.inj hcall
        exact rewind_step rfl
    | write token branch records hints envelope =>
        rw [Engine.call, FallibleState.map_eq] at hcall
        obtain ⟨rfl, rfl⟩ := Prod.mk.inj hcall
        exact write_step hsound rfl
    | invalidate token branch keys envelope =>
        rw [Engine.call, FallibleState.map_eq] at hcall
        obtain ⟨rfl, rfl⟩ := Prod.mk.inj hcall
        exact invalidate_step hsound rfl
    | merge token source target policy envelope forbids =>
        rw [Engine.call, FallibleState.map_eq] at hcall
        obtain ⟨rfl, rfl⟩ := Prod.mk.inj hcall
        exact merge_step hsound rfl
    | maintain token branch upkeep =>
        rw [Engine.call, FallibleState.map_eq] at hcall
        obtain ⟨rfl, rfl⟩ := Prod.mk.inj hcall
        exact maintain_step hsound rfl
    | _ => exact absurd rfl hasks

end Engine

end LoomDB
