import LoomDB.Branch.Durability
import LoomDB.Branch.MergeSpec

/-!
# Where a write lands

A write moves the head of the branch it is given, whatever its envelope says: the
envelope names that branch and the token's session when the caller made it so.
-/

namespace LoomDB

open Std (ExtTreeMap ExtTreeSet)

/-- What a writing call is given: a token, a branch to write on, and an
envelope. -/
def Call.writing : Call → Option (CapabilityToken × BranchId × WriteEnvelope)
  | .write token onto _ _ envelope => some (token, onto, envelope)
  | .invalidate token onto _ envelope => some (token, onto, envelope)
  | .merge token _ target _ envelope _ => some (token, target, envelope)
  | _ => none

/-- The write was made. -/
def Answer.isWritten : Answer → Bool
  | .commit _ => true
  | .counts _ _ => true
  | .merge (.merged _ _ _) => true
  | _ => false

namespace Engine

variable {σ ρ α : Type} {engine : Engine σ ρ}

/-! ## Pending edits -/

theorem Effect.refEdits {lawful : engine.pager.Lawful} {rewinds : Rewinds}
    {before after : Loom σ ρ} (heffect : Effect lawful rewinds before after)
    (hnone : before.refEdits = []) : after.refEdits = [] := by
  cases heffect with
  | aside _ _ hrefEdits => rw [hrefEdits, hnone]
  | wrote _ _ hfiled => exact hfiled.refEdits
  | branched _ _ _ hfiled => exact hfiled.refEdits
  | rewound _ _ _ hfiled => exact hfiled.refEdits
  | joined _ hfiled => exact hfiled.refEdits

/-- Between calls no edit is pending. -/
theorem Reachable.refEdits {lawful : engine.pager.Lawful} {loom : Loom σ ρ}
    (hreachable : engine.Reachable lawful loom) : loom.refEdits = [] := by
  induction hreachable with
  | opened _ hopened => exact (assemble_eq_ok hopened).2.2.2.1
  | called hreachable call ih =>
      have hpath := call_path hreachable.sound call
      generalize engine.after call _ = last at hpath ⊢
      induction hpath with
      | refl => exact ih
      | tail _ heffect ih => exact heffect.refEdits ih
  | reopened _ hopened => exact (assemble_eq_ok hopened).2.2.2.1

/-! ## What a call hands to the ref store -/

section Traced

variable {loom middle loom' : Loom σ (ρ × List (Applied ρ))}

/-- The edits handed to the ref store on the way from one state to another. -/
def Files (before after : Loom σ (ρ × List (Applied ρ))) (edits : List RefEdit) : Prop :=
  ∃ batches, after.store.2 = before.store.2 ++ batches ∧ batches.flatMap Applied.edits = edits

theorem Files.trans {first second : List RefEdit} (hfirst : Files loom middle first)
    (hsecond : Files middle loom' second) : Files loom loom' (first ++ second) := by
  obtain ⟨batches, hmiddle, rfl⟩ := hfirst
  obtain ⟨batches', hlast, rfl⟩ := hsecond
  refine ⟨batches ++ batches', ?_, List.flatMap_append⟩
  rw [hlast, hmiddle, List.append_assoc]

/-- One append hands over one batch. -/
theorem files_of_apply {edits : List RefEdit} {persisted : Except LoomError Unit}
    (happly : engine.traced.store.apply edits loom.store = (persisted, loom'.store)) :
    Files loom loom' edits := by
  change ((_, _, _) : Except LoomError Unit × ρ × List (Applied ρ)) = _ at happly
  obtain ⟨-, heq⟩ := Prod.mk.inj happly
  rw [Files, ← heq]
  exact ⟨_, rfl, by simp⟩

theorem files_of_persist {persisted : Except LoomError Unit}
    (hpersist : engine.traced.persist loom = (persisted, loom')) :
    Files loom loom' loom.refEdits := by
  rw [persist_eq] at hpersist
  obtain ⟨-, rfl⟩ := Prod.mk.inj hpersist
  exact files_of_apply rfl

theorem Files.of_edited {edits pending : List RefEdit}
    (hfiles : Files (edited loom pending) loom' edits) : Files loom loom' edits :=
  hfiles

/-- The branches whose heads are moved on the way. -/
def movedHeads (before after : Loom σ (ρ × List (Applied ρ))) : Set BranchId :=
  {branch | ∃ applied ∈ after.store.2.drop before.store.2.length,
    ∃ commit, RefEdit.setHead branch commit ∈ applied.edits}

theorem mem_movedHeads {edits : List RefEdit} {branch : BranchId}
    (hfiles : Files loom loom' edits) :
    branch ∈ movedHeads loom loom' ↔ ∃ commit, RefEdit.setHead branch commit ∈ edits := by
  obtain ⟨batches, hafter, rfl⟩ := hfiles
  rw [movedHeads, Set.mem_ofPred_eq, hafter, List.drop_left]
  simp only [List.mem_flatMap]
  exact ⟨fun ⟨applied, hmem, commit, hedit⟩ => ⟨commit, applied, hmem, hedit⟩,
    fun ⟨commit, applied, hmem, hedit⟩ => ⟨applied, hmem, commit, hedit⟩⟩

theorem setHead_notMem_recordEdits {refs : Refs} {branch : BranchId}
    {commit recorded : CommitId} {parents : List CommitId} :
    RefEdit.setHead branch commit ∉ recordEdits refs recorded parents := by
  unfold recordEdits
  split <;> simp

theorem setHead_notMem_edgeEdits {refs : Refs} {branch : BranchId}
    {commit recorded second : CommitId} :
    RefEdit.setHead branch commit ∉ edgeEdits refs recorded second := by
  unfold edgeEdits
  split
  · split <;> simp
  · simp

theorem setHead_mem_advanceEdits {refs : Refs} {branch other : BranchId}
    {base commit moved : CommitId} :
    RefEdit.setHead other moved ∈ advanceEdits refs branch base commit ↔
      other = branch ∧ moved = commit := by
  rw [advanceEdits, List.mem_append]
  simp [setHead_notMem_recordEdits]

theorem setHead_notMem_joinEdits {refs : Refs} {branch : BranchId}
    {moved commit before second : CommitId} :
    RefEdit.setHead branch moved ∉ joinEdits refs commit before second := by
  rw [joinEdits, List.mem_append, not_or]
  exact ⟨setHead_notMem_recordEdits, setHead_notMem_edgeEdits⟩

variable {lawful : engine.traced.pager.Lawful}

/-- A successful write puts its commit on its branch and on no other. -/
theorem advance_files {branch : BranchId} {base : CommitId} {program : RecordProgram α}
    {result : α × CommitId} (hsound : lawful.Sound loom.pager)
    (hhead : loom.refs.branches[branch]? = some base) (hnone : loom.refEdits = [])
    (hadvance : engine.traced.advance branch base program loom = (.ok result, loom')) :
    ∃ commit, Files loom loom' (advanceEdits loom.refs branch base commit) ∧
      loom'.refEdits = [] := by
  have hbranch : loom.refs.branches[branch]?.isSome := by rw [hhead]; rfl
  rcases advance_cases hsound hbranch hadvance with
    ⟨_, herror, -⟩ | ⟨_, commit, _, _, -, -, hafter, persisted, happly, -⟩
  · cases herror
  · rw [hnone, List.nil_append] at happly
    refine ⟨commit, files_of_apply happly, ?_⟩
    rw [hafter]

theorem writeAll_files {token : CapabilityToken} {branch : BranchId}
    {records : List (Key × Record)} {envelope : WriteEnvelope}
    {extraParents : ExtTreeMap Key (List NodeId)} {hints : ExtTreeMap Key IndexHint}
    {commit : CommitId} (hsound : lawful.Sound loom.pager) (hnone : loom.refEdits = [])
    (hwrite : engine.traced.writeAll token branch records envelope extraParents hints loom =
      (.ok commit, loom')) :
    ∃ base landed, Files loom loom' (advanceEdits loom.refs branch base landed) ∧
      loom'.refEdits = [] := by
  rcases writeAll_cases hwrite with
    ⟨_, -, herror, -⟩ | ⟨-, ⟨-, herror, -⟩ | ⟨base, advanced, hhead, hadvance, houtcome⟩⟩
  · cases herror
  · cases herror
  · cases advanced with
    | error error => cases houtcome
    | ok result =>
        have hsound' : lawful.Sound (taken loom envelope.session).pager := hsound
        obtain ⟨landed, hfiles, hnone'⟩ := advance_files hsound' hhead hnone hadvance
        exact ⟨base, landed, hfiles, hnone'⟩

theorem movedHeads_of_advanceEdits {branch : BranchId} {base landed : CommitId}
    (hfiles : Files loom loom' (advanceEdits loom.refs branch base landed)) :
    movedHeads loom loom' = {branch} := by
  ext other
  rw [mem_movedHeads hfiles, Set.mem_singleton_iff]
  simp only [setHead_mem_advanceEdits]
  exact ⟨fun ⟨_, heq, _⟩ => heq, fun heq => ⟨landed, heq, rfl⟩⟩

theorem writeAll_moves {token : CapabilityToken} {branch : BranchId}
    {records : List (Key × Record)} {envelope : WriteEnvelope}
    {extraParents : ExtTreeMap Key (List NodeId)} {hints : ExtTreeMap Key IndexHint}
    {commit : CommitId} (hsound : lawful.Sound loom.pager) (hnone : loom.refEdits = [])
    (hwrite : engine.traced.writeAll token branch records envelope extraParents hints loom =
      (.ok commit, loom')) : movedHeads loom loom' = {branch} := by
  obtain ⟨base, landed, hfiles, -⟩ := writeAll_files hsound hnone hwrite
  exact movedHeads_of_advanceEdits hfiles

theorem invalidateAndDeindex_moves {token : CapabilityToken} {branch : BranchId}
    {keys : List Key} {envelope : WriteEnvelope} {counts : ℕ × ℕ}
    (hsound : lawful.Sound loom.pager) (hnone : loom.refEdits = [])
    (hinvalidate : engine.traced.invalidateAndDeindex token branch keys envelope loom =
      (.ok counts, loom')) : movedHeads loom loom' = {branch} := by
  rcases invalidateAndDeindex_cases hinvalidate with
    ⟨_, -, herror, -⟩ | ⟨-, ⟨-, herror, -⟩ | ⟨base, advanced, hhead, hadvance, houtcome⟩⟩
  · cases herror
  · cases herror
  · cases advanced with
    | error error => cases houtcome
    | ok result =>
        have hsound' : lawful.Sound (ticked loom).pager := hsound
        obtain ⟨landed, hfiles, -⟩ := advance_files hsound' hhead hnone hadvance
        exact movedHeads_of_advanceEdits hfiles

theorem mergeChecked_moves {token : CapabilityToken} {source target : BranchId}
    {policy : MergePolicy} {envelope : WriteEnvelope} {forbids : Key → Record → Option Bytes}
    {commit : CommitId} {records automatic : ℕ} (hsound : lawful.Sound loom.pager)
    (hnone : loom.refEdits = [])
    (hmerge : engine.traced.mergeChecked token source target policy envelope forbids loom =
      (.ok (.merged commit records automatic), loom')) : movedHeads loom loom' = {target} := by
  rcases mergeChecked_cases hmerge with ⟨_, herror, -⟩ | ⟨-, ⟨_, hresult, -, hstopped⟩ | hwritten⟩
  · cases herror
  · obtain rfl := Except.ok.inj hresult
    cases hstopped
  · obtain ⟨_, targetHead, _, _, _, _, written, hwritten, houtcome⟩ := hwritten
    cases written with
    | error error => cases houtcome
    | ok landed =>
        have hhead : (ticked (ticked loom)).refs.branches[target]? = some targetHead :=
          hwritten.heads.target
        obtain ⟨_, middle, hwrite, hrest⟩ := writeMerge_cases hhead hwritten.wrote
        rcases hrest with ⟨_, -, herror, -⟩ | ⟨_, persisted, rfl, hpersist, -⟩
        · cases herror
        have hsound' : lawful.Sound (ticked (ticked loom)).pager := hsound
        obtain ⟨base, _, hfiles, hnone'⟩ := writeAll_files hsound' hnone hwrite
        have hjoin := (files_of_persist hpersist).of_edited
        rw [refEdits_edited, hnone', List.nil_append] at hjoin
        ext other
        change other ∈ movedHeads (ticked (ticked loom)) loom' ↔ _
        rw [mem_movedHeads (hfiles.trans hjoin), Set.mem_singleton_iff]
        simp only [List.mem_append, setHead_mem_advanceEdits, setHead_notMem_joinEdits, or_false]
        exact ⟨fun ⟨_, heq, _⟩ => heq, fun heq => ⟨_, heq, rfl⟩⟩

/-! ## Envelopes -/

/-- The envelope names the one branch that the call put a commit on, and the
session of the token. -/
structure Bound (token : CapabilityToken) (envelope : WriteEnvelope)
    (before after : Loom σ (ρ × List (Applied ρ))) : Prop where
  branch : movedHeads before after = {envelope.branch}
  session : token.claims.session = envelope.session

/-- An accepted write moves the head of the branch it is given and no other. -/
theorem movedHeads_of_written {call : Call} {token : CapabilityToken} {branch : BranchId}
    {envelope : WriteEnvelope} {answer : Answer} (hsound : lawful.Sound loom.pager)
    (hnone : loom.refEdits = []) (hwriting : call.writing = some (token, branch, envelope))
    (hcall : engine.traced.call call loom = (.ok answer, loom'))
    (hwritten : answer.isWritten = true) : movedHeads loom loom' = {branch} := by
  cases call with
  | write token branch records hints envelope =>
      obtain ⟨rfl, rfl, rfl⟩ := by simpa [Call.writing] using hwriting
      obtain ⟨commit, hwrite, rfl⟩ := FallibleState.map_eq_ok.mp hcall
      exact writeAll_moves hsound hnone hwrite
  | invalidate token branch keys envelope =>
      obtain ⟨rfl, rfl, rfl⟩ := by simpa [Call.writing] using hwriting
      obtain ⟨counts, hinvalidate, rfl⟩ := FallibleState.map_eq_ok.mp hcall
      exact invalidateAndDeindex_moves hsound hnone hinvalidate
  | merge token source target policy envelope forbids =>
      obtain ⟨rfl, rfl, rfl⟩ := by simpa [Call.writing] using hwriting
      obtain ⟨result, hmerge, rfl⟩ := FallibleState.map_eq_ok.mp hcall
      cases result with
      | merged commit records automatic => exact mergeChecked_moves hsound hnone hmerge
      | _ => cases hwritten
  | _ => cases hwriting

/-- An accepted write is bound to its envelope exactly when the caller passes the
branch and a token of the session that the envelope names. -/
theorem bound_iff (hreachable : engine.traced.Reachable lawful loom) {call : Call}
    {token : CapabilityToken} {branch : BranchId} {envelope : WriteEnvelope} {answer : Answer}
    (hwriting : call.writing = some (token, branch, envelope))
    (hcall : engine.traced.call call loom = (.ok answer, loom'))
    (hwritten : answer.isWritten = true) :
    Bound token envelope loom loom' ↔
      branch = envelope.branch ∧ token.claims.session = envelope.session := by
  have hmoved := movedHeads_of_written hreachable.sound hreachable.refEdits hwriting hcall hwritten
  constructor
  · rintro ⟨hbranch, hsession⟩
    exact ⟨Set.singleton_injective (hmoved.symm.trans hbranch), hsession⟩
  · rintro ⟨rfl, hsession⟩
    exact ⟨hmoved, hsession⟩

end Traced

theorem exists_written {call : Call} {loom : Loom σ ρ}
    (htest : (engine.call call loom).1.map Answer.isWritten = .ok true) :
    ∃ answer, engine.call call loom = (.ok answer, engine.after call loom) ∧
      answer.isWritten = true := by
  rcases hcall : engine.call call loom with ⟨error | answer, loom'⟩
  · rw [hcall] at htest
    cases htest
  · rw [hcall] at htest
    exact ⟨answer, by rw [after, hcall], Except.ok.inj htest⟩

/-- The engine in memory with one open session and one actor's key. -/
def signedLoom : Loom MemPager (Option Refs × List (Applied (Option Refs))) :=
  memoryEngine.traced.afterAll
    [.openSessionNamed (ascii "s"),
      .replaceActorKeys ((∅ : ExtTreeMap ActorId Bytes).insert (ascii "a") [])]
    { memoryLoom with store := (some (Refs.rooted MAIN 0), []) }

theorem signedLoom_reachable :
    memoryEngine.traced.Reachable (MemPager.lawful 4096) signedLoom := by
  have hfresh : memoryEngine.traced.Fresh (MemPager.lawful 4096) MemPager.empty (none, []) :=
    inMemory_fresh rfl
  exact Reachable.afterAll (.opened hfresh rfl) _

/-- The session writes a record on its branch, under a signed envelope. -/
def signedWrite (envelope : WriteEnvelope) : Call :=
  .write (memoryToken [ascii "s"]) (ascii "s") [(ascii "k", .value (.counter (I64.ofU64 1)))] ∅
    envelope

def signedEnvelope (session : SessionId) (branch : BranchId) : WriteEnvelope :=
  { memoryEnvelope branch with session := session, signature := List.replicate 64 0 }

theorem bound_iff_own :
    Bound (memoryToken [ascii "s"]) (signedEnvelope (ascii "s") (ascii "s")) signedLoom
      (memoryEngine.traced.after (signedWrite (signedEnvelope (ascii "s") (ascii "s")))
        signedLoom) := by
  have htest : (memoryEngine.traced.call (signedWrite (signedEnvelope (ascii "s") (ascii "s")))
      signedLoom).1.map Answer.isWritten = .ok true := by decide +kernel
  obtain ⟨answer, hcall, hwritten⟩ := exists_written htest
  exact (bound_iff signedLoom_reachable rfl hcall hwritten).mpr ⟨rfl, rfl⟩

/-- A validly signed envelope of another session on another branch is accepted. -/
theorem foreign_envelope_accepted :
    (signedEnvelope (ascii "x") (ascii "y")).verify memoryEngine.platform [] = .ok () ∧
      (memoryEngine.traced.call (signedWrite (signedEnvelope (ascii "x") (ascii "y")))
        signedLoom).1.map Answer.isWritten = .ok true ∧
      ¬Bound (memoryToken [ascii "s"]) (signedEnvelope (ascii "x") (ascii "y")) signedLoom
        (memoryEngine.traced.after (signedWrite (signedEnvelope (ascii "x") (ascii "y")))
          signedLoom) := by
  refine ⟨by decide +kernel, by decide +kernel, fun hbound => ?_⟩
  have hsession := hbound.session
  revert hsession
  decide

end Engine

end LoomDB
