import LoomDB.Branch.Calls

/-!
# What the engine fails with

Only a walk down a derivation graph reports a cycle: the record store, the checks of a
write and the write itself fail in other ways, as far as the ref store does.
-/

namespace LoomDB

open Std (ExtTreeMap ExtTreeSet)
open KeyValue (ask put drop entries)
open FallibleState (Raises)

/-- Not the report of a cycle. -/
def LoomError.NoCycle (error : LoomError) : Prop :=
  ∀ depth, error ≠ .derivationCycle depth

/-- The ref store does not report a cycle. -/
def RefStore.NoCycle {ρ : Type} (store : RefStore ρ) : Prop :=
  ∀ (edits : List RefEdit) (state : ρ) (error : LoomError),
    (store.apply edits state).1 = .error error → error.NoCycle

theorem MemRefStore.noCycle : MemRefStore.NoCycle := by
  intro edits state error herror
  cases herror

open LoomError (NoCycle)

theorem U64.next_noCycle {value : U64} {error : LoomError} (hnext : value.next = .error error) :
    error.NoCycle := by
  unfold U64.next at hnext
  split at hnext
  · cases hnext
  · cases hnext
    nofun

/-! ## The record store -/

namespace Tree

theorem openTree_noCycle {store : Snapshot} {error : LoomError}
    (hopen : openTree store = .error error) : error.NoCycle := by
  unfold openTree readMeta at hopen
  split at hopen
  · split at hopen
    · cases hopen
    · cases hopen
      nofun
  · cases hopen
  · cases hopen
    nofun

theorem node_raises (page : PageNo) : StateExcept.Raises NoCycle (node page) := by
  refine .bind .get fun tree => ?_
  split
  · exact .pure _
  · split
    · refine .bind (.modify _) fun _ => ?_
      split
      · exact .pure _
      · next error hdecode =>
        refine .throw ?_
        unfold Node.decode at hdecode
        split at hdecode
        · cases hdecode
        · cases hdecode
          nofun
    · exact .pure _
    · exact .throw nofun

theorem takeNode_raises (page : PageNo) : StateExcept.Raises NoCycle (takeNode page) := by
  refine .bind .get fun tree => ?_
  split
  · exact .bind (.modify _) fun _ => .pure _
  · exact node_raises page

theorem alloc_raises : StateExcept.Raises NoCycle alloc := by
  refine .bind .get fun tree => ?_
  split
  · next error hnext => exact .throw (U64.next_noCycle hnext)
  · exact .bind (.modify _) fun _ => .pure _

theorem countUp_raises : StateExcept.Raises NoCycle countUp := by
  refine .bind .get fun tree => ?_
  split
  · next error hnext => exact .throw (U64.next_noCycle hnext)
  · exact .modify _

theorem fuel_raises : StateExcept.Raises NoCycle fuel :=
  .bind .get fun _ => .pure _

theorem getFrom_raises (fuel : ℕ) (page : PageNo) (key : Key) :
    StateExcept.Raises NoCycle (getFrom fuel page key) := by
  induction fuel generalizing page with
  | zero => exact .throw nofun
  | succ fuel ih =>
      refine .bind (node_raises page) fun node => ?_
      split
      · split <;> exact .pure _
      · split
        · exact ih _
        · exact .throw nofun

theorem get_raises (key : Key) : StateExcept.Raises NoCycle (get key) :=
  .bind .get fun _ => .bind fuel_raises fun _ => getFrom_raises _ _ key

theorem splitLeaf_raises (page : PageNo) (entries : List (Key × Record)) :
    StateExcept.Raises NoCycle (splitLeaf page entries) := by
  refine .bind .get fun tree => ?_
  dsimp only
  split
  · exact .throw nofun
  · exact .bind alloc_raises fun _ => .bind (.modify _) fun _ => .bind (.modify _) fun _ => .pure _

theorem sizeOf_raises (page : PageNo) (node : Node) : StateExcept.Raises NoCycle (sizeOf page node) := by
  refine .bind .get fun tree => ?_
  split
  · exact .pure _
  · exact .bind (.modify _) fun _ => .pure _

theorem updateLeaf_raises (entries : List (Key × Record)) (key : Key) (record : Record)
    (size : ℕ) : StateExcept.Raises NoCycle (updateLeaf entries key record size) := by
  unfold updateLeaf
  split
  · split
    · exact .pure _
    · exact .throw nofun
  · exact .bind countUp_raises fun _ => .pure _

theorem storeLeaf_raises (page : PageNo) (entries : List (Key × Record)) (estimate : ℕ) :
    StateExcept.Raises NoCycle (storeLeaf page entries estimate) := by
  refine .bind .get fun tree => ?_
  dsimp only
  split
  · exact splitLeaf_raises page entries
  · exact .bind (.modify _) fun _ => .pure _

theorem insertLeaf_raises (page : PageNo) (entries : List (Key × Record)) (key : Key)
    (record : Record) : StateExcept.Raises NoCycle (insertLeaf page entries key record) :=
  .bind (sizeOf_raises page _) fun _ => .bind (updateLeaf_raises entries key record _) fun _ =>
    storeLeaf_raises page _ _

theorem storeInternal_raises (page : PageNo) (keys : List Key) (children : List PageNo) :
    StateExcept.Raises NoCycle (storeInternal page keys children) := by
  refine .bind .get fun tree => ?_
  dsimp only
  split
  · split
    · exact .throw nofun
    · exact .bind alloc_raises fun _ => .bind (.modify _) fun _ => .bind (.modify _) fun _ =>
        .pure _
  · exact .bind (.modify _) fun _ => .pure _

theorem insertInto_raises (fuel : ℕ) (page : PageNo) (key : Key) (record : Record) :
    StateExcept.Raises NoCycle (insertInto fuel page key record) := by
  induction fuel generalizing page with
  | zero => exact .throw nofun
  | succ fuel ih =>
      refine .bind (takeNode_raises page) fun node => ?_
      split
      · exact insertLeaf_raises page _ key record
      · dsimp only
        split
        · exact .throw nofun
        · refine .bind (ih _) fun split => ?_
          split
          · exact .bind (.modify _) fun _ => .pure _
          · exact storeInternal_raises page _ _

theorem insert_raises (key : Key) (record : Record) : StateExcept.Raises NoCycle (insert key record) := by
  refine .bind .get fun tree => .bind fuel_raises fun _ =>
    .bind (insertInto_raises _ _ key record) fun split => ?_
  split
  · exact .pure _
  · exact .bind alloc_raises fun _ => .bind (.modify _) fun _ => .modify _

theorem removeFrom_raises (fuel : ℕ) (page : PageNo) (key : Key) :
    StateExcept.Raises NoCycle (removeFrom fuel page key) := by
  induction fuel generalizing page with
  | zero => exact .throw nofun
  | succ fuel ih =>
      refine .bind (node_raises page) fun node => ?_
      split
      · split
        · exact .pure _
        · exact .bind (.modify _) fun _ => .bind (.modify _) fun _ => .pure _
      · split
        · exact ih _
        · exact .throw nofun

theorem remove_raises (key : Key) : StateExcept.Raises NoCycle (remove key) :=
  .bind .get fun _ => .bind fuel_raises fun _ => removeFrom_raises _ _ key

theorem collect_raises (fuel : ℕ) (page : PageNo) : StateExcept.Raises NoCycle (collect fuel page) := by
  induction fuel generalizing page with
  | zero => exact .throw nofun
  | succ fuel ih =>
      refine .bind (node_raises page) fun node => ?_
      split
      · exact .pure _
      · exact .bind (.mapM fun child => ih child) fun _ => .pure _

theorem scan_raises : StateExcept.Raises NoCycle scan :=
  .bind .get fun _ => .bind fuel_raises fun _ => collect_raises _ _

/-- A transaction fails as its program does, or as pages do. -/
theorem records_raises {α : Type} {program : RecordProgram α} (hfails : program.Fails NoCycle) :
    StateExcept.Raises NoCycle (program.run records) :=
  hfails.run get_raises insert_raises remove_raises scan_raises

end Tree

/-! ## Transactions -/

theorem appendNodes_fails (branch : BranchId) (nodes : List DerivationNode) (seq : U64) :
    (appendNodes branch nodes seq).Fails NoCycle := by
  induction nodes generalizing seq with
  | nil => trivial
  | cons node nodes ih =>
      have hsources : (node.sources.forM fun source =>
          (put (sourceIndexKey source branch seq) (Record.blob node.id.asBytes) :
            RecordProgram Unit)).Fails NoCycle :=
        .forM fun _ _ => .put _ _
      exact .bind (.bind (.put _ _) fun _ => .bind (.put _ _) fun _ => hsources)
        fun _ => .bind (.lift fun _ hnext => U64.next_noCycle hnext) fun _ => ih _

theorem indexRecord_fails (captured : ReadSet) (hints : ExtTreeMap Key IndexHint) (key : Key)
    (record : Record) : (indexRecord captured hints key record).Fails NoCycle := by
  unfold indexRecord
  split
  · trivial
  · next hint _ =>
    dsimp only
    split
    · trivial
    · refine .bind (.put _ _) fun _ => ?_
      cases hint.embedding <;> trivial

theorem appendHistory_fails (record : Record) : (appendHistory record).Fails NoCycle := by
  cases record with
  | claim claim =>
      refine .bind .entries fun records => .bind (.forM fun _ _ => .put _ _) fun _ =>
        .bind (.lift fun error hnext => ?_) fun _ => .put _ _
      unfold nextVersion at hnext
      split at hnext
      · exact U64.next_noCycle hnext
      · cases hnext
  | _ => trivial

theorem writeProgram_fails (platform : Platform) (branch : BranchId) (head : CommitId)
    (written : List (Key × Record)) (envelope : WriteEnvelope) (captured : ReadSet)
    (extraParents : ExtTreeMap Key (List NodeId)) (hints : ExtTreeMap Key IndexHint) :
    (writeProgram platform branch head written envelope captured extraParents hints).Fails
      NoCycle := by
  have hrest : (indexAppends written captured hints).Fails NoCycle :=
    .bind (.forM fun _ _ => indexRecord_fails _ _ _ _) fun _ =>
      .forM fun _ _ => appendHistory_fails _
  refine .bind (.forM fun _ _ => .put _ _) fun _ => ?_
  unfold engineAppends
  split
  · exact .bind (.bind (.ask _) fun _ => .bind (appendNodes_fails _ _ _) fun _ =>
      .put _ _) fun _ => hrest
  · exact hrest

/-! ## The write path -/

namespace Engine

variable {σ ρ α : Type} {engine : Engine σ ρ}

theorem invalidateClaim_fails (key : Key) (found : Option Record) :
    (invalidateClaim key found).Fails NoCycle := by
  unfold invalidateClaim
  split
  · split <;> trivial
  · trivial

theorem forgetKeys_fails (keys : List Key) : (forgetKeys keys).Fails NoCycle := by
  induction keys with
  | nil => trivial
  | cons key keys ih =>
      exact .bind (.drop _) fun _ => .bind (.ask key) fun found =>
        .bind (invalidateClaim_fails key found) fun _ => .bind ih fun _ => trivial

theorem mapError_noCycle {result : Except PagerError α} {error : LoomError}
    (hresult : result.mapError LoomError.pager = .error error) : error.NoCycle := by
  cases result with
  | ok value => cases hresult
  | error failed =>
      obtain rfl := Except.error.inj hresult
      nofun

theorem head_raises (branch : BranchId) :
    Raises NoCycle (head branch : LoomM σ ρ CommitId) := by
  refine .bind .get fun loom => ?_
  split
  · exact .pure _
  · exact .throw nofun

theorem authorize_raises (token : CapabilityToken) (branch : BranchId) :
    Raises NoCycle (engine.authorize token branch) := by
  refine .bind (.bind .get fun _ => .bind (.modify _) fun _ => .pure _) fun nowMs =>
    .lift fun error hauthorize => ?_
  unfold TokenIssuer.authorize at hauthorize
  split at hauthorize
  · cases hauthorize
    nofun
  split at hauthorize
  · cases hauthorize
    nofun
  split at hauthorize
  · cases hauthorize
    nofun
  split at hauthorize
  · cases hauthorize
    nofun
  · cases hauthorize

theorem requireEnvelope_raises (envelope : WriteEnvelope) :
    Raises NoCycle (requireEnvelope envelope : LoomM σ ρ Unit) := by
  unfold requireEnvelope
  split
  · exact .pure _
  · exact .throw nofun

theorem authenticate_raises (envelope : WriteEnvelope) :
    Raises NoCycle (engine.authenticate envelope) := by
  refine .bind .get fun loom => ?_
  split
  · exact .pure _
  · split
    · exact .throw nofun
    · refine .lift fun error hverify => ?_
      unfold WriteEnvelope.verify at hverify
      split at hverify
      · cases hverify
        nofun
      split at hverify
      · cases hverify
        nofun
      split at hverify
      · cases hverify
      · cases hverify
        nofun

theorem reading_raises {program : RecordProgram α} (commit : CommitId)
    (hfails : program.Fails NoCycle) : Raises NoCycle (engine.reading commit program) := by
  refine .bind .get fun loom => .bind (.lift fun _ => mapError_noCycle) fun snapshot =>
    .bind (.lift fun _ => Tree.openTree_noCycle) fun tree => .bind (.lift fun error hrun => ?_)
      fun _ => .pure _
  exact Tree.records_raises hfails tree error hrun

theorem transact_raises {program : RecordProgram α} (base : CommitId)
    (hfails : program.Fails NoCycle) : Raises NoCycle (engine.transact base program) := by
  refine .bind .get fun loom => .bind (.lift fun _ => mapError_noCycle) fun snapshot =>
    .bind (.lift fun _ => Tree.openTree_noCycle) fun tree => .bind (.lift fun error hrun => ?_)
      fun _ => .bind (.modify _) fun _ => .bind (.lift fun _ => mapError_noCycle) fun _ => .pure _
  exact Tree.records_raises hfails tree error hrun

theorem persist_raises (hstore : engine.store.NoCycle) : Raises NoCycle engine.persist := by
  intro loom error hraised
  exact hstore loom.refEdits loom.store error hraised

theorem setHead_raises (hstore : engine.store.NoCycle) (branch : BranchId) (commit : CommitId) :
    Raises NoCycle (engine.setHead branch commit) := by
  refine .bind .get fun loom => ?_
  split
  · exact .bind (.bind (.modify _) fun _ => .modify _) fun _ => persist_raises hstore
  · exact .throw nofun

theorem recordCommit_raises (commit : CommitId) (parents : List CommitId) :
    Raises NoCycle (recordCommit commit parents : LoomM σ ρ Unit) := by
  refine .bind .get fun loom => ?_
  dsimp only
  split
  · exact .pure _
  · exact .bind (.modify _) fun _ => .modify _

theorem advance_raises (hstore : engine.store.NoCycle) {program : RecordProgram α}
    (branch : BranchId) (base : CommitId) (hfails : program.Fails NoCycle) :
    Raises NoCycle (engine.advance branch base program) :=
  .bind (transact_raises base hfails) fun _ => .bind (recordCommit_raises _ _) fun _ =>
    .bind (setHead_raises hstore _ _) fun _ => .pure _

theorem writeAll_raises (hstore : engine.store.NoCycle) (token : CapabilityToken)
    (branch : BranchId) (records : List (Key × Record)) (envelope : WriteEnvelope)
    (extraParents : ExtTreeMap Key (List NodeId)) (hints : ExtTreeMap Key IndexHint) :
    Raises NoCycle (engine.writeAll token branch records envelope extraParents hints) :=
  .bind (requireEnvelope_raises envelope) fun _ => .bind (authenticate_raises envelope) fun _ =>
    .bind (authorize_raises token branch) fun _ =>
      .bind (.bind .get fun _ => .bind (.modify _) fun _ => .pure _) fun _ =>
        .bind (head_raises branch) fun _ =>
          .bind (advance_raises hstore _ _ (writeProgram_fails _ _ _ _ _ _ _ _)) fun _ => .pure _

theorem invalidateAndDeindex_raises (hstore : engine.store.NoCycle) (token : CapabilityToken)
    (branch : BranchId) (keys : List Key) (envelope : WriteEnvelope) :
    Raises NoCycle (engine.invalidateAndDeindex token branch keys envelope) :=
  .bind (requireEnvelope_raises envelope) fun _ => .bind (authenticate_raises envelope) fun _ =>
    .bind (authorize_raises token branch) fun _ => .bind (head_raises branch) fun _ =>
      .bind (advance_raises hstore _ _ (forgetKeys_fails keys)) fun _ => .pure _

end Engine

end LoomDB
