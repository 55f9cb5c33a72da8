import LoomDB.Foundations.Versions
import LoomDB.Branch.Calls
import LoomDB.Branch.IndexSpec

/-!
# The engine as a caller sees it

A database is a set of branches over versions that are each kept whole, as a map of the
caller's keys. This module says what every call is for in those terms alone: there are no
pages here, no derivation nodes, no index and no tokens.
-/

namespace LoomDB

open Ancestry (MaximalCommon)

/-- The records under the caller's keys. -/
abbrev View := Key → Option Record

/-- The branches of a database, and the views of its commits. -/
abbrev NaiveStore := Versions BranchId CommitId Key Record

namespace Naive

/-- Each written key has the last record written to it. -/
def written (records : List (Key × Record)) (view : View) : View :=
  fun key => if isCaller key then (lastRecord records key).or (view key) else view key

/-- A claim that is asserted or stale is invalidated; nothing else is touched. -/
def withdrawn : Record → Record
  | .claim claim =>
      if claim.status = .asserted ∨ claim.status = .stale then
        .claim { claim with status := .invalidated }
      else .claim claim
  | record => record

def forgotten (keys : List Key) (view : View) : View :=
  fun key => if key ∈ keys then (view key).map withdrawn else view key

/-- What a decision makes of the target's record. -/
def onto (target : Option Record) : Decision → Option Record
  | .nothing => target
  | .write record => some record
  | .resolved record => some record
  | .conflict _ => target

/-- The commit over which two commits are merged: the one maximal common ancestor or,
where there is none, the source. -/
def Based (before : NaiveStore) (source target base : CommitId) : Prop :=
  (∀ commit, MaximalCommon before.parents source target commit ↔ commit = base) ∨
    (∀ commit, ¬MaximalCommon before.parents source target commit) ∧ base = source

/-- The heads of a merge, its base, and what they hold. -/
structure Merging (before : NaiveStore) (source target : BranchId)
    (sourceHead targetHead base : CommitId) (baseView sourceView targetView : View) : Prop where
  source : before.heads source = some sourceHead
  target : before.heads target = some targetHead
  based : Based before sourceHead targetHead base
  ofBase : before.contents base = some baseView
  ofSource : before.contents sourceHead = some sourceView
  ofTarget : before.contents targetHead = some targetView

section Merging

variable (platform : Platform) (policy : MergePolicy)

/-- Key by key: nobody moved, or the merge decides. -/
def Merged (base source target merged : View) : Prop :=
  ∀ key, isCaller key = true →
    (source key = base key ∧ target key = base key ∧ merged key = target key) ∨
      ∃ decision, decide platform key (base key) (source key) (target key) policy = .ok decision ∧
        (∀ report, decision ≠ .conflict report) ∧ merged key = onto (target key) decision

/-- A record the merge would put on the target. -/
def Plans (base source target : View) (key : Key) (record : Record) : Prop :=
  isCaller key = true ∧ ∃ decision,
    decide platform key (base key) (source key) (target key) policy = .ok decision ∧
      (decision = .write record ∨ decision = .resolved record)

/-- A conflict on a caller's key that a side moved is reported, and every report is of such a
conflict or of one over provenance. -/
structure Reports (base source target : View) (reports : List MergeConflict) : Prop where
  some : reports ≠ []
  all : ∀ key report, isCaller key = true → source key ≠ base key ∨ target key ≠ base key →
    decide platform key (base key) (source key) (target key) policy = .ok (.conflict report) →
      report ∈ reports
  only : ∀ report ∈ reports, ∃ key, isProvenance key = true ∨
    decide platform key (base key) (source key) (target key) policy = .ok (.conflict report)

end Merging

/-- Tokens and actor keys. -/
def keepsHouse : Call → Bool
  | .issueCapability .. => true
  | .replaceActorKeys .. => true
  | .rotateActorKey .. => true
  | .revokeActorKey .. => true
  | _ => false

/-- What an answer to a call says of the versions, and what the call does to them. -/
inductive Does (platform : Platform) (before : NaiveStore) : Call → Answer → NaiveStore → Prop
  | keptHouse {call : Call} {answer : Answer} (house : keepsHouse call = true) :
      Does platform before call answer before
  | opened {call : Call} {answer : Answer} {session : SessionId} {base : CommitId}
      (opens : call = .openSession ∨ call = .openSessionNamed session)
      (head : before.heads MAIN = some base) (free : before.heads session = none) :
      Does platform before call answer (before.point session base)
  | branched {token token' : CapabilityToken} {source name : BranchId} {commit : CommitId}
      (head : before.heads source = some commit) (free : before.heads name = none) :
      Does platform before (.branch token source name) (.branch name token')
        (before.point name commit)
  | rewound {token : CapabilityToken} {branch : BranchId} {previous commit : CommitId}
      (head : before.heads branch = some previous) :
      Does platform before (.rewind token branch commit) (.commit previous)
        (before.point branch commit)
  | read {token : CapabilityToken} {branch : BranchId} {key : Key} {found : Option Record}
      {view : View} (shows : before.Shows branch view)
      (finds : isCaller key = true → found = view key) :
      Does platform before (.read token branch key) (.record found) before
  | readAt {token : CapabilityToken} {branch : BranchId} {commit : CommitId} {key : Key}
      {found : Option Record} {view : View} (holds : before.contents commit = some view)
      (finds : isCaller key = true → found = view key) :
      Does platform before (.readAt token branch commit key) (.record found) before
  | scanned {token : CapabilityToken} {branch : BranchId} {found : List (Key × Record)}
      {view : View} (shows : before.Shows branch view)
      (ordered : found.Pairwise fun first second => first.1 < second.1)
      (finds : ∀ key record, (key, record) ∈ found ↔ view key = some record) :
      Does platform before (.scan token branch) (.records found) before
  | wrote {token : CapabilityToken} {branch : BranchId} {records : List (Key × Record)}
      {hints : Std.ExtTreeMap Key IndexHint} {envelope : WriteEnvelope} {base commit : CommitId}
      {view : View} {after : NaiveStore}
      (grows : Versions.Grows branch [] view (written records view) base commit before after) :
      Does platform before (.write token branch records hints envelope) (.commit commit) after
  | forgot {token : CapabilityToken} {branch : BranchId} {keys : List Key}
      {envelope : WriteEnvelope} {invalidated deindexed : ℕ} {base commit : CommitId}
      {view : View} {after : NaiveStore}
      (grows : Versions.Grows branch [] view (forgotten keys view) base commit before after) :
      Does platform before (.invalidate token branch keys envelope)
        (.counts invalidated deindexed) after
  /-- The vector index is none of the caller's records. -/
  | kept {token : CapabilityToken} {branch : BranchId} {upkeep : IndexUpkeep}
      {base commit : CommitId} {view : View} {after : NaiveStore}
      (grows : Versions.Grows branch [] view view base commit before after) :
      Does platform before (.maintain token branch upkeep) .done after
  | conflicted {token : CapabilityToken} {source target : BranchId} {policy : MergePolicy}
      {envelope : WriteEnvelope} {forbids : Key → Record → Option Bytes}
      {sourceHead targetHead base : CommitId} {baseView sourceView targetView : View}
      {reports : List MergeConflict}
      (merging : Merging before source target sourceHead targetHead base baseView sourceView
        targetView)
      (reported : Reports platform policy baseView sourceView targetView reports) :
      Does platform before (.merge token source target policy envelope forbids)
        (.merge (.conflict reports)) before
  | refused {token : CapabilityToken} {source target : BranchId} {policy : MergePolicy}
      {envelope : WriteEnvelope} {forbids : Key → Record → Option Bytes}
      {sourceHead targetHead base : CommitId} {baseView sourceView targetView : View}
      {key : Key} {record : Record} {reason : Bytes}
      (merging : Merging before source target sourceHead targetHead base baseView sourceView
        targetView)
      (planned : Plans platform policy baseView sourceView targetView key record)
      (forbidden : forbids key record = some reason) :
      Does platform before (.merge token source target policy envelope forbids)
        (.merge (.policyRefused key reason)) before
  | ambiguous {token : CapabilityToken} {source target : BranchId} {policy : MergePolicy}
      {envelope : WriteEnvelope} {forbids : Key → Record → Option Bytes}
      {sourceHead targetHead : CommitId} {bases : List CommitId} {detail : Bytes}
      (ofSource : before.heads source = some sourceHead)
      (ofTarget : before.heads target = some targetHead) (nodup : bases.Nodup)
      (common : ∀ commit, commit ∈ bases ↔
        MaximalCommon before.parents sourceHead targetHead commit)
      (several : 2 ≤ bases.length) :
      Does platform before (.merge token source target policy envelope forbids)
        (.merge (.ambiguousHistory bases.length detail)) before
  | merged {token : CapabilityToken} {source target : BranchId} {policy : MergePolicy}
      {envelope : WriteEnvelope} {forbids : Key → Record → Option Bytes}
      {sourceHead targetHead base commit : CommitId}
      {baseView sourceView targetView mergedView : View} {records automatic : ℕ}
      {after : NaiveStore}
      (merging : Merging before source target sourceHead targetHead base baseView sourceView
        targetView)
      (merges : Merged platform policy baseView sourceView targetView mergedView)
      (grows : Versions.Grows target [sourceHead] targetView mergedView targetHead commit before
        after) :
      Does platform before (.merge token source target policy envelope forbids)
        (.merge (.merged commit records automatic)) after

/-- A call that fails does nothing, or all it would have done; a merge may also fail with its
version made and the source not joined to it. -/
inductive Fails (platform : Platform) (before : NaiveStore) : Call → NaiveStore → Prop
  | nothing (call : Call) : Fails platform before call before
  | all {call : Call} {answer : Answer} {after : NaiveStore}
      (does : Does platform before call answer after) : Fails platform before call after
  | unjoined {token : CapabilityToken} {source target : BranchId} {policy : MergePolicy}
      {envelope : WriteEnvelope} {forbids : Key → Record → Option Bytes}
      {sourceHead targetHead base commit : CommitId}
      {baseView sourceView targetView mergedView : View} {after : NaiveStore}
      (merging : Merging before source target sourceHead targetHead base baseView sourceView
        targetView)
      (merges : Merged platform policy baseView sourceView targetView mergedView)
      (grows : Versions.Grows target [] targetView mergedView targetHead commit before after) :
      Fails platform before (.merge token source target policy envelope forbids) after

/-- A call and its outcome, as a step from versions to versions. -/
def Step (platform : Platform) (before : NaiveStore) :
    Call × Except LoomError Answer → NaiveStore → Prop
  | (call, .ok answer), after => Does platform before call answer after
  | (call, .error _), after => Fails platform before call after

end Naive

end LoomDB
