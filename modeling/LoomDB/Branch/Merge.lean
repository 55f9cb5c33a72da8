import LoomDB.Core.Describe
import LoomDB.Core.Provenance
import LoomDB.Branch.Pager

/-!
# Three-way merge

A merge decides key by key, from what the base, the source and the target hold:
who moved, then the typed rules, then the caller's policy. Keys whose pages did
not change are not looked at.
-/

namespace LoomDB

open Std (ExtTreeMap ExtTreeSet)

/-- The records behind a conflict. -/
structure ConflictRecords where
  base : Option Record
  source : Option Record
  target : Option Record
  deriving DecidableEq

/-- One record the engine could not merge. -/
structure MergeConflict where
  key : Bytes
  base : Option Bytes
  source : Option Bytes
  target : Option Bytes
  reason : Bytes
  records : ConflictRecords
  deriving DecidableEq

/-- How a caller resolved a conflict. -/
inductive Resolution where
  | source
  | target
  | replace (record : Record)
  | unresolved

inductive MergePolicy where
  | takeSource
  | takeTarget
  | conflict
  | custom (resolve : MergeConflict → Resolution)

inductive MergeOutcome where
  /-- The records to apply, and how many merged without anyone deciding. -/
  | merged (writes : List (Key × Record)) (automatic : ℕ)
  | conflict (conflicts : List MergeConflict)
  deriving DecidableEq

inductive Decision where
  /-- The target already has the right answer. -/
  | nothing
  /-- The engine decided. -/
  | write (record : Record)
  /-- The caller's policy decided. -/
  | resolved (record : Record)
  | conflict (report : MergeConflict)

/-! ## The typed rules -/

variable (platform : Platform)

/-- Method rank, then confidence in millionths. -/
def Claim.provenanceRank (claim : Claim) : ℕ × ℕ :=
  (claim.confidence.method.rank, (platform.micros claim.confidence.value).val)

def mergeClaims (source target : Claim) : Option Record :=
  if !source.valid.overlaps target.valid then
    match source.valid.start, target.valid.start with
    | some sourceStart, some targetStart =>
        some (.claim (if targetStart ≤ sourceStart then source else target))
    | _, _ => none
  else
    let sourceRank := source.provenanceRank platform
    let targetRank := target.provenanceRank platform
    if sourceRank = targetRank then none
    else
      let better := targetRank.1 < sourceRank.1 ||
        (sourceRank.1 = targetRank.1 && targetRank.2 < sourceRank.2)
      some (.claim (if better then source else target))

def mergeTyped (base : Option Record) (source target : Record) : Option Record :=
  match source, target with
  | .value (.counter source), .value (.counter target) =>
      let base :=
        match base with
        | some (.value (.counter base)) => base
        | _ => I64.zero
      some (.value (.counter
        ((base.saturatingAdd (source.saturatingSub base)).saturatingAdd
          (target.saturatingSub base))))
  | .value (.set source), .value (.set target) =>
      some (.value (.set (source.insertMany target.toList)))
  | .claim source, .claim target => mergeClaims platform source target
  | _, _ => none

/-! ## One key -/

def reasonFor (source target : Option Record) : Bytes :=
  match source, target with
  | none, some _ =>
      ascii ("the source branch DELETED this record while the target modified it. " ++
        "Deleting and editing are very different intentions, and the engine will not guess " ++
        "which one you meant.")
  | some _, none =>
      ascii ("the target branch DELETED this record while the source modified it. " ++
        "Deleting and editing are very different intentions, and the engine will not guess " ++
        "which one you meant.")
  | some (.claim source), some (.claim target) =>
      ascii "both branches assert a claim about " ++ platform.showQuoted source.subject ++
        ascii " with OVERLAPPING validity and EQUAL provenance rank (both " ++
        source.confidence.method.debug ++ ascii ", confidence " ++
        platform.showFixed2 source.confidence.value ++ ascii " vs " ++
        platform.showFixed2 target.confidence.value ++
        ascii ("). There is no principled way to choose between them; decide, or supersede " ++
          "one with a better-evidenced claim.")
  | some _, some _ =>
      ascii ("both branches changed this record to different values, and its type is not one " ++
        "the engine knows how to combine (a counter adds, a set unions, a claim resolves by " ++
        "validity and provenance ") ++ [0xE2, 0x80, 0x94] ++
        ascii " an opaque value does none of those). Choose one, or supply a merged value."
  | none, none => ascii "both branches deleted this record"

def describeKey (key : Key) : Bytes :=
  if isUtf8 key then key
  else ascii "<" ++ decimal key.length ++ ascii " bytes of binary key>"

/-- The derived `==` of two optional records. -/
def sameRecord : Option Record → Option Record → Bool
  | none, none => true
  | some left, some right => left.beq right
  | _, _ => false

/-- Describing a record may panic. -/
def describeSide (record : Option Record) : Except LoomError (Option Bytes) :=
  match record with
  | none => .ok none
  | some record => (record.describe platform).map some

/-- The report on a key the typed rules do not decide. -/
def conflictOf (key : Key) (base source target : Option Record) :
    Except LoomError MergeConflict := do
  let described ← describeSide platform base
  let describedSource ← describeSide platform source
  let describedTarget ← describeSide platform target
  return {
    key := describeKey key
    base := described
    source := describedSource
    target := describedTarget
    reason := reasonFor platform source target
    records := { base := base, source := source, target := target } }

/-- Ask the policy. -/
def resolve (policy : MergePolicy) (source : Option Record) (report : MergeConflict) : Decision :=
  let resolution : Resolution :=
    match policy with
    | .takeSource => .source
    | .takeTarget => .target
    | .conflict => .unresolved
    | .custom resolve => resolve report
  match resolution with
  | .source =>
      match source with
      | some record => .resolved record
      | none => .conflict report
  | .target => .nothing
  | .replace record => .resolved record
  | .unresolved => .conflict report

def typedDecision (base source target : Option Record) : Option Record :=
  match source, target with
  | some source, some target => mergeTyped platform base source target
  | _, _ => none

def decide (key : Key) (base source target : Option Record) (policy : MergePolicy) :
    Except LoomError Decision :=
  if sameRecord source target then .ok .nothing
  else if sameRecord source base then .ok .nothing
  else if sameRecord target base then
    match source with
    | some record => .ok (.write record)
    | none => .ok .nothing
  else
    match typedDecision platform base source target with
    | some merged => .ok (.write merged)
    | none => (conflictOf platform key base source target).map (resolve policy source)

/-! ## All keys -/

/-- What the decisions so far come to. -/
structure Plan where
  writes : List (Key × Record)
  conflicts : List MergeConflict
  automatic : ℕ

namespace Plan

def empty : Plan :=
  { writes := [], conflicts := [], automatic := 0 }

def add (plan : Plan) (key : Key) : Decision → Plan
  | .nothing => plan
  | .write record =>
      { plan with
        writes := plan.writes ++ [(key, record)]
        automatic := plan.automatic + 1 }
  | .resolved record => { plan with writes := plan.writes ++ [(key, record)] }
  | .conflict report => { plan with conflicts := plan.conflicts ++ [report] }

def outcome (plan : Plan) : MergeOutcome :=
  if plan.conflicts = [] then .merged plan.writes plan.automatic
  else .conflict plan.conflicts

end Plan

/-- Decide the keys in order, reading the three trees as they go. -/
def decideAll (policy : MergePolicy) : List Key → Tree → Tree → Tree → Plan →
    Except LoomError Plan
  | [], _, _, _, plan => .ok plan
  | key :: keys, base, source, target, plan => do
      let (baseRecord, base) ← Tree.get key base
      let (sourceRecord, source) ← Tree.get key source
      let (targetRecord, target) ← Tree.get key target
      let decision ← decide platform key baseRecord sourceRecord targetRecord policy
      decideAll policy keys base source target (plan.add key decision)

/-- Plan the merge of three commits. -/
def planMerge {σ : Type} (pager : Substrate σ) (state : σ) (base source target : CommitId)
    (policy : MergePolicy) : Except LoomError MergeOutcome := do
  let changed ← (pager.diff3 state base source target).mapError LoomError.pager
  let baseStore ← (pager.fork state base).mapError LoomError.pager
  let sourceStore ← (pager.fork state source).mapError LoomError.pager
  let targetStore ← (pager.fork state target).mapError LoomError.pager
  let base ← Tree.openTree baseStore
  let source ← Tree.openTree sourceStore
  let target ← Tree.openTree targetStore
  let (sourceKeys, source) ← Tree.keysInPages changed source
  let (targetKeys, target) ← Tree.keysInPages changed target
  let (baseKeys, base) ← Tree.keysInPages changed base
  let candidates := (ExtTreeSet.ofList (sourceKeys ++ targetKeys ++ baseKeys) compare).toList
  let plan ← decideAll platform policy (candidates.filter fun key => !isReserved key) base source
    target Plan.empty
  return plan.outcome

end LoomDB
