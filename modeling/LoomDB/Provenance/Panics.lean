import LoomDB.Branch.Prefilter
import LoomDB.Provenance.Miscut
import LoomDB.Provenance.Staleness
import LoomDB.Provenance.Walks

/-!
# Where a report panics

A report shows the first sixty bytes of a long text, wherever its characters end. So a
taint panics at the first contaminated node whose intent has a character across that place,
and a merge at a record to report whose text has one; nothing else makes them panic.
-/

namespace LoomDB

open Std (ExtTreeMap ExtTreeSet)
open KeyValue (entries)

/-! ## Merges -/

section Merging

variable {platform : Platform} {policy : MergePolicy} {error : LoomError}

/-- Both sides changed the key, and no rule says to what. -/
structure Undecided (platform : Platform) (base source target : Option Record) : Prop where
  apart : sameRecord source target = false
  ofSource : sameRecord source base = false
  ofTarget : sameRecord target base = false
  untyped : typedDecision platform base source target = none

/-- One of the records is miscut. -/
def AnyMiscut (base source target : Option Record) : Prop :=
  ∃ record, (base = some record ∨ source = some record ∨ target = some record) ∧ record.Miscut

theorem describeSide_eq_error {side : Option Record} :
    describeSide platform side = .error error ↔
      error = .panicked ∧ ∃ record, side = some record ∧ record.Miscut := by
  cases side with
  | none => exact iff_of_false nofun fun ⟨_, _, hnone, _⟩ => nomatch hnone
  | some record =>
      rw [describeSide, StateExcept.except_map_eq_error, Record.describe_eq_error]
      simp

theorem conflictOf_eq_error {key : Key} {base source target : Option Record} :
    conflictOf platform key base source target = .error error ↔
      error = .panicked ∧ AnyMiscut base source target := by
  have hside : ∀ side described, describeSide platform side = .ok described →
      ∀ record, side = some record → ¬record.Miscut := by
    intro side described hdescribed record hrecord hmiscut
    have hfails : describeSide platform side = .error .panicked :=
      describeSide_eq_error.mpr ⟨rfl, record, hrecord, hmiscut⟩
    rw [hdescribed] at hfails
    cases hfails
  unfold conflictOf AnyMiscut
  simp only [StateExcept.except_bind_eq_error, describeSide_eq_error]
  constructor
  · rintro (⟨rfl, record, hrecord, hmiscut⟩ | ⟨_, -, ⟨rfl, record, hrecord, hmiscut⟩ |
      ⟨_, -, ⟨rfl, record, hrecord, hmiscut⟩ | ⟨_, -, hreturn⟩⟩⟩)
    · exact ⟨rfl, record, Or.inl hrecord, hmiscut⟩
    · exact ⟨rfl, record, Or.inr (Or.inl hrecord), hmiscut⟩
    · exact ⟨rfl, record, Or.inr (Or.inr hrecord), hmiscut⟩
    · cases hreturn
  · rintro ⟨rfl, record, hrecord, hmiscut⟩
    cases hbase : describeSide platform base with
    | error failed => exact Or.inl ⟨rfl, (describeSide_eq_error.mp hbase).2⟩
    | ok described =>
    refine Or.inr ⟨described, rfl, ?_⟩
    cases hsource : describeSide platform source with
    | error failed => exact Or.inl ⟨rfl, (describeSide_eq_error.mp hsource).2⟩
    | ok describedSource =>
    refine Or.inr ⟨describedSource, rfl, Or.inl ⟨rfl, record, ?_, hmiscut⟩⟩
    rcases hrecord with hrecord | hrecord | hrecord
    · exact absurd hmiscut (hside base described hbase record hrecord)
    · exact absurd hmiscut (hside source describedSource hsource record hrecord)
    · exact hrecord

/-- Deciding a key panics at a report it cannot describe. -/
theorem decide_eq_error {key : Key} {base source target : Option Record} :
    decide platform key base source target policy = .error error ↔
      error = .panicked ∧ Undecided platform base source target ∧
        AnyMiscut base source target := by
  unfold decide
  split
  · next happart => exact iff_of_false nofun fun hmiscut => nomatch happart.symm.trans hmiscut.2.1.apart
  next happart =>
  split
  · next hsource => exact iff_of_false nofun fun hmiscut => nomatch hsource.symm.trans hmiscut.2.1.ofSource
  next hsource =>
  split
  · next htarget =>
    refine iff_of_false ?_ fun hmiscut => nomatch htarget.symm.trans hmiscut.2.1.ofTarget
    split <;> nofun
  next htarget =>
  split
  · next merged htyped =>
    refine iff_of_false nofun fun hmiscut => ?_
    rw [hmiscut.2.1.untyped] at htyped
    cases htyped
  next htyped =>
  rw [StateExcept.except_map_eq_error, conflictOf_eq_error]
  refine and_congr_right fun _ => (and_iff_right ?_).symm
  exact ⟨Bool.eq_false_iff.mpr happart, Bool.eq_false_iff.mpr hsource,
    Bool.eq_false_iff.mpr htarget, htyped⟩

/-- Deciding the keys in order panics at the first such report. -/
theorem planOver_eq_error {base source target : RecordMap} {keys : List Key} {plan : Plan} :
    planOver platform policy base source target keys plan = .error error ↔
      error = .panicked ∧ ∃ key ∈ keys, Undecided platform base[key]? source[key]? target[key]? ∧
        AnyMiscut base[key]? source[key]? target[key]? := by
  induction keys generalizing plan with
  | nil => exact iff_of_false nofun fun ⟨_, _, hmem, _⟩ => List.not_mem_nil hmem
  | cons key keys ih =>
      rw [planOver, StateExcept.except_bind_eq_error]
      simp only [ih, decide_eq_error, List.exists_mem_cons_iff]
      constructor
      · rintro (⟨rfl, hkey⟩ | ⟨_, -, rfl, hrest⟩)
        · exact ⟨rfl, Or.inl hkey⟩
        · exact ⟨rfl, Or.inr hrest⟩
      · rintro ⟨rfl, hmiscut⟩
        cases hdecision : decide platform key base[key]? source[key]? target[key]? policy with
        | error failed => exact Or.inl ⟨rfl, (decide_eq_error.mp hdecision).2⟩
        | ok decision =>
            refine Or.inr ⟨decision, rfl, rfl, hmiscut.resolve_left fun hkey => ?_⟩
            have hfails : decide platform key base[key]? source[key]? target[key]? policy =
                .error .panicked := decide_eq_error.mpr ⟨rfl, hkey⟩
            rw [hdecision] at hfails
            cases hfails

end Merging

section Commits

variable {σ : Type} {pager : Substrate σ} {lawful : pager.Lawful} {state : σ}
  {base source target : CommitId}

/-- The keys that a merge decides: the unreserved ones of the pages that changed. -/
def candidateKeys (pager : Substrate σ) (state : σ) (base source target : CommitId) :
    Except LoomError (List Key) := do
  let changed ← (pager.diff3 state base source target).mapError LoomError.pager
  let baseStore ← (pager.fork state base).mapError LoomError.pager
  let sourceStore ← (pager.fork state source).mapError LoomError.pager
  let targetStore ← (pager.fork state target).mapError LoomError.pager
  let base ← Tree.openTree baseStore
  let source ← Tree.openTree sourceStore
  let target ← Tree.openTree targetStore
  let (sourceKeys, _) ← Tree.keysInPages changed source
  let (targetKeys, _) ← Tree.keysInPages changed target
  let (baseKeys, _) ← Tree.keysInPages changed base
  let candidates := (ExtTreeSet.ofList (sourceKeys ++ targetKeys ++ baseKeys) compare).toList
  return candidates.filter fun key => !isReserved key

/-- Where the page store gives the three commits, a merge decides the keys of the pages that
changed from what the commits hold. -/
theorem planMerge_cases (platform : Platform) (policy : MergePolicy)
    (hlegible : lawful.Legible state) (base source target : CommitId) :
    (∃ error, candidateKeys pager state base source target = .error (.pager error) ∧
      planMerge platform pager state base source target policy = .error (.pager error)) ∨
    ∃ keys baseMap sourceMap targetMap,
      candidateKeys pager state base source target = .ok keys ∧
      lawful.Stores state base baseMap ∧ lawful.Stores state source sourceMap ∧
      lawful.Stores state target targetMap ∧
      planMerge platform pager state base source target policy =
        (planOver platform policy baseMap sourceMap targetMap keys Plan.empty).map
          Plan.outcome := by
  unfold candidateKeys planMerge
  cases hdiff : pager.diff3 state base source target with
  | error error => exact Or.inl ⟨error, rfl, rfl⟩
  | ok changed =>
  cases hforkBase : pager.fork state base with
  | error error => exact Or.inl ⟨error, rfl, rfl⟩
  | ok baseStore =>
  cases hforkSource : pager.fork state source with
  | error error => exact Or.inl ⟨error, rfl, rfl⟩
  | ok sourceStore =>
  cases hforkTarget : pager.fork state target with
  | error error => exact Or.inl ⟨error, rfl, rfl⟩
  | ok targetStore =>
  obtain ⟨_, baseMap, baseTree, -, hbase, hopenBase, hbaseHolds, -, hbaseReads⟩ :=
    hlegible.opens hforkBase
  obtain ⟨_, sourceMap, sourceTree, -, hsource, hopenSource, hsourceHolds, -, hsourceReads⟩ :=
    hlegible.opens hforkSource
  obtain ⟨_, targetMap, targetTree, -, htarget, hopenTarget, htargetHolds, -, htargetReads⟩ :=
    hlegible.opens hforkTarget
  obtain ⟨sourceKeys, sourceTree', hsourceKeys⟩ := keysInPages_succeeds changed sourceTree
  obtain ⟨targetKeys, targetTree', htargetKeys⟩ := keysInPages_succeeds changed targetTree
  obtain ⟨baseKeys, baseTree', hbaseKeys⟩ := keysInPages_succeeds changed baseTree
  have hsameBase := Tree.keysInPages_same hbaseKeys
  have hsameSource := Tree.keysInPages_same hsourceKeys
  have hsameTarget := Tree.keysInPages_same htargetKeys
  refine Or.inr ⟨(ExtTreeSet.ofList (sourceKeys ++ targetKeys ++ baseKeys) compare).toList.filter
    fun key => !isReserved key, baseMap, sourceMap, targetMap, ?_, hbase, hsource, htarget, ?_⟩
  · simp only [Except.mapError, hopenBase, hopenSource, hopenTarget, hsourceKeys, htargetKeys,
      hbaseKeys, bind, Except.bind]
    rfl
  · rw [← decideAll_eq (hsameBase.holds hbaseHolds) (hsameSource.holds hsourceHolds)
      (hsameTarget.holds htargetHolds) (hbaseReads.same hsameBase)
      (hsourceReads.same hsameSource) (htargetReads.same hsameTarget)]
    simp only [Except.mapError, hopenBase, hopenSource, hopenTarget, hsourceKeys, htargetKeys,
      hbaseKeys, bind, Except.bind]
    rfl

/-- A key that the merge decides has a report that cannot be described. -/
def MergeMiscut (platform : Platform) (lawful : pager.Lawful) (state : σ)
    (base source target : CommitId) : Prop :=
  ∃ (keys : List Key) (baseMap sourceMap targetMap : RecordMap),
    candidateKeys pager state base source target = .ok keys ∧
    lawful.Stores state base baseMap ∧ lawful.Stores state source sourceMap ∧
    lawful.Stores state target targetMap ∧
    ∃ key ∈ keys, Undecided platform baseMap[key]? sourceMap[key]? targetMap[key]? ∧
      AnyMiscut baseMap[key]? sourceMap[key]? targetMap[key]?

theorem planMerge_panics_iff {platform : Platform} {policy : MergePolicy}
    (hlegible : lawful.Legible state) :
    planMerge platform pager state base source target policy = .error .panicked ↔
      MergeMiscut platform lawful state base source target := by
  unfold MergeMiscut
  rcases planMerge_cases platform policy hlegible base source target with
    ⟨error, hcandidates, hplan⟩ |
    ⟨keys, baseMap, sourceMap, targetMap, hcandidates, hbase, hsource, htarget, hplan⟩
  · rw [hplan, hcandidates]
    exact iff_of_false nofun fun ⟨_, _, _, _, hkeys, _⟩ => nomatch hkeys
  · rw [hplan, hcandidates, StateExcept.except_map_eq_error, planOver_eq_error]
    constructor
    · rintro ⟨-, hmiscut⟩
      exact ⟨keys, baseMap, sourceMap, targetMap, rfl, hbase, hsource, htarget, hmiscut⟩
    · rintro ⟨keys', baseMap', sourceMap', targetMap', hkeys, hbase', hsource', htarget', hmiscut⟩
      obtain rfl := Except.ok.inj hkeys
      obtain rfl := hbase.unique hbase'
      obtain rfl := hsource.unique hsource'
      obtain rfl := htarget.unique htarget'
      exact ⟨rfl, hmiscut⟩

end Commits

/-! ## Taints -/

/-- The items of a branch are not built if one of its nodes is miscut. -/
theorem reversibleItems_eq_error {platform : Platform} {nodes : NodeMap} {source : SourceRef}
    {ids : List NodeId} {error : LoomError} :
    reversibleItems platform nodes source ids = .error error ↔
      error = .panicked ∧ ∃ id ∈ ids, ∃ node, nodes[id]? = some node ∧
        isProvenance node.key = false ∧ Miscut node.intent := by
  induction ids with
  | nil => exact iff_of_false nofun fun ⟨_, _, hmem, _⟩ => List.not_mem_nil hmem
  | cons id ids ih =>
      rw [List.exists_mem_cons_iff]
      cases hnode : nodes[id]? with
      | none => simp [reversibleItems, hnode, ih]
      | some node =>
      cases hkey : isProvenance node.key with
      | true => simp [reversibleItems, hnode, hkey, ih]
      | false =>
          simp only [reversibleItems, hnode, hkey, Bool.false_eq_true, if_false,
            StateExcept.except_bind_eq_error, DerivationNode.describe_eq_error, ih]
          constructor
          · rintro (⟨rfl, hmiscut⟩ | ⟨_, -, ⟨rfl, hrest⟩ | ⟨_, -, hreturn⟩⟩)
            · exact ⟨rfl, Or.inl ⟨node, rfl, hkey, hmiscut⟩⟩
            · exact ⟨rfl, Or.inr hrest⟩
            · cases hreturn
          · rintro ⟨rfl, hmiscut⟩
            cases hdescribed : node.describe platform with
            | error failed => exact Or.inl ⟨rfl, (DerivationNode.describe_eq_error.mp hdescribed).2⟩
            | ok description =>
                refine Or.inr ⟨description, rfl, Or.inl ⟨rfl, hmiscut.resolve_left ?_⟩⟩
                rintro ⟨_, heq, -, hmiscut⟩
                obtain rfl := Option.some.inj heq
                have hfails : node.describe platform = .error .panicked :=
                  DerivationNode.describe_eq_error.mpr ⟨rfl, hmiscut⟩
                rw [hdescribed] at hfails
                cases hfails

namespace Engine

variable {σ ρ : Type} {engine : Engine σ ρ} {lawful : engine.pager.Lawful} {loom : Loom σ ρ}
  {source : SourceRef}

/-- A caller's node on the branch is downstream of the source and miscut. -/
def MiscutOn (engine : Engine σ ρ) (loom : Loom σ ρ) (source : SourceRef) (branch : BranchId) :
    Prop :=
  ∃ nodes contaminated, Walked engine loom source branch nodes contaminated ∧
    ∃ id ∈ contaminated.toList, ∃ node, nodes[id]? = some node ∧
      isProvenance node.key = false ∧ Miscut node.intent

/-- A taint gets to a branch with a miscut node. -/
def TaintMiscut (engine : Engine σ ρ) (loom : Loom σ ρ) (source : SourceRef)
    (branches : List BranchId) : Prop :=
  ∃ before branch after, branches = before ++ branch :: after ∧
    (∀ earlier ∈ before, ∃ nodes contaminated,
      Walked engine loom source earlier nodes contaminated) ∧
    MiscutOn engine loom source branch

theorem taintBranches_panics_iff (hlegible : lawful.Legible loom.pager)
    {branches : List BranchId} {stats : TaintStats} {items : List ReversibleItem} :
    (engine.taintBranches source branches stats items loom).1 = .error .panicked ↔
      TaintMiscut engine loom source branches := by
  induction branches generalizing stats items with
  | nil => exact iff_of_false nofun fun ⟨_, _, _, hsplit, _⟩ => by simp at hsplit
  | cons branch branches ih =>
      have hsplit : TaintMiscut engine loom source (branch :: branches) ↔
          MiscutOn engine loom source branch ∨
            (∃ nodes contaminated, Walked engine loom source branch nodes contaminated) ∧
              TaintMiscut engine loom source branches := StateExcept.reaches_cons
      rw [hsplit]
      rcases taintBranches_cons hlegible source branch branches stats items with
        ⟨error, herror, hwalks, hfails⟩ | ⟨nodes, contaminated, hwalked, hrest⟩
      · rw [hfails]
        refine iff_of_false (fun heq => herror (Except.error.inj heq)) ?_
        rintro (⟨nodes, contaminated, hwalked, -⟩ | ⟨⟨nodes, contaminated, hwalked⟩, -⟩)
        · exact hwalks nodes contaminated hwalked
        · exact hwalks nodes contaminated hwalked
      have hmiscut : MiscutOn engine loom source branch ↔
          reversibleItems engine.platform nodes source contaminated.toList =
            .error .panicked := by
        rw [reversibleItems_eq_error, and_iff_right rfl]
        constructor
        · rintro ⟨nodes', contaminated', hwalked', hfound⟩
          obtain ⟨rfl, rfl⟩ := hwalked.unique hwalked'
          exact hfound
        · exact fun hfound => ⟨nodes, contaminated, hwalked, hfound⟩
      rcases hrest with ⟨error, hitems, hfails⟩ | ⟨found, stats', hitems, hcontinues⟩
      · obtain ⟨rfl, -⟩ := reversibleItems_eq_error.mp hitems
        exact iff_of_true hfails (Or.inl (hmiscut.mpr hitems))
      · rw [hcontinues, ih, hmiscut, hitems]
        exact ⟨fun hlater => Or.inr ⟨⟨nodes, contaminated, hwalked⟩, hlater⟩,
          fun hsplit => (hsplit.resolve_left nofun).2⟩

theorem taint_panics_iff (hlegible : lawful.Legible loom.pager) :
    (engine.taint source loom).1 = .error .panicked ↔
      TaintMiscut engine loom source (branchNames loom) := by
  rw [taint, FallibleState.get_bind, FallibleState.bind_eq]
  rw [← taintBranches_panics_iff hlegible]
  rcases engine.taintBranches source (branchNames loom) _ [] loom with ⟨error | found, last⟩
  · exact ⟨fun heq => congrArg Except.error (Except.error.inj heq),
      fun heq => congrArg Except.error (Except.error.inj heq)⟩
  · exact iff_of_false nofun nofun

/-- In every reachable database a taint panics only at a miscut intent, and a merge only at a
miscut text. -/
theorem reports_panic_iff (hreachable : Reachable engine lawful loom) (source : SourceRef)
    (base sourceHead targetHead : CommitId) (policy : MergePolicy) :
    ((engine.taint source loom).1 ≠ .error .panicked ↔
      ¬TaintMiscut engine loom source (branchNames loom)) ∧
    (planMerge engine.platform engine.pager loom.pager base sourceHead targetHead policy ≠
        .error .panicked ↔
      ¬MergeMiscut engine.platform lawful loom.pager base sourceHead targetHead) :=
  ⟨not_congr (taint_panics_iff hreachable.legible),
    not_congr (planMerge_panics_iff hreachable.legible)⟩

/-! ## A letter over the sixtieth byte -/

/-- Fifty-nine letters and one of two bytes. -/
def longText : Bytes := List.replicate 59 0x61 ++ [0xC3, 0xA9]

/-- Both branches write texts that start alike, and `main` with the text as its intent. -/
def textLoom (text : Bytes) : Loom MemPager (Option Refs) :=
  memoryEngine.afterAll [.openSessionNamed (ascii "s"),
    .write (memoryToken [ascii "s"]) (ascii "s") [(ascii "k", .value (.text (text ++ [0x62])))]
      ∅ (memoryEnvelope (ascii "s")),
    .write (memoryToken [MAIN]) MAIN [(ascii "k", .value (.text text))] ∅
      { pageEnvelope with intent := text }] memoryLoom

/-- Whether a result is a panic. -/
def isPanicked {α : Type} : Except LoomError α → Bool
  | .error .panicked => true
  | _ => false

theorem eq_panicked {α : Type} {result : Except LoomError α} (hpanicked : isPanicked result = true) :
    result = .error .panicked := by
  unfold isPanicked at hpanicked
  split at hpanicked
  · rfl
  · cases hpanicked

theorem ne_panicked {α : Type} {result : Except LoomError α}
    (hpanicked : isPanicked result = false) : result ≠ .error .panicked := by
  rintro rfl
  cases hpanicked

/-- Where the text has seventy letters of a byte each it is cut between two of them. -/
theorem reports_panic_text :
    memoryEngine.Reachable memoryLawful (textLoom (List.replicate 70 0x61)) ∧
      ¬TaintMiscut memoryEngine (textLoom (List.replicate 70 0x61)) claimPage
        (branchNames (textLoom (List.replicate 70 0x61))) ∧
      ¬MergeMiscut Platform.plain memoryLawful (textLoom (List.replicate 70 0x61)).pager 0 1 2 := by
  have hreachable : memoryEngine.Reachable memoryLawful (textLoom (List.replicate 70 0x61)) :=
    memoryLoom_reachable.afterAll _
  obtain ⟨htaint, hmerge⟩ := reports_panic_iff hreachable claimPage 0 1 2 .conflict
  exact ⟨hreachable, htaint.mp (ne_panicked (by decide +kernel)),
    hmerge.mp (ne_panicked (by decide +kernel))⟩

/-- The taint of the page and the merge of the two branches both panic. -/
theorem reports_panic_long :
    memoryEngine.Reachable memoryLawful (textLoom longText) ∧ isUtf8 longText = true ∧
      (memoryEngine.taint claimPage (textLoom longText)).1 = .error .panicked ∧
      planMerge Platform.plain memoryEngine.pager (textLoom longText).pager 0 1 2 .conflict =
        .error .panicked := by
  refine ⟨memoryLoom_reachable.afterAll _, by decide +kernel, ?_, ?_⟩
  · exact eq_panicked (by decide +kernel)
  · exact eq_panicked (by decide +kernel)

end Engine

end LoomDB
