import LoomDB.Merge.Rules
import LoomDB.Provenance.FaultyPlans

/-!
# Records that nobody touched

A record that the base and both sides hold with the same bytes is looked at when a neighbour on
its page changed. It is then left alone if it equals itself, which a record with a number that is
not one does not.
-/

namespace LoomDB

open Std (ExtTreeMap ExtTreeSet)
open KeyValue (ask)

variable {platform : Platform} {policy : MergePolicy}

/-! ## Equality -/

theorem F64.beq_self_eq (value : F64) : value.beq value = !value.isNaN := by
  cases hnan : value.isNaN with
  | true => simp [beq, hnan]
  | false => rw [beq_self hnan]; rfl

theorem Value.beq_self_eq (value : Value) : value.beq value = !value.isNaN := by
  cases hnan : value.isNaN with
  | false => rw [beq_self hnan]; rfl
  | true =>
      cases value with
      | number value =>
          have hself : value.beq value = !value.isNaN := F64.beq_self_eq value
          rw [show value.isNaN = true from hnan] at hself
          exact hself
      | _ => cases hnan

theorem Claim.beq_self_eq (claim : Claim) : claim.beq claim = !claim.isNaN := by
  simp [beq, Confidence.beq, Value.beq_self_eq, F64.beq_self_eq, isNaN]

/-- A record equals itself unless a number in it is NaN. -/
theorem Record.beq_self_eq (record : Record) : record.beq record = !record.isNaN := by
  cases record with
  | observation obs => simp [beq, isNaN]
  | claim fact => exact Claim.beq_self_eq fact
  | value plain => exact Value.beq_self_eq plain

/-! ## One key -/

/-- A claim whose validity ended no later than it started. -/
def Record.EndedClaim (record : Record) : Prop :=
  ∃ claim, record = .claim claim ∧ claim.valid.Ended

theorem mergeClaims_self (claim : Claim) :
    (claim.valid.Ended ∧ mergeClaims platform claim claim = some (.claim claim)) ∨
      ¬claim.valid.Ended ∧ mergeClaims platform claim claim = none := by
  cases hoverlaps : claim.valid.overlaps claim.valid with
  | true =>
      refine Or.inr ⟨?_, ?_⟩
      · rintro ⟨start, stop, hvalid, hended⟩
        have hstart : claim.valid.start = some start := by rw [hvalid]
        rw [(Interval.overlaps_eq_false_of_start hstart hstart).mpr
          (Or.inl ⟨start, stop, hvalid, hended⟩)] at hoverlaps
        cases hoverlaps
      · unfold mergeClaims
        rw [hoverlaps]
        simp
  | false =>
      have hstart : ∃ start, claim.valid.start = some start := by
        cases hstart : claim.valid.start with
        | some start => exact ⟨start, rfl⟩
        | none => simp [Interval.overlaps, hstart] at hoverlaps
      obtain ⟨start, hstart⟩ := hstart
      have hended := (Interval.overlaps_eq_false_of_start hstart hstart).mp hoverlaps
      refine Or.inl ⟨hended.elim id id, ?_⟩
      rw [mergeClaims_of_apart hoverlaps, hstart]
      simp

theorem Record.endedClaim_claim {claim : Claim} :
    (Record.claim claim).EndedClaim ↔ claim.valid.Ended := by
  simp [EndedClaim]

theorem Record.not_endedClaim_value (value : Value) : ¬(Record.value value).EndedClaim := by
  rintro ⟨claim, heq, -⟩
  cases heq

/-- The typed rules pick an ended claim, and do not decide the other records that are not equal
to themselves. -/
theorem typedDecision_self (platform : Platform) {record : Record} (hnan : record.isNaN = true) :
    (record.EndedClaim ∧
      typedDecision platform (some record) (some record) (some record) = some record) ∨
      ¬record.EndedClaim ∧
        typedDecision platform (some record) (some record) (some record) = none := by
  cases record with
  | observation obs => cases hnan
  | claim claim =>
      rw [Record.endedClaim_claim]
      exact mergeClaims_self claim
  | value value =>
      refine Or.inr ⟨Record.not_endedClaim_value value, mergeTyped_eq_none ⟨?_, ?_, ?_⟩⟩
      · intro left right heq
        cases heq
      · intro left right heq
        rw [heq] at hnan
        cases hnan
      · intro left right heq
        rw [heq] at hnan
        cases hnan

/-- What the policy says of a record that the typed rules do not decide. -/
def answer (platform : Platform) (policy : MergePolicy) (key : Key) (record : Record) :
    Except LoomError Resolution := do
  let report ← conflictOf platform key (some record) (some record) (some record)
  return match policy with
    | .takeSource => .source
    | .takeTarget => .target
    | .conflict => .unresolved
    | .custom resolve => resolve report

/-- The decision on a record that is the same on all sides. -/
theorem decide_self {key : Key} {record : Record} {decision : Decision}
    (hdecide : LoomDB.decide platform key (some record) (some record) (some record) policy =
      .ok decision) :
    (record.isNaN = false ∧ decision = .nothing) ∨ record.isNaN = true ∧
      ((record.EndedClaim ∧ decision = .write record) ∨ ¬record.EndedClaim ∧
        ∃ report resolution, answer platform policy key record = .ok resolution ∧
          decision = match resolution with
            | .source => .resolved record
            | .target => .nothing
            | .replace other => .resolved other
            | .unresolved => .conflict report) := by
  unfold LoomDB.decide at hdecide
  simp only [sameRecord, Record.beq_self_eq] at hdecide
  cases hnan : record.isNaN with
  | false =>
      rw [hnan] at hdecide
      exact Or.inl ⟨rfl, (Except.ok.inj hdecide).symm⟩
  | true =>
  refine Or.inr ⟨rfl, ?_⟩
  rw [hnan] at hdecide
  simp only [Bool.not_true, Bool.false_eq_true, if_false] at hdecide
  rcases typedDecision_self platform hnan with ⟨hended, htyped⟩ | ⟨hended, htyped⟩
  · rw [htyped] at hdecide
    exact Or.inl ⟨hended, (Except.ok.inj hdecide).symm⟩
  · refine Or.inr ⟨hended, ?_⟩
    rw [htyped] at hdecide
    unfold answer
    cases hreport : conflictOf platform key (some record) (some record) (some record) with
    | error error =>
        rw [hreport] at hdecide
        cases hdecide
    | ok report =>
        rw [hreport] at hdecide
        obtain rfl := Except.ok.inj hdecide
        exact ⟨report, _, rfl, rfl⟩

/-! ## Whole plans -/

section Plans

variable {σ : Type} {pager : Substrate σ} {lawful : pager.Lawful} {state : σ}
  {base source target commit : CommitId} {keys : List Key} {outcome : MergeOutcome}

theorem find_spec {key : Key} {tree : Tree} {map : RecordMap} {found : Option Record}
    (hfind : Tree.find key tree = .ok found) (hholds : Tree.Holds tree map) : found = map[key]? := by
  unfold Tree.find at hfind
  cases hget : Tree.get key tree with
  | error error =>
      rw [hget] at hfind
      cases hfind
  | ok pair =>
      rw [hget] at hfind
      obtain rfl := Except.ok.inj hfind
      exact (Tree.get_spec hget hholds).1

/-- Deciding from the trees is deciding from what they hold. -/
theorem planBy_spec {baseTree sourceTree targetTree : Tree} {baseMap sourceMap targetMap : RecordMap}
    {plan plan' : Plan} (hbase : Tree.Holds baseTree baseMap)
    (hsource : Tree.Holds sourceTree sourceMap) (htarget : Tree.Holds targetTree targetMap)
    (hplan : planBy platform policy (Tree.find · baseTree) (Tree.find · sourceTree)
      (Tree.find · targetTree) keys plan = .ok plan') :
    planOver platform policy baseMap sourceMap targetMap keys plan = .ok plan' := by
  induction keys generalizing plan with
  | nil => exact hplan
  | cons key keys ih =>
      simp only [planBy, StateExcept.except_bind_eq_ok] at hplan
      obtain ⟨_, hfindBase, _, hfindSource, _, hfindTarget, decision, hdecision, hrest⟩ := hplan
      obtain rfl := find_spec hfindBase hbase
      obtain rfl := find_spec hfindSource hsource
      obtain rfl := find_spec hfindTarget htarget
      exact planOver_cons_eq_ok.mpr ⟨decision, hdecision, ih hrest⟩

theorem holds_of_opened {tree : Tree} {map : RecordMap} (hsound : lawful.Sound state)
    (hstores : lawful.Stores state commit map) (hopened : pager.opened state commit = .ok tree) :
    Tree.Holds tree map := by
  obtain ⟨store, hfork, hopen⟩ := opened_eq_ok.mp hopened
  obtain ⟨_, map', -, hstores', -, hholds, -⟩ := lawful.openTree_spec hsound hfork hopen
  obtain rfl := hstores.unique hstores'
  exact hholds

/-- A plan that is made, from what the three commits hold. -/
theorem planMerge_planned {baseMap sourceMap targetMap : RecordMap} (hsound : lawful.Sound state)
    (hbase : lawful.Stores state base baseMap) (hsource : lawful.Stores state source sourceMap)
    (htarget : lawful.Stores state target targetMap)
    (hkeys : candidateKeys pager state base source target = .ok keys)
    (hplan : planMerge platform pager state base source target policy = .ok outcome) :
    ∃ plan, planOver platform policy baseMap sourceMap targetMap keys Plan.empty = .ok plan ∧
      outcome = plan.outcome := by
  obtain ⟨changed, baseTree, sourceTree, targetTree, hopened⟩ := Opened.of_planMerge hplan
  rw [hopened.planMerge_eq hkeys] at hplan
  cases hplanned : planBy platform policy (Tree.find · baseTree) (Tree.find · sourceTree)
      (Tree.find · targetTree) keys Plan.empty with
  | error error =>
      rw [hplanned] at hplan
      cases hplan
  | ok plan =>
      rw [hplanned] at hplan
      exact ⟨plan, planBy_spec (holds_of_opened hsound hbase hopened.base)
        (holds_of_opened hsound hsource hopened.source)
        (holds_of_opened hsound htarget hopened.target) hplanned, (Except.ok.inj hplan).symm⟩

/-- The outcome writes the key, or reports the conflict found where the key was looked at. -/
inductive Disturbed (platform : Platform) (policy : MergePolicy) (keys : List Key) (key : Key)
    (base source target : Option Record) : MergeOutcome → Prop
  | written {writes : List (Key × Record)} {automatic : ℕ} {record : Record}
      (mem : (key, record) ∈ writes) :
      Disturbed platform policy keys key base source target (.merged writes automatic)
  | reported {conflicts : List MergeConflict} {report : MergeConflict} (candidate : key ∈ keys)
      (found : LoomDB.decide platform key base source target policy = .ok (.conflict report))
      (mem : report ∈ conflicts) :
      Disturbed platform policy keys key base source target (.conflict conflicts)

/-- Some candidate key is left in conflict. -/
def Conflicted (platform : Platform) (policy : MergePolicy) (keys : List Key)
    (base source target : RecordMap) : Prop :=
  ∃ key ∈ keys, ∃ report,
    LoomDB.decide platform key base[key]? source[key]? target[key]? policy = .ok (.conflict report)

section Planned

variable {baseMap sourceMap targetMap : RecordMap} {plan : Plan} {key : Key}

theorem planOver_conflicts_iff
    (hplan : planOver platform policy baseMap sourceMap targetMap keys Plan.empty = .ok plan) :
    plan.conflicts ≠ [] ↔ Conflicted platform policy keys baseMap sourceMap targetMap := by
  unfold Conflicted
  constructor
  · intro hne
    obtain ⟨report, hreport⟩ := List.exists_mem_of_ne_nil _ hne
    rcases (mem_conflicts_planOver hplan).mp hreport with hnone | ⟨key, hkey, hdecide⟩
    · cases hnone
    · exact ⟨key, hkey, report, hdecide⟩
  · rintro ⟨key, hkey, report, hdecide⟩
    exact List.ne_nil_of_mem ((mem_conflicts_planOver hplan).mpr (Or.inr ⟨key, hkey, hdecide⟩))

theorem planOver_decides {start : Plan}
    (hplan : planOver platform policy baseMap sourceMap targetMap keys start = .ok plan)
    (hkey : key ∈ keys) :
    ∃ decision, LoomDB.decide platform key baseMap[key]? sourceMap[key]? targetMap[key]? policy =
      .ok decision := by
  induction keys generalizing start with
  | nil => cases hkey
  | cons first keys ih =>
      obtain ⟨decision, hdecision, hrest⟩ := planOver_cons_eq_ok.mp hplan
      rcases List.mem_cons.mp hkey with rfl | hkey
      · exact ⟨decision, hdecision⟩
      · exact ih hrest hkey

/-- How a decision on a candidate shows in the outcome. -/
def Shown (plan : Plan) : Decision → Prop
  | .nothing => False
  | .write _ => plan.conflicts = []
  | .resolved _ => plan.conflicts = []
  | .conflict _ => True

theorem disturbed_iff {decision : Decision}
    (hplan : planOver platform policy baseMap sourceMap targetMap keys Plan.empty = .ok plan)
    (hkey : key ∈ keys)
    (hdecide : LoomDB.decide platform key baseMap[key]? sourceMap[key]? targetMap[key]? policy =
      .ok decision) :
    Disturbed platform policy keys key baseMap[key]? sourceMap[key]? targetMap[key]? plan.outcome ↔
      Shown plan decision := by
  have hwritten : ∀ record, (key, record) ∈ plan.writes ↔
      decision = .write record ∨ decision = .resolved record := by
    intro record
    rw [mem_writes_planOver hplan]
    constructor
    · rintro (hnone | ⟨-, found, hfound, hwrites⟩)
      · cases hnone
      · obtain rfl := Except.ok.inj (hdecide.symm.trans hfound)
        exact hwrites
    · exact fun hwrites => Or.inr ⟨hkey, decision, hdecide, hwrites⟩
  by_cases hconflicts : plan.conflicts = []
  · rw [Plan.outcome, if_pos hconflicts]
    constructor
    · rintro (⟨hmem⟩ | -)
      rcases (hwritten _).mp hmem with rfl | rfl
      · exact hconflicts
      · exact hconflicts
    · intro hshown
      cases decision with
      | nothing => cases hshown
      | write record => exact .written ((hwritten record).mpr (Or.inl rfl))
      | resolved record => exact .written ((hwritten record).mpr (Or.inr rfl))
      | conflict report =>
          have hmem := (mem_conflicts_planOver hplan).mpr (Or.inr ⟨key, hkey, hdecide⟩)
          rw [hconflicts] at hmem
          cases hmem
  · rw [Plan.outcome, if_neg hconflicts]
    constructor
    · rintro (- | ⟨-, hfound, -⟩)
      obtain rfl := Except.ok.inj (hdecide.symm.trans hfound)
      trivial
    · intro hshown
      cases decision with
      | nothing => cases hshown
      | write record => exact absurd hshown hconflicts
      | resolved record => exact absurd hshown hconflicts
      | conflict report =>
          exact .reported hkey hdecide
            ((mem_conflicts_planOver hplan).mpr (Or.inr ⟨key, hkey, hdecide⟩))

theorem not_disturbed_of_unlooked
    (hplan : planOver platform policy baseMap sourceMap targetMap keys Plan.empty = .ok plan)
    (hkey : key ∉ keys) :
    ¬Disturbed platform policy keys key baseMap[key]? sourceMap[key]? targetMap[key]?
      plan.outcome := by
  intro hdisturbed
  generalize houtcome : plan.outcome = outcome at hdisturbed
  cases hdisturbed with
  | written mem =>
      unfold Plan.outcome at houtcome
      split at houtcome
      · obtain ⟨rfl, -⟩ := MergeOutcome.merged.inj houtcome
        rcases (mem_writes_planOver hplan).mp mem with hnone | ⟨hcandidate, -⟩
        · cases hnone
        · exact hkey hcandidate
      · cases houtcome
  | reported candidate => exact hkey candidate

end Planned

/-- When a record that is the same on all sides is left alone: it is no candidate, or it equals
itself, or the policy leaves the target, or it would be written and another key is in conflict. -/
inductive LeftAlone (platform : Platform) (policy : MergePolicy) (keys : List Key) (key : Key)
    (record : Record) (base source target : RecordMap) : Prop
  | unlooked (candidate : key ∉ keys) :
      LeftAlone platform policy keys key record base source target
  | equal (same : record.isNaN = false) :
      LeftAlone platform policy keys key record base source target
  | kept (undecided : ¬record.EndedClaim) (answered : answer platform policy key record = .ok .target) :
      LeftAlone platform policy keys key record base source target
  | masked (conflicted : Conflicted platform policy keys base source target)
      (writes : record.EndedClaim ∨ ∃ resolution,
        answer platform policy key record = .ok resolution ∧ resolution ≠ .unresolved) :
      LeftAlone platform policy keys key record base source target

/-- A record that the base and both sides hold with the same bytes is left alone exactly under
these conditions. -/
theorem undisturbed_iff {baseMap sourceMap targetMap : RecordMap} {key : Key} {record : Record}
    (hsound : lawful.Sound state)
    (hbase : lawful.Stores state base baseMap) (hsource : lawful.Stores state source sourceMap)
    (htarget : lawful.Stores state target targetMap)
    (hkeys : candidateKeys pager state base source target = .ok keys)
    (hplan : planMerge platform pager state base source target policy = .ok outcome)
    (hbaseRecord : baseMap[key]? = some record) (hsourceRecord : sourceMap[key]? = some record)
    (htargetRecord : targetMap[key]? = some record) :
    ¬Disturbed platform policy keys key (some record) (some record) (some record) outcome ↔
      LeftAlone platform policy keys key record baseMap sourceMap targetMap := by
  obtain ⟨plan, hplanned, rfl⟩ := planMerge_planned hsound hbase hsource htarget hkeys hplan
  by_cases hkey : key ∉ keys
  · have hundisturbed := not_disturbed_of_unlooked hplanned hkey
    rw [hbaseRecord, hsourceRecord, htargetRecord] at hundisturbed
    exact iff_of_true hundisturbed (.unlooked hkey)
  have hkey := not_not.mp hkey
  obtain ⟨decision, hdecision⟩ := planOver_decides hplanned hkey
  have hdisturbed := disturbed_iff hplanned hkey hdecision
  have hconflicted := planOver_conflicts_iff hplanned
  rw [hbaseRecord, hsourceRecord, htargetRecord] at hdisturbed hdecision
  rw [hdisturbed]
  have hwritten : record.isNaN = true →
      (record.EndedClaim ∨ ∃ resolution, answer platform policy key record = .ok resolution ∧
        resolution ≠ .unresolved) →
      (¬record.EndedClaim → answer platform policy key record ≠ .ok .target) →
      (¬plan.conflicts = [] ↔
        LeftAlone platform policy keys key record baseMap sourceMap targetMap) := by
    intro hnan hwrites hkept
    rw [← ne_eq, hconflicted]
    constructor
    · exact fun hothers => .masked hothers hwrites
    · intro halone
      cases halone with
      | unlooked candidate => exact absurd hkey candidate
      | equal same => cases hnan.symm.trans same
      | kept undecided answered => exact absurd answered (hkept undecided)
      | masked conflicted => exact conflicted
  rcases decide_self hdecision with
    ⟨hnan, rfl⟩ | ⟨hnan, ⟨hended, rfl⟩ | ⟨hended, report, resolution, hanswer, rfl⟩⟩
  · exact iff_of_true id (.equal hnan)
  · exact hwritten hnan (Or.inl hended) fun hundecided => absurd hended hundecided
  · have hkept : resolution ≠ .target → ¬record.EndedClaim →
        answer platform policy key record ≠ .ok .target :=
      fun hne _ htaken => hne (Except.ok.inj (hanswer.symm.trans htaken))
    cases resolution with
    | source => exact hwritten hnan (Or.inr ⟨.source, hanswer, nofun⟩) (hkept nofun)
    | target => exact iff_of_true id (.kept hended hanswer)
    | replace other => exact hwritten hnan (Or.inr ⟨.replace other, hanswer, nofun⟩) (hkept nofun)
    | unresolved =>
        refine iff_of_false (fun hnone => hnone trivial) fun halone => ?_
        cases halone with
        | unlooked candidate => exact candidate hkey
        | equal same => cases hnan.symm.trans same
        | kept _ answered => cases hanswer.symm.trans answered
        | masked _ writes =>
            obtain hwrites | ⟨resolution, hother, hresolved⟩ := writes
            · exact hended hwrites
            · exact hresolved (Except.ok.inj (hother.symm.trans hanswer))

end Plans

/-! ## A number that is not one -/

namespace Engine

/-- A record that does not equal itself. -/
def numberNan : Record := .value (.number { bits := 0x7ff8000000000000 })

/-- `main` holds `k`, and session `s`, opened from it, wrote its neighbour `j`. -/
def neighbourWritten : Loom MemPager (Option Refs) :=
  memoryEngine.afterAll [
    .write (memoryToken [MAIN]) MAIN [(ascii "k", numberNan)] ∅ (memoryEnvelope MAIN),
    .openSessionNamed (ascii "s"),
    .write (memoryToken [ascii "s"]) (ascii "s") [(ascii "j", .value (.bool true))] ∅
      (memoryEnvelope (ascii "s"))] memoryLoom

theorem neighbourWritten_reachable : memoryEngine.Reachable memoryLawful neighbourWritten :=
  memoryLoom_reachable.afterAll _

/-- What the commit at the head of a branch stores, and that it has the number under `k`. -/
theorem neighbourWritten_stores {branch : BranchId} {commit : CommitId}
    (hhead : neighbourWritten.refs.branches[branch]? = some commit)
    (hpages : (memoryLawful.pages neighbourWritten.pager commit).isSome)
    (hnumber : (memoryEngine.reading commit (ask (ascii "k")) neighbourWritten).1.toOption =
      some (some numberNan)) :
    ∃ map : RecordMap, memoryLawful.Stores neighbourWritten.pager commit map ∧
      map[ascii "k"]? = some numberNan := by
  obtain ⟨pages, hpages⟩ := Option.isSome_iff_exists.mp hpages
  obtain ⟨map, hstored⟩ := neighbourWritten_reachable.sound commit pages hpages
  have hshows : Shows memoryLawful neighbourWritten branch map :=
    ⟨commit, hhead, pages, hpages, hstored⟩
  exact ⟨map, ⟨pages, hpages, hstored⟩,
    hshows.getElem? neighbourWritten_reachable.sound hhead hnumber⟩

/-- The neighbours are planned together. -/
theorem neighbourWritten_planned :
    ∃ (mainMap branchMap : RecordMap) (keys : List Key) (outcome : MergeOutcome),
      memoryLawful.Stores neighbourWritten.pager 1 mainMap ∧
      memoryLawful.Stores neighbourWritten.pager 2 branchMap ∧
      mainMap[ascii "k"]? = some numberNan ∧ branchMap[ascii "k"]? = some numberNan ∧
      candidateKeys memoryEngine.pager neighbourWritten.pager 1 2 1 = .ok keys ∧
      ascii "k" ∈ keys ∧
      planMerge Platform.plain memoryEngine.pager neighbourWritten.pager 1 2 1 .conflict =
        .ok outcome := by
  have hmainHead : neighbourWritten.refs.branches[MAIN]? = some 1 := by decide +kernel
  have hbranchHead : neighbourWritten.refs.branches[ascii "s"]? = some 2 := by decide +kernel
  obtain ⟨mainMap, hmain, hmainNumber⟩ :=
    neighbourWritten_stores hmainHead (by decide +kernel) (by decide +kernel)
  obtain ⟨branchMap, hbranch, hbranchNumber⟩ :=
    neighbourWritten_stores hbranchHead (by decide +kernel) (by decide +kernel)
  have hcandidate : ((candidateKeys memoryEngine.pager neighbourWritten.pager 1 2 1).toOption.any
      fun keys => keys.contains (ascii "k")) = true := by decide +kernel
  have hplanned : (planMerge Platform.plain memoryEngine.pager neighbourWritten.pager 1 2 1
      .conflict).isOk = true := by decide +kernel
  cases hkeys : candidateKeys memoryEngine.pager neighbourWritten.pager 1 2 1 with
  | error error =>
      rw [hkeys] at hcandidate
      cases hcandidate
  | ok keys =>
  cases hplan : planMerge Platform.plain memoryEngine.pager neighbourWritten.pager 1 2 1
      .conflict with
  | error error =>
      rw [hplan] at hplanned
      cases hplanned
  | ok outcome =>
      rw [hkeys] at hcandidate
      exact ⟨mainMap, branchMap, keys, outcome, hmain, hbranch, hmainNumber, hbranchNumber, rfl,
        List.contains_iff_mem.mp hcandidate, rfl⟩

theorem undisturbed_iff_neighbour :
    ∃ (mainMap branchMap : RecordMap) (keys : List Key) (outcome : MergeOutcome),
      memoryLawful.Stores neighbourWritten.pager 1 mainMap ∧
      memoryLawful.Stores neighbourWritten.pager 2 branchMap ∧
      (¬Disturbed Platform.plain .conflict keys (ascii "k") (some numberNan) (some numberNan)
          (some numberNan) outcome ↔
        LeftAlone Platform.plain .conflict keys (ascii "k") numberNan mainMap branchMap mainMap) := by
  obtain ⟨mainMap, branchMap, keys, outcome, hmain, hbranch, hmainNumber, hbranchNumber, hkeys, -,
    hplan⟩ := neighbourWritten_planned
  exact ⟨mainMap, branchMap, keys, outcome, hmain, hbranch,
    undisturbed_iff neighbourWritten_reachable.sound hmain hbranch hmain hkeys hplan hmainNumber
      hbranchNumber hmainNumber⟩

/-- The number is the same on all sides and reported as a conflict. -/
theorem disturbed_neighbour :
    memoryEngine.Reachable memoryLawful neighbourWritten ∧
      ∃ (mainMap branchMap : RecordMap) (keys : List Key) (outcome : MergeOutcome),
        memoryLawful.Stores neighbourWritten.pager 1 mainMap ∧
        memoryLawful.Stores neighbourWritten.pager 2 branchMap ∧
        mainMap[ascii "k"]? = some numberNan ∧ branchMap[ascii "k"]? = some numberNan ∧
        candidateKeys memoryEngine.pager neighbourWritten.pager 1 2 1 = .ok keys ∧
        planMerge Platform.plain memoryEngine.pager neighbourWritten.pager 1 2 1 .conflict =
          .ok outcome ∧
        Disturbed Platform.plain .conflict keys (ascii "k") (some numberNan) (some numberNan)
          (some numberNan) outcome := by
  obtain ⟨mainMap, branchMap, keys, outcome, hmain, hbranch, hmainNumber, hbranchNumber, hkeys,
    hcandidate, hplan⟩ := neighbourWritten_planned
  refine ⟨neighbourWritten_reachable, mainMap, branchMap, keys, outcome, hmain, hbranch,
    hmainNumber, hbranchNumber, hkeys, hplan, ?_⟩
  have hreported : ∃ report, LoomDB.decide Platform.plain (ascii "k") (some numberNan)
      (some numberNan) (some numberNan) .conflict = .ok (.conflict report) := ⟨_, rfl⟩
  obtain ⟨report, hreport⟩ := hreported
  obtain ⟨plan, hplanned, rfl⟩ :=
    planMerge_planned neighbourWritten_reachable.sound hmain hbranch hmain hkeys hplan
  have hdisturbed := disturbed_iff hplanned hcandidate
    (by rw [hmainNumber, hbranchNumber]; exact hreport)
  rw [hmainNumber, hbranchNumber] at hdisturbed
  exact hdisturbed.mpr trivial

end Engine

end LoomDB
