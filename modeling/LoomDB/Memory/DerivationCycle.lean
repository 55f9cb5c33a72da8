import LoomDB.Branch.Failures
import LoomDB.Memory.Forget
import LoomDB.Provenance.Lineage
import LoomDB.Provenance.Miscut
import LoomDB.Provenance.Staleness

/-!
# Reports of a cycle

A taint, a mark and a forget each walk down the derivation graph of a branch, and none
of them fails with a cycle in any other place. What the walk reports is not a cycle,
since there is none, but a line of derivations longer than it goes.
-/

namespace LoomDB

open Std (ExtTreeMap ExtTreeSet)
open FallibleState (Raises)
open LoomError (NoCycle)

theorem describe_noCycle {platform : Platform} {node : DerivationNode} {error : LoomError}
    (hdescribe : node.describe platform = .error error) : error.NoCycle := by
  obtain ⟨rfl, -⟩ := DerivationNode.describe_eq_error.mp hdescribe
  nofun

theorem reversibleItems_noCycle {platform : Platform} {nodes : NodeMap} {source : SourceRef}
    {ids : List NodeId} {error : LoomError}
    (hitems : reversibleItems platform nodes source ids = .error error) : error.NoCycle := by
  induction ids with
  | nil => cases hitems
  | cons id ids ih =>
      unfold reversibleItems at hitems
      split at hitems
      · exact ih hitems
      · next node _ =>
        split at hitems
        · exact ih hitems
        · cases hdescribe : node.describe platform with
          | error failed =>
              rw [hdescribe] at hitems
              cases hitems
              exact describe_noCycle hdescribe
          | ok description =>
              cases hrest : reversibleItems platform nodes source ids with
              | error failed =>
                  rw [hdescribe, hrest] at hitems
                  cases hitems
                  exact ih hrest
              | ok items =>
                  rw [hdescribe, hrest] at hitems
                  cases hitems

theorem staleWrites_fails (keys : List Key) : (staleWrites keys).Fails NoCycle := by
  induction keys with
  | nil => trivial
  | cons key keys ih => exact .bind (.ask key) fun _ => .bind ih fun _ => trivial

namespace Engine

variable {σ ρ : Type} {engine : Engine σ ρ} {lawful : engine.pager.Lawful} {loom : Loom σ ρ}
  {built : List DerivationNode} {source : SourceRef} {branch : BranchId} {depth : ℕ}

theorem nodesOn_raises (branch : BranchId) : Raises NoCycle (engine.nodesOn branch) :=
  .bind (head_raises branch) fun _ => .bind (reading_raises _ .entries) fun _ => .pure _

theorem seedsOn_raises (branch : BranchId) (source : SourceRef) :
    Raises NoCycle (engine.seedsOn branch source) :=
  .bind (head_raises branch) fun _ => .bind (reading_raises _ .entries) fun _ => .pure _

/-- A line of derivations, longer than a walk goes, leads down from a node of the branch
that cites the source. -/
def TooDeep (engine : Engine σ ρ) (loom : Loom σ ρ) (source : SourceRef) (branch : BranchId) :
    Prop :=
  ∃ nodes seeds line, (engine.nodesOn branch loom).1 = .ok nodes ∧
    (engine.seedsOn branch source loom).1 = .ok seeds ∧ Line nodes seeds line ∧
    MAX_DERIVATION_DEPTH + 1 < line.length

/-- If the error is a cycle, it is of the depth a walk goes to, and the branch is too deep. -/
def Reports (engine : Engine σ ρ) (loom : Loom σ ρ) (source : SourceRef) (branch : BranchId)
    (error : LoomError) : Prop :=
  ∀ depth, error = .derivationCycle depth →
    depth = MAX_DERIVATION_DEPTH ∧ TooDeep engine loom source branch

theorem Reports.of_noCycle {error : LoomError} (hnone : error.NoCycle) :
    Reports engine loom source branch error :=
  fun depth heq => absurd heq (hnone depth)

theorem reports_of_flood {nodes : NodeMap} {seeds : ExtTreeSet NodeId} {error : LoomError}
    (hnodes : (engine.nodesOn branch loom).1 = .ok nodes)
    (hseeds : (engine.seedsOn branch source loom).1 = .ok seeds)
    (hflood : floodDownstream nodes seeds = .error error) :
    Reports engine loom source branch error := by
  obtain ⟨rfl, line, hline, hlong⟩ := floodDownstream_eq_error hflood
  intro depth heq
  obtain rfl := LoomError.derivationCycle.inj heq
  exact ⟨rfl, nodes, seeds, line, hnodes, hseeds, hline, hlong⟩

/-- A walk of a branch, and what else does not report a cycle. -/
theorem reports_of_walk {α : Type} {next : NodeMap → ExtTreeSet NodeId → LoomM σ ρ α}
    (hnext : ∀ nodes found, Raises NoCycle (next nodes found)) {error : LoomError}
    (hraised : ((do
      let nodes ← engine.nodesOn branch
      let seeds ← engine.seedsOn branch source
      let found ← FallibleState.lift (floodDownstream nodes seeds)
      next nodes found) loom).1 = .error error) :
    Reports engine loom source branch error := by
  rcases hnodes : engine.nodesOn branch loom with ⟨failed | nodes, after⟩
  · rw [FallibleState.bind_eq, hnodes] at hraised
    obtain rfl := Except.error.inj hraised
    exact .of_noCycle (nodesOn_raises branch loom _ (by rw [hnodes]))
  obtain rfl := (nodesOn_moves branch).of_eq hnodes
  rcases hseeds : engine.seedsOn branch source loom with ⟨failed | seeds, after⟩
  · rw [FallibleState.bind_eq, hnodes] at hraised
    dsimp only at hraised
    rw [FallibleState.bind_eq, hseeds] at hraised
    obtain rfl := Except.error.inj hraised
    exact .of_noCycle (seedsOn_raises branch source loom _ (by rw [hseeds]))
  obtain rfl := (seedsOn_moves branch source).of_eq hseeds
  rw [FallibleState.bind_eq, hnodes] at hraised
  dsimp only at hraised
  rw [FallibleState.bind_eq, hseeds] at hraised
  dsimp only at hraised
  rw [FallibleState.bind_eq, FallibleState.lift_eq] at hraised
  cases hflood : floodDownstream nodes seeds with
  | error failed =>
      rw [hflood] at hraised
      obtain rfl := Except.error.inj hraised
      exact reports_of_flood (congrArg Prod.fst hnodes) (congrArg Prod.fst hseeds) hflood
  | ok found =>
      rw [hflood] at hraised
      exact .of_noCycle (hnext nodes found loom error hraised)

theorem contaminatedKeysOn_reports {error : LoomError}
    (hraised : (engine.contaminatedKeysOn branch source loom).1 = .error error) :
    Reports engine loom source branch error :=
  reports_of_walk (fun _ _ => .pure _) hraised

theorem staleClaims_reports {error : LoomError}
    (hraised : (engine.staleClaims branch source loom).1 = .error error) :
    Reports engine loom source branch error :=
  reports_of_walk (fun _ _ => .bind (head_raises branch) fun _ =>
    reading_raises _ (staleWrites_fails _)) hraised

/-- Marking reports what its walk does. -/
theorem markStale_reports (hstore : engine.store.NoCycle) {token : CapabilityToken}
    {envelope : WriteEnvelope} {error : LoomError}
    (hraised : (engine.markStale token branch source envelope loom).1 = .error error) :
    Reports engine loom source branch error := by
  rcases hclaims : engine.staleClaims branch source loom with ⟨failed | writes, after⟩
  · rw [markStale, FallibleState.bind_eq, hclaims] at hraised
    obtain rfl := Except.error.inj hraised
    exact staleClaims_reports (by rw [hclaims])
  · rw [markStale, FallibleState.bind_eq, hclaims] at hraised
    dsimp only at hraised
    split at hraised
    · cases hraised
    · exact .of_noCycle (Raises.map _ (writeAll_raises hstore token branch writes envelope ∅ ∅)
        after error hraised)

/-- Forgetting reports what its walk does. -/
theorem forget_reports (hstore : engine.store.NoCycle) {token : CapabilityToken}
    {envelope : WriteEnvelope} {error : LoomError}
    (hraised : (engine.forget token branch source envelope loom).1 = .error error) :
    Reports engine loom source branch error := by
  rcases hkeys : engine.contaminatedKeysOn branch source loom with ⟨failed | keys, after⟩
  · rw [forget, FallibleState.bind_eq, hkeys] at hraised
    obtain rfl := Except.error.inj hraised
    exact contaminatedKeysOn_reports (by rw [hkeys])
  · rw [forget, FallibleState.bind_eq, hkeys] at hraised
    exact .of_noCycle (Raises.bind (invalidateAndDeindex_raises hstore token branch keys envelope)
      (fun _ => .pure _) after error hraised)

/-- A taint reports what its walk of one of the branches does. -/
theorem taintBranches_reports {branches : List BranchId} {stats : TaintStats}
    {items : List ReversibleItem} {error : LoomError}
    (hraised : (engine.taintBranches source branches stats items loom).1 = .error error)
    (hcycle : error = .derivationCycle depth) :
    depth = MAX_DERIVATION_DEPTH ∧ ∃ branch ∈ branches, TooDeep engine loom source branch := by
  induction branches generalizing stats items with
  | nil => cases hraised
  | cons branch branches ih =>
      have hhere : Reports engine loom source branch error →
          depth = MAX_DERIVATION_DEPTH ∧
            ∃ other ∈ branch :: branches, TooDeep engine loom source other := by
        intro hreports
        obtain ⟨hdepth, hdeep⟩ := hreports depth hcycle
        exact ⟨hdepth, branch, List.mem_cons_self, hdeep⟩
      have hthere : ∀ {stats : TaintStats} {items : List ReversibleItem},
          (engine.taintBranches source branches stats items loom).1 = .error error →
          depth = MAX_DERIVATION_DEPTH ∧
            ∃ other ∈ branch :: branches, TooDeep engine loom source other := by
        intro stats items hraised
        obtain ⟨hdepth, other, hother, hdeep⟩ := ih hraised
        exact ⟨hdepth, other, List.mem_cons_of_mem _ hother, hdeep⟩
      rcases hnodes : engine.nodesOn branch loom with ⟨failed | nodes, after⟩
      · rw [taintBranches, FallibleState.bind_eq, hnodes] at hraised
        obtain rfl := Except.error.inj hraised
        exact hhere (.of_noCycle (nodesOn_raises branch loom _ (by rw [hnodes])))
      obtain rfl := (nodesOn_moves branch).of_eq hnodes
      rw [taintBranches, FallibleState.bind_eq, hnodes] at hraised
      dsimp only at hraised
      rcases hseeds : engine.seedsOn branch source loom with ⟨failed | seeds, after⟩
      · rw [FallibleState.bind_eq, hseeds] at hraised
        obtain rfl := Except.error.inj hraised
        exact hhere (.of_noCycle (seedsOn_raises branch source loom _ (by rw [hseeds])))
      obtain rfl := (seedsOn_moves branch source).of_eq hseeds
      rw [FallibleState.bind_eq, hseeds] at hraised
      dsimp only at hraised
      split at hraised
      · exact hthere hraised
      rw [FallibleState.bind_eq, FallibleState.lift_eq] at hraised
      cases hflood : floodDownstream nodes seeds with
      | error failed =>
          rw [hflood] at hraised
          obtain rfl := Except.error.inj hraised
          exact hhere (reports_of_flood (congrArg Prod.fst hnodes) (congrArg Prod.fst hseeds)
            hflood)
      | ok found =>
          rw [hflood] at hraised
          dsimp only at hraised
          rw [FallibleState.bind_eq, FallibleState.lift_eq] at hraised
          cases hitems : reversibleItems engine.platform nodes source found.toList with
          | error failed =>
              rw [hitems] at hraised
              obtain rfl := Except.error.inj hraised
              exact hhere (.of_noCycle (reversibleItems_noCycle hitems))
          | ok more =>
              rw [hitems] at hraised
              exact hthere hraised

theorem taint_reports {error : LoomError}
    (hraised : (engine.taint source loom).1 = .error error)
    (hcycle : error = .derivationCycle depth) :
    depth = MAX_DERIVATION_DEPTH ∧
      ∃ branch ∈ branchNames loom, TooDeep engine loom source branch := by
  rcases hbranches : engine.taintBranches source (branchNames loom)
    { branches := 0, nodesExamined := 0, contaminated := 0 } [] loom with ⟨failed | plan, after⟩
  · rw [taint, FallibleState.get_bind, FallibleState.bind_eq, hbranches] at hraised
    obtain rfl := Except.error.inj hraised
    exact taintBranches_reports (by rw [hbranches]) hcycle
  · rw [taint, FallibleState.get_bind, FallibleState.bind_eq, hbranches] at hraised
    cases hraised

/-! ## No false cycle -/

/-- The stored nodes form no cycle, and no walk reports one. -/
structure NoFalseCycle (lawful : engine.pager.Lawful) (loom : Loom σ ρ) : Prop where
  acyclic : ∀ id, ¬ Relation.TransGen (DerivesIn lawful loom.pager) id id
  taint : ∀ source depth, (engine.taint source loom).1 ≠ .error (.derivationCycle depth)
  markStale : ∀ token branch source envelope depth,
    (engine.markStale token branch source envelope loom).1 ≠ .error (.derivationCycle depth)
  forget : ∀ token branch source envelope depth,
    (engine.forget token branch source envelope loom).1 ≠ .error (.derivationCycle depth)

/-- A line of derivations between different nodes, longer than a walk goes, leads down
from a node of the branch that cites the source. -/
def LongDescent (engine : Engine σ ρ) (loom : Loom σ ρ) (source : SourceRef) (branch : BranchId) :
    Prop :=
  ∃ nodes seeds line, (engine.nodesOn branch loom).1 = .ok nodes ∧
    (engine.seedsOn branch source loom).1 = .ok seeds ∧ Line nodes seeds line ∧ line.Nodup ∧
    MAX_DERIVATION_DEPTH + 1 < line.length

theorem TooDeep.longDescent (hdeep : TooDeep engine loom source branch)
    (hsound : lawful.Sound loom.pager)
    (hacyclic : ∀ id, ¬ Relation.TransGen (DerivesIn lawful loom.pager) id id) :
    LongDescent engine loom source branch := by
  obtain ⟨nodes, seeds, line, hnodes, hseeds, hline, hlong⟩ := hdeep
  exact ⟨nodes, seeds, line, hnodes, hseeds, hline, nodup_of_line hsound hacyclic hnodes hline,
    hlong⟩

/-- Where callers hand in no nodes and no text foretells a name, the stored nodes form no
cycle, and a walk reports one only for a descent that is longer than it goes. -/
theorem acyclic_and_reports (hgrown : Grown lawful built loom)
    (hunforeseen : HashGraph.Unforeseen engine.platform.blake3 Mentions
      (built.map DerivationNode.text))
    (hstore : engine.store.NoCycle) :
    (∀ id, ¬ Relation.TransGen (DerivesIn lawful loom.pager) id id) ∧
      (∀ source depth, (engine.taint source loom).1 = .error (.derivationCycle depth) →
        ∃ branch ∈ branchNames loom, LongDescent engine loom source branch) ∧
      (∀ token branch source envelope depth,
        (engine.markStale token branch source envelope loom).1 = .error (.derivationCycle depth) →
          LongDescent engine loom source branch) ∧
      ∀ token branch source envelope depth,
        (engine.forget token branch source envelope loom).1 = .error (.derivationCycle depth) →
          LongDescent engine loom source branch := by
  have hacyclic := hgrown.acyclic hunforeseen
  have hsound := hgrown.reachable.sound
  refine ⟨hacyclic, fun source depth hraised => ?_, fun token branch source envelope depth hraised => ?_,
    fun token branch source envelope depth hraised => ?_⟩
  · obtain ⟨-, branch, hbranch, hdeep⟩ := taint_reports hraised rfl
    exact ⟨branch, hbranch, hdeep.longDescent hsound hacyclic⟩
  · exact (markStale_reports hstore hraised depth rfl).2.longDescent hsound hacyclic
  · exact (forget_reports hstore hraised depth rfl).2.longDescent hsound hacyclic

/-- Session `s` was opened. -/
def openedLoom : Loom MemPager (Option Refs) :=
  mixingEngine.after (.openSessionNamed (ascii "s")) memoryLoom

/-- It wrote the page. -/
def pageWritten : Loom MemPager (Option Refs) :=
  mixingEngine.after (.write (memoryToken [ascii "s"]) (ascii "s")
    [(ascii "k", .observation webPage)] ∅ (memoryEnvelope (ascii "s"))) openedLoom

/-- It read the page back. -/
def pageRead : Loom MemPager (Option Refs) :=
  mixingEngine.after (.read (memoryToken [ascii "s"]) (ascii "s") (ascii "k")) pageWritten

def pageNodes : List DerivationNode :=
  builtNodes mixingPlatform (ascii "s") 0 [(ascii "k", .observation webPage)]
    (memoryEnvelope (ascii "s")) (readSet (ascii "s") openedLoom) ∅

/-- The nodes of a record that is derived from the page. -/
def derivedNodes : List DerivationNode :=
  builtNodes mixingPlatform (ascii "s") 1 [(ascii "l", .value (.counter (I64.ofU64 0)))]
    (memoryEnvelope (ascii "s")) (readSet (ascii "s") pageRead) ∅

theorem derivedNodes_grown :
    Grown mixingLawful (derivedNodes.reverse ++ (pageNodes.reverse ++ []))
      (mixingEngine.after (envelopeWrite (ascii "s")) pageRead) := by
  have hands : ∀ {key : Key} {record : Record}, nodeAt key record = none →
      ∀ entry ∈ [(key, record)], nodeAt entry.1 entry.2 = none := by
    intro key record hnone entry hentry
    rwa [List.mem_singleton.mp hentry]
  have hsession : Grown mixingLawful [] openedLoom :=
    .called (.opened (inMemory_fresh rfl) mixingLoom_opened) trivial nofun
  have hpage : Grown mixingLawful (pageNodes.reverse ++ []) pageWritten :=
    hsession.built (hands (by decide))
      (.wrote (by decide +kernel) (show openedLoom.refs.branches[_]? = some 0 by decide +kernel))
  have hread : Grown mixingLawful (pageNodes.reverse ++ []) pageRead :=
    hpage.called trivial nofun
  exact hread.built (hands (by decide))
    (.wrote (by decide +kernel) (show pageRead.refs.branches[_]? = some 1 by decide +kernel))

/-- The page and a record derived from it. -/
theorem acyclic_and_reports_page :
    (derivedNodes.map fun node => node.derivedFrom) = [pageNodes.map fun node => node.id] ∧
      ∀ id, ¬ Relation.TransGen (DerivesIn mixingLawful
        (mixingEngine.after (envelopeWrite (ascii "s")) pageRead).pager) id id :=
  ⟨by decide +kernel,
    (acyclic_and_reports derivedNodes_grown (by decide +kernel) MemRefStore.noCycle).1⟩

/-- Stores in memory with wide pages. -/
def wideEngine : Engine MemPager (Option Refs) :=
  inMemory Platform.plain 1000000 MemRefStore [] (ascii "t")

def wideLawful : wideEngine.pager.Lawful :=
  MemPager.lawful 1000000

/-- A node derived from the one before it. -/
def chainNode (position : ℕ) : DerivationNode where
  id := Fin.ofNat (256 ^ 32) (position + 1)
  branch := []
  commit := 0
  key := []
  actor := []
  delegation := []
  intent := []
  derivedFrom := [Fin.ofNat (256 ^ 32) position]
  sources := []

/-- A chain of nodes, the first of which cites the page. -/
def chainRecords : List (Key × Record) :=
  (sourceIndexPrefix webPage.source, Record.blob (chainNode 0).id.asBytes) ::
    (List.range 66).map fun position =>
      (PROV_PREFIX ++ [Fin.ofNat 256 position], Record.blob (chainNode position).encode)

/-- The chain was written in one call. -/
def chainLoom : Loom MemPager (Option Refs) :=
  wideEngine.afterAll [.openSessionNamed (ascii "s"),
    .write (memoryToken [ascii "s"]) (ascii "s") chainRecords ∅ (memoryEnvelope (ascii "s"))]
    memoryLoom

theorem chainLoom_deep :
    (wideEngine.contaminatedKeysOn (ascii "s") webPage.source chainLoom).1 =
      .error (.derivationCycle 64) := by
  decide +kernel

/-- A forget fails as its walk does. -/
theorem forget_of_walk {error : LoomError} {token : CapabilityToken} {envelope : WriteEnvelope}
    (hwalk : (engine.contaminatedKeysOn branch source loom).1 = .error error) :
    (engine.forget token branch source envelope loom).1 = .error error := by
  rcases hkeys : engine.contaminatedKeysOn branch source loom with ⟨result, after⟩
  rw [hkeys] at hwalk
  obtain rfl : result = .error error := hwalk
  rw [forget, FallibleState.bind_eq, hkeys]

/-- A chain of 65 derivations, which is no cycle, is reported as one. -/
theorem chainLoom_reported :
    wideEngine.Reachable wideLawful chainLoom ∧ ¬ NoFalseCycle wideLawful chainLoom := by
  have hopened : wideEngine.assemble MemPager.empty none = .ok memoryLoom := rfl
  refine ⟨(Reachable.opened (inMemory_fresh rfl) hopened).afterAll _, fun hnone => ?_⟩
  exact hnone.forget (memoryToken [ascii "s"]) (ascii "s") webPage.source
    (memoryEnvelope (ascii "s")) 64 (forget_of_walk chainLoom_deep)

end Engine

end LoomDB
