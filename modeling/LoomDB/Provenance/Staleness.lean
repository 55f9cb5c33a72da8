import LoomDB.Branch.Calls
import LoomDB.Provenance.TaintSpec

/-!
# Staleness

What rests on a source is marked stale, claim by claim, in one write. Only what still
stands is marked; what was observed stays observed.
-/

namespace LoomDB

open Std (ExtTreeMap ExtTreeSet)
open KeyValue (ask)
open FallibleState (Moves)

/-- The write that marks a claim stale, if the record is one that stands. -/
def staleWrite (key : Key) : Option Record → List (Key × Record)
  | some (.claim claim) =>
      if claim.status = .asserted then [(key, .claim { claim with status := .stale })] else []
  | _ => []

/-- The writes for the keys, in order. -/
def staleWrites : List Key → RecordProgram (List (Key × Record))
  | [] => pure []
  | key :: keys => do
      let found ← ask key
      let more ← staleWrites keys
      return staleWrite key found ++ more

namespace Engine

variable {σ ρ : Type}

section Model

variable (engine : Engine σ ρ)

/-- The claims downstream of a source that still stand, as they are to be written. -/
def staleClaims (branch : BranchId) (source : SourceRef) : LoomM σ ρ (List (Key × Record)) := do
  let nodes ← engine.nodesOn branch
  let seeds ← engine.seedsOn branch source
  let contaminated ← FallibleState.lift (floodDownstream nodes seeds)
  let commit ← head branch
  let found := contaminated.toList.filterMap fun id => nodes[id]?
  engine.reading commit
    (staleWrites ((found.filter fun node => !isProvenance node.key).map DerivationNode.key))

/-- Mark everything downstream of a source as stale. -/
def markStale (token : CapabilityToken) (branch : BranchId) (source : SourceRef)
    (envelope : WriteEnvelope) : LoomM σ ρ (List Key) := do
  let writes ← engine.staleClaims branch source
  if writes = [] then return []
  else (fun _ => writes.map Prod.fst) <$> engine.writeMany token branch writes envelope

end Model

variable {engine : Engine σ ρ} {lawful : engine.pager.Lawful} {loom loom' : Loom σ ρ}

theorem staleClaims_moves (branch : BranchId) (source : SourceRef) :
    Moves Eq (engine.staleClaims branch source) :=
  .bind (nodesOn_moves branch) fun _ => .bind (seedsOn_moves branch source) fun _ =>
    .bind (.lift _) fun _ => .bind (head_moves branch) fun _ => reading_moves _ _

/-- Marking leaves the database as it is, or as a write of stale claims leaves it. -/
theorem snd_markStale (token : CapabilityToken) (branch : BranchId) (source : SourceRef)
    (envelope : WriteEnvelope) (loom : Loom σ ρ) :
    (engine.markStale token branch source envelope loom).2 = loom ∨
      ∃ writes, (engine.staleClaims branch source loom).1 = .ok writes ∧
        (engine.markStale token branch source envelope loom).2 =
          engine.after (.write token branch writes ∅ envelope) loom := by
  rcases hclaims : engine.staleClaims branch source loom with ⟨error | writes, after⟩
  · obtain rfl := (staleClaims_moves branch source).of_eq hclaims
    refine Or.inl ?_
    rw [markStale, FallibleState.bind_eq, hclaims]
  · obtain rfl := (staleClaims_moves branch source).of_eq hclaims
    by_cases hnone : writes = []
    · refine Or.inl ?_
      rw [markStale, FallibleState.bind_eq, hclaims]
      simp only [hnone, if_true]
      rfl
    · refine Or.inr ⟨writes, rfl, ?_⟩
      rw [markStale, FallibleState.bind_eq, hclaims, after, call, FallibleState.snd_map]
      simp only [hnone, if_false]
      exact FallibleState.snd_map _ _ _

/-- Marking that succeeds marks nothing, or puts a write of what it marks on the branch. -/
theorem markStale_eq_ok {token : CapabilityToken} {branch : BranchId} {source : SourceRef}
    {envelope : WriteEnvelope} {marked : List Key} (hsound : lawful.Sound loom.pager)
    (hmarked : (engine.markStale token branch source envelope loom).1 = .ok marked) :
    ∃ writes, (engine.staleClaims branch source loom).1 = .ok writes ∧
      marked = writes.map Prod.fst ∧
      (writes = [] ∧ (engine.markStale token branch source envelope loom).2 = loom ∨
        ∃ base commit map map', Advanced lawful
          (writeProgram engine.platform branch base writes envelope
            (readSet envelope.session loom) ∅ ∅) branch base commit () map map' (.ok ()) loom
          (engine.markStale token branch source envelope loom).2) := by
  rcases hresult : engine.markStale token branch source envelope loom with ⟨result, loom'⟩
  rw [hresult] at hmarked
  obtain rfl : result = .ok marked := hmarked
  rw [markStale, FallibleState.bind_eq_ok] at hresult
  obtain ⟨writes, _, hclaims, hresult⟩ := hresult
  obtain rfl := (staleClaims_moves branch source).of_eq hclaims
  refine ⟨writes, congrArg Prod.fst hclaims, ?_⟩
  split at hresult
  · next hnone =>
    obtain ⟨rfl, rfl⟩ := FallibleState.pure_eq_ok.mp hresult
    exact ⟨by rw [hnone]; rfl, Or.inl ⟨hnone, rfl⟩⟩
  · rw [FallibleState.map_eq] at hresult
    rcases hwrite : engine.writeAll token branch writes envelope ∅ ∅ loom with ⟨written, last⟩
    rw [show engine.writeMany token branch writes envelope loom = (written, last) from hwrite]
      at hresult
    obtain ⟨hwritten, rfl⟩ := Prod.mk.inj hresult
    cases written with
    | error error => cases hwritten
    | ok commit =>
        refine ⟨(Except.ok.inj hwritten).symm, ?_⟩
        have hstep := write_step hsound hwrite
        generalize houtcome : (Except.ok commit : Except LoomError CommitId).map Answer.commit =
          outcome at hstep
        cases hstep with
        | asked hasks => cases hasks
        | refused _ => cases houtcome
        | opened hopens => rcases hopens with hopens | hopens <;> cases hopens
        | @wrote _ _ _ _ _ base commit map map' persisted _ _ hadvanced =>
            cases persisted with
            | error error => cases houtcome
            | ok done => exact Or.inr ⟨base, commit, map, map', hadvanced⟩

theorem staleWrites_onMap (keys : List Key) (map : RecordMap) :
    (staleWrites keys).onMap map =
      .ok (keys.flatMap fun key => staleWrite key map[key]?, map) := by
  induction keys with
  | nil => rfl
  | cons key keys ih =>
      rw [staleWrites, KeyValue.onMap_ask_bind]
      exact KeyValue.onMap_bind_eq_ok.mpr ⟨_, _, ih, rfl⟩

theorem mem_staleWrite {key key' : Key} {found : Option Record} {record : Record} :
    (key', record) ∈ staleWrite key found ↔ key' = key ∧
      ∃ claim, found = some (.claim claim) ∧ claim.status = .asserted ∧
        record = .claim { claim with status := .stale } := by
  unfold staleWrite
  split
  · next claim =>
    split
    · next hasserted =>
      constructor
      · rintro hmem
        obtain ⟨rfl, rfl⟩ := Prod.mk.inj (List.mem_singleton.mp hmem)
        exact ⟨rfl, claim, rfl, hasserted, rfl⟩
      · rintro ⟨rfl, claim', heq, -, rfl⟩
        obtain rfl := Record.claim.inj (Option.some.inj heq)
        exact List.mem_singleton_self _
    · next hother =>
      refine iff_of_false List.not_mem_nil ?_
      rintro ⟨-, claim', heq, hasserted, -⟩
      obtain rfl := Record.claim.inj (Option.some.inj heq)
      exact hother hasserted
  · next hnone =>
    refine iff_of_false List.not_mem_nil ?_
    rintro ⟨-, claim, heq, -⟩
    exact hnone claim heq

/-- The writes are those for the keys of what a flood of the branch finds. -/
theorem staleClaims_eq_ok {branch : BranchId} {source : SourceRef} {writes : List (Key × Record)}
    (hsound : lawful.Sound loom.pager)
    (hclaims : (engine.staleClaims branch source loom).1 = .ok writes) :
    ∃ map nodes seeds contaminated, Shows lawful loom branch map ∧
      (engine.nodesOn branch loom).1 = .ok nodes ∧
      (engine.seedsOn branch source loom).1 = .ok seeds ∧
      floodDownstream nodes seeds = .ok contaminated ∧
      writes = (((contaminated.toList.filterMap fun id => nodes[id]?).filter fun node =>
        !isProvenance node.key).map DerivationNode.key).flatMap fun key =>
          staleWrite key map[key]? := by
  rcases hresult : engine.staleClaims branch source loom with ⟨result, after⟩
  rw [hresult] at hclaims
  obtain rfl : result = .ok writes := hclaims
  rw [staleClaims, FallibleState.bind_eq_ok] at hresult
  obtain ⟨nodes, _, hnodes, hresult⟩ := hresult
  obtain rfl := (nodesOn_moves branch).of_eq hnodes
  rw [FallibleState.bind_eq_ok] at hresult
  obtain ⟨seeds, _, hseeds, hresult⟩ := hresult
  obtain rfl := (seedsOn_moves branch source).of_eq hseeds
  obtain ⟨found, hflood, hrest⟩ := FallibleState.lift_bind_eq_ok.mp hresult
  rw [FallibleState.bind_eq_ok] at hrest
  obtain ⟨commit, _, hhead, hreading⟩ := hrest
  obtain ⟨hhead, rfl⟩ := head_eq_ok.mp hhead
  obtain ⟨-, map, _, hstores, hran⟩ := reading_spec hsound hreading
  rw [staleWrites_onMap] at hran
  obtain ⟨rfl, -⟩ := Prod.mk.inj (Except.ok.inj hran)
  exact ⟨map, nodes, seeds, found, ⟨commit, hhead, hstores⟩, congrArg Prod.fst hnodes,
    congrArg Prod.fst hseeds, hflood, rfl⟩

/-- Each write marks a standing claim downstream of the source, at its key. -/
theorem mem_staleClaims {branch : BranchId} {source : SourceRef} {writes : List (Key × Record)}
    (hsound : lawful.Sound loom.pager) {map : RecordMap} (hshows : Shows lawful loom branch map)
    (hclaims : (engine.staleClaims branch source loom).1 = .ok writes) {key : Key}
    {record : Record} :
    (key, record) ∈ writes ↔ ContaminatedOn engine loom source branch key ∧
      ∃ claim, map[key]? = some (.claim claim) ∧ claim.status = .asserted ∧
        record = .claim { claim with status := .stale } := by
  obtain ⟨map', nodes, seeds, found, hshows', hnodes, hseeds, hflood, rfl⟩ :=
    staleClaims_eq_ok hsound hclaims
  obtain rfl := hshows.unique hshows'
  rw [List.mem_flatMap]
  simp only [mem_staleWrite, ← mem_keys_of_flood hnodes hseeds hflood]
  constructor
  · rintro ⟨_, hkey, rfl, hclaim⟩
    exact ⟨hkey, hclaim⟩
  · rintro ⟨hkey, hclaim⟩
    exact ⟨key, hkey, rfl, hclaim⟩

/-! ## A claim that rests on a page -/

/-- The page that the claim rests on. -/
def claimPage : SourceRef :=
  { system := ascii "web", recordId := ascii "1" }

/-- What the page says, known from the first instant on. -/
def pageClaim : Claim where
  id := 0
  predicate := ascii "p"
  subject := ascii "s"
  object := .bool true
  valid := { start := none, stop := none }
  known := { start := some 1, stop := none }
  confidence := { value := ⟨0⟩, method := .rule, calibration := [] }
  evidence := []
  status := .asserted
  policy := none
  actor := ascii "a"

def pageEnvelope : WriteEnvelope :=
  { memoryEnvelope MAIN with derivedFrom := [claimPage] }

/-- A database with the claim under the key `k`. -/
def toldLoom : Loom MemPager (Option Refs) :=
  memoryEngine.after (.write (memoryToken [MAIN]) MAIN [(ascii "k", .claim pageClaim)] ∅ pageEnvelope)
    memoryLoom

end Engine

end LoomDB
