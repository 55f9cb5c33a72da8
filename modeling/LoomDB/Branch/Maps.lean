import LoomDB.Branch.Durability

/-!
# The maps of the commits

A call makes at most one commit, from the map of a branch's head. What holds of the
empty map, and of every map that a call makes from one that it holds of, holds of every
commit of a reachable database.
-/

namespace LoomDB

open Std (ExtTreeMap ExtTreeSet)

namespace Substrate.Lawful

variable {σ α : Type} {pager : Substrate σ} {lawful : pager.Lawful} {before after : σ}
  {P : RecordMap → Prop}

/-- The map of every commit has the property. -/
def AllMaps (lawful : pager.Lawful) (P : RecordMap → Prop) (state : σ) : Prop :=
  ∀ commit map, lawful.Stores state commit map → P map

theorem Same.stores {commit : CommitId} {map : RecordMap} (hsame : lawful.Same before after)
    (hstores : lawful.Stores after commit map) : lawful.Stores before commit map := by
  obtain ⟨pages, hpages, hstored⟩ := hstores
  exact ⟨pages, hsame.pages ▸ hpages, hstored⟩

theorem AllMaps.of_same (hall : lawful.AllMaps P before) (hsame : lawful.Same before after) :
    lawful.AllMaps P after :=
  fun commit map hstores => hall commit map (hsame.stores hstores)

end Substrate.Lawful

namespace Engine

variable {σ ρ α : Type} {engine : Engine σ ρ} {lawful : engine.pager.Lawful}
  {loom loom' : Loom σ ρ} {P : RecordMap → Prop}

theorem AllMaps.of_transacted {program : RecordProgram α} {base commit : CommitId} {result : α}
    {before after : σ} {map map' : RecordMap} (hall : lawful.AllMaps P before)
    (htransacted : Transacted lawful program base result commit before after map map')
    (hmap : P map') : lawful.AllMaps P after := by
  intro other found hstores
  by_cases hother : other = commit
  · rw [hother] at hstores
    exact hstores.unique htransacted.stores ▸ hmap
  · obtain ⟨pages, hpages, hstored⟩ := hstores
    exact hall other found ⟨pages, htransacted.others other hother ▸ hpages, hstored⟩

/-- How a call makes a map from the map of a branch's head. -/
inductive Makes (engine : Engine σ ρ) (loom : Loom σ ρ) :
    Call → BranchId → RecordMap → RecordMap → Prop
  | wrote {token : CapabilityToken} {branch : BranchId} {records : List (Key × Record)}
      {hints : ExtTreeMap Key IndexHint} {envelope : WriteEnvelope} {base : CommitId}
      {map map' : RecordMap} (head : loom.refs.branches[branch]? = some base)
      (admitted : writeAdmits engine loom token branch envelope = .ok ())
      (ran : (writeProgram engine.platform branch base records envelope
        (readSet envelope.session loom) ∅ hints).onMap map = .ok ((), map')) :
      Makes engine loom (.write token branch records hints envelope) branch map map'
  | forgot {token : CapabilityToken} {branch : BranchId} {keys : List Key}
      {envelope : WriteEnvelope} {counts : ℕ × ℕ} {map map' : RecordMap}
      (admitted : writeAdmits engine loom token branch envelope = .ok ())
      (ran : (forgetKeys keys).onMap map = .ok (counts, map')) :
      Makes engine loom (.invalidate token branch keys envelope) branch map map'
  | kept {token : CapabilityToken} {branch : BranchId} {upkeep : IndexUpkeep}
      {map map' : RecordMap} (admitted : admits engine loom token branch = .ok ())
      (ran : upkeep.val.onMap map = .ok ((), map')) :
      Makes engine loom (.maintain token branch upkeep) branch map map'
  | merged {token : CapabilityToken} {source target : BranchId} {policy : MergePolicy}
      {envelope : WriteEnvelope} {forbids : Key → Record → Option Bytes}
      {sourceHead targetHead base : CommitId} {writes : List (Key × Record)} {automatic : ℕ}
      {parents : ExtTreeMap Key (List NodeId)} {map map' : RecordMap}
      (ready : MergeReady engine loom token source target policy envelope forbids sourceHead
        targetHead base writes automatic parents)
      (ran : (writeProgram engine.platform target targetHead
        (writes ++ [(mergedFromKey source, Record.blob sourceHead.asBytes)]) envelope
        (readSet envelope.session loom) parents ∅).onMap map = .ok ((), map')) :
      Makes engine loom (.merge token source target policy envelope forbids) target map map'

/-- A call keeps a property of the maps if the map it makes, from one that has the
property, has it. -/
theorem AllMaps.after {call : Call} (hsound : lawful.Sound loom.pager)
    (hall : lawful.AllMaps P loom.pager)
    (hmakes : ∀ {branch : BranchId} {map map' : RecordMap}, Shows lawful loom branch map →
      Makes engine loom call branch map map' → P map → P map') :
    lawful.AllMaps P (engine.after call loom).pager := by
  have hadvances : ∀ {α : Type} {program : RecordProgram α} {branch : BranchId}
      {base commit : CommitId} {result : α} {map map' : RecordMap}
      {persisted : Except LoomError Unit} {after : Loom σ ρ},
      Advanced lawful program branch base commit result map map' persisted loom after →
      Makes engine loom call branch map map' → lawful.AllMaps P after.pager := by
    intro _ program branch base commit result map map' persisted after hadvanced hmade
    have hmap := hmakes ⟨base, hadvanced.head, hadvanced.transacted.stored⟩ hmade
      (hall base map hadvanced.transacted.stored)
    exact AllMaps.of_transacted hall hadvanced.transacted hmap
  rcases houtcome : engine.call call loom with ⟨outcome, after⟩
  have hafter : engine.after call loom = after := congrArg Prod.snd houtcome
  rw [hafter]
  cases call_step hsound houtcome with
  | asked _ hstill => exact hall.of_same hstill.unmoved.pager
  | refused hunmoved => exact hall.of_same hunmoved.pager
  | opened _ _ _ hpager _ => rw [hpager]; exact hall
  | branched _ _ _ hpager _ => rw [hpager]; exact hall
  | rewound _ _ hpager _ => rw [hpager]; exact hall
  | wrote hadmits hadvanced =>
      exact hadvances hadvanced (.wrote hadvanced.head hadmits hadvanced.transacted.ran)
  | forgot hadmits hadvanced =>
      exact hadvances hadvanced (.forgot hadmits hadvanced.transacted.ran)
  | kept hadmits hadvanced => exact hadvances hadvanced (.kept hadmits hadvanced.transacted.ran)
  | stopped hstill _ _ => exact hall.of_same hstill.unmoved.pager
  | halted hready hadvanced =>
      exact hadvances hadvanced (.merged hready hadvanced.transacted.ran)
  | merged hready hadvanced hpager _ =>
      rw [hpager]
      exact hadvances hadvanced (.merged hready hadvanced.transacted.ran)

/-- A new database has nothing but the empty map. -/
theorem AllMaps.opened {pager : σ} {store : ρ} (hfresh : engine.Fresh lawful pager store)
    (hopened : engine.assemble pager store = .ok loom) (hempty : P ∅) :
    lawful.AllMaps P loom.pager := by
  obtain ⟨hload, hpager, -⟩ := assemble_eq_ok hopened
  rcases loadRefs_eq_ok hload with ⟨hstored, -⟩ | ⟨root, -, hroot, -⟩
  · rw [hfresh.refs] at hstored
    cases hstored
  · rintro commit map ⟨pages, hpages, hstored⟩
    rw [hpager] at hpages
    obtain rfl := hfresh.root hroot commit pages hpages
    obtain rfl := Option.some.inj (hpages.symm.trans (lawful.root_eq_ok hroot).1)
    exact hstored.unique (Tree.stored_empty _) ▸ hempty

theorem AllMaps.reopened (hall : lawful.AllMaps P loom.pager)
    (hopened : engine.assemble loom.pager loom.store = .ok loom') :
    lawful.AllMaps P loom'.pager := by
  obtain ⟨-, hpager, -⟩ := assemble_eq_ok hopened
  rwa [hpager]

/-- What every call hands on from map to map holds of every commit of a reachable
database. -/
theorem Reachable.allMaps (hempty : P ∅)
    (hmakes : ∀ {loom : Loom σ ρ} {call : Call} {branch : BranchId} {map map' : RecordMap},
      engine.Reachable lawful loom → Shows lawful loom branch map →
      Makes engine loom call branch map map' → P map → P map')
    (hreachable : engine.Reachable lawful loom) : lawful.AllMaps P loom.pager := by
  induction hreachable with
  | opened hfresh hopened => exact AllMaps.opened hfresh hopened hempty
  | called hreachable call ih =>
      exact AllMaps.after hreachable.sound ih fun hshows hmade => hmakes hreachable hshows hmade
  | reopened _ hopened ih => exact AllMaps.reopened ih hopened

end Engine

end LoomDB
