import LoomDB.Branch.Containment
import LoomDB.Branch.IndexSpec
import LoomDB.Provenance.Staleness

/-!
# Marking once

What rests on a source is found node by node, and a key has a node for each time it was
written. So a claim is marked once for each of its contaminated nodes, the ones that were
overwritten included: the keys marked are those to be marked, each once, if the only
contaminated node of a standing claim is the latest one of its key.
-/

namespace LoomDB

open Std (ExtTreeMap ExtTreeSet)

/-- The node stands for a claim that is asserted still, under the key. -/
def StandsFor (nodes : NodeMap) (map : RecordMap) (id : NodeId) (key : Key) : Prop :=
  ∃ node claim, nodes[id]? = some node ∧ isProvenance node.key = false ∧ node.key = key ∧
    map[key]? = some (.claim claim) ∧ claim.status = .asserted

/-- The key that a node gets marked. -/
def keyToMark (nodes : NodeMap) (map : RecordMap) (id : NodeId) : List Key :=
  match nodes[id]? with
  | some node => if isProvenance node.key then [] else (staleWrite node.key map[node.key]?).map Prod.fst
  | none => []

section Nodes

variable {nodes : NodeMap} {map : RecordMap} {id : NodeId} {key : Key}

theorem staleWrite_cases (key : Key) (found : Option Record) :
    staleWrite key found = [] ∨ ∃ record, staleWrite key found = [(key, record)] := by
  unfold staleWrite
  split
  · split
    · exact Or.inr ⟨_, rfl⟩
    · exact Or.inl rfl
  · exact Or.inl rfl

theorem mem_keyToMark : key ∈ keyToMark nodes map id ↔ StandsFor nodes map id key := by
  unfold keyToMark StandsFor
  cases hnode : nodes[id]? with
  | none => simp
  | some node =>
      dsimp only
      by_cases hprovenance : isProvenance node.key = true
      · rw [if_pos hprovenance]
        refine iff_of_false List.not_mem_nil ?_
        rintro ⟨_, claim, hsame, hcaller, -⟩
        cases hsame
        rw [hprovenance] at hcaller
        cases hcaller
      · rw [if_neg hprovenance, List.mem_map]
        constructor
        · rintro ⟨⟨_, record⟩, hmem, rfl⟩
          obtain ⟨rfl, claim, hclaim, hasserted, -⟩  := Engine.mem_staleWrite.mp hmem
          exact ⟨node, claim, rfl, (Bool.not_eq_true _).mp hprovenance, rfl, hclaim, hasserted⟩
        · rintro ⟨_, claim, hsame, -, rfl, hclaim, hasserted⟩
          cases hsame
          exact ⟨_, Engine.mem_staleWrite.mpr ⟨rfl, claim, hclaim, hasserted, rfl⟩, rfl⟩

theorem nodup_keyToMark (nodes : NodeMap) (map : RecordMap) (id : NodeId) :
    (keyToMark nodes map id).Nodup := by
  unfold keyToMark
  split
  · split
    · exact List.nodup_nil
    · next node _ _ =>
      rcases staleWrite_cases node.key map[node.key]? with hnone | ⟨record, hone⟩
      · rw [hnone]
        exact List.nodup_nil
      · rw [hone]
        exact List.nodup_singleton _
  · exact List.nodup_nil

/-- The keys that get marked, node by node. -/
theorem map_staleWrites (nodes : NodeMap) (map : RecordMap) (ids : List NodeId) :
    ((((ids.filterMap fun id => nodes[id]?).filter fun node =>
      !isProvenance node.key).map DerivationNode.key).flatMap fun key =>
        staleWrite key map[key]?).map Prod.fst = ids.flatMap (keyToMark nodes map) := by
  induction ids with
  | nil => rfl
  | cons id ids ih =>
      rw [List.flatMap_cons, ← ih, keyToMark]
      cases hnode : nodes[id]? with
      | none => rw [List.filterMap_cons_none hnode, List.nil_append]
      | some node =>
          rw [List.filterMap_cons_some hnode, List.filter_cons]
          by_cases hprovenance : isProvenance node.key = true
          · simp [hprovenance]
          · simp [hprovenance]

/-- Each key is there once if no two nodes stand for the same key. -/
theorem nodup_keysToMark {ids : List NodeId} (hids : ids.Nodup) :
    (ids.flatMap (keyToMark nodes map)).Nodup ↔ ∀ id ∈ ids, ∀ other ∈ ids, ∀ key,
      StandsFor nodes map id key → StandsFor nodes map other key → id = other := by
  rw [List.nodup_flatMap]
  constructor
  · rintro ⟨-, hdisjoint⟩ id hid other hother key hkey hkey'
    by_contra hne
    have hsymm : Std.Symm (Function.onFun List.Disjoint (keyToMark nodes map)) :=
      ⟨fun _ _ h => h.symm⟩
    exact hdisjoint.forall hid hother hne (mem_keyToMark.mpr hkey) (mem_keyToMark.mpr hkey')
  · intro hunique
    refine ⟨fun id _ => nodup_keyToMark nodes map id, hids.pairwise_of_forall_ne ?_⟩
    intro id hid other hother hne key hkey hkey'
    exact hne (hunique id hid other hother key (mem_keyToMark.mp hkey) (mem_keyToMark.mp hkey'))

end Nodes

namespace Engine

variable {σ ρ : Type} {engine : Engine σ ρ} {lawful : engine.pager.Lawful} {loom loom' : Loom σ ρ}
  {branch : BranchId} {source : SourceRef} {map : RecordMap}

/-- A node that is downstream of the source on the branch stands for the key. -/
def RestsOn (engine : Engine σ ρ) (loom : Loom σ ρ) (branch : BranchId) (source : SourceRef)
    (map : RecordMap) (id : NodeId) (key : Key) : Prop :=
  ∃ nodes seeds, (engine.nodesOn branch loom).1 = .ok nodes ∧
    (engine.seedsOn branch source loom).1 = .ok seeds ∧ Downstream nodes seeds id ∧
    StandsFor nodes map id key

/-- The keys that are marked are those of standing claims whose latest node is downstream of the
source, each once; their claims are stale after it, and the other keys of the caller keep their
records. -/
structure MarksExactly (engine : Engine σ ρ) (loom : Loom σ ρ) (branch : BranchId)
    (source : SourceRef) (map map' : RecordMap) (marked : List Key) : Prop where
  once : marked.Nodup
  mem : ∀ key, key ∈ marked ↔
    ∃ id, RestsOn engine loom branch source map id key ∧ LatestNode map key id
  stale : ∀ key ∈ marked, isCaller key = true → ∃ claim, map[key]? = some (.claim claim) ∧
    map'[key]? = some (.claim { claim with status := .stale })
  kept : ∀ key, key ∉ marked → isCaller key = true → map'[key]? = map[key]?

/-- What was marked, node by node. -/
theorem marked_of_staleClaims {writes : List (Key × Record)} (hsound : lawful.Sound loom.pager)
    (hshows : Shows lawful loom branch map)
    (hclaims : (engine.staleClaims branch source loom).1 = .ok writes) :
    (∀ key, key ∈ writes.map Prod.fst ↔ ∃ id, RestsOn engine loom branch source map id key) ∧
      ((writes.map Prod.fst).Nodup ↔ ∀ id other key, RestsOn engine loom branch source map id key →
        RestsOn engine loom branch source map other key → id = other) := by
  obtain ⟨map', nodes, seeds, found, hshows', hnodes, hseeds, hflood, rfl⟩ :=
    staleClaims_eq_ok hsound hclaims
  obtain rfl := hshows.unique hshows'
  have hrests : ∀ id key, RestsOn engine loom branch source map id key ↔
      id ∈ found.toList ∧ StandsFor nodes map id key := by
    intro id key
    rw [ExtTreeSet.mem_toList, mem_floodDownstream hflood]
    constructor
    · rintro ⟨nodes', seeds', hnodes', hseeds', hdownstream, hstands⟩
      obtain rfl := Except.ok.inj (hnodes.symm.trans hnodes')
      obtain rfl := Except.ok.inj (hseeds.symm.trans hseeds')
      exact ⟨hdownstream, hstands⟩
    · rintro ⟨hdownstream, hstands⟩
      exact ⟨nodes, seeds, hnodes, hseeds, hdownstream, hstands⟩
  rw [map_staleWrites]
  constructor
  · intro key
    rw [List.mem_flatMap]
    exact exists_congr fun id => by rw [hrests, mem_keyToMark]
  · rw [nodup_keysToMark (OrderedSet.nodup_toList _)]
    simp only [hrests]
    constructor
    · intro hunique id other key hid hother
      exact hunique id hid.1 other hother.1 key hid.2 hother.2
    · intro hunique id hid other hother key hkey hkey'
      exact hunique id other key ⟨hid, hkey⟩ ⟨hother, hkey'⟩

/-- Marking that succeeds finds the branch with its map and leaves another one there, in which
what it returned is stale. -/
theorem exists_shows_markStale {token : CapabilityToken} {envelope : WriteEnvelope}
    {marked : List Key} (hsound : lawful.Sound loom.pager)
    (hmarked : (engine.markStale token branch source envelope loom).1 = .ok marked)
    (hshows : Shows lawful loom branch map) :
    ∃ writes map', (engine.staleClaims branch source loom).1 = .ok writes ∧
      marked = writes.map Prod.fst ∧
      Shows lawful (engine.markStale token branch source envelope loom).2 branch map' ∧
      ∀ key, isCaller key = true → map'[key]? = (lastRecord writes key).or map[key]? := by
  obtain ⟨writes, hclaims, hkeys, hends⟩ := markStale_eq_ok hsound hmarked
  rcases hends with ⟨rfl, hsame⟩ | ⟨base, commit, before, map', hadvanced⟩
  · exact ⟨[], map, hclaims, hkeys, hsame.symm ▸ hshows, fun _ _ => rfl⟩
  · rcases hadvanced.shows hshows with ⟨hother, -⟩ | ⟨-, rfl, hshows'⟩
    · exact absurd rfl hother
    · exact ⟨writes, map', hclaims, hkeys, hshows', fun key hcaller =>
        writeProgram_record hadvanced.transacted.ran hcaller⟩

/-- The keys of standing claims downstream of a source are marked, each once, exactly if each node
that such a claim rests on is the latest of its key. -/
theorem markStale_exact_iff {token : CapabilityToken} {envelope : WriteEnvelope}
    {marked : List Key} (hreachable : Reachable engine lawful loom)
    (hmarked : (engine.markStale token branch source envelope loom).1 = .ok marked) :
    ∃ map map', Shows lawful loom branch map ∧
      Shows lawful (engine.markStale token branch source envelope loom).2 branch map' ∧
      (MarksExactly engine loom branch source map map' marked ↔
        ∀ id key, RestsOn engine loom branch source map id key → LatestNode map key id) := by
  have hsound := hreachable.sound
  obtain ⟨map, hshows⟩ : ∃ map, Shows lawful loom branch map := by
    obtain ⟨writes, hclaims, -⟩ := markStale_eq_ok hsound hmarked
    obtain ⟨map, -, -, -, hshows, -⟩ := staleClaims_eq_ok hsound hclaims
    exact ⟨map, hshows⟩
  obtain ⟨writes, map', hclaims, rfl, hshows', hrecords⟩ :=
    exists_shows_markStale hsound hmarked hshows
  obtain ⟨hmem, hnodup⟩ := marked_of_staleClaims hsound hshows hclaims
  refine ⟨map, map', hshows, hshows', ?_⟩
  constructor
  · intro hexact id key hrests
    obtain ⟨latest, hlatest, hlast⟩ := (hexact.mem key).mp ((hmem key).mpr ⟨id, hrests⟩)
    obtain rfl := hnodup.mp hexact.once id latest key hrests hlatest
    exact hlast
  · intro hlatest
    refine ⟨hnodup.mpr fun id other key hid hother => ?_, fun key => ?_, fun key hkey hcaller => ?_,
      fun key hkey hcaller => ?_⟩
    · exact Option.some.inj ((hlatest id key hid).symm.trans (hlatest other key hother))
    · rw [hmem]
      exact exists_congr fun id => ⟨fun hrests => ⟨hrests, hlatest id key hrests⟩, And.left⟩
    · obtain ⟨⟨_, record⟩, hentry, rfl⟩ := List.mem_map.mp hkey
      obtain ⟨last, hlast⟩ := lastRecord_isSome hentry
      obtain ⟨-, claim, hclaim, -, rfl⟩ :=
        (mem_staleClaims hsound hshows hclaims).mp (mem_of_lastRecord hlast)
      refine ⟨claim, hclaim, ?_⟩
      rw [hrecords _ hcaller, hlast]
      rfl
    · rw [hrecords key hcaller]
      cases hlast : lastRecord writes key with
      | none => rfl
      | some last => exact absurd (List.mem_map_of_mem (mem_of_lastRecord hlast)) hkey

/-- What marking the page returns. -/
def markedKeys (loom : Loom MemPager (Option Refs)) : Except LoomError (List Key) :=
  (memoryEngine.markStale (memoryToken [MAIN]) MAIN claimPage pageEnvelope loom).1

theorem toldLoom_reachable : memoryEngine.Reachable memoryLawful toldLoom :=
  memoryLoom_reachable.called _

theorem markStale_exact_page :
    markedKeys toldLoom = .ok [ascii "k"] ∧
      ∃ map map', Shows memoryLawful toldLoom MAIN map ∧
        Shows memoryLawful (memoryEngine.markStale (memoryToken [MAIN]) MAIN claimPage pageEnvelope
          toldLoom).2 MAIN map' ∧
        (MarksExactly memoryEngine toldLoom MAIN claimPage map map' [ascii "k"] ↔
          ∀ id key, RestsOn memoryEngine toldLoom MAIN claimPage map id key →
            LatestNode map key id) := by
  have hmarked : markedKeys toldLoom = .ok [ascii "k"] := by
    have heval : (markedKeys toldLoom).toOption = some [ascii "k"] := by decide +kernel
    exact StateExcept.toOption_eq_some.mp heval
  exact ⟨hmarked, markStale_exact_iff toldLoom_reachable hmarked⟩

/-- The claim is written once more from the page. -/
def toldTwice : Loom MemPager (Option Refs) :=
  memoryEngine.after (.write (memoryToken [MAIN]) MAIN [(ascii "k", .claim pageClaim)] ∅ pageEnvelope)
    toldLoom

/-- A claim that was written twice from the page is marked twice. -/
theorem markedKeys_toldTwice :
    memoryEngine.Reachable memoryLawful toldTwice ∧
      markedKeys toldTwice = .ok [ascii "k", ascii "k"] ∧
      ∀ map map', ¬MarksExactly memoryEngine toldTwice MAIN claimPage map map'
        [ascii "k", ascii "k"] := by
  refine ⟨toldLoom_reachable.called _, ?_, fun map map' hexact => ?_⟩
  · have heval : (markedKeys toldTwice).toOption = some [ascii "k", ascii "k"] := by
      decide +kernel
    exact StateExcept.toOption_eq_some.mp heval
  · exact absurd hexact.once (by simp)

end Engine

end LoomDB
