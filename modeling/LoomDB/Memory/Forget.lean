import LoomDB.Branch.IndexSpec
import LoomDB.Provenance.TaintSpec

/-!
# Forgetting

Everything downstream of a source on a branch loses its index entry, and the claims
among it are withdrawn, in one commit. The records stay.
-/

namespace LoomDB

open Std (ExtTreeMap ExtTreeSet)

structure IrreversibleEffect where
  description : Bytes
  receipt : Bytes
  deriving DecidableEq

/-- What forgetting did, and first what it could not undo. -/
structure ForgetReport where
  source : Option SourceRef
  irreversible : List IrreversibleEffect
  deindexed : ℕ
  invalidated : ℕ
  reached : List Key
  deriving DecidableEq

namespace Engine

variable {σ ρ : Type}

/-- Forget a source on a branch. -/
def forget (engine : Engine σ ρ) (token : CapabilityToken) (branch : BranchId)
    (source : SourceRef) (envelope : WriteEnvelope) : LoomM σ ρ ForgetReport := do
  let reached ← engine.contaminatedKeysOn branch source
  let (invalidated, deindexed) ← engine.invalidateAndDeindex token branch reached envelope
  return { source := some source, irreversible := [], deindexed, invalidated, reached }

variable {engine : Engine σ ρ} {loom : Loom σ ρ} {map map' : RecordMap}

/-- Forgetting leaves the database as it is, or as the withdrawal of what is downstream
of the source leaves it. -/
theorem snd_forget (token : CapabilityToken) (branch : BranchId) (source : SourceRef)
    (envelope : WriteEnvelope) (loom : Loom σ ρ) :
    (engine.forget token branch source envelope loom).2 = loom ∨
      ∃ keys, (engine.contaminatedKeysOn branch source loom).1 = .ok keys ∧
        (engine.forget token branch source envelope loom).2 =
          engine.after (.invalidate token branch keys envelope) loom := by
  rcases hreached : engine.contaminatedKeysOn branch source loom with ⟨error | keys, after⟩
  · obtain rfl := (contaminatedKeysOn_moves branch source).of_eq hreached
    refine Or.inl ?_
    rw [forget, FallibleState.bind_eq, hreached]
  · obtain rfl := (contaminatedKeysOn_moves branch source).of_eq hreached
    refine Or.inr ⟨keys, rfl, ?_⟩
    rw [forget, FallibleState.bind_eq, hreached, after, call, FallibleState.snd_map]
    exact FallibleState.snd_bind_pure _ _ _

/-! ## What is left of the index -/

theorem getElem?_invalidateClaim {key touched : Key} {found : Option Record} {done : Bool}
    {bytes : Bytes} (hrun : (invalidateClaim key found).onMap map = .ok (done, map'))
    (hblob : map'[touched]? = some (Record.blob bytes)) :
    map[touched]? = some (Record.blob bytes) := by
  unfold invalidateClaim at hrun
  split at hrun
  · split at hrun
    · rw [KeyValue.onMap_put_bind] at hrun
      obtain ⟨-, rfl⟩ := Prod.mk.inj (Except.ok.inj hrun)
      rw [OrderedMap.getElem?_insert] at hblob
      split at hblob
      · cases hblob
      · exact hblob
    · obtain ⟨-, rfl⟩ := Prod.mk.inj (Except.ok.inj hrun)
      exact hblob
  · obtain ⟨-, rfl⟩ := Prod.mk.inj (Except.ok.inj hrun)
    exact hblob

/-- An entry that is left was there, and its key is not a forgotten one. -/
theorem forgetKeys_entry {keys : List Key} {counts : ℕ × ℕ}
    (hrun : (forgetKeys keys).onMap map = .ok (counts, map')) {key : Key} {bytes : Bytes}
    (hblob : map'[IndexEntry.storageKey key]? = some (Record.blob bytes)) :
    key ∉ keys ∧ map[IndexEntry.storageKey key]? = some (Record.blob bytes) := by
  induction keys generalizing map counts with
  | nil =>
      obtain ⟨-, rfl⟩ := Prod.mk.inj (Except.ok.inj hrun)
      exact ⟨List.not_mem_nil, hblob⟩
  | cons first keys ih =>
      rw [forgetKeys, KeyValue.onMap_drop_bind, KeyValue.onMap_ask_bind] at hrun
      obtain ⟨done, middle, hclaim, hrest⟩ := KeyValue.onMap_bind_eq_ok.mp hrun
      obtain ⟨⟨_, _⟩, last, hkeys, hreturn⟩ := KeyValue.onMap_bind_eq_ok.mp hrest
      obtain ⟨-, rfl⟩ := Prod.mk.inj (Except.ok.inj hreturn)
      obtain ⟨hothers, hmiddle⟩ := ih hkeys
      have herased := getElem?_invalidateClaim hclaim hmiddle
      rw [OrderedMap.getElem?_erase] at herased
      split at herased
      · cases herased
      · next hfirst =>
        refine ⟨fun hmem => ?_, herased⟩
        rcases List.mem_cons.mp hmem with rfl | hmem
        · exact hfirst rfl
        · exact hothers hmem

/-- A caller's record that is not forgotten stays as it is. -/
theorem forgetKeys_record {keys : List Key} {counts : ℕ × ℕ}
    (hrun : (forgetKeys keys).onMap map = .ok (counts, map')) {key : Key}
    (hcaller : isCaller key = true) (hkey : key ∉ keys) : map'[key]? = map[key]? := by
  refine (forgetKeys_writes keys).frame hrun ?_
  rintro (hmem | ⟨other, -, rfl⟩)
  · exact hkey hmem
  · rw [isEngineKey_storageKey other] at hcaller
    cases hcaller

end Engine

end LoomDB
