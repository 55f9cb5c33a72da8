import LoomDB.Refs.Store

/-!
# Ref stores

The engine keeps its refs in a ref store: one in memory, or the files of a
database root.
-/

namespace LoomDB

/-- What the engine asks of a ref store. -/
structure RefStore (ρ : Type) where
  load : ρ → Except LoomError (Option Refs)
  /-- Replace the durable refs. -/
  save : Refs → ρ → Except LoomError Unit × ρ
  /-- Append a batch of edits durably. -/
  apply : List RefEdit → ρ → Except LoomError Unit × ρ

namespace RefStore

/-- What a successful write does to the durable refs. -/
structure Lawful {ρ : Type} (store : RefStore ρ) : Prop where
  save_eq_ok : ∀ {refs : Refs} {state state' : ρ},
    store.save refs state = (.ok (), state') → store.load state' = .ok (some refs)
  apply_eq_ok : ∀ {edits : List RefEdit} {state state' : ρ} {refs : Refs},
    store.apply edits state = (.ok (), state') → store.load state = .ok (some refs) →
      store.load state' = .ok (some (refs.replay edits))

/-- What may be loaded after a write, whether it succeeds or fails: a snapshot is
replaced or not, and an append leaves a batch cut off somewhere. -/
structure Cuts {ρ : Type} (store : RefStore ρ) : Prop where
  save_cut : ∀ {refs refs' : Refs} {state state' : ρ} {result : Except LoomError Unit},
    store.save refs state = (result, state') → store.load state' = .ok (some refs') →
      refs' = refs ∨ store.load state = .ok (some refs')
  apply_cut : ∀ {edits : List RefEdit} {refs' : Refs} {state state' : ρ}
    {result : Except LoomError Unit},
    store.apply edits state = (result, state') → store.load state' = .ok (some refs') →
      ∃ refs kept, (store.load state = .ok (some refs) ∨ refs = Refs.default) ∧
        kept <+: edits ∧ refs' = refs.replay kept

end RefStore

/-- One append to a ref store. -/
structure Applied (ρ : Type) where
  edits : List RefEdit
  before : ρ
  after : ρ
  result : Except LoomError Unit

/-- The batch is in the durable refs. -/
def Applied.Kept {ρ : Type} (store : RefStore ρ) (applied : Applied ρ) : Prop :=
  ∀ refs, store.load applied.before = .ok (some refs) →
    store.load applied.after = .ok (some (refs.replay applied.edits))

/-- A ref store that remembers its appends. -/
def RefStore.traced {ρ : Type} (store : RefStore ρ) : RefStore (ρ × List (Applied ρ)) where
  load state := store.load state.1
  save refs state :=
    let (result, after) := store.save refs state.1
    (result, after, state.2)
  apply edits state :=
    let (result, after) := store.apply edits state.1
    (result, after, state.2 ++ [{ edits, before := state.1, after, result }])

/-- Refs in memory. -/
def MemRefStore : RefStore (Option Refs) where
  load refs := .ok refs
  save refs _ := (.ok (), some refs)
  apply edits refs := (.ok (), some ((refs.getD Refs.default).replay edits))

theorem MemRefStore.lawful : MemRefStore.Lawful where
  save_eq_ok := by
    intro refs state state' hsave
    obtain ⟨-, rfl⟩ := Prod.mk.inj hsave
    rfl
  apply_eq_ok := by
    intro edits state state' refs happly hload
    obtain rfl : state = some refs := Except.ok.inj hload
    obtain ⟨-, rfl⟩ := Prod.mk.inj happly
    rfl

theorem MemRefStore.cuts : MemRefStore.Cuts where
  save_cut := by
    intro refs refs' state state' result hsave hload
    obtain ⟨-, rfl⟩ := Prod.mk.inj hsave
    exact Or.inl (Option.some.inj (Except.ok.inj hload)).symm
  apply_cut := by
    intro edits refs' state state' result happly hload
    obtain ⟨-, rfl⟩ := Prod.mk.inj happly
    refine ⟨state.getD Refs.default, edits, ?_, List.prefix_rfl,
      (Option.some.inj (Except.ok.inj hload)).symm⟩
    cases state with
    | none => exact Or.inr rfl
    | some refs => exact Or.inl rfl

/-- Refs in the files of a root, while the power stays on. -/
def FileRefStore.refStore (blake3 : Bytes → Digest) : RefStore FileRefStore where
  load store := store.load blake3
  save refs store := store.save none refs
  apply edits store := store.apply blake3 none edits

end LoomDB
