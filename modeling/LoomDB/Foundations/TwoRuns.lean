import LoomDB.Foundations.FallibleState

/-!
# Two runs of one computation

A computation is blind to what two states do not share when it returns the same
from both and leaves what it must not change. One that is refused fails before
it can depend on more: whatever would have come after it does not matter.
-/

namespace LoomDB

namespace FallibleState

variable {σ ε α β : Type}

/-- From related states the step returns the same and ends in related states, and
it changes no state beyond what is allowed. -/
structure Blind (related allowed : σ → σ → Prop) (step : ExceptT ε (StateM σ) α) : Prop where
  result : ∀ {left right}, related left right → (step left).1 = (step right).1
  related : ∀ {left right}, related left right → related (step left).2 (step right).2
  moves : Moves allowed step

/-- The step is blind, and it fails. -/
structure Refused (related allowed : σ → σ → Prop) (step : ExceptT ε (StateM σ) α) : Prop
    extends Blind related allowed step where
  fails : ∀ state, ∃ error, (step state).1 = .error error

variable {related allowed : σ → σ → Prop} {step : ExceptT ε (StateM σ) α}
  {next : α → ExceptT ε (StateM σ) β}

namespace Blind

/-- Both runs fail, or both return the same. -/
theorem agree (hstep : Blind related allowed step) {left right : σ} (hrelated : related left right) :
    ∃ result, step left = (result, (step left).2) ∧ step right = (result, (step right).2) :=
  ⟨(step left).1, rfl, Prod.ext (hstep.result hrelated).symm rfl⟩

variable [IsPreorder σ allowed]

theorem lift (result : Except ε α) :
    Blind related allowed (lift result : ExceptT ε (StateM σ) α) where
  result _ := rfl
  related hrelated := hrelated
  moves := .lift result

theorem pure (value : α) : Blind related allowed (pure value : ExceptT ε (StateM σ) α) :=
  lift (.ok value)

theorem throw (error : ε) : Blind related allowed (throw error : ExceptT ε (StateM σ) α) :=
  lift (.error error)

theorem bind (hstep : Blind related allowed step)
    (hnext : ∀ value, Blind related allowed (next value)) :
    Blind related allowed (step >>= next) where
  result := by
    intro left right hrelated
    obtain ⟨result, hleft, hright⟩ := hstep.agree hrelated
    rw [bind_eq, bind_eq, hleft, hright]
    cases result with
    | error error => rfl
    | ok value => exact (hnext value).result (hstep.related hrelated)
  related := by
    intro left right hrelated
    obtain ⟨result, hleft, hright⟩ := hstep.agree hrelated
    have hends := hstep.related hrelated
    rw [bind_eq, bind_eq, hleft, hright]
    cases result with
    | error error => exact hends
    | ok value => exact (hnext value).related hends
  moves := hstep.moves.bind fun value => (hnext value).moves

/-- What is computed without the state may be used. -/
theorem lift_bind {result : Except ε α}
    (hnext : ∀ value, result = .ok value → Blind related allowed (next value)) :
    Blind related allowed (FallibleState.lift result >>= next) := by
  cases result with
  | error error => exact lift (.error error)
  | ok value => exact hnext value rfl

end Blind

namespace Refused

theorem throw [IsPreorder σ allowed] (error : ε) : Refused related allowed (throw error : ExceptT ε (StateM σ) α) where
  toBlind := .throw error
  fails _ := ⟨error, rfl⟩

theorem bind_eq_of_fails {state : σ} {error : ε} (hfails : (step state).1 = .error error) :
    (step >>= next) state = (.error error, (step state).2) := by
  rw [bind_eq]
  rcases hstep : step state with ⟨failed | value, middle⟩
  · rw [hstep] at hfails
    cases hfails
    rfl
  · rw [hstep] at hfails
    cases hfails

/-- What would come after a refused step does not matter. -/
theorem bind (hstep : Refused related allowed step) : Refused related allowed (step >>= next) where
  result := by
    intro left right hrelated
    obtain ⟨error, herror⟩ := hstep.fails left
    have herror' := (hstep.result hrelated).symm.trans herror
    rw [bind_eq_of_fails herror, bind_eq_of_fails herror']
  related := by
    intro left right hrelated
    obtain ⟨error, herror⟩ := hstep.fails left
    have herror' := (hstep.result hrelated).symm.trans herror
    rw [bind_eq_of_fails herror, bind_eq_of_fails herror']
    exact hstep.related hrelated
  moves := by
    intro state
    obtain ⟨error, herror⟩ := hstep.fails state
    rw [bind_eq_of_fails herror]
    exact hstep.moves state
  fails := by
    intro state
    obtain ⟨error, herror⟩ := hstep.fails state
    exact ⟨error, by rw [bind_eq_of_fails herror]⟩

/-- A refused step after blind ones. -/
theorem of_blind [IsPreorder σ allowed] (hstep : Blind related allowed step)
    (hnext : ∀ value, Refused related allowed (next value)) :
    Refused related allowed (step >>= next) where
  toBlind := hstep.bind fun value => (hnext value).toBlind
  fails := by
    intro state
    rw [bind_eq]
    rcases step state with ⟨error | value, middle⟩
    · exact ⟨error, rfl⟩
    · exact (hnext value).fails middle

theorem map (change : α → β) (hstep : Refused related allowed step) :
    Refused related allowed (change <$> step) := by
  rw [map_eq_pure_bind]
  exact hstep.bind

end Refused

end FallibleState

end LoomDB
