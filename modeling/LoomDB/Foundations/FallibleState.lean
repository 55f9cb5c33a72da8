import Mathlib.Control.Monad.Basic
import Mathlib.Order.RelClasses

/-!
# Computations that may fail and keep their state

Inversion rules for `Except` over a state monad: a failing step ends the
computation, and what it did to the state stays.
-/

namespace LoomDB

namespace FallibleState

variable {σ ε α β : Type}

theorem bind_eq {step : ExceptT ε (StateM σ) α} {next : α → ExceptT ε (StateM σ) β} {state : σ} :
    (step >>= next) state =
      match step state with
      | (.ok value, state) => next value state
      | (.error error, state) => (.error error, state) := by
  change ExceptT.bindCont next (step state).1 (step state).2 = _
  rcases step state with ⟨_ | _, _⟩ <;> rfl

/-- A sequence returns if each step does. -/
theorem bind_eq_ok {step : ExceptT ε (StateM σ) α} {next : α → ExceptT ε (StateM σ) β}
    {state state' : σ} {result : β} :
    (step >>= next) state = (.ok result, state') ↔
      ∃ value middle, step state = (.ok value, middle) ∧ next value middle = (.ok result, state') := by
  rw [bind_eq]
  rcases step state with ⟨error | value, middle⟩
  · constructor
    · rintro ⟨⟩
    · rintro ⟨_, _, ⟨⟩, _⟩
  · constructor
    · exact fun hnext => ⟨value, middle, rfl, hnext⟩
    · rintro ⟨_, _, heq, hnext⟩
      cases heq
      exact hnext

@[simp]
theorem pure_eq (value : α) (state : σ) :
    (pure value : ExceptT ε (StateM σ) α) state = (.ok value, state) := rfl

theorem pure_eq_ok {value result : α} {state state' : σ} :
    (pure value : ExceptT ε (StateM σ) α) state = (.ok result, state') ↔
      value = result ∧ state = state' := by
  constructor
  · rintro ⟨⟩
    exact ⟨rfl, rfl⟩
  · rintro ⟨rfl, rfl⟩
    rfl

@[simp]
theorem throw_eq (error : ε) (state : σ) :
    (throw error : ExceptT ε (StateM σ) α) state = (.error error, state) := rfl

@[simp]
theorem modify_eq (change : σ → σ) (state : σ) :
    (modify change : ExceptT ε (StateM σ) Unit) state = (.ok (), change state) := rfl

@[simp]
theorem get_bind {next : σ → ExceptT ε (StateM σ) β} {state : σ} :
    ((get : ExceptT ε (StateM σ) σ) >>= next) state = next state state := rfl

@[simp]
theorem modify_bind {change : σ → σ} {next : Unit → ExceptT ε (StateM σ) β} {state : σ} :
    ((modify change : ExceptT ε (StateM σ) Unit) >>= next) state = next () (change state) := rfl

/-- A result computed without the state. -/
def lift (result : Except ε α) : ExceptT ε (StateM σ) α := fun state => (result, state)

@[simp]
theorem lift_eq (result : Except ε α) (state : σ) :
    (lift result : ExceptT ε (StateM σ) α) state = (result, state) := rfl

theorem lift_bind_eq_ok {result : Except ε α} {next : α → ExceptT ε (StateM σ) β}
    {state state' : σ} {value : β} :
    (lift result >>= next) state = (.ok value, state') ↔
      ∃ found, result = .ok found ∧ next found state = (.ok value, state') := by
  rw [bind_eq, lift_eq]
  cases result with
  | ok found => simp
  | error error =>
      constructor
      · rintro ⟨⟩
      · rintro ⟨_, ⟨⟩, _⟩

/-- A failure is a result like any other. -/
def attempt (step : ExceptT ε (StateM σ) α) : ExceptT ε (StateM σ) (Except ε α) := fun state =>
  let (result, state) := step state
  (.ok result, state)

@[simp]
theorem attempt_eq (step : ExceptT ε (StateM σ) α) (state : σ) :
    attempt step state = (.ok (step state).1, (step state).2) := rfl

/-- A filter whose tests leave the state keeps the items with the property they
test. -/
theorem filterM_eq_ok {items found : List β} {keep : β → ExceptT ε (StateM σ) Bool}
    {holds : β → Prop} {state state' : σ}
    (hkeep : ∀ item result middle, keep item state = (.ok result, middle) →
      middle = state ∧ (result = true ↔ holds item))
    (hfilter : items.filterM keep state = (.ok found, state')) :
    state' = state ∧ found.Sublist items ∧ ∀ item, item ∈ found ↔ item ∈ items ∧ holds item := by
  have haux : ∀ (kept kept' : List β) (last : σ), items.filterAuxM keep kept state = (.ok kept', last) →
      last = state ∧ ∃ added : List β, kept' = added.reverse ++ kept ∧ added.Sublist items ∧
        ∀ item, item ∈ added ↔ item ∈ items ∧ holds item := by
    clear hfilter
    induction items with
    | nil =>
        intro kept kept' last hrun
        obtain ⟨rfl, rfl⟩ := pure_eq_ok.mp hrun
        exact ⟨rfl, [], rfl, List.Sublist.refl _, by simp⟩
    | cons first items ih =>
        intro kept kept' last hrun
        rw [List.filterAuxM, bind_eq_ok] at hrun
        obtain ⟨result, middle, hfirst, hrest⟩ := hrun
        obtain ⟨rfl, hholds⟩ := hkeep first result middle hfirst
        obtain ⟨rfl, added, rfl, hsublist, hmem⟩ := ih _ _ _ hrest
        refine ⟨rfl, ?_⟩
        cases result with
        | true =>
            refine ⟨first :: added, by simp, hsublist.cons_cons first, fun item => ?_⟩
            rw [List.mem_cons, List.mem_cons, hmem, or_and_right]
            refine or_congr_left ⟨?_, And.left⟩
            rintro rfl
            exact ⟨rfl, hholds.mp rfl⟩
        | false =>
            refine ⟨added, rfl, hsublist.cons first, fun item => ?_⟩
            rw [List.mem_cons, hmem, or_and_right]
            refine ⟨Or.inr, ?_⟩
            rintro (⟨rfl, hitem⟩ | hrest)
            · cases hholds.mpr hitem
            · exact hrest
  unfold List.filterM at hfilter
  rw [bind_eq_ok] at hfilter
  obtain ⟨kept, middle, hkept, hreverse⟩ := hfilter
  obtain ⟨rfl, added, rfl, hsublist, hmem⟩ := haux [] kept middle hkept
  obtain ⟨rfl, rfl⟩ := pure_eq_ok.mp hreverse
  refine ⟨rfl, ?_, fun item => ?_⟩
  · rwa [List.append_nil, List.reverse_reverse]
  · rw [List.append_nil, List.reverse_reverse, hmem]

/-- A filter whose tests all answer and leave the state answers. -/
theorem filterM_succeeds {items : List β} {keep : β → ExceptT ε (StateM σ) Bool} {state : σ}
    (hkeep : ∀ item, ∃ result, keep item state = (.ok result, state)) :
    ∃ found, items.filterM keep state = (.ok found, state) := by
  have haux : ∀ kept : List β, ∃ kept', items.filterAuxM keep kept state = (.ok kept', state) := by
    induction items with
    | nil => exact fun kept => ⟨kept, rfl⟩
    | cons first items ih =>
        intro kept
        obtain ⟨result, hfirst⟩ := hkeep first
        rw [List.filterAuxM, bind_eq, hfirst]
        exact ih _
  obtain ⟨kept, hkept⟩ := haux []
  refine ⟨kept.reverse, ?_⟩
  rw [List.filterM, bind_eq, hkept]
  rfl

/-- Returning something else leaves the state. -/
theorem snd_bind_pure (step : ExceptT ε (StateM σ) α) (change : α → β) (state : σ) :
    ((step >>= fun value => pure (change value)) state).2 = (step state).2 := by
  rw [bind_eq]
  rcases step state with ⟨_ | _, _⟩ <;> rfl

theorem map_eq (step : ExceptT ε (StateM σ) α) (change : α → β) (state : σ) :
    (change <$> step) state = ((step state).1.map change, (step state).2) := by
  rw [map_eq_pure_bind, bind_eq]
  rcases step state with ⟨_ | _, _⟩ <;> rfl

theorem map_eq_ok {step : ExceptT ε (StateM σ) α} {change : α → β} {state state' : σ}
    {result : β} :
    (change <$> step) state = (.ok result, state') ↔
      ∃ value, step state = (.ok value, state') ∧ change value = result := by
  rw [map_eq_pure_bind, bind_eq_ok]
  simp only [pure_eq_ok]
  constructor
  · rintro ⟨value, middle, hstep, hresult, rfl⟩
    exact ⟨value, hstep, hresult⟩
  · rintro ⟨value, hstep, hresult⟩
    exact ⟨value, state', hstep, hresult, rfl⟩

theorem map_eq_error {step : ExceptT ε (StateM σ) α} {change : α → β} {state state' : σ}
    {error : ε} :
    (change <$> step) state = (.error error, state') ↔ step state = (.error error, state') := by
  rw [map_eq_pure_bind, bind_eq]
  rcases step state with ⟨failed | value, last⟩
  · constructor
    · rintro ⟨⟩
      rfl
    · rintro ⟨⟩
      rfl
  · constructor
    · rintro ⟨⟩
    · rintro ⟨⟩

theorem snd_map (step : ExceptT ε (StateM σ) α) (change : α → β) (state : σ) :
    ((change <$> step) state).2 = (step state).2 := by
  rw [map_eq_pure_bind, snd_bind_pure]

/-! ## Losing the state of a failure -/

/-- What a caller sees that gives up the state when the step fails. -/
def forget (step : ExceptT ε (StateM σ) α) : StateT σ (Except ε) α := fun state =>
  match step state with
  | (.ok value, state) => .ok (value, state)
  | (.error error, _) => .error error

@[simp]
theorem forget_pure (value : α) :
    forget (pure value : ExceptT ε (StateM σ) α) = pure value := rfl

@[simp]
theorem forget_throw (error : ε) :
    forget (throw error : ExceptT ε (StateM σ) α) = throw error := rfl

@[simp]
theorem forget_get : forget (get : ExceptT ε (StateM σ) σ) = get := rfl

@[simp]
theorem forget_modify (change : σ → σ) :
    forget (modify change : ExceptT ε (StateM σ) Unit) = modify change := rfl

@[simp]
theorem forget_bind (step : ExceptT ε (StateM σ) α) (next : α → ExceptT ε (StateM σ) β) :
    forget (step >>= next) = forget step >>= fun value => forget (next value) := by
  funext state
  change forget (step >>= next) state = (forget step state).bind fun pair =>
    forget (next pair.1) pair.2
  unfold forget
  rw [bind_eq]
  rcases step state with ⟨_ | _, _⟩ <;> rfl

/-! ## What a step may do to the state -/

/-- However the step ends, the states before and after it are related. -/
def Moves (related : σ → σ → Prop) (step : ExceptT ε (StateM σ) α) : Prop :=
  ∀ state, related state (step state).2

namespace Moves

variable {related : σ → σ → Prop} {step : ExceptT ε (StateM σ) α}
  {next : α → ExceptT ε (StateM σ) β}

theorem of_eq {result : Except ε α} {state state' : σ} (hmoves : Moves related step)
    (hstep : step state = (result, state')) : related state state' := by
  have hmove := hmoves state
  rwa [hstep] at hmove

theorem mono {weaker : σ → σ → Prop} (hmoves : Moves related step)
    (hweaker : ∀ state state', related state state' → weaker state state') :
    Moves weaker step :=
  fun state => hweaker _ _ (hmoves state)

theorem modify {change : σ → σ} (hchange : ∀ state, related state (change state)) :
    Moves related (modify change : ExceptT ε (StateM σ) Unit) :=
  hchange

theorem attempt (hmoves : Moves related step) : Moves related (attempt step) :=
  hmoves

section Preorder

variable [IsPreorder σ related]

theorem pure (value : α) : Moves related (pure value : ExceptT ε (StateM σ) α) :=
  fun state => refl state

theorem throw (error : ε) : Moves related (throw error : ExceptT ε (StateM σ) α) :=
  fun state => refl state

theorem lift (result : Except ε α) : Moves related (lift result : ExceptT ε (StateM σ) α) :=
  fun state => refl state

theorem get : Moves related (get : ExceptT ε (StateM σ) σ) :=
  fun state => refl state

/-- The second step may use what the first one returned. -/
theorem bind_of_ok (hstep : Moves related step)
    (hnext : ∀ state value middle, step state = (.ok value, middle) →
      related middle (next value middle).2) :
    Moves related (step >>= next) := by
  intro state
  rw [bind_eq]
  rcases heq : step state with ⟨error | value, middle⟩
  · exact hstep.of_eq heq
  · exact trans_of related (hstep.of_eq heq) (hnext state value middle heq)

theorem bind (hstep : Moves related step) (hnext : ∀ value, Moves related (next value)) :
    Moves related (step >>= next) :=
  bind_of_ok hstep fun _ value middle _ => hnext value middle

theorem map (change : α → β) (hstep : Moves related step) : Moves related (change <$> step) := by
  rw [map_eq_pure_bind]
  exact hstep.bind fun value => pure (change value)

theorem discard (hstep : Moves related step) : Moves related (discard step) :=
  hstep.map _

theorem filterM {items : List β} {keep : β → ExceptT ε (StateM σ) Bool}
    (hkeep : ∀ item, Moves related (keep item)) : Moves related (items.filterM keep) := by
  have haux : ∀ kept, Moves related (items.filterAuxM keep kept) := by
    induction items with
    | nil => exact fun kept => pure kept
    | cons item items ih => exact fun kept => (hkeep item).bind fun _ => ih _
  exact (haux []).bind fun _ => pure _

theorem forM {items : List β} {body : β → ExceptT ε (StateM σ) PUnit}
    (hbody : ∀ item, Moves related (body item)) : Moves related (items.forM body) := by
  induction items with
  | nil => exact pure _
  | cons item items ih => exact (hbody item).bind fun _ => ih

end Preorder

end Moves

/-! ## What a step may fail with -/

/-- From whatever state, an error the step ends with has the property. -/
def Raises (P : ε → Prop) (step : ExceptT ε (StateM σ) α) : Prop :=
  ∀ state error, (step state).1 = .error error → P error

namespace Raises

variable {P : ε → Prop} {step : ExceptT ε (StateM σ) α} {next : α → ExceptT ε (StateM σ) β}

theorem pure (value : α) : Raises P (pure value : ExceptT ε (StateM σ) α) := by
  intro state error hraised
  cases hraised

theorem throw {error : ε} (herror : P error) :
    Raises P (throw error : ExceptT ε (StateM σ) α) := by
  intro state raised hraised
  cases hraised
  exact herror

theorem lift {result : Except ε α} (hresult : ∀ error, result = .error error → P error) :
    Raises P (lift result : ExceptT ε (StateM σ) α) :=
  fun _ => hresult

theorem get : Raises P (get : ExceptT ε (StateM σ) σ) := by
  intro state error hraised
  cases hraised

theorem modify (change : σ → σ) : Raises P (modify change : ExceptT ε (StateM σ) Unit) := by
  intro state error hraised
  cases hraised

/-- The second step may use what the first one returned. -/
theorem bind_of_ok (hstep : Raises P step)
    (hnext : ∀ state value middle, step state = (.ok value, middle) → ∀ error,
      (next value middle).1 = .error error → P error) :
    Raises P (step >>= next) := by
  intro state error hraised
  rw [bind_eq] at hraised
  rcases heq : step state with ⟨first | value, middle⟩
  · rw [heq] at hraised
    obtain rfl : first = error := Except.error.inj hraised
    exact hstep state first (congrArg Prod.fst heq)
  · rw [heq] at hraised
    exact hnext state value middle heq error hraised

theorem bind (hstep : Raises P step) (hnext : ∀ value, Raises P (next value)) :
    Raises P (step >>= next) :=
  bind_of_ok hstep fun _ value middle _ => hnext value middle

theorem map (change : α → β) (hstep : Raises P step) : Raises P (change <$> step) := by
  rw [map_eq_pure_bind]
  exact hstep.bind fun _ => pure _

end Raises

end FallibleState

end LoomDB
