import Mathlib.Control.Monad.Basic

/-!
# Computations that carry a state and may fail

Inversion rules for a state monad over `Except`, whose state is lost when a step
fails. A successful run of a sequence is a successful run of each of its steps.
-/

namespace LoomDB

namespace StateExcept

variable {σ ε α β : Type}

/-- A sequence without a state succeeds if each step does. -/
theorem except_bind_eq_ok {step : Except ε α} {next : α → Except ε β} {result : β} :
    (step >>= next) = .ok result ↔ ∃ value, step = .ok value ∧ next value = .ok result := by
  cases step with
  | error error => simp [bind, Except.bind]
  | ok value => simp [bind, Except.bind]

/-- A sequence without a state fails if a step does. -/
theorem except_bind_eq_error {step : Except ε α} {next : α → Except ε β} {error : ε} :
    (step >>= next) = .error error ↔
      step = .error error ∨ ∃ value, step = .ok value ∧ next value = .error error := by
  cases step with
  | error error => simp [bind, Except.bind]
  | ok value => simp [bind, Except.bind]

/-- A loop without a state succeeds if each of its steps does. -/
theorem except_forM_eq_ok {items : List α} {step : α → Except ε Unit} {done : Unit} :
    items.forM step = .ok done ↔ ∀ item ∈ items, step item = .ok () := by
  induction items with
  | nil => exact iff_of_true rfl (by simp)
  | cons item items ih =>
      rw [List.forM_eq_forM] at ih ⊢
      rw [List.forM_cons, except_bind_eq_ok, List.forall_mem_cons, ← ih]
      exact ⟨fun ⟨_, hitem, hitems⟩ => ⟨hitem, hitems⟩, fun ⟨hitem, hitems⟩ =>
        ⟨(), hitem, hitems⟩⟩

theorem except_map_eq_error {step : Except ε α} {change : α → β} {error : ε} :
    step.map change = .error error ↔ step = .error error := by
  cases step with
  | error error => simp [Except.map]
  | ok value => simp [Except.map]

theorem except_mapError_eq_ok {ε' : Type} {change : ε → ε'} {step : Except ε α} {value : α} :
    step.mapError change = .ok value ↔ step = .ok value := by
  cases step with
  | error error => simp [Except.mapError]
  | ok found => simp [Except.mapError]

theorem toOption_eq_some {step : Except ε α} {value : α} :
    step.toOption = some value ↔ step = .ok value := by
  cases step with
  | error error => simp [Except.toOption]
  | ok found => simp [Except.toOption]

/-! ## Steps in order -/

/-- After only steps that pass there is one that stops. -/
def Reaches (passes stops : α → Prop) (steps : List α) : Prop :=
  ∃ before step after, steps = before ++ step :: after ∧ (∀ earlier ∈ before, passes earlier) ∧
    stops step

section Reaching

variable {passes stops : α → Prop} {first : α} {rest steps : List α}

theorem not_reaches_nil : ¬Reaches passes stops [] := by
  rintro ⟨before, step, after, heq, -⟩
  simp at heq

theorem reaches_cons :
    Reaches passes stops (first :: rest) ↔
      stops first ∨ passes first ∧ Reaches passes stops rest := by
  constructor
  · rintro ⟨before, step, after, heq, hbefore, hstops⟩
    cases before with
    | nil =>
        obtain ⟨rfl, rfl⟩ := List.cons.inj heq
        exact Or.inl hstops
    | cons earlier before =>
        obtain ⟨rfl, rfl⟩ := List.cons.inj heq
        obtain ⟨hfirst, hbefore⟩ := List.forall_mem_cons.mp hbefore
        exact Or.inr ⟨hfirst, before, step, after, rfl, hbefore, hstops⟩
  · rintro (hstops | ⟨hpasses, before, step, after, rfl, hbefore, hstops⟩)
    · exact ⟨[], first, rest, rfl, by simp, hstops⟩
    · exact ⟨first :: before, step, after, rfl, List.forall_mem_cons.mpr ⟨hpasses, hbefore⟩,
        hstops⟩

end Reaching

@[simp]
theorem get_bind {next : σ → StateT σ (Except ε) β} {state : σ} :
    ((get : StateT σ (Except ε) σ) >>= next) state = next state state := rfl

@[simp]
theorem getThe_bind {next : σ → StateT σ (Except ε) β} {state : σ} :
    ((getThe σ : StateT σ (Except ε) σ) >>= next) state = next state state := rfl

@[simp]
theorem modify_bind {change : σ → σ} {next : Unit → StateT σ (Except ε) β} {state : σ} :
    ((modify change : StateT σ (Except ε) Unit) >>= next) state =
      next () (change state) := rfl

theorem bind_eq_ok {step : StateT σ (Except ε) α} {next : α → StateT σ (Except ε) β}
    {state : σ} {result : β × σ} :
    (step >>= next) state = .ok result ↔
      ∃ value middle, step state = .ok (value, middle) ∧ next value middle = .ok result := by
  simp only [bind, StateT.bind, Except.bind]
  cases hstep : step state with
  | error error => simp
  | ok pair =>
      obtain ⟨value, middle⟩ := pair
      constructor
      · exact fun hnext => ⟨value, middle, rfl, hnext⟩
      · rintro ⟨_, _, heq, hnext⟩
        cases heq
        exact hnext

@[simp]
theorem pure_eq_ok {value : α} {state : σ} {result : α × σ} :
    (pure value : StateT σ (Except ε) α) state = .ok result ↔ result = (value, state) := by
  have hpure : (pure value : StateT σ (Except ε) α) state = .ok (value, state) := rfl
  rw [hpure, Except.ok.injEq, eq_comm]

@[simp]
theorem modify_eq_ok {change : σ → σ} {state : σ} {result : Unit × σ} :
    (modify change : StateT σ (Except ε) Unit) state = .ok result ↔
      result = ((), change state) := by
  simp [modify, modifyGet, MonadStateOf.modifyGet, StateT.modifyGet, pure, Except.pure,
    eq_comm]

@[simp]
theorem throw_eq_ok {error : ε} {state : σ} {result : α × σ} :
    (throw error : StateT σ (Except ε) α) state = .ok result ↔ False := by
  simp [throw, throwThe, MonadExceptOf.throw, StateT.lift, bind, Except.bind]

/-! ## What a computation may fail with -/

/-- From whatever state, an error the computation ends with has the property. -/
def Raises (P : ε → Prop) (step : StateT σ (Except ε) α) : Prop :=
  ∀ state error, step state = .error error → P error

namespace Raises

variable {P : ε → Prop} {step : StateT σ (Except ε) α} {next : α → StateT σ (Except ε) β}

theorem pure (value : α) : Raises P (pure value : StateT σ (Except ε) α) := by
  intro state error hraised
  cases hraised

theorem throw {error : ε} (herror : P error) :
    Raises P (throw error : StateT σ (Except ε) α) := by
  intro state raised hraised
  cases hraised
  exact herror

theorem get : Raises P (get : StateT σ (Except ε) σ) := by
  intro state error hraised
  cases hraised

theorem modify (change : σ → σ) : Raises P (modify change : StateT σ (Except ε) Unit) := by
  intro state error hraised
  cases hraised

theorem bind (hstep : Raises P step) (hnext : ∀ value, Raises P (next value)) :
    Raises P (step >>= next) := by
  intro state error hraised
  simp only [Bind.bind, StateT.bind, Except.bind] at hraised
  cases heq : step state with
  | error first =>
      rw [heq] at hraised
      cases hraised
      exact hstep state error heq
  | ok pair =>
      rw [heq] at hraised
      exact hnext pair.1 pair.2 error hraised

theorem mapM {items : List β} {body : β → StateT σ (Except ε) α}
    (hbody : ∀ item, Raises P (body item)) : Raises P (items.mapM body) := by
  induction items with
  | nil => exact pure []
  | cons item items ih =>
      rw [List.mapM_cons]
      exact (hbody item).bind fun _ => ih.bind fun _ => pure _

end Raises

/-! ## What a computation ensures -/

/-- From a state with the precondition, what the computation returns has the postcondition. -/
def Ensures (pre : σ → Prop) (step : StateT σ (Except ε) α) (post : α → σ → Prop) : Prop :=
  ∀ state, pre state → ∀ value state', step state = .ok (value, state') → post value state'

namespace Ensures

variable {pre : σ → Prop} {post : β → σ → Prop} {step : StateT σ (Except ε) α}

theorem pure {post : α → σ → Prop} {value : α} (hpost : ∀ state, pre state → post value state) :
    Ensures pre (pure value : StateT σ (Except ε) α) post := by
  rintro state hpre _ _ ⟨⟩
  exact hpost state hpre

theorem bind (middle : α → σ → Prop) {next : α → StateT σ (Except ε) β}
    (hstep : Ensures pre step middle) (hnext : ∀ value, Ensures (middle value) (next value) post) :
    Ensures pre (step >>= next) post := by
  intro state hpre value state' hrun
  obtain ⟨first, between, hfirst, hrun⟩ := bind_eq_ok.mp hrun
  exact hnext first between (hstep state hpre first between hfirst) value state' hrun

/-- A loop keeps what each of its steps keeps. -/
theorem foldlM (inv : α → σ → Prop) {items : List β} {body : α → β → StateT σ (Except ε) α}
    (hbody : ∀ value, ∀ item ∈ items, Ensures (inv value) (body value item) inv) (start : α) :
    Ensures (inv start) (items.foldlM body start) inv := by
  induction items generalizing start with
  | nil => exact .pure fun _ hinv => hinv
  | cons item items ih =>
      rw [List.foldlM_cons]
      exact .bind inv (hbody start item List.mem_cons_self)
        (ih fun value other hother => hbody value other (List.mem_cons_of_mem item hother))

theorem forM (inv : σ → Prop) {items : List β} {body : β → StateT σ (Except ε) Unit}
    (hbody : ∀ item ∈ items, Ensures inv (body item) fun _ => inv) :
    Ensures inv (items.forM body) fun _ => inv := by
  induction items with
  | nil => exact .pure fun _ hinv => hinv
  | cons item items ih =>
      rw [List.forM_eq_forM] at ih ⊢
      rw [List.forM_cons]
      exact .bind (fun _ => inv) (hbody item List.mem_cons_self) fun _ =>
        ih fun other hother => hbody other (List.mem_cons_of_mem item hother)

end Ensures

end StateExcept

end LoomDB
