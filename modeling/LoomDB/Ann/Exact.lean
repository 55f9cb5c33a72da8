import LoomDB.Ann.Searches
import Mathlib.Analysis.Real.Sqrt

/-!
# Exact arithmetic

Over the real numbers the dot product of two vectors of length one is the cosine of the vectors that
they come from, so the distances of the graph in memory are those of the graph in a store.
-/

namespace LoomDB

/-- The operations on real numbers; nothing is known of the number that stands for infinity. -/
noncomputable def exactArithmetic (infinity : ℝ) : Arithmetic ℝ where
  zero := 0
  one := 1
  two := 2
  negOne := -1
  infinity := infinity
  add := (· + ·)
  sub := (· - ·)
  mul := (· * ·)
  div := (· / ·)
  sqrt := Real.sqrt
  isZero := fun value => Decidable.decide (value = 0)
  lt := fun left right => Decidable.decide (left < right)
  partialCmp := fun left right => some (compare left right)

/-- The sum of the products of the coordinates. -/
def innerProduct (left right : Embedding ℝ) : ℝ :=
  (List.zipWith (· * ·) left right).sum

def normSq (vector : Embedding ℝ) : ℝ :=
  (vector.map fun x => x * x).sum

section Reals

variable {infinity : ℝ} {left right vector unit query : Embedding ℝ}

theorem exact_sum (values : List ℝ) : (exactArithmetic infinity).sum values = values.sum :=
  List.sum_eq_foldl.symm

theorem exact_strict : (exactArithmetic infinity).ranking.Strict :=
  BestFirst.Ranking.strict_of_lt fun _ _ => rfl

theorem normSq_nonneg (vector : Embedding ℝ) : 0 ≤ normSq vector := by
  refine List.sum_nonneg fun square hsquare => ?_
  obtain ⟨x, -, rfl⟩ := List.mem_map.mp hsquare
  exact mul_self_nonneg x

theorem normSq_eq_zero : normSq vector = 0 ↔ ∀ x ∈ vector, x = 0 := by
  induction vector with
  | nil => simp [normSq]
  | cons x vector ih =>
      have hsum : normSq (x :: vector) = x * x + normSq vector := List.sum_cons
      rw [hsum, List.forall_mem_cons, ← ih]
      constructor
      · intro hzero
        have hx := mul_self_nonneg x
        have hrest := normSq_nonneg vector
        exact ⟨mul_self_eq_zero.mp (by linarith), by linarith⟩
      · rintro ⟨rfl, hrest⟩
        rw [hrest, mul_zero, add_zero]

theorem innerProduct_scale (left right : Embedding ℝ) (first second : ℝ) :
    innerProduct (left.map (· * first)) (right.map (· * second)) =
      innerProduct left right * (first * second) := by
  induction left generalizing right with
  | nil => simp [innerProduct]
  | cons x left ih =>
      cases right with
      | nil => simp [innerProduct]
      | cons y right =>
          have hcons : ∀ (x y : ℝ) (left right : Embedding ℝ),
              innerProduct (x :: left) (y :: right) = x * y + innerProduct left right :=
            fun x y left right => List.sum_cons
          rw [List.map_cons, List.map_cons, hcons, hcons, ih]
          ring

theorem normSq_scale (vector : Embedding ℝ) (factor : ℝ) :
    normSq (vector.map (· * factor)) = normSq vector * (factor * factor) := by
  induction vector with
  | nil => simp [normSq]
  | cons x vector ih =>
      have hcons : ∀ (x : ℝ) (vector : Embedding ℝ), normSq (x :: vector) = x * x + normSq vector :=
        fun x vector => List.sum_cons
      rw [List.map_cons, hcons, hcons, ih]
      ring

/-- A vector has a copy of length one unless all of it is zero. -/
theorem normalized_eq (vector : Embedding ℝ) :
    vector.normalized (exactArithmetic infinity) =
      if normSq vector = 0 then none
      else some (vector.map (· * (1 / √(normSq vector)))) := by
  unfold Embedding.normalized
  by_cases hempty : vector = []
  · rw [if_pos hempty, if_pos (hempty ▸ List.sum_nil)]
  · rw [if_neg hempty, exact_sum]
    change (if Decidable.decide (normSq vector = 0) = true then none else _) = _
    simp only [decide_eq_true_eq]
    rfl

theorem normalized_eq_none :
    vector.normalized (exactArithmetic infinity) = none ↔ normSq vector = 0 := by
  rw [normalized_eq]
  by_cases hzero : normSq vector = 0
  · exact iff_of_true (if_pos hzero) hzero
  · exact iff_of_false (by rw [if_neg hzero]; exact nofun) hzero

theorem cosine_eq (left right : Embedding ℝ) :
    left.cosine (exactArithmetic infinity) right =
      if left.length ≠ right.length ∨ normSq left = 0 ∨ normSq right = 0 then none
      else some (innerProduct left right / (√(normSq left) * √(normSq right))) := by
  unfold Embedding.cosine
  by_cases hlength : left.length ≠ right.length
  · rw [if_pos (Or.inl hlength), if_pos (Or.inl hlength)]
  by_cases hempty : left = []
  · rw [if_pos (Or.inr hempty), if_pos (Or.inr (Or.inl (hempty ▸ List.sum_nil)))]
  · rw [if_neg (not_or.mpr ⟨hlength, hempty⟩)]
    simp only [exact_sum]
    change (if (Decidable.decide (normSq left = 0) || Decidable.decide (normSq right = 0)) = true
      then none else _) = _
    simp only [Bool.or_eq_true, decide_eq_true_eq, hlength, false_or]
    rfl

theorem dot_eq (left right : Embedding ℝ) :
    left.dot (exactArithmetic infinity) right =
      if left.length ≠ right.length ∨ left = [] then none else some (innerProduct left right) := by
  unfold Embedding.dot
  rw [exact_sum]
  rfl

/-- A unit vector is its own copy of length one. -/
theorem normalized_unit (hunit : vector.normalized (exactArithmetic infinity) = some unit) :
    unit.normalized (exactArithmetic infinity) = some unit := by
  rw [normalized_eq] at hunit
  split at hunit
  · cases hunit
  next hzero =>
    obtain rfl := Option.some.inj hunit
    have hone : normSq (vector.map (· * (1 / √(normSq vector)))) = 1 := by
      rw [normSq_scale, ← mul_div_mul_comm, Real.mul_self_sqrt (normSq_nonneg vector), one_mul,
        mul_one_div_cancel hzero]
    rw [normalized_eq, hone, if_neg one_ne_zero, Real.sqrt_one, div_one]
    simp only [mul_one, List.map_id']

/-- The dot product of two unit vectors is the cosine of the vectors that they come from. -/
theorem dist_normalized (hunit : vector.normalized (exactArithmetic infinity) = some unit)
    {unitQuery : Embedding ℝ}
    (hquery : query.normalized (exactArithmetic infinity) = some unitQuery) :
    (exactArithmetic infinity).sub (exactArithmetic infinity).one
        ((unit.dot (exactArithmetic infinity) unitQuery).getD (exactArithmetic infinity).negOne) =
      NodeStore.dist (exactArithmetic infinity) vector query := by
  rw [normalized_eq] at hunit hquery
  split at hunit
  · cases hunit
  split at hquery
  · cases hquery
  next hvector hzero =>
    obtain rfl := Option.some.inj hunit
    obtain rfl := Option.some.inj hquery
    have hnonempty : vector.map (· * (1 / √(normSq vector))) ≠ [] := by
      intro hempty
      rw [List.map_eq_nil_iff.mp hempty] at hvector
      exact hvector List.sum_nil
    rw [NodeStore.dist, dot_eq, cosine_eq, List.length_map, List.length_map]
    by_cases hlength : vector.length = query.length
    · rw [if_neg (not_or.mpr ⟨not_not.mpr hlength, hnonempty⟩),
        if_neg (not_or.mpr ⟨not_not.mpr hlength, not_or.mpr ⟨hvector, hzero⟩⟩), Option.getD_some,
        Option.map_some, Option.getD_some, innerProduct_scale]
      congr 1
      rw [div_mul_div_comm, one_mul, mul_one_div]
    · rw [if_pos (Or.inl hlength), if_pos (Or.inl hlength), Option.getD_none, Option.map_none,
        Option.getD_none]
      change (1 : ℝ) - -1 = 2
      norm_num

/-- Nothing compares with a vector that is zero. -/
theorem dist_zero (vector : Embedding ℝ) (hzero : normSq query = 0) :
    NodeStore.dist (exactArithmetic infinity) vector query = 2 := by
  rw [NodeStore.dist, cosine_eq, if_pos (Or.inr (Or.inr hzero))]
  rfl

end Reals

end LoomDB
