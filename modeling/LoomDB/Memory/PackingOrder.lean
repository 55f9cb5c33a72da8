import LoomDB.Foundations.Comparison
import LoomDB.Memory.Retrieval

/-!
# The order of packing

The best candidate comes first, and the lesser key if the scores do not tell. A score that is not a
number compares with none, so the comparison is a total order only if no such score comes between
two candidates that the scores put the other way than the keys.
-/

namespace LoomDB

open Comparison (ConsistentOn)

/-- The comparison the candidates are sorted by. -/
def ScoredCandidate.order (a b : ScoredCandidate) : Ordering :=
  ((F32.partialCmp b.score a.score).getD .eq).then (compare a.entry.key b.entry.key)

/-- Sorting by a total order puts items in this order. -/
def Ranking.Sorts (ranking : Ranking) : Prop :=
  ∀ scored, ConsistentOn ScoredCandidate.order scored →
    (ranking.sort scored).Pairwise fun a b => (ScoredCandidate.order a b).isLE = true

/-- Sorting as it is done for a few items. -/
def Ranking.byInsertion (scoreCandidate : RetrievalQuery → IndexEntry → F32) : Ranking where
  scoreCandidate := scoreCandidate
  sort := Comparison.insertionSort ScoredCandidate.order
  perm := Comparison.perm_insertionSort ScoredCandidate.order

theorem Ranking.byInsertion_sorts (scoreCandidate : RetrievalQuery → IndexEntry → F32) :
    (Ranking.byInsertion scoreCandidate).Sorts :=
  fun _ hconsistent => hconsistent.pairwise_insertionSort

namespace ScoredCandidate

/-- The key of the one is not after that of the other. -/
def KeyLE (a b : ScoredCandidate) : Prop :=
  (compare a.entry.key b.entry.key).isLE = true

/-- Both scores are numbers. -/
def Comparable (a b : ScoredCandidate) : Prop :=
  F32.isNaN a.score = false ∧ F32.isNaN b.score = false

instance (a b : ScoredCandidate) : Decidable (KeyLE a b) :=
  inferInstanceAs (Decidable (_ = true))

instance (a b : ScoredCandidate) : Decidable (Comparable a b) :=
  inferInstanceAs (Decidable (_ ∧ _))

/-- A score that is no number stands between two that the scores put the other way than the
keys. -/
def Crossed (scored : List ScoredCandidate) : Prop :=
  ∃ low ∈ scored, ∃ middle ∈ scored, ∃ high ∈ scored,
    F32.isNaN middle.score = true ∧ Comparable low high ∧
      KeyLE low middle ∧ KeyLE middle high ∧ F32.rank low.score < F32.rank high.score

variable {a b c : ScoredCandidate}

theorem KeyLE.trans (hab : KeyLE a b) (hbc : KeyLE b c) : KeyLE a c :=
  Std.TransCmp.isLE_trans hab hbc

theorem keyLE_of_not (hab : ¬ KeyLE a b) : KeyLE b a := by
  have hkeys : compare b.entry.key a.entry.key = (compare a.entry.key b.entry.key).swap :=
    Std.OrientedCmp.eq_swap
  unfold KeyLE at hab ⊢
  rw [hkeys]
  cases hcompare : compare a.entry.key b.entry.key with
  | lt => exact absurd (by rw [hcompare]; rfl) hab
  | eq => exact absurd (by rw [hcompare]; rfl) hab
  | gt => rfl

theorem order_swap (a b : ScoredCandidate) : order b a = (order a b).swap := by
  have hscores : (F32.partialCmp a.score b.score).getD .eq =
      ((F32.partialCmp b.score a.score).getD .eq).swap := by
    have hranks : compare (F32.rank a.score) (F32.rank b.score) =
        (compare (F32.rank b.score) (F32.rank a.score)).swap := Std.OrientedCmp.eq_swap
    unfold F32.partialCmp
    rw [Bool.or_comm]
    split
    · rfl
    · exact hranks
  have hkeys : compare b.entry.key a.entry.key = (compare a.entry.key b.entry.key).swap :=
    Std.OrientedCmp.eq_swap
  rw [order, order, hscores, hkeys, Ordering.swap_then]

/-- Numbers are compared first, and then the keys. -/
theorem order_isLE_iff (hcomparable : Comparable a b) :
    (order a b).isLE = true ↔
      F32.rank b.score < F32.rank a.score ∨
        F32.rank b.score = F32.rank a.score ∧ KeyLE a b := by
  have hscores : (F32.partialCmp b.score a.score).getD .eq =
      compare (F32.rank b.score) (F32.rank a.score) := by
    simp [F32.partialCmp, hcomparable.1, hcomparable.2]
  unfold order KeyLE
  rw [hscores]
  rcases lt_trichotomy (F32.rank b.score) (F32.rank a.score) with hlt | heq | hgt
  · rw [compare_lt_iff_lt.mpr hlt]
    simp [hlt]
  · rw [compare_eq_iff_eq.mpr heq]
    simp [heq]
  · rw [compare_gt_iff_gt.mpr hgt]
    simp [not_lt.mpr hgt.le, ne_of_gt hgt]

/-- Without two numbers the keys decide. -/
theorem order_isLE_iff_of_not (hcomparable : ¬ Comparable a b) :
    (order a b).isLE = true ↔ KeyLE a b := by
  have hscores : F32.partialCmp b.score a.score = none := by
    unfold F32.partialCmp
    rw [if_pos]
    by_contra hnone
    rw [Bool.not_eq_true, Bool.or_eq_false_iff] at hnone
    exact hcomparable ⟨hnone.2, hnone.1⟩
  unfold order KeyLE
  rw [hscores]
  rfl

theorem eq_of_order_eq (horder : order a b = .eq) : a.entry.key = b.entry.key := by
  have hkeys := (Ordering.then_eq_eq.mp horder).2
  exact Std.LawfulEqCmp.eq_of_compare hkeys

/-- The comparison is a total order exactly on candidates that are not crossed. -/
theorem consistentOn_iff {scored : List ScoredCandidate} :
    ConsistentOn order scored ↔ ¬ Crossed scored := by
  constructor
  · rintro hconsistent ⟨low, hlow, middle, hmiddle, high, hhigh, hnan, hboth, hfirst, hsecond, hrank⟩
    have hlowMiddle : ¬ Comparable low middle := fun hnone => by simp [hnone.2] at hnan
    have hmiddleHigh : ¬ Comparable middle high := fun hnone => by simp [hnone.1] at hnan
    have hle := hconsistent.trans low hlow middle hmiddle high hhigh
      ((order_isLE_iff_of_not hlowMiddle).mpr hfirst)
      ((order_isLE_iff_of_not hmiddleHigh).mpr hsecond)
    rcases (order_isLE_iff hboth).mp hle with hlt | ⟨heq, -⟩
    · exact lt_asymm hrank hlt
    · exact absurd heq (ne_of_gt hrank)
  · intro hcrossed
    have hclear : ∀ low ∈ scored, ∀ middle ∈ scored, ∀ high ∈ scored,
        F32.isNaN middle.score = true → Comparable low high → KeyLE low middle →
          KeyLE middle high → F32.rank high.score ≤ F32.rank low.score := by
      intro low hlow middle hmiddle high hhigh hnan hboth hfirst hsecond
      by_contra hrank
      exact hcrossed
        ⟨low, hlow, middle, hmiddle, high, hhigh, hnan, hboth, hfirst, hsecond, not_le.mp hrank⟩
    refine ⟨fun a _ b _ => order_swap a b, fun a ha b hb c hc hab hbc => ?_⟩
    cases hnanA : F32.isNaN a.score with
    | true =>
        have hnot : ∀ other, ¬ Comparable a other := fun _ hboth => by simp [hboth.1] at hnanA
        rw [order_isLE_iff_of_not (hnot _)] at hab ⊢
        by_cases hboth : Comparable b c
        · rcases (order_isLE_iff hboth).mp hbc with hlt | ⟨-, hkeys⟩
          · -- the key of `c` is not before that of `a`, or the three would cross
            by_contra hkey
            have hrank := hclear c hc a ha b hb hnanA ⟨hboth.2, hboth.1⟩ (keyLE_of_not hkey) hab
            exact absurd hlt (not_lt.mpr hrank)
          · exact hab.trans hkeys
        · exact hab.trans ((order_isLE_iff_of_not hboth).mp hbc)
    | false =>
        cases hnanC : F32.isNaN c.score with
        | true =>
            have hnot : ∀ other, ¬ Comparable other c := fun _ hboth => by
              simp [hboth.2] at hnanC
            rw [order_isLE_iff_of_not (hnot _)] at hbc ⊢
            by_cases hboth : Comparable a b
            · rcases (order_isLE_iff hboth).mp hab with hlt | ⟨-, hkeys⟩
              · by_contra hkey
                have hrank := hclear b hb c hc a ha hnanC ⟨hboth.2, hboth.1⟩ hbc (keyLE_of_not hkey)
                exact absurd hlt (not_lt.mpr hrank)
              · exact hkeys.trans hbc
            · exact ((order_isLE_iff_of_not hboth).mp hab).trans hbc
        | false =>
            rw [order_isLE_iff ⟨hnanA, hnanC⟩]
            cases hnanB : F32.isNaN b.score with
            | true =>
                have hkeyAB := (order_isLE_iff_of_not
                  (fun hboth => by simp [hboth.2] at hnanB)).mp hab
                have hkeyBC := (order_isLE_iff_of_not
                  (fun hboth => by simp [hboth.1] at hnanB)).mp hbc
                have hrank := hclear a ha b hb c hc hnanB ⟨hnanA, hnanC⟩ hkeyAB hkeyBC
                exact hrank.lt_or_eq.imp_right fun heq => ⟨heq, hkeyAB.trans hkeyBC⟩
            | false =>
                rcases (order_isLE_iff ⟨hnanA, hnanB⟩).mp hab with hfirst | ⟨hfirst, hkeyAB⟩
                · rcases (order_isLE_iff ⟨hnanB, hnanC⟩).mp hbc with hsecond | ⟨hsecond, -⟩
                  · exact Or.inl (hsecond.trans hfirst)
                  · exact Or.inl (hsecond.trans_lt hfirst)
                · rcases (order_isLE_iff ⟨hnanB, hnanC⟩).mp hbc with hsecond | ⟨hsecond, hkeyBC⟩
                  · exact Or.inl (hsecond.trans_eq hfirst)
                  · exact Or.inr ⟨hsecond.trans hfirst, hkeyAB.trans hkeyBC⟩

end ScoredCandidate

/-- With a sort that relies on a total order, packing candidates with different keys is the same in
whatever order they come, and the comparison is one to rely on, unless they are crossed. -/
theorem pack_perm_iff (ranking : Ranking) (hsorts : ranking.Sorts) (scored : List ScoredCandidate)
    (hkeys : (scored.map fun candidate => candidate.entry.key).Nodup) :
    (ConsistentOn ScoredCandidate.order scored ∧
      ∀ other : List ScoredCandidate, other.Perm scored → ∀ budgetTokens : U32,
        pack ranking other budgetTokens.val = pack ranking scored budgetTokens.val) ↔
    ¬ ScoredCandidate.Crossed scored := by
  rw [← ScoredCandidate.consistentOn_iff]
  refine ⟨And.left, fun hconsistent => ⟨hconsistent, fun other hperm budgetTokens => ?_⟩⟩
  have hsorted : ranking.sort other = ranking.sort scored := by
    refine hconsistent.eq_of_perm ((ranking.perm other).trans hperm) (ranking.perm scored) ?_
      (hsorts other (hconsistent.mono hperm.subset)) (hsorts scored hconsistent)
    exact fun one hone two htwo horder =>
      List.inj_on_of_nodup_map hkeys hone htwo (ScoredCandidate.eq_of_order_eq horder)
  rw [pack, pack, hsorted, hperm.length_eq]

/-! ## Candidates to evaluate -/

/-- What is remembered of a fruit. -/
def fruit (key : Key) (text : String) (embedding : Option (List F32)) : IndexEntry where
  key := key
  text := ascii text
  embedding := embedding
  citations := [{ system := ascii "market", recordId := ascii "7" }]
  stale := false
  label := .human

/-- The word `plum`, and a vector whose only number is 1e30, which has an infinite square. -/
def plumQuery : RetrievalQuery where
  embedding := some [0x7149F2CA]
  text := ascii "plum"
  budget := 2

/-- What three fruits score: `plum` has the one word of the query, and the cosine of the vector and
itself is infinity over infinity. -/
def fruitScore (_ : RetrievalQuery) (entry : IndexEntry) : F32 :=
  if entry.embedding = plumQuery.embedding then 0x7FC00000
  else if entry.text = plumQuery.text then 0x3F800000
  else 0

def scoredFruit (entry : IndexEntry) : ScoredCandidate where
  entry := entry
  score := fruitScore plumQuery entry

/-- Two fruits with scores that are numbers are packed alike. -/
theorem pack_perm_iff_two :
    ConsistentOn ScoredCandidate.order
        ([fruit [1] "pear" none, fruit [2] "plum" none].map scoredFruit) ∧
      ∀ other : List ScoredCandidate,
        other.Perm ([fruit [1] "pear" none, fruit [2] "plum" none].map scoredFruit) →
          ∀ budgetTokens : U32, pack (.byInsertion fruitScore) other budgetTokens.val =
            pack (.byInsertion fruitScore)
              ([fruit [1] "pear" none, fruit [2] "plum" none].map scoredFruit)
              budgetTokens.val := by
  refine (pack_perm_iff _ (Ranking.byInsertion_sorts _) _ (by decide)).mpr ?_
  rintro ⟨-, -, middle, hmiddle, -, -, hnan, -⟩
  have hnumbers : ∀ candidate ∈ [fruit [1] "pear" none, fruit [2] "plum" none].map scoredFruit,
      F32.isNaN candidate.score = false := by decide
  rw [hnumbers middle hmiddle] at hnan
  cases hnan

/-- Zero, NaN and one: with room for one fruit, which is packed depends on what came first. -/
theorem not_pack_perm_nan :
    let pear := scoredFruit (fruit [1] "pear" none)
    let fig := scoredFruit (fruit [2] "fig" plumQuery.embedding)
    let plum := scoredFruit (fruit [3] "plum" none)
    ¬ ConsistentOn ScoredCandidate.order [pear, fig, plum] ∧
      (pack (.byInsertion fruitScore) [pear, fig, plum] plumQuery.budget).items = [pear.item] ∧
      (pack (.byInsertion fruitScore) [pear, plum, fig] plumQuery.budget).items = [plum.item] := by
  refine ⟨fun hconsistent => ?_, by decide +kernel, by decide +kernel⟩
  have hle := hconsistent.trans (scoredFruit (fruit [1] "pear" none)) (by simp)
    (scoredFruit (fruit [2] "fig" plumQuery.embedding)) (by simp)
    (scoredFruit (fruit [3] "plum" none)) (by simp) (by decide) (by decide)
  exact absurd hle (by decide)

end LoomDB
