import LoomDB.Memory.PackingOrder
import Mathlib.Algebra.Order.BigOperators.Group.List

/-!
# What packing accounts for

A packed context says what its items cost and how many candidates it left out. The account is right
as long as no sum of costs passes the end of the integers; below the largest budget none can.
-/

namespace LoomDB

variable {ranking : Ranking} {scored : List ScoredCandidate} {budgetTokens : U32}

/-- What an item costs. -/
def ScoredCandidate.cost (candidate : ScoredCandidate) : ℕ :=
  estimate candidate.entry.text

namespace Budget

/-- Spending this much cannot overflow. -/
def Room (budget : Budget) (cost : ℕ) : Prop :=
  budget.total + 1 < 2 ^ 32 ∨ budget.spent + cost < 2 ^ 32

theorem Room.mono {budget : Budget} {cost less : ℕ} (hroom : budget.Room cost)
    (hless : less ≤ cost) : budget.Room less :=
  hroom.imp_right fun hfits => lt_of_le_of_lt (Nat.add_le_add_left hless _) hfits

/-- With room the sums are those of the numbers. -/
theorem spend_of_room {budget : Budget} {cost : ℕ} (hbudget : budget.total < 2 ^ 32)
    (hroom : budget.Room cost) :
    budget.spend cost = if budget.spent + cost ≤ budget.total then
      (true, { budget with spent := budget.spent + cost }) else (false, budget) := by
  unfold Room at hroom
  unfold spend fits
  by_cases hfits : budget.spent + cost ≤ budget.total
  · have hsum : budget.spent + cost < 2 ^ 32 := by omega
    have hmin : min (budget.spent + cost) (2 ^ 32 - 1) ≤ budget.total := by omega
    rw [if_pos hfits, if_pos (by simpa using hmin), Nat.mod_eq_of_lt hsum]
  · have hmin : ¬ min (budget.spent + cost) (2 ^ 32 - 1) ≤ budget.total := by omega
    rw [if_neg hfits, if_neg (by simpa using hmin)]

end Budget

/-! ## Packing some candidates -/

/-- What the packing has come to behind some of the candidates. -/
def packed (before : List ScoredCandidate) (budgetTokens : U32) :
    List PackedItem × Budget × ℕ :=
  packInto before (Budget.new budgetTokens.val) [] 0

theorem packInto_append (before after : List ScoredCandidate) (budget : Budget)
    (items : List PackedItem) (dropped : ℕ) :
    packInto (before ++ after) budget items dropped =
      packInto after (packInto before budget items dropped).2.1
        (packInto before budget items dropped).1 (packInto before budget items dropped).2.2 := by
  induction before generalizing budget items dropped with
  | nil => rfl
  | cons candidate before ih =>
      rw [List.cons_append, packInto, packInto]
      split <;> exact ih _ _ _

/-- The account so far is right. -/
structure Accounts (before : List ScoredCandidate) (budgetTokens : U32)
    (state : List PackedItem × Budget × ℕ) : Prop where
  total : state.2.1.total = budgetTokens.val
  used : (state.1.map PackedItem.tokens).sum = state.2.1.spent
  within : state.2.1.spent ≤ budgetTokens.val
  counted : state.1.length + state.2.2 = before.length
  whole : ∃ kept : List ScoredCandidate, kept.Sublist before ∧
    state.1 = kept.map ScoredCandidate.item

theorem Accounts.spent_le {before : List ScoredCandidate}
    {state : List PackedItem × Budget × ℕ} (haccounts : Accounts before budgetTokens state) :
    state.2.1.spent ≤ (before.map ScoredCandidate.cost).sum := by
  obtain ⟨kept, hkept, hitems⟩ := haccounts.whole
  rw [← haccounts.used, hitems, List.map_map]
  exact (hkept.map ScoredCandidate.cost).sum_le_sum fun _ _ => Nat.zero_le _

/-- No sum of the costs passes the end of the integers. -/
def NoSumOverflows (scored : List ScoredCandidate) (budgetTokens : U32) : Prop :=
  budgetTokens.val + 1 < 2 ^ 32 ∨ (scored.map ScoredCandidate.cost).sum < 2 ^ 32

theorem Accounts.room {before : List ScoredCandidate} {state : List PackedItem × Budget × ℕ}
    {candidate : ScoredCandidate} (haccounts : Accounts before budgetTokens state)
    (hsum : NoSumOverflows (before ++ [candidate]) budgetTokens) :
    state.2.1.Room candidate.cost := by
  refine hsum.imp (fun hbudget => by rwa [haccounts.total]) fun hsum => ?_
  have hspent := haccounts.spent_le
  rw [List.map_append, List.sum_append] at hsum
  simp only [List.map_cons, List.map_nil, List.sum_cons, List.sum_nil] at hsum
  omega

/-- One more candidate, taken or left out. -/
theorem Accounts.next {before : List ScoredCandidate} {items : List PackedItem} {budget : Budget}
    {dropped : ℕ} (haccounts : Accounts before budgetTokens (items, budget, dropped))
    {candidate : ScoredCandidate} (hroom : budget.Room candidate.cost) :
    Accounts (before ++ [candidate]) budgetTokens (packInto [candidate] budget items dropped) := by
  obtain ⟨htotal, hused, hwithin, hcounted, kept, hkept, hitems⟩ := haccounts
  dsimp only at htotal hused hwithin hcounted hitems
  have hspend := Budget.spend_of_room (by rw [htotal]; exact budgetTokens.isLt) hroom
  unfold packInto
  rw [ScoredCandidate.cost] at hspend
  by_cases hfits : budget.spent + estimate candidate.entry.text ≤ budget.total
  · rw [hspend, if_pos hfits]
    refine ⟨htotal, ?_, htotal ▸ hfits, ?_, kept ++ [candidate], hkept.append_right _, ?_⟩
    · simp [packInto, hused, ScoredCandidate.item]
    · simp only [packInto, List.length_append, List.length_singleton]
      omega
    · simp [packInto, hitems]
  · rw [hspend, if_neg hfits]
    refine ⟨htotal, hused, hwithin, ?_, kept, hkept.trans (List.sublist_append_left _ _), hitems⟩
    simp only [packInto, List.length_append, List.length_singleton]
    omega

theorem NoSumOverflows.mono {fewer : List ScoredCandidate}
    (hsum : NoSumOverflows scored budgetTokens) (hfewer : fewer.Sublist scored) :
    NoSumOverflows fewer budgetTokens :=
  hsum.imp_right fun hlt => lt_of_le_of_lt
    ((hfewer.map ScoredCandidate.cost).sum_le_sum fun _ _ => Nat.zero_le _) hlt

theorem accounts_packed (before : List ScoredCandidate)
    (hsum : NoSumOverflows before budgetTokens) :
    Accounts before budgetTokens (packed before budgetTokens) := by
  induction before using List.reverseRecOn with
  | nil => exact ⟨rfl, rfl, Nat.zero_le _, rfl, [], .refl _, rfl⟩
  | append_singleton before candidate ih =>
      have haccounts := ih (hsum.mono (List.sublist_append_left _ _))
      unfold packed at haccounts ⊢
      rw [packInto_append]
      exact haccounts.next (haccounts.room hsum)

/-! ## The whole context -/

/-- The context accounts for every candidate: whole items, whose costs add up to what was used and
are within the budget, and a count of the others, none of which would have fitted when its turn
came; and no addition on the way overflows. -/
structure PacksExactly (ranking : Ranking) (scored : List ScoredCandidate) (budgetTokens : U32) :
    Prop where
  whole : ∃ kept : List ScoredCandidate, kept.Sublist (ranking.sort scored) ∧
    (pack ranking scored budgetTokens.val).items = kept.map ScoredCandidate.item
  used : ((pack ranking scored budgetTokens.val).items.map PackedItem.tokens).sum =
    (pack ranking scored budgetTokens.val).usedTokens
  within : (pack ranking scored budgetTokens.val).usedTokens ≤ budgetTokens.val
  considered : (pack ranking scored budgetTokens.val).considered = scored.length
  counted : (pack ranking scored budgetTokens.val).items.length +
    (pack ranking scored budgetTokens.val).droppedForBudget = scored.length
  passedOver : ∀ before candidate after, ranking.sort scored = before ++ candidate :: after →
    ((packed before budgetTokens).2.1.spend candidate.cost).1 = false →
      budgetTokens.val <
        ((packed before budgetTokens).1.map PackedItem.tokens).sum + candidate.cost
  added : ∀ before candidate after, ranking.sort scored = before ++ candidate :: after →
    ((packed before budgetTokens).2.1.spend candidate.cost).1 = true →
      (packed before budgetTokens).2.1.spent + candidate.cost < 2 ^ 32

theorem noSumOverflows_sort (ranking : Ranking) :
    NoSumOverflows (ranking.sort scored) budgetTokens ↔ NoSumOverflows scored budgetTokens := by
  unfold NoSumOverflows
  rw [((ranking.perm scored).map ScoredCandidate.cost).sum_eq]

theorem packsExactly_of_noSumOverflows (hsum : NoSumOverflows scored budgetTokens) :
    PacksExactly ranking scored budgetTokens := by
  have hsorted := (noSumOverflows_sort ranking).mpr hsum
  have haccounts := accounts_packed (ranking.sort scored) hsorted
  have hcases : ∀ before candidate after, ranking.sort scored = before ++ candidate :: after →
      Accounts before budgetTokens (packed before budgetTokens) ∧
        (packed before budgetTokens).2.1.Room candidate.cost := by
    intro before candidate after hsplit
    have hbefore : before.Sublist (ranking.sort scored) :=
      hsplit ▸ List.sublist_append_left before (candidate :: after)
    have hnext : (before ++ [candidate]).Sublist (ranking.sort scored) := by
      rw [hsplit, List.append_cons before candidate after]
      exact List.sublist_append_left _ _
    have hheld := accounts_packed before (hsorted.mono hbefore)
    exact ⟨hheld, hheld.room (hsorted.mono hnext)⟩
  refine ⟨haccounts.whole, haccounts.used, haccounts.within, rfl, ?_, ?_, ?_⟩
  · rw [← (ranking.perm scored).length_eq]
    exact haccounts.counted
  · intro before candidate after hsplit hrefused
    obtain ⟨hheld, hroom⟩ := hcases before candidate after hsplit
    rw [Budget.spend_of_room (by rw [hheld.total]; exact budgetTokens.isLt) hroom] at hrefused
    rw [hheld.used, ← hheld.total]
    by_contra hfits
    rw [if_pos (not_lt.mp hfits)] at hrefused
    cases hrefused
  · intro before candidate after hsplit hspent
    obtain ⟨hheld, hroom⟩ := hcases before candidate after hsplit
    have hbudget := budgetTokens.isLt
    rw [Budget.spend_of_room (by rw [hheld.total]; exact hbudget) hroom] at hspent
    by_contra hover
    rw [if_neg] at hspent
    · cases hspent
    · rw [hheld.total]
      omega

/-- At the largest budget everything is taken, and so its cost is added up. -/
theorem sum_lt_of_added (hlargest : budgetTokens.val + 1 = 2 ^ 32)
    (hadded : ∀ before candidate after, ranking.sort scored = before ++ candidate :: after →
      ((packed before budgetTokens).2.1.spend candidate.cost).1 = true →
        (packed before budgetTokens).2.1.spent + candidate.cost < 2 ^ 32) :
    (scored.map ScoredCandidate.cost).sum < 2 ^ 32 := by
  have hpacks : ∀ before, before <+: ranking.sort scored →
      (packed before budgetTokens).2.1 =
        { total := budgetTokens.val, spent := (before.map ScoredCandidate.cost).sum } ∧
      (before.map ScoredCandidate.cost).sum < 2 ^ 32 := by
    intro before
    induction before using List.reverseRecOn with
    | nil => exact fun _ => ⟨rfl, by decide⟩
    | append_singleton before candidate ih =>
        rintro ⟨after, hsplit⟩
        obtain ⟨hreached, -⟩ := ih ⟨candidate :: after, by rw [← hsplit]; simp⟩
        have hfits : (packed before budgetTokens).2.1.fits candidate.cost = true := by
          rw [hreached, Budget.fits]
          refine decide_eq_true ?_
          dsimp only
          omega
        have hlt := hadded before candidate after (by rw [← hsplit]; simp)
          (by rw [Budget.spend, if_pos hfits])
        rw [hreached] at hlt
        have hsum : ((before ++ [candidate]).map ScoredCandidate.cost).sum =
            (before.map ScoredCandidate.cost).sum + candidate.cost := by simp
        rw [hsum]
        refine ⟨?_, hlt⟩
        unfold packed at hreached hfits ⊢
        rw [packInto_append]
        unfold packInto
        rw [Budget.spend]
        rw [ScoredCandidate.cost] at hfits hlt ⊢
        rw [if_pos hfits, hreached]
        simp only [packInto]
        rw [Nat.mod_eq_of_lt hlt]
  have hall := (hpacks (ranking.sort scored) (List.prefix_refl _)).2
  rwa [((ranking.perm scored).map ScoredCandidate.cost).sum_eq] at hall

theorem charCount_replicate (count : ℕ) : charCount (List.replicate count 0x61) = count := by
  simp [charCount]

/-- A candidate of so many letters. -/
def wordy (key : Key) (letters : ℕ) : ScoredCandidate where
  entry :=
    { key := key, text := List.replicate letters 0x61, embedding := none
      citations := [], stale := false, label := .human }
  score := 0

/-- Packing is exact unless the budget is the largest one and the candidates together cost more
than an integer holds. -/
theorem packsExactly_iff (ranking : Ranking) (scored : List ScoredCandidate) (budgetTokens : U32) :
    PacksExactly ranking scored budgetTokens ↔
      (budgetTokens.val = 2 ^ 32 - 1 → (scored.map ScoredCandidate.cost).sum < 2 ^ 32) := by
  have hbudget := budgetTokens.isLt
  constructor
  · intro hexact hlargest
    exact sum_lt_of_added (by omega) hexact.added
  · intro hcondition
    apply packsExactly_of_noSumOverflows
    by_cases hlargest : budgetTokens.val = 2 ^ 32 - 1
    · exact Or.inr (hcondition hlargest)
    · exact Or.inl (by omega)

/-- Four candidates of nearly four gibibytes each, and no limit. -/
theorem not_packsExactly_wordy :
    ¬ PacksExactly (.byInsertion fun _ _ => 0)
      [wordy [1] (2 ^ 32 - 1), wordy [2] (2 ^ 32 - 1), wordy [3] (2 ^ 32 - 1),
        wordy [4] (2 ^ 32 - 1)] (Fin.ofNat (256 ^ 4) (2 ^ 32 - 1)) := by
  intro hexact
  have hsum := sum_lt_of_added (by decide) hexact.added
  have hcost : ∀ key, (wordy key (2 ^ 32 - 1)).cost = 2 ^ 30 + 1 := by
    intro key
    rw [ScoredCandidate.cost, wordy, estimate, charCount_replicate]
    norm_num
  simp only [List.map_cons, List.map_nil, List.sum_cons, List.sum_nil, hcost] at hsum
  omega

end LoomDB
