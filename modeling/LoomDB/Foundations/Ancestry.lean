import LoomDB.Foundations.OrderedMap
import Mathlib.Data.Set.Card
import Mathlib.Data.Set.Finite.Basic
import Mathlib.Logic.Relation

/-!
# Ancestors in a graph of parents

A commit graph gives each commit its parents. This module has the walk that
collects all ancestors of a commit, with the proof that it collects exactly
those, and the maximal common ancestors of two commits: where every commit comes
after its parents, each common ancestor lies below a maximal one, and a maximal
one that is alone has all the others below it.
-/

namespace LoomDB

open Std (ExtTreeSet)

namespace Ancestry

variable {κ : Type}

/-- The commit is the start or a parent of a parent of it, and so on. -/
def Ancestor (parents : κ → List κ) (start commit : κ) : Prop :=
  Relation.ReflTransGen (fun child parent => parent ∈ parents child) start commit

variable {parents : κ → List κ} {start middle commit other : κ}

theorem Ancestor.refl (parents : κ → List κ) (start : κ) : Ancestor parents start start :=
  Relation.ReflTransGen.refl

theorem Ancestor.trans (hmiddle : Ancestor parents start middle)
    (hcommit : Ancestor parents middle commit) : Ancestor parents start commit :=
  Relation.ReflTransGen.trans hmiddle hcommit

theorem Ancestor.of_parent (hparent : commit ∈ parents start) : Ancestor parents start commit :=
  Relation.ReflTransGen.single hparent

theorem ancestor_iff : Ancestor parents start commit ↔
    commit = start ∨ ∃ parent ∈ parents start, Ancestor parents parent commit := by
  rw [Ancestor, Relation.ReflTransGen.cases_head_iff, eq_comm]
  rfl

/-- Ancestors through parents that another graph has as ancestors. -/
theorem Ancestor.imp {parents' : κ → List κ}
    (hparents : ∀ child, Ancestor parents start child → ∀ parent ∈ parents child,
      Ancestor parents' child parent)
    (hcommit : Ancestor parents start commit) : Ancestor parents' start commit := by
  induction hcommit with
  | refl => exact .refl parents' start
  | tail hchild hparent ih => exact ih.trans (hparents _ hchild _ hparent)

/-! ## The walk -/

section Walk

variable [Ord κ] [Std.TransOrd κ]

/-- Visit what is on the stack and all its ancestors, each commit once. -/
def walk (parents : κ → List κ) : ℕ → List κ → ExtTreeSet κ → Option (ExtTreeSet κ)
  | _, [], seen => some seen
  | 0, _ :: _, _ => none
  | fuel + 1, commit :: stack, seen =>
      if commit ∈ seen then walk parents fuel stack seen
      else walk parents fuel ((parents commit).reverse ++ stack) (seen.insert commit)

/-- What has been seen reaches what is seen, or goes through the stack. -/
theorem Ancestor.seen_or {stack : List κ} {seen : ExtTreeSet κ}
    (hclosed : ∀ child ∈ seen, ∀ parent ∈ parents child, parent ∈ seen ∨ parent ∈ stack)
    (hcommit : Ancestor parents start commit) (hstart : start ∈ seen) :
    commit ∈ seen ∨ ∃ start ∈ stack, Ancestor parents start commit := by
  induction hcommit using Relation.ReflTransGen.head_induction_on with
  | refl => exact Or.inl hstart
  | head hparent hrest ih =>
      rcases hclosed _ hstart _ hparent with hseen | hstack
      · exact ih hseen
      · exact Or.inr ⟨_, hstack, hrest⟩

/-- A walk ends that has fuel for its stack and for all that is still to come on it. -/
theorem walk_ne_none (pending : ExtTreeSet κ → ℕ)
    (hpending : ∀ (seen : ExtTreeSet κ) (commit : κ), commit ∉ seen →
      pending (seen.insert commit) + (parents commit).length ≤ pending seen)
    {fuel : ℕ} {stack : List κ} {seen : ExtTreeSet κ}
    (hfuel : stack.length + pending seen ≤ fuel) : walk parents fuel stack seen ≠ none := by
  induction fuel generalizing stack seen with
  | zero =>
      cases stack with
      | nil => exact Option.some_ne_none seen
      | cons first stack => simp at hfuel
  | succ fuel ih =>
      cases stack with
      | nil => exact Option.some_ne_none seen
      | cons first stack =>
          rw [List.length_cons] at hfuel
          rw [walk]
          split
          · exact ih (by omega)
          · next hseen =>
            have hstep := hpending seen first hseen
            refine ih ?_
            rw [List.length_append, List.length_reverse]
            omega

/-- How many parents the commits that were not seen have, by a list of sizes. -/
def pendingParents : List (κ × ℕ) → ExtTreeSet κ → ℕ
  | [], _ => 0
  | (commit, size) :: sizes, seen =>
      (if commit ∈ seen then 0 else size) + pendingParents sizes seen

theorem pendingParents_empty (sizes : List (κ × ℕ)) :
    pendingParents sizes ∅ = (sizes.map Prod.snd).sum := by
  induction sizes with
  | nil => rfl
  | cons entry sizes ih => rw [pendingParents, ih, if_neg ExtTreeSet.not_mem_empty]; rfl

theorem pendingParents_insert_le (sizes : List (κ × ℕ)) (seen : ExtTreeSet κ) (commit : κ) :
    pendingParents sizes (seen.insert commit) ≤ pendingParents sizes seen := by
  induction sizes with
  | nil => exact le_rfl
  | cons entry sizes ih =>
      apply Nat.add_le_add _ ih
      by_cases hseen : entry.1 ∈ seen
      · rw [if_pos (ExtTreeSet.mem_insert.mpr (Or.inr hseen))]
        exact Nat.zero_le _
      · rw [if_neg hseen]
        split
        · exact Nat.zero_le _
        · exact le_rfl

theorem pendingParents_insert {sizes : List (κ × ℕ)} {seen : ExtTreeSet κ} {commit : κ} {size : ℕ}
    (hmem : (commit, size) ∈ sizes) (hseen : commit ∉ seen) :
    pendingParents sizes (seen.insert commit) + size ≤ pendingParents sizes seen := by
  induction sizes with
  | nil => cases hmem
  | cons entry sizes ih =>
      rw [pendingParents, pendingParents]
      rcases List.mem_cons.mp hmem with rfl | hmem
      · have hrest := pendingParents_insert_le sizes seen commit
        rw [if_neg hseen, if_pos ExtTreeSet.mem_insert_self]
        omega
      · have hrest := ih hmem
        have hfirst := pendingParents_insert_le [entry] seen commit
        simp only [pendingParents] at hfirst
        omega

/-- A walk ends if a list has enough parents for every commit that has some. -/
theorem walk_ne_none_of_sizes {sizes : List (κ × ℕ)}
    (hsizes : ∀ commit, parents commit ≠ [] → ∃ size, (commit, size) ∈ sizes ∧
      (parents commit).length ≤ size) {fuel : ℕ}
    (hfuel : 1 + (sizes.map Prod.snd).sum ≤ fuel) : walk parents fuel [start] ∅ ≠ none := by
  apply walk_ne_none (pendingParents sizes)
  · intro seen commit hseen
    by_cases hnone : parents commit = []
    · rw [hnone]
      exact pendingParents_insert_le sizes seen commit
    · obtain ⟨size, hmem, hle⟩ := hsizes commit hnone
      exact (Nat.add_le_add_left hle _).trans (pendingParents_insert hmem hseen)
  · rw [pendingParents_empty]
    exact hfuel

variable [Std.LawfulEqOrd κ]

/-- The walk keeps what it has seen closed up to what is on the stack. -/
theorem mem_walk {fuel : ℕ} {stack : List κ} {seen found : ExtTreeSet κ}
    (hclosed : ∀ child ∈ seen, ∀ parent ∈ parents child, parent ∈ seen ∨ parent ∈ stack)
    (hwalk : walk parents fuel stack seen = some found) {commit : κ} :
    commit ∈ found ↔ commit ∈ seen ∨ ∃ start ∈ stack, Ancestor parents start commit := by
  induction fuel generalizing stack seen with
  | zero =>
      cases stack with
      | nil =>
          obtain rfl : seen = found := by simpa [walk] using hwalk
          simp
      | cons first stack => simp [walk] at hwalk
  | succ fuel ih =>
      cases stack with
      | nil =>
          obtain rfl : seen = found := by simpa [walk] using hwalk
          simp
      | cons first stack =>
          rw [walk] at hwalk
          by_cases hseen : first ∈ seen
          · rw [if_pos hseen] at hwalk
            have hclosed' : ∀ child ∈ seen, ∀ parent ∈ parents child,
                parent ∈ seen ∨ parent ∈ stack := by
              intro child hchild parent hparent
              rcases hclosed child hchild parent hparent with hmem | hmem
              · exact Or.inl hmem
              · rcases List.mem_cons.mp hmem with rfl | hmem
                · exact Or.inl hseen
                · exact Or.inr hmem
            rw [ih hclosed' hwalk]
            constructor
            · exact Or.imp_right fun ⟨start, hstart, hreach⟩ =>
                ⟨start, List.mem_cons_of_mem _ hstart, hreach⟩
            · rintro (hmem | ⟨start, hstart, hreach⟩)
              · exact Or.inl hmem
              · rcases List.mem_cons.mp hstart with rfl | hstart
                · exact hreach.seen_or hclosed' hseen
                · exact Or.inr ⟨start, hstart, hreach⟩
          · rw [if_neg hseen] at hwalk
            have hclosed' : ∀ child ∈ seen.insert first, ∀ parent ∈ parents child,
                parent ∈ seen.insert first ∨ parent ∈ (parents first).reverse ++ stack := by
              intro child hchild parent hparent
              rw [ExtTreeSet.mem_insert, Std.LawfulEqCmp.compare_eq_iff_eq] at hchild ⊢
              rw [List.mem_append, List.mem_reverse]
              rcases hchild with rfl | hchild
              · exact Or.inr (Or.inl hparent)
              · rcases hclosed child hchild parent hparent with hmem | hmem
                · exact Or.inl (Or.inr hmem)
                · rcases List.mem_cons.mp hmem with rfl | hmem
                  · exact Or.inl (Or.inl rfl)
                  · exact Or.inr (Or.inr hmem)
            rw [ih hclosed' hwalk, ExtTreeSet.mem_insert, Std.LawfulEqCmp.compare_eq_iff_eq]
            constructor
            · rintro ((rfl | hmem) | ⟨start, hstart, hreach⟩)
              · exact Or.inr ⟨first, List.mem_cons_self, .refl _ _⟩
              · exact Or.inl hmem
              · rcases List.mem_append.mp hstart with hstart | hstart
                · refine Or.inr ⟨first, List.mem_cons_self, ?_⟩
                  exact (Ancestor.of_parent (List.mem_reverse.mp hstart)).trans hreach
                · exact Or.inr ⟨start, List.mem_cons_of_mem _ hstart, hreach⟩
            · rintro (hmem | ⟨start, hstart, hreach⟩)
              · exact Or.inl (Or.inr hmem)
              · rcases List.mem_cons.mp hstart with rfl | hstart
                · rcases ancestor_iff.mp hreach with rfl | ⟨parent, hparent, hreach⟩
                  · exact Or.inl (Or.inl rfl)
                  · exact Or.inr ⟨parent, List.mem_append_left _ (List.mem_reverse.mpr hparent),
                      hreach⟩
                · exact Or.inr ⟨start, List.mem_append_right _ hstart, hreach⟩

/-- A walk from one commit finds its ancestors. -/
theorem mem_walk_singleton {fuel : ℕ} {found : ExtTreeSet κ}
    (hwalk : walk parents fuel [start] ∅ = some found) {commit : κ} :
    commit ∈ found ↔ Ancestor parents start commit := by
  rw [mem_walk (by simp) hwalk]
  simp

end Walk

/-! ## Maximal common ancestors -/

/-- A common ancestor that no other one comes after. -/
structure MaximalCommon (parents : κ → List κ) (left right commit : κ) : Prop where
  ofLeft : Ancestor parents left commit
  ofRight : Ancestor parents right commit
  maximal : ∀ other, Ancestor parents left other → Ancestor parents right other →
    Ancestor parents other commit → other = commit

section Acyclic

variable {left right : κ}

theorem maximalCommon_comm :
    MaximalCommon parents left right commit ↔ MaximalCommon parents right left commit :=
  ⟨fun h => ⟨h.ofRight, h.ofLeft, fun other hright hleft => h.maximal other hleft hright⟩,
    fun h => ⟨h.ofRight, h.ofLeft, fun other hright hleft => h.maximal other hleft hright⟩⟩

/-- No commit comes after itself. -/
def Acyclic (parents : κ → List κ) : Prop :=
  ∀ child, ∀ parent ∈ parents child, ¬ Ancestor parents parent child

/-- Where parents have lower ranks, so have ancestors. -/
theorem Ancestor.rank_le {rank : κ → ℕ}
    (hrank : ∀ child, ∀ parent ∈ parents child, rank parent < rank child)
    (hcommit : Ancestor parents start commit) : rank commit ≤ rank start := by
  induction hcommit with
  | refl => exact le_rfl
  | tail _ hparent ih => exact (hrank _ _ hparent).le.trans ih

theorem acyclic_of_rank (rank : κ → ℕ)
    (hrank : ∀ child, ∀ parent ∈ parents child, rank parent < rank child) : Acyclic parents :=
  fun child parent hparent hchild =>
    absurd (hchild.rank_le hrank) (Nat.not_le.mpr (hrank child parent hparent))

theorem Acyclic.antisymm (hacyclic : Acyclic parents) (hcommit : Ancestor parents start commit)
    (hstart : Ancestor parents commit start) : commit = start := by
  rcases ancestor_iff.mp hcommit with heq | ⟨parent, hparent, hreach⟩
  · exact heq
  · exact absurd (hreach.trans hstart) (hacyclic start parent hparent)

/-- Every common ancestor lies below a maximal one. -/
theorem Acyclic.exists_maximalCommon (hacyclic : Acyclic parents)
    (hfinite : {other | Ancestor parents left other}.Finite)
    (hleft : Ancestor parents left commit) (hright : Ancestor parents right commit) :
    ∃ base, MaximalCommon parents left right base ∧ Ancestor parents base commit := by
  -- Each step up leaves fewer commits between `left` and the common ancestor.
  induction hbetween : {other | Ancestor parents left other ∧ Ancestor parents other commit}.ncard
    using Nat.strong_induction_on generalizing commit with
  | _ between ih =>
      by_cases hmaximal : ∀ other, Ancestor parents left other → Ancestor parents right other →
          Ancestor parents other commit → other = commit
      · exact ⟨commit, ⟨hleft, hright, hmaximal⟩, .refl _ _⟩
      · push Not at hmaximal
        obtain ⟨other, hleft', hright', hcommit, hne⟩ := hmaximal
        have hfewer : {x | Ancestor parents left x ∧ Ancestor parents x other}.ncard < between := by
          rw [← hbetween]
          apply Set.ncard_lt_ncard _ (hfinite.subset fun x hx => hx.1)
          refine ⟨fun x hx => ⟨hx.1, hx.2.trans hcommit⟩, fun hsubset => hne ?_⟩
          have hback := hsubset (show commit ∈ _ from ⟨hleft, .refl _ _⟩)
          exact (hacyclic.antisymm hcommit hback.2).symm
        obtain ⟨base, hbase, hother⟩ := ih _ hfewer hleft' hright' rfl
        exact ⟨base, hbase, hother.trans hcommit⟩

end Acyclic

end Ancestry

end LoomDB
