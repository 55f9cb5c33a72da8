import Mathlib.Logic.Relation
import Mathlib.Algebra.Order.BigOperators.Group.List
import Mathlib.Algebra.Order.Group.Nat

/-!
# Graphs named by hashes

A node is named by the hash of a text, and the text mentions the names of other nodes.
Texts are hashed one after the other. Where a new text gets a name that no text hashed
so far has or mentions, names get along an order, and no node is reached from itself.
-/

namespace LoomDB

namespace HashGraph

variable {β ι : Type} {hash : β → ι} {mentions : β → ι → Prop} {texts : List β}

/-- A text that was not hashed before, the earlier ones further down the list, gets a
name that nothing has or mentions. -/
def Unforeseen (hash : β → ι) (mentions : β → ι → Prop) : List β → Prop
  | [] => True
  | text :: earlier =>
      (text ∈ earlier ∨ (∀ other ∈ earlier, hash other ≠ hash text) ∧
        ∀ other ∈ text :: earlier, ¬ mentions other (hash text)) ∧
      Unforeseen hash mentions earlier

instance decidableUnforeseen [DecidableEq β] [DecidableEq ι]
    [∀ text name, Decidable (mentions text name)] :
    (texts : List β) → Decidable (Unforeseen hash mentions texts)
  | [] => inferInstanceAs (Decidable True)
  | text :: earlier =>
      have : Decidable (Unforeseen hash mentions earlier) := decidableUnforeseen earlier
      inferInstanceAs (Decidable ((text ∈ earlier ∨ (∀ other ∈ earlier, hash other ≠ hash text) ∧
        ∀ other ∈ text :: earlier, ¬ mentions other (hash text)) ∧
        Unforeseen hash mentions earlier))

/-- One of the texts mentions the first name and has the second. -/
def Names (hash : β → ι) (mentions : β → ι → Prop) (texts : List β) (parent child : ι) : Prop :=
  ∃ text ∈ texts, mentions text parent ∧ hash text = child

/-- Names get along an order: a text comes after each text it mentions. -/
theorem Unforeseen.exists_rank (hunforeseen : Unforeseen hash mentions texts) :
    ∃ rank : ι → ℕ, ∀ text ∈ texts, ∀ other ∈ texts, mentions text (hash other) →
      rank (hash other) < rank (hash text) := by
  classical
  induction texts with
  | nil => exact ⟨fun _ => 0, fun text htext => nomatch htext⟩
  | cons text earlier ih =>
      obtain ⟨hnew, hearlier⟩ := hunforeseen
      obtain ⟨rank, hrank⟩ := ih hearlier
      rcases hnew with hold | ⟨hname, hmentions⟩
      · -- The text is an earlier one.
        refine ⟨rank, fun left hleft right hright => hrank left ?_ right ?_⟩
        · rcases List.mem_cons.mp hleft with rfl | hleft
          · exact hold
          · exact hleft
        · rcases List.mem_cons.mp hright with rfl | hright
          · exact hold
          · exact hright
      · -- The new name comes after all the others.
        refine ⟨Function.update rank (hash text)
          ((earlier.map fun other => rank (hash other)).sum + 1),
          fun left hleft right hright hmention => ?_⟩
        rcases List.mem_cons.mp hright with rfl | hbefore
        · exact absurd hmention (hmentions left hleft)
        rw [Function.update_of_ne (hname right hbefore)]
        rcases List.mem_cons.mp hleft with rfl | hleft
        · rw [Function.update_self]
          exact Nat.lt_succ_of_le (List.single_le_sum (fun _ _ => Nat.zero_le _) _
            (List.mem_map_of_mem hbefore))
        · rw [Function.update_of_ne (hname left hleft)]
          exact hrank left hleft right hbefore hmention

/-- What an edge leads to has a text. -/
theorem exists_text_of_transGen {first last : ι}
    (hreach : Relation.TransGen (Names hash mentions texts) first last) :
    ∃ text ∈ texts, hash text = last := by
  cases hreach with
  | single hedge =>
      obtain ⟨text, htext, -, heq⟩ := hedge
      exact ⟨text, htext, heq⟩
  | tail _ hedge =>
      obtain ⟨text, htext, -, heq⟩ := hedge
      exact ⟨text, htext, heq⟩

/-- No node is reached from itself. -/
theorem Unforeseen.acyclic (hunforeseen : Unforeseen hash mentions texts) (name : ι) :
    ¬ Relation.TransGen (Names hash mentions texts) name name := by
  obtain ⟨rank, hrank⟩ := hunforeseen.exists_rank
  have hedge : ∀ {parent child : ι}, Names hash mentions texts parent child →
      (∃ text ∈ texts, hash text = parent) → rank parent < rank child := by
    rintro _ _ ⟨text, htext, hmention, rfl⟩ ⟨other, hother, rfl⟩
    exact hrank text htext other hother hmention
  -- A path goes up in rank, if it starts at a name that a text has.
  have hpath : ∀ {first last : ι}, Relation.TransGen (Names hash mentions texts) first last →
      (∃ text ∈ texts, hash text = first) → rank first < rank last := by
    intro first last hreach hfirst
    induction hreach with
    | single hlast => exact hedge hlast hfirst
    | tail hreach hlast ih => exact ih.trans (hedge hlast (exists_text_of_transGen hreach))
  intro hcycle
  exact lt_irrefl _ (hpath hcycle (exists_text_of_transGen hcycle))

end HashGraph

end LoomDB
