import Mathlib.Data.List.Basic
import Mathlib.Data.List.Nodup
import Mathlib.Order.Lattice

/-!
# Search trees over pages

A page holds a sorted leaf or the separators and children of an internal node.
This module says which bindings the subtree under a page holds: the leaves are
sorted, every leaf is at the same depth, and the separators bound the keys on
both sides. A child can be singled out by a key of its range and replaced, or
replaced by two children and a separator, and an internal node can be cut in
two; these are the steps of an insertion. The ranges of the leaves may be asked to
leave room; then the separators of a node strictly increase.
-/

namespace LoomDB

/-- What a page holds. -/
inductive TreeNode (π κ ν : Type) where
  | leaf (entries : List (κ × ν))
  | internal (keys : List κ) (children : List π)

namespace SearchTree

variable {π κ ν : Type} [LinearOrder κ]

/-! ## Ranges -/

/-- The keys at or above `lo` and below `hi`; a missing bound does not bound. -/
structure InRange (lo hi : Option κ) (key : κ) : Prop where
  above : ∀ bound ∈ lo, bound ≤ key
  below : ∀ bound ∈ hi, key < bound

theorem InRange.trivial (key : κ) : InRange none none key := by
  constructor <;> simp

/-- Where a separator of a range may lie: on either bound, too. -/
structure Separates (lo hi : Option κ) (separator : κ) : Prop where
  above : ∀ bound ∈ lo, bound ≤ separator
  below : ∀ bound ∈ hi, separator ≤ bound

theorem InRange.separates {lo hi : Option κ} {key : κ} (hkey : InRange lo hi key) :
    Separates lo hi key :=
  ⟨hkey.above, fun bound hbound => (hkey.below bound hbound).le⟩

theorem InRange.left {lo hi : Option κ} {separator key : κ}
    (hseparator : Separates lo hi separator) (hkey : InRange lo (some separator) key) :
    InRange lo hi key :=
  ⟨hkey.above, fun bound hbound =>
    (hkey.below separator rfl).trans_le (hseparator.below bound hbound)⟩

theorem InRange.right {lo hi : Option κ} {separator key : κ}
    (hseparator : Separates lo hi separator) (hkey : InRange (some separator) hi key) :
    InRange lo hi key :=
  ⟨fun bound hbound => (hseparator.above bound hbound).trans (hkey.above separator rfl),
    hkey.below⟩

theorem InRange.of_lt {lo hi : Option κ} {separator key : κ} (hkey : InRange lo hi key)
    (hlt : key < separator) : InRange lo (some separator) key :=
  ⟨hkey.above, by rintro _ ⟨⟩; exact hlt⟩

theorem InRange.of_le {lo hi : Option κ} {separator key : κ} (hkey : InRange lo hi key)
    (hle : separator ≤ key) : InRange (some separator) hi key :=
  ⟨by rintro _ ⟨⟩; exact hle, hkey.below⟩

/-! ## Sorted bindings -/

/-- Strictly increasing in the key. -/
def Sorted (entries : List (κ × ν)) : Prop :=
  entries.Pairwise fun left right => left.1 < right.1

theorem Sorted.append {lo hi : Option κ} {separator : κ} {left right : List (κ × ν)}
    (hleft : Sorted left) (hright : Sorted right)
    (hbelow : ∀ entry ∈ left, InRange lo (some separator) entry.1)
    (habove : ∀ entry ∈ right, InRange (some separator) hi entry.1) :
    Sorted (left ++ right) :=
  List.pairwise_append.mpr ⟨hleft, hright, fun first hfirst second hsecond =>
    lt_of_lt_of_le ((hbelow first hfirst).below separator rfl)
      ((habove second hsecond).above separator rfl)⟩

/-- A sorted list cut in two: the first key of the upper part separates
them. -/
theorem Sorted.cut {entries : List (κ × ν)} (hsorted : Sorted entries) {mid : ℕ}
    {first : κ × ν} (hfirst : (entries.drop mid).head? = some first) :
    first ∈ entries ∧ Sorted (entries.take mid) ∧ Sorted (entries.drop mid) ∧
      (∀ entry ∈ entries.take mid, entry.1 < first.1) ∧
      (∀ entry ∈ entries.drop mid, first.1 ≤ entry.1) := by
  have hmem : first ∈ entries.drop mid := List.mem_of_mem_head? hfirst
  rw [← List.take_append_drop mid entries] at hsorted
  obtain ⟨hleft, hright, hacross⟩ := List.pairwise_append.mp hsorted
  refine ⟨List.mem_of_mem_drop hmem, hleft, hright, fun entry hentry =>
    hacross entry hentry first hmem, fun entry hentry => ?_⟩
  cases hdrop : entries.drop mid with
  | nil => simp [hdrop] at hmem
  | cons head tail =>
      rw [hdrop] at hfirst hright hentry
      obtain rfl : head = first := by simpa using hfirst
      rcases List.mem_cons.mp hentry with rfl | hentry
      · exact le_rfl
      · exact ((List.pairwise_cons.mp hright).1 entry hentry).le

section Bindings

variable [DecidableEq κ]

/-- The value bound to a key. -/
def lookup (key : κ) (entries : List (κ × ν)) : Option ν :=
  (entries.find? fun entry => entry.1 = key).map Prod.snd

/-- Bind a key in a sorted list, replacing its old binding. -/
def insertEntry (key : κ) (value : ν) : List (κ × ν) → List (κ × ν)
  | [] => [(key, value)]
  | entry :: entries =>
      if entry.1 < key then entry :: insertEntry key value entries
      else if entry.1 = key then (key, value) :: entries
      else (key, value) :: entry :: entries

/-- Remove a key's binding. -/
def eraseEntry (key : κ) (entries : List (κ × ν)) : List (κ × ν) :=
  entries.filter fun entry => entry.1 ≠ key

omit [LinearOrder κ] in
theorem lookup_eq_none {key : κ} {entries : List (κ × ν)}
    (habsent : ∀ entry ∈ entries, entry.1 ≠ key) : lookup key entries = none := by
  simp only [lookup, Option.map_eq_none_iff, List.find?_eq_none]
  simpa using habsent

theorem lookup_eq_some {key : κ} {value : ν} {entries : List (κ × ν)}
    (hsorted : Sorted entries) :
    lookup key entries = some value ↔ (key, value) ∈ entries := by
  induction entries with
  | nil => simp [lookup]
  | cons entry entries ih =>
      obtain ⟨hfirst, hrest⟩ := List.pairwise_cons.mp hsorted
      by_cases hkey : entry.1 = key
      · have hnot : (key, value) ∉ entries := fun hmem =>
          absurd hkey (hfirst _ hmem).ne
        simp only [lookup, List.find?_cons, hkey, decide_true, Option.map_some,
          Option.some.injEq, List.mem_cons, hnot, or_false]
        constructor
        · rintro rfl
          rw [← hkey]
        · intro heq
          rw [← heq]
      · have hne : (key, value) ≠ entry := fun heq => hkey (by rw [← heq])
        have hstep : lookup key (entry :: entries) = lookup key entries := by
          simp [lookup, hkey]
        rw [hstep, ih hrest, List.mem_cons, or_iff_right hne]

omit [LinearOrder κ] in
theorem lookup_append_left {key : κ} {left right : List (κ × ν)}
    (habsent : ∀ entry ∈ right, entry.1 ≠ key) :
    lookup key (left ++ right) = lookup key left := by
  have hnone : right.find? (fun entry => entry.1 = key) = none := by
    simpa [List.find?_eq_none] using habsent
  simp [lookup, List.find?_append, hnone]

omit [LinearOrder κ] in
theorem lookup_append_right {key : κ} {left right : List (κ × ν)}
    (habsent : ∀ entry ∈ left, entry.1 ≠ key) :
    lookup key (left ++ right) = lookup key right := by
  have hnone : left.find? (fun entry => entry.1 = key) = none := by
    simpa [List.find?_eq_none] using habsent
  simp [lookup, List.find?_append, hnone]

theorem mem_insertEntry {key : κ} {value : ν} {entries : List (κ × ν)}
    (hsorted : Sorted entries) {entry : κ × ν} :
    entry ∈ insertEntry key value entries ↔
      entry = (key, value) ∨ (entry.1 ≠ key ∧ entry ∈ entries) := by
  induction entries with
  | nil => simp [insertEntry]
  | cons first entries ih =>
      obtain ⟨hfirst, hrest⟩ := List.pairwise_cons.mp hsorted
      unfold insertEntry
      by_cases hlt : first.1 < key
      · rw [if_pos hlt, List.mem_cons, ih hrest, List.mem_cons]
        constructor
        · rintro (rfl | rfl | ⟨hne, hmem⟩)
          · exact Or.inr ⟨hlt.ne, Or.inl rfl⟩
          · exact Or.inl rfl
          · exact Or.inr ⟨hne, Or.inr hmem⟩
        · rintro (rfl | ⟨hne, rfl | hmem⟩)
          · exact Or.inr (Or.inl rfl)
          · exact Or.inl rfl
          · exact Or.inr (Or.inr ⟨hne, hmem⟩)
      · have hge : key ≤ first.1 := not_lt.mp hlt
        have hne : ∀ other ∈ entries, other.1 ≠ key := fun other hother =>
          (lt_of_le_of_lt hge (hfirst other hother)).ne'
        rw [if_neg hlt]
        by_cases heq : first.1 = key
        · rw [if_pos heq, List.mem_cons, List.mem_cons]
          constructor
          · rintro (rfl | hmem)
            · exact Or.inl rfl
            · exact Or.inr ⟨hne entry hmem, Or.inr hmem⟩
          · rintro (rfl | ⟨hother, rfl | hmem⟩)
            · exact Or.inl rfl
            · exact absurd heq hother
            · exact Or.inr hmem
        · rw [if_neg heq, List.mem_cons]
          constructor
          · rintro (rfl | hmem)
            · exact Or.inl rfl
            · refine Or.inr ⟨?_, hmem⟩
              rcases List.mem_cons.mp hmem with rfl | hmem
              · exact heq
              · exact hne entry hmem
          · rintro (rfl | ⟨_, hmem⟩)
            · exact Or.inl rfl
            · exact Or.inr hmem

theorem Sorted.insertEntry {key : κ} {value : ν} {entries : List (κ × ν)}
    (hsorted : Sorted entries) : Sorted (SearchTree.insertEntry key value entries) := by
  induction entries with
  | nil => exact List.pairwise_singleton _ _
  | cons first entries ih =>
      obtain ⟨hfirst, hrest⟩ := List.pairwise_cons.mp hsorted
      unfold SearchTree.insertEntry
      by_cases hlt : first.1 < key
      · rw [if_pos hlt]
        refine List.pairwise_cons.mpr ⟨fun entry hentry => ?_, ih hrest⟩
        rcases (mem_insertEntry hrest).mp hentry with rfl | ⟨_, hmem⟩
        · exact hlt
        · exact hfirst entry hmem
      · have hge : key ≤ first.1 := not_lt.mp hlt
        rw [if_neg hlt]
        by_cases heq : first.1 = key
        · rw [if_pos heq]
          exact List.pairwise_cons.mpr ⟨fun entry hentry => heq ▸ hfirst entry hentry, hrest⟩
        · rw [if_neg heq]
          refine List.pairwise_cons.mpr ⟨fun entry hentry => ?_, hsorted⟩
          have hlt : key < first.1 := lt_of_le_of_ne hge (Ne.symm heq)
          rcases List.mem_cons.mp hentry with rfl | hentry
          · exact hlt
          · exact hlt.trans (hfirst entry hentry)

/-- Bindings to the left of a key stay in front of it. -/
theorem insertEntry_append_left {key : κ} {value : ν} {left right : List (κ × ν)}
    (hbelow : ∀ entry ∈ left, entry.1 < key) :
    insertEntry key value (left ++ right) = left ++ insertEntry key value right := by
  induction left with
  | nil => rfl
  | cons first left ih =>
      have hfirst := hbelow first List.mem_cons_self
      have hrest := ih fun entry hentry => hbelow entry (List.mem_cons_of_mem _ hentry)
      simp [insertEntry, hfirst, hrest]

theorem insertEntry_append_right {key : κ} {value : ν} {left right : List (κ × ν)}
    (habove : ∀ entry ∈ right, key < entry.1) :
    insertEntry key value (left ++ right) = insertEntry key value left ++ right := by
  induction left with
  | nil =>
      cases right with
      | nil => rfl
      | cons first right =>
          have hfirst := habove first List.mem_cons_self
          simp [insertEntry, hfirst.not_gt, hfirst.ne']
  | cons first left ih =>
      simp only [List.cons_append, insertEntry, ih]
      split
      · rfl
      · split <;> rfl

omit [LinearOrder κ] in
theorem eraseEntry_append (key : κ) (left right : List (κ × ν)) :
    eraseEntry key (left ++ right) = eraseEntry key left ++ eraseEntry key right :=
  List.filter_append ..

omit [LinearOrder κ] in
theorem eraseEntry_of_absent {key : κ} {entries : List (κ × ν)}
    (habsent : ∀ entry ∈ entries, entry.1 ≠ key) : eraseEntry key entries = entries := by
  rw [eraseEntry, List.filter_eq_self]
  simpa using habsent

theorem Sorted.eraseEntry {key : κ} {entries : List (κ × ν)} (hsorted : Sorted entries) :
    Sorted (SearchTree.eraseEntry key entries) :=
  List.Pairwise.filter _ hsorted

theorem lookup_insertEntry {key other : κ} {value : ν} {entries : List (κ × ν)}
    (hsorted : Sorted entries) :
    lookup other (insertEntry key value entries) =
      if key = other then some value else lookup other entries := by
  apply Option.ext
  intro found
  rw [lookup_eq_some hsorted.insertEntry, mem_insertEntry hsorted, Prod.mk.injEq]
  by_cases heq : key = other
  · subst heq
    simp [eq_comm]
  · rw [if_neg heq, lookup_eq_some hsorted]
    simp [Ne.symm heq]

theorem lookup_eraseEntry {key other : κ} {entries : List (κ × ν)}
    (hsorted : Sorted entries) :
    lookup other (eraseEntry key entries) =
      if key = other then none else lookup other entries := by
  apply Option.ext
  intro found
  rw [lookup_eq_some hsorted.eraseEntry, eraseEntry, List.mem_filter]
  by_cases heq : key = other
  · simp [heq]
  · rw [if_neg heq, lookup_eq_some hsorted]
    simp [Ne.symm heq]

end Bindings

/-! ## Subtrees -/

/-- The children of an internal node, each with the range its separators carve
out of the node's own. `sub lo hi child entries pages` says what a child
holds, and on which pages. -/
inductive Chain (sub : Option κ → Option κ → π → List (κ × ν) → List π → Prop) :
    Option κ → Option κ → List κ → List π → List (κ × ν) → List π → Prop where
  | last {lo hi : Option κ} {child : π} {entries : List (κ × ν)} {pages : List π} :
      sub lo hi child entries pages → Chain sub lo hi [] [child] entries pages
  | cons {lo hi : Option κ} {separator : κ} {keys : List κ} {child : π} {children : List π}
      {entries rest : List (κ × ν)} {pages more : List π} :
      Separates lo hi separator →
      sub lo (some separator) child entries pages →
      Chain sub (some separator) hi keys children rest more →
      Chain sub lo hi (separator :: keys) (child :: children) (entries ++ rest)
        (pages ++ more)

/-- The subtree of the given depth under a page: its bindings and its pages. -/
def Subtree (view : π → TreeNode π κ ν) :
    ℕ → Option κ → Option κ → π → List (κ × ν) → List π → Prop
  | 0, lo, hi, page, entries, pages =>
      view page = .leaf entries ∧ Sorted entries ∧
        (∀ entry ∈ entries, InRange lo hi entry.1) ∧ pages = [page]
  | depth + 1, lo, hi, page, entries, pages =>
      ∃ keys children below, view page = .internal keys children ∧
        Chain (Subtree view depth) lo hi keys children entries below ∧ pages = page :: below

section Chains

variable {sub sub' : Option κ → Option κ → π → List (κ × ν) → List π → Prop}
  {lo hi : Option κ} {keys : List κ} {children : List π} {entries : List (κ × ν)}
  {pages : List π}

theorem Chain.imp
    (hsub : ∀ lo hi child entries below, below ⊆ pages →
      sub lo hi child entries below → sub' lo hi child entries below)
    (hchain : Chain sub lo hi keys children entries pages) :
    Chain sub' lo hi keys children entries pages := by
  induction hchain with
  | last hchild => exact .last (hsub _ _ _ _ _ (List.Subset.refl _) hchild)
  | cons hseparates hchild _ ih =>
      refine .cons hseparates (hsub _ _ _ _ _ (List.subset_append_left _ _) hchild) (ih ?_)
      exact fun lo hi child entries below hbelow =>
        hsub lo hi child entries below (List.subset_append_of_subset_right _ hbelow)

/-- Each child is a subtree with some of the pages. -/
theorem Chain.exists_sub {child : π} (hchain : Chain sub lo hi keys children entries pages)
    (hchild : child ∈ children) :
    ∃ lower upper bindings below, below ⊆ pages ∧ sub lower upper child bindings below := by
  induction hchain with
  | last hsub =>
      obtain rfl := List.mem_singleton.mp hchild
      exact ⟨_, _, _, _, List.Subset.refl _, hsub⟩
  | cons hseparates hsub _ ih =>
      rcases List.mem_cons.mp hchild with rfl | hchild
      · exact ⟨_, _, _, _, List.subset_append_left _ _, hsub⟩
      · obtain ⟨lower, upper, bindings, below, hbelow, hsub⟩ := ih hchild
        exact ⟨lower, upper, bindings, below, fun _ hmem =>
          List.mem_append_right _ (hbelow hmem), hsub⟩

theorem Chain.inRange
    (hsub : ∀ lo hi child entries pages, sub lo hi child entries pages →
      ∀ entry ∈ entries, InRange lo hi entry.1)
    (hchain : Chain sub lo hi keys children entries pages) :
    ∀ entry ∈ entries, InRange lo hi entry.1 := by
  induction hchain with
  | last hchild => exact hsub _ _ _ _ _ hchild
  | cons hseparates hchild _ ih =>
      intro entry hentry
      rcases List.mem_append.mp hentry with hentry | hentry
      · exact InRange.left hseparates (hsub _ _ _ _ _ hchild entry hentry)
      · exact InRange.right hseparates (ih entry hentry)

theorem Chain.sorted
    (hrange : ∀ lo hi child entries pages, sub lo hi child entries pages →
      ∀ entry ∈ entries, InRange lo hi entry.1)
    (hsub : ∀ lo hi child entries pages, sub lo hi child entries pages → Sorted entries)
    (hchain : Chain sub lo hi keys children entries pages) : Sorted entries := by
  induction hchain with
  | last hchild => exact hsub _ _ _ _ _ hchild
  | cons _ hchild hrest ih =>
      exact (hsub _ _ _ _ _ hchild).append ih (hrange _ _ _ _ _ hchild)
        (hrest.inRange hrange)

/-- Each binding of the node is one of a child. -/
theorem Chain.exists_child {p : π → Prop} {entry : κ × ν}
    (hsub : ∀ lo hi child entries pages, sub lo hi child entries pages → entry ∈ entries →
      ∃ leaf ∈ pages, p leaf)
    (hchain : Chain sub lo hi keys children entries pages) (hentry : entry ∈ entries) :
    ∃ leaf ∈ pages, p leaf := by
  induction hchain with
  | last hchild => exact hsub _ _ _ _ _ hchild hentry
  | cons _ hchild _ ih =>
      rcases List.mem_append.mp hentry with hentry | hentry
      · obtain ⟨leaf, hleaf, hp⟩ := hsub _ _ _ _ _ hchild hentry
        exact ⟨leaf, List.mem_append_left _ hleaf, hp⟩
      · obtain ⟨leaf, hleaf, hp⟩ := ih hentry
        exact ⟨leaf, List.mem_append_right _ hleaf, hp⟩

/-- Children that hold the same bindings make nodes that hold the same. -/
theorem Chain.unique {lo' hi' : Option κ} {entries' : List (κ × ν)} {pages' : List π}
    (hsub : ∀ lo hi child entries pages, sub lo hi child entries pages →
      ∀ lo' hi' entries' pages', sub' lo' hi' child entries' pages' → entries = entries')
    (hchain : Chain sub lo hi keys children entries pages)
    (hchain' : Chain sub' lo' hi' keys children entries' pages') : entries = entries' := by
  induction hchain generalizing lo' hi' entries' pages' with
  | last hchild =>
      cases hchain' with
      | last hchild' => exact hsub _ _ _ _ _ hchild _ _ _ _ hchild'
  | cons _ hchild _ ih =>
      cases hchain' with
      | cons _ hchild' hrest' =>
          rw [hsub _ _ _ _ _ hchild _ _ _ _ hchild', ih hrest']

/-- What holds of each page of a child holds of each page below the node. -/
theorem Chain.forall_pages {p : π → Prop}
    (hsub : ∀ lo hi child entries pages, sub lo hi child entries pages → ∀ page ∈ pages, p page)
    (hchain : Chain sub lo hi keys children entries pages) : ∀ page ∈ pages, p page := by
  induction hchain with
  | last hchild => exact hsub _ _ _ _ _ hchild
  | cons _ hchild _ ih =>
      intro page hpage
      exact (List.mem_append.mp hpage).elim (hsub _ _ _ _ _ hchild page) (ih page)

theorem Chain.length_children (hchain : Chain sub lo hi keys children entries pages) :
    children.length = keys.length + 1 := by
  induction hchain with
  | last _ => rfl
  | cons _ _ _ ih => rw [List.length_cons, List.length_cons, ih]

/-- What each page of a child contributes, the node holds. -/
theorem Chain.page_subset {leaf : π} {bindings : List (κ × ν)}
    (hsub : ∀ lo hi child entries pages, sub lo hi child entries pages → leaf ∈ pages →
      bindings ⊆ entries)
    (hchain : Chain sub lo hi keys children entries pages) (hleaf : leaf ∈ pages) :
    bindings ⊆ entries := by
  induction hchain with
  | last hchild => exact hsub _ _ _ _ _ hchild hleaf
  | cons _ hchild _ ih =>
      rcases List.mem_append.mp hleaf with hleaf | hleaf
      · exact List.subset_append_of_subset_left _ (hsub _ _ _ _ _ hchild hleaf)
      · exact List.subset_append_of_subset_right _ (ih hleaf)

/-- A child whose range a key falls into, and how to put the node together
again around what becomes of that child. -/
inductive Focus (sub : Option κ → Option κ → π → List (κ × ν) → List π → Prop)
    (lo hi : Option κ) (keys : List κ) (children : List π) (entries : List (κ × ν))
    (pages : List π) (key : κ) : Prop where
  | intro (child : π) (lower upper : Option κ) (left middle right : List (κ × ν))
      (pagesLeft pagesMiddle pagesRight : List π)
      (hget : children[(keys.takeWhile (· ≤ key)).length]? = some child)
      (hchild : sub lower upper child middle pagesMiddle)
      (hrange : InRange lower upper key)
      (hentries : entries = left ++ middle ++ right)
      (hpages : pages = pagesLeft ++ pagesMiddle ++ pagesRight)
      (hleft : ∀ entry ∈ left, entry.1 < key)
      (hright : ∀ entry ∈ right, key < entry.1)
      (hreplace : ∀ {sub' : Option κ → Option κ → π → List (κ × ν) → List π → Prop}
        {middle' : List (κ × ν)} {pagesMiddle' : List π},
        (∀ lo hi child entries below, below ⊆ pagesLeft ++ pagesRight →
          sub lo hi child entries below → sub' lo hi child entries below) →
        sub' lower upper child middle' pagesMiddle' →
        Chain sub' lo hi keys children (left ++ middle' ++ right)
          (pagesLeft ++ pagesMiddle' ++ pagesRight))
      (hsplit : ∀ {sub' : Option κ → Option κ → π → List (κ × ν) → List π → Prop}
        {separator : κ} {sibling : π} {first second : List (κ × ν)}
        {pagesFirst pagesSecond : List π},
        (∀ lo hi child entries below, below ⊆ pagesLeft ++ pagesRight →
          sub lo hi child entries below → sub' lo hi child entries below) →
        Separates lower upper separator →
        sub' lower (some separator) child first pagesFirst →
        sub' (some separator) upper sibling second pagesSecond →
        Chain sub' lo hi
          (keys.insertIdx (keys.takeWhile (· ≤ key)).length separator)
          (children.insertIdx ((keys.takeWhile (· ≤ key)).length + 1) sibling)
          (left ++ (first ++ second) ++ right)
          (pagesLeft ++ (pagesFirst ++ pagesSecond) ++ pagesRight))

theorem Chain.focus
    (hsub : ∀ lo hi child entries pages, sub lo hi child entries pages →
      ∀ entry ∈ entries, InRange lo hi entry.1)
    (hchain : Chain sub lo hi keys children entries pages) {key : κ}
    (hkey : InRange lo hi key) : Focus sub lo hi keys children entries pages key := by
  induction hchain with
  | @last lo hi child entries pages hchild =>
      refine .intro child lo hi [] entries [] [] pages [] rfl hchild hkey (by simp) (by simp)
        (by simp) (by simp) ?_ ?_
      · intro sub' middle' pagesMiddle' _ hnew
        simpa using Chain.last hnew
      · intro sub' separator sibling first second pagesFirst pagesSecond _ hseparates hfirst
          hsecond
        simpa using Chain.cons hseparates hfirst (Chain.last hsecond)
  | @cons lo hi separator keys child children entries rest pages more hseparates hchild hrest
      ih =>
      by_cases hlt : key < separator
      · have hindex : ((separator :: keys).takeWhile (· ≤ key)) = [] := by simp [hlt]
        refine .intro child lo (some separator) [] entries rest [] pages more
          (by rw [hindex]; rfl) hchild (hkey.of_lt hlt) (by simp) (by simp) (by simp) ?_ ?_ ?_
        · exact fun entry hentry => hlt.trans_le
            ((hrest.inRange hsub entry hentry).above separator rfl)
        · intro sub' middle' pagesMiddle' himp hnew
          simpa using Chain.cons hseparates hnew (hrest.imp (by simpa using himp))
        · intro sub' middle' sibling first second pagesFirst pagesSecond himp hmiddle hfirst
            hsecond
          rw [hindex]
          have hsecondSeparates : Separates (some middle') hi separator :=
            ⟨by rintro _ ⟨⟩; exact hmiddle.below separator rfl, hseparates.below⟩
          have hfirstSeparates : Separates lo hi middle' :=
            ⟨hmiddle.above, fun bound hbound =>
              (hmiddle.below separator rfl).trans (hseparates.below bound hbound)⟩
          have htail := Chain.cons hsecondSeparates hsecond (hrest.imp (by simpa using himp))
          simpa using Chain.cons hfirstSeparates hfirst htail
      · have hle : separator ≤ key := not_lt.mp hlt
        have hindex : ((separator :: keys).takeWhile (· ≤ key)).length =
            (keys.takeWhile (· ≤ key)).length + 1 := by simp [hle]
        obtain ⟨inner, lower, upper, left, middle, right, pagesLeft, pagesMiddle, pagesRight,
          hget, hinner, hrange, hentries, hpages, hleft, hright, hreplace, hsplit⟩ :=
          ih (hkey.of_le hle)
        refine .intro inner lower upper (entries ++ left) middle right (pages ++ pagesLeft)
          pagesMiddle pagesRight (by rw [hindex]; simpa using hget) hinner hrange
          (by simp [hentries]) (by simp [hpages]) ?_ hright ?_ ?_
        · intro entry hentry
          rcases List.mem_append.mp hentry with hentry | hentry
          · exact ((hsub _ _ _ _ _ hchild entry hentry).below separator rfl).trans_le hle
          · exact hleft entry hentry
        · intro sub' middle' pagesMiddle' himp hnew
          have hfirst := himp _ _ _ _ _ (by simp) hchild
          have hrest' := hreplace (fun lo hi child entries below hbelow =>
            himp lo hi child entries below (List.Subset.trans hbelow (by simp))) hnew
          simpa using Chain.cons hseparates hfirst hrest'
        · intro sub' middle' sibling first second pagesFirst pagesSecond himp hmiddle hnewFirst
            hnewSecond
          have hfirst := himp _ _ _ _ _ (by simp) hchild
          have hrest' := hsplit (fun lo hi child entries below hbelow =>
            himp lo hi child entries below (List.Subset.trans hbelow (by simp))) hmiddle hnewFirst
            hnewSecond
          rw [hindex]
          simpa using Chain.cons hseparates hfirst hrest'

/-- An internal node cut at one of its separators. -/
theorem Chain.split (hchain : Chain sub lo hi keys children entries pages) {mid : ℕ}
    {separator : κ} (hmid : keys[mid]? = some separator) :
    ∃ left right pagesLeft pagesRight, entries = left ++ right ∧
      pages = pagesLeft ++ pagesRight ∧ Separates lo hi separator ∧
      Chain sub lo (some separator) (keys.take mid) (children.take (mid + 1)) left pagesLeft ∧
      Chain sub (some separator) hi (keys.drop (mid + 1)) (children.drop (mid + 1)) right
        pagesRight := by
  induction hchain generalizing mid with
  | last hchild => simp at hmid
  | @cons lo hi first keys child children entries rest pages more hseparates hchild hrest ih =>
      cases mid with
      | zero =>
          obtain rfl : first = separator := by simpa using hmid
          exact ⟨entries, rest, pages, more, rfl, rfl, hseparates, .last hchild, hrest⟩
      | succ mid =>
          obtain ⟨left, right, pagesLeft, pagesRight, rfl, rfl, hinner, hleft, hright⟩ :=
            ih (by simpa using hmid)
          refine ⟨entries ++ left, right, pages ++ pagesLeft, pagesRight, by simp, by simp,
            ⟨?_, hinner.below⟩, ?_, by simpa using hright⟩
          · exact fun bound hbound => (hseparates.above bound hbound).trans
              (hinner.above first rfl)
          · have hfirst : Separates lo (some separator) first :=
              ⟨hseparates.above, by rintro _ ⟨⟩; exact hinner.above first rfl⟩
            simpa using Chain.cons hfirst hchild hleft

end Chains

section Subtrees

variable {view view' : π → TreeNode π κ ν} {depth : ℕ} {lo hi : Option κ} {page : π}
  {entries : List (κ × ν)} {pages : List π}

theorem Subtree.inRange (htree : Subtree view depth lo hi page entries pages) :
    ∀ entry ∈ entries, InRange lo hi entry.1 := by
  induction depth generalizing lo hi page entries pages with
  | zero => exact htree.2.2.1
  | succ depth ih =>
      obtain ⟨keys, children, below, _, hchain, _⟩ := htree
      exact hchain.inRange fun lo hi child entries pages hchild => ih hchild

theorem Subtree.sorted (htree : Subtree view depth lo hi page entries pages) :
    Sorted entries := by
  induction depth generalizing lo hi page entries pages with
  | zero => exact htree.2.1
  | succ depth ih =>
      obtain ⟨keys, children, below, _, hchain, _⟩ := htree
      exact hchain.sorted (fun _ _ _ _ _ hchild => hchild.inRange)
        fun lo hi child entries pages hchild => ih hchild

theorem Subtree.page_mem (htree : Subtree view depth lo hi page entries pages) :
    page ∈ pages := by
  cases depth with
  | zero => simp [htree.2.2.2]
  | succ depth =>
      obtain ⟨keys, children, below, _, _, rfl⟩ := htree
      exact List.mem_cons_self

/-- Every binding lies in one of the leaves. -/
theorem Subtree.exists_leaf (htree : Subtree view depth lo hi page entries pages)
    {entry : κ × ν} (hentry : entry ∈ entries) :
    ∃ leaf ∈ pages, ∃ bindings, view leaf = .leaf bindings ∧ entry ∈ bindings := by
  induction depth generalizing lo hi page entries pages with
  | zero =>
      obtain ⟨hnode, _, _, rfl⟩ := htree
      exact ⟨page, List.mem_singleton_self page, entries, hnode, hentry⟩
  | succ depth ih =>
      obtain ⟨keys, children, below, _, hchain, rfl⟩ := htree
      obtain ⟨leaf, hleaf, bindings, hbindings⟩ :=
        hchain.exists_child (fun _ _ _ _ _ hchild => ih hchild) hentry
      exact ⟨leaf, List.mem_cons_of_mem _ hleaf, bindings, hbindings⟩

/-- Every leaf holds bindings of the tree. -/
theorem Subtree.leaf_subset (htree : Subtree view depth lo hi page entries pages) {leaf : π}
    (hleaf : leaf ∈ pages) {bindings : List (κ × ν)} (hview : view leaf = .leaf bindings) :
    bindings ⊆ entries := by
  induction depth generalizing lo hi page entries pages with
  | zero =>
      obtain ⟨hnode, _, _, rfl⟩ := htree
      obtain rfl := List.mem_singleton.mp hleaf
      obtain rfl : entries = bindings := by simpa [hnode] using hview
      exact List.Subset.refl _
  | succ depth ih =>
      obtain ⟨keys, children, below, hnode, hchain, rfl⟩ := htree
      rcases List.mem_cons.mp hleaf with rfl | hleaf
      · simp [hnode] at hview
      · exact hchain.page_subset (fun _ _ _ _ _ hchild => ih hchild) hleaf

/-- Every internal node has one child more than separators. -/
theorem Subtree.length_children (htree : Subtree view depth lo hi page entries pages) :
    ∀ other ∈ pages, ∀ keys children, view other = .internal keys children →
      children.length = keys.length + 1 := by
  induction depth generalizing lo hi page entries pages with
  | zero =>
      obtain ⟨hnode, -, -, rfl⟩ := htree
      intro other hother keys children hview
      obtain rfl := List.mem_singleton.mp hother
      simp [hnode] at hview
  | succ depth ih =>
      obtain ⟨keys, children, below, hnode, hchain, rfl⟩ := htree
      refine List.forall_mem_cons.mpr ⟨?_, hchain.forall_pages fun _ _ _ _ _ hchild => ih hchild⟩
      intro keys' children' hview
      obtain ⟨rfl, rfl⟩ : keys = keys' ∧ children = children' := by simpa [hnode] using hview
      exact hchain.length_children

/-- The bindings under a page are what the pages say, whatever its range. -/
theorem Subtree.unique {depth' : ℕ} {lo' hi' : Option κ} {entries' : List (κ × ν)}
    {pages' : List π} (htree : Subtree view depth lo hi page entries pages)
    (htree' : Subtree view depth' lo' hi' page entries' pages') : entries = entries' := by
  induction depth generalizing depth' lo hi lo' hi' page entries entries' pages pages' with
  | zero =>
      cases depth' with
      | zero => simpa [htree.1] using htree'.1
      | succ depth' =>
          obtain ⟨keys, children, below, hnode, _, _⟩ := htree'
          simp [htree.1] at hnode
  | succ depth ih =>
      obtain ⟨keys, children, below, hnode, hchain, _⟩ := htree
      cases depth' with
      | zero => simp [Subtree, hnode] at htree'
      | succ depth' =>
          obtain ⟨keys', children', below', hnode', hchain', _⟩ := htree'
          obtain ⟨rfl, rfl⟩ : keys = keys' ∧ children = children' := by
            simpa [hnode] using hnode'
          have hsub : ∀ lo hi child entries pages, Subtree view depth lo hi child entries pages →
              ∀ lo' hi' entries' pages', Subtree view depth' lo' hi' child entries' pages' →
              entries = entries' := fun _ _ _ _ _ hchild _ _ _ _ hchild' => ih hchild hchild'
          exact hchain.unique hsub hchain'

/-- The depth is bounded by the number of pages. -/
theorem Subtree.depth_lt (htree : Subtree view depth lo hi page entries pages) :
    depth < pages.length := by
  induction depth generalizing lo hi page entries pages with
  | zero => simp [htree.2.2.2]
  | succ depth ih =>
      obtain ⟨keys, children, below, _, hchain, rfl⟩ := htree
      have hlt : depth < below.length := by
        cases hchain with
        | last hchild => exact ih hchild
        | cons _ hchild _ =>
            have hfirst := ih hchild
            rw [List.length_append]
            omega
      simpa using hlt

/-- A subtree depends on its own pages only. -/
theorem Subtree.congr (hview : ∀ page ∈ pages, view' page = view page)
    (htree : Subtree view depth lo hi page entries pages) :
    Subtree view' depth lo hi page entries pages := by
  induction depth generalizing lo hi page entries pages with
  | zero => exact ⟨(hview page htree.page_mem).trans htree.1, htree.2⟩
  | succ depth ih =>
      have hpage := hview page htree.page_mem
      obtain ⟨keys, children, below, hnode, hchain, rfl⟩ := htree
      refine ⟨keys, children, below, hpage.trans hnode, hchain.imp ?_, rfl⟩
      intro lo hi child entries pages hpages hchild
      exact ih (fun page hmem => hview page (List.mem_cons_of_mem _ (hpages hmem))) hchild

end Subtrees

/-! ## Ranges that leave room -/

/-- A subtree whose leaves have ranges as asked. -/
def RangedSubtree (ok : Option κ → Option κ → Prop) (view : π → TreeNode π κ ν) :
    ℕ → Option κ → Option κ → π → List (κ × ν) → List π → Prop
  | 0, lo, hi, page, entries, pages =>
      ok lo hi ∧ view page = .leaf entries ∧ Sorted entries ∧
        (∀ entry ∈ entries, InRange lo hi entry.1) ∧ pages = [page]
  | depth + 1, lo, hi, page, entries, pages =>
      ∃ keys children below, view page = .internal keys children ∧
        Chain (RangedSubtree ok view depth) lo hi keys children entries below ∧
          pages = page :: below

/-- Wherever a range is cut above one of its keys, both parts are as asked. -/
def Divides (ok : Option κ → Option κ → Prop) : Prop :=
  ∀ lo hi lower separator, ok lo hi → InRange lo hi lower → InRange lo hi separator →
    lower < separator → ok lo (some separator) ∧ ok (some separator) hi

/-- The lower bound is below the upper one. -/
def Apart (lo hi : Option κ) : Prop :=
  ∀ lower ∈ lo, ∀ upper ∈ hi, lower < upper

section RangedSubtrees

variable {ok : Option κ → Option κ → Prop} {view view' : π → TreeNode π κ ν} {depth : ℕ}
  {lo hi : Option κ} {page : π} {entries : List (κ × ν)} {pages : List π}

theorem RangedSubtree.subtree (htree : RangedSubtree ok view depth lo hi page entries pages) :
    Subtree view depth lo hi page entries pages := by
  induction depth generalizing lo hi page entries pages with
  | zero => exact htree.2
  | succ depth ih =>
      obtain ⟨keys, children, below, hnode, hchain, hpages⟩ := htree
      exact ⟨keys, children, below, hnode, hchain.imp fun _ _ _ _ _ _ hchild => ih hchild, hpages⟩

/-- Where nothing is asked, every subtree will do. -/
theorem Subtree.ranged (hok : ∀ lo hi, ok lo hi)
    (htree : Subtree view depth lo hi page entries pages) :
    RangedSubtree ok view depth lo hi page entries pages := by
  induction depth generalizing lo hi page entries pages with
  | zero => exact ⟨hok lo hi, htree⟩
  | succ depth ih =>
      obtain ⟨keys, children, below, hnode, hchain, hpages⟩ := htree
      exact ⟨keys, children, below, hnode, hchain.imp fun _ _ _ _ _ _ hchild => ih hchild, hpages⟩

theorem RangedSubtree.congr (hview : ∀ page ∈ pages, view' page = view page)
    (htree : RangedSubtree ok view depth lo hi page entries pages) :
    RangedSubtree ok view' depth lo hi page entries pages := by
  induction depth generalizing lo hi page entries pages with
  | zero => exact ⟨htree.1, (hview page htree.subtree.page_mem).trans htree.2.1, htree.2.2⟩
  | succ depth ih =>
      have hpage := hview page htree.subtree.page_mem
      obtain ⟨keys, children, below, hnode, hchain, rfl⟩ := htree
      refine ⟨keys, children, below, hpage.trans hnode, hchain.imp ?_, rfl⟩
      intro lo hi child entries pages hpages hchild
      exact ih (fun page hmem => hview page (List.mem_cons_of_mem _ (hpages hmem))) hchild

/-- Between bounds that are apart the separators strictly increase. -/
theorem Chain.increasing
    {sub : Option κ → Option κ → π → List (κ × ν) → List π → Prop} {keys : List κ}
    {children : List π}
    (hsub : ∀ lo hi child entries pages, sub lo hi child entries pages → Apart lo hi)
    (hchain : Chain sub lo hi keys children entries pages) :
    Apart lo hi ∧ keys.Pairwise (· < ·) ∧
      ∀ key ∈ keys, Apart lo (some key) ∧ Apart (some key) hi := by
  induction hchain with
  | last hchild => exact ⟨hsub _ _ _ _ _ hchild, .nil, by simp⟩
  | @cons lo hi separator keys child children entries rest pages more _ hchild _ ih =>
      obtain ⟨hright, hincreasing, hkeys⟩ := ih
      have hleft : Apart lo (some separator) := hsub _ _ _ _ _ hchild
      have habove : ∀ key ∈ keys, separator < key := fun key hkey =>
        (hkeys key hkey).1 separator rfl key rfl
      refine ⟨fun lower hlower upper hupper => ?_, List.pairwise_cons.mpr ⟨habove, hincreasing⟩,
        List.forall_mem_cons.mpr ⟨⟨hleft, hright⟩, fun key hkey => ⟨?_, (hkeys key hkey).2⟩⟩⟩
      · exact (hleft lower hlower separator rfl).trans (hright separator rfl upper hupper)
      · rintro lower hlower _ ⟨⟩
        exact (hleft lower hlower separator rfl).trans (habove key hkey)

theorem RangedSubtree.apart (htree : RangedSubtree Apart view depth lo hi page entries pages) :
    Apart lo hi := by
  induction depth generalizing lo hi page entries pages with
  | zero => exact htree.1
  | succ depth ih =>
      obtain ⟨keys, children, below, _, hchain, _⟩ := htree
      exact (hchain.increasing fun _ _ _ _ _ hchild => ih hchild).1

theorem RangedSubtree.increasing
    (htree : RangedSubtree Apart view depth lo hi page entries pages) :
    ∀ other ∈ pages, ∀ keys children, view other = .internal keys children →
      keys.Pairwise (· < ·) := by
  induction depth generalizing lo hi page entries pages with
  | zero =>
      obtain ⟨-, hnode, -, -, rfl⟩ := htree
      intro other hother keys children hview
      obtain rfl := List.mem_singleton.mp hother
      simp [hnode] at hview
  | succ depth ih =>
      obtain ⟨keys, children, below, hnode, hchain, rfl⟩ := htree
      refine List.forall_mem_cons.mpr ⟨?_, hchain.forall_pages fun _ _ _ _ _ hchild => ih hchild⟩
      intro keys' children' hview
      obtain ⟨rfl, -⟩ : keys = keys' ∧ children = children' := by simpa [hnode] using hview
      exact (hchain.increasing fun _ _ _ _ _ hchild => hchild.apart).2.1

end RangedSubtrees

end SearchTree

end LoomDB
