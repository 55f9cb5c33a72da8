import LoomDB.Branch.Tree

/-!
# The record store is an ordered map

Each operation of a transaction is described by what it does to the bindings of
the tree. `Shaped` says that the pages a transaction sees form one search tree;
the operations keep it, and read and change its bindings as an ordered map
would.
-/

namespace LoomDB

open Std (ExtTreeMap)
open SearchTree

/-! ## Positions in a leaf -/

theorem searchEntries_cons (entry : Key × Record) (entries : List (Key × Record)) (key : Key) :
    searchEntries (entry :: entries) key =
      if entry.1 < key then
        match searchEntries entries key with
        | .ok position => .ok (position + 1)
        | .error position => .error (position + 1)
      else if entry.1 = key then .ok 0 else .error 0 := by
  by_cases hlt : entry.1 < key
  · simp only [searchEntries, List.takeWhile_cons, hlt, decide_true, if_true,
      List.length_cons, List.getElem?_cons_succ]
    cases entries[(List.takeWhile (fun x => decide (x.1 < key)) entries).length]? with
    | none => rfl
    | some other =>
        dsimp only
        split <;> rfl
  · simp only [searchEntries, List.takeWhile_cons, hlt, decide_false, if_false,
      List.length_nil, List.getElem?_cons_zero, Bool.false_eq_true]

theorem searchEntries_le {entries : List (Key × Record)} {key : Key} {position : ℕ}
    (hsearch : searchEntries entries key = .error position) : position ≤ entries.length := by
  induction entries generalizing position with
  | nil =>
      obtain rfl : position = 0 := by simpa [searchEntries, eq_comm] using hsearch
      exact le_rfl
  | cons entry entries ih =>
      rw [searchEntries_cons] at hsearch
      split at hsearch
      · cases hrest : searchEntries entries key with
        | ok index => rw [hrest] at hsearch; cases hsearch
        | error index =>
            rw [hrest] at hsearch
            obtain rfl := Except.error.inj hsearch
            exact Nat.succ_le_succ (ih hrest)
      · split at hsearch
        · cases hsearch
        · obtain rfl := Except.error.inj hsearch
          exact Nat.zero_le _

/-- A search that succeeds finds an entry. -/
theorem searchEntries_lt {entries : List (Key × Record)} {key : Key} {position : ℕ}
    (hsearch : searchEntries entries key = .ok position) :
    position < entries.length ∧ (entries[position]?.map Prod.snd).isSome := by
  unfold searchEntries at hsearch
  dsimp only at hsearch
  split at hsearch
  · rename_i entry hentry
    split at hsearch
    · obtain rfl := Except.ok.inj hsearch
      exact ⟨(List.getElem?_eq_some_iff.mp hentry).1, by simp [hentry]⟩
    · cases hsearch
  · cases hsearch

/-- Replacing the entry a search found is an insertion. -/
theorem set_searchEntries {entries : List (Key × Record)} {key found : Key}
    {old record : Record} {position : ℕ} (hsearch : searchEntries entries key = .ok position)
    (hget : entries[position]? = some (found, old)) :
    found = key ∧ entries.set position (found, record) = insertEntry key record entries := by
  induction entries generalizing position with
  | nil => simp at hget
  | cons entry entries ih =>
      rw [searchEntries_cons] at hsearch
      by_cases hlt : entry.1 < key
      · rw [if_pos hlt] at hsearch
        cases hrest : searchEntries entries key with
        | error index => rw [hrest] at hsearch; cases hsearch
        | ok index =>
            rw [hrest] at hsearch
            obtain rfl := Except.ok.inj hsearch
            obtain ⟨hfound, hset⟩ := ih hrest (by simpa using hget)
            exact ⟨hfound, by simp [insertEntry, hlt, hset]⟩
      · rw [if_neg hlt] at hsearch
        by_cases heq : entry.1 = key
        · rw [if_pos heq] at hsearch
          obtain rfl := Except.ok.inj hsearch
          obtain rfl : entry = (found, old) := by simpa using hget
          obtain rfl : found = key := heq
          exact ⟨rfl, by simp [insertEntry]⟩
        · rw [if_neg heq] at hsearch
          cases hsearch

/-- Inserting where a search says the key belongs is an insertion. -/
theorem insertIdx_searchEntries {entries : List (Key × Record)} {key : Key}
    {record : Record} {position : ℕ} (hsearch : searchEntries entries key = .error position) :
    entries.insertIdx position (key, record) = insertEntry key record entries := by
  induction entries generalizing position with
  | nil =>
      obtain rfl : position = 0 := by simpa [searchEntries, eq_comm] using hsearch
      rfl
  | cons entry entries ih =>
      rw [searchEntries_cons] at hsearch
      by_cases hlt : entry.1 < key
      · rw [if_pos hlt] at hsearch
        cases hrest : searchEntries entries key with
        | ok index => rw [hrest] at hsearch; cases hsearch
        | error index =>
            rw [hrest] at hsearch
            obtain rfl := Except.error.inj hsearch
            simp [insertEntry, hlt, ih hrest]
      · rw [if_neg hlt] at hsearch
        by_cases heq : entry.1 = key
        · rw [if_pos heq] at hsearch
          cases hsearch
        · rw [if_neg heq] at hsearch
          obtain rfl := Except.error.inj hsearch
          simp [insertEntry, hlt, heq]

/-- A search reads what is bound. -/
theorem lookup_searchEntries {entries : List (Key × Record)} (hsorted : Sorted entries)
    (key : Key) :
    lookup key entries =
      match searchEntries entries key with
      | .ok position => entries[position]?.map Prod.snd
      | .error _ => none := by
  induction entries with
  | nil => rfl
  | cons entry entries ih =>
      obtain ⟨hfirst, hrest⟩ := List.pairwise_cons.mp hsorted
      rw [searchEntries_cons]
      by_cases hlt : entry.1 < key
      · have hstep : lookup key (entry :: entries) = lookup key entries := by
          simp [lookup, hlt.ne]
        rw [if_pos hlt, hstep, ih hrest]
        cases searchEntries entries key <;> simp
      · rw [if_neg hlt]
        by_cases heq : entry.1 = key
        · rw [if_pos heq]
          simp [lookup, heq]
        · rw [if_neg heq]
          apply lookup_eq_none
          have hgt : key < entry.1 := lt_of_le_of_ne (not_lt.mp hlt) (Ne.symm heq)
          intro other hother
          rcases List.mem_cons.mp hother with rfl | hother
          · exact heq
          · exact (hgt.trans (hfirst other hother)).ne'

/-- Removing the entry a search found erases the key. -/
theorem eraseIdx_searchEntries {entries : List (Key × Record)} (hsorted : Sorted entries)
    {key : Key} {position : ℕ} (hsearch : searchEntries entries key = .ok position) :
    entries.eraseIdx position = eraseEntry key entries := by
  induction entries generalizing position with
  | nil => simp [searchEntries] at hsearch
  | cons entry entries ih =>
      obtain ⟨hfirst, hrest⟩ := List.pairwise_cons.mp hsorted
      rw [searchEntries_cons] at hsearch
      by_cases hlt : entry.1 < key
      · rw [if_pos hlt] at hsearch
        cases hsub : searchEntries entries key with
        | error index => rw [hsub] at hsearch; cases hsearch
        | ok index =>
            rw [hsub] at hsearch
            obtain rfl := Except.ok.inj hsearch
            rw [List.eraseIdx_cons_succ, ih hrest hsub]
            simp [eraseEntry, hlt.ne]
      · rw [if_neg hlt] at hsearch
        by_cases heq : entry.1 = key
        · rw [if_pos heq] at hsearch
          obtain rfl := Except.ok.inj hsearch
          have hkeep : entries.filter (fun other => other.1 ≠ key) = entries := by
            rw [List.filter_eq_self]
            intro other hother
            have hne : other.1 ≠ key := (heq ▸ hfirst other hother).ne'
            simpa using hne
          rw [List.eraseIdx_cons_zero, eraseEntry, List.filter_cons_of_neg (by simp [heq])]
          exact hkeep.symm
        · rw [if_neg heq] at hsearch
          cases hsearch

/-- A search that fails finds nothing to erase. -/
theorem eraseEntry_searchEntries {entries : List (Key × Record)} (hsorted : Sorted entries)
    {key : Key} {position : ℕ} (hsearch : searchEntries entries key = .error position) :
    eraseEntry key entries = entries := by
  have hnone := lookup_searchEntries hsorted key
  rw [hsearch] at hnone
  rw [eraseEntry, List.filter_eq_self]
  intro entry hentry
  by_contra heq
  have hkey : entry.1 = key := by simpa using heq
  have hsome := (lookup_eq_some hsorted).mpr (hkey ▸ hentry : (key, entry.2) ∈ entries)
  rw [hnone] at hsome
  cases hsome

/-! ## The way down -/

/-- The pages from one down to the leaf a key belongs in, with their nodes. -/
def passed (view : PageNo → Node) : ℕ → PageNo → Key → List (PageNo × Node)
  | 0, _, _ => []
  | fuel + 1, page, key =>
      (page, view page) ::
        match view page with
        | .leaf _ => []
        | .internal keys children =>
            match children[childIndex keys key]? with
            | none => []
            | some child => passed view fuel child key

section Ways

variable {view view' : PageNo → Node} {fuel depth : ℕ} {lo hi : Option Key} {page start : PageNo}
  {key : Key} {entries : List (Key × Record)} {pages : List PageNo}

/-- The way down stays under its page. -/
theorem passed_subset (htree : Subtree view depth lo hi page entries pages)
    (hkey : InRange lo hi key) : (passed view fuel page key).map Prod.fst ⊆ pages := by
  induction fuel generalizing page depth lo hi entries pages with
  | zero => exact List.nil_subset _
  | succ fuel ih =>
      refine List.cons_subset.mpr ⟨htree.page_mem, ?_⟩
      cases depth with
      | zero =>
          rw [htree.1]
          exact List.nil_subset _
      | succ depth =>
          obtain ⟨keys, children, below, hnode, hchain, rfl⟩ := htree
          obtain ⟨child, lower, upper, left, middle, right, pagesLeft, pagesMiddle, pagesRight,
            hget, hchild, hinner, rfl, rfl, -, -, -, -⟩ :=
            hchain.focus (fun _ _ _ _ _ hsub => hsub.inRange) hkey
          have hget : children[childIndex keys key]? = some child := hget
          simp only [hnode, hget]
          intro other hother
          have hmem := ih hchild hinner hother
          simp [hmem]

/-- The way down shows what is seen. -/
theorem passed_view {node : Node} (hpassed : (page, node) ∈ passed view fuel start key) :
    node = view page := by
  induction fuel generalizing start with
  | zero => cases hpassed
  | succ fuel ih =>
      simp only [passed] at hpassed
      rcases List.mem_cons.mp hpassed with heq | hbelow
      · cases heq
        rfl
      · cases hnode : view start with
        | leaf entries => simp [hnode] at hbelow
        | internal keys children =>
            simp only [hnode] at hbelow
            split at hbelow
            · cases hbelow
            · exact ih hbelow

/-- The way down depends on the pages under its page only. -/
theorem passed_congr (hview : ∀ other ∈ pages, view' other = view other)
    (htree : Subtree view depth lo hi page entries pages) (hkey : InRange lo hi key) :
    passed view' fuel page key = passed view fuel page key := by
  induction fuel generalizing page depth lo hi entries pages with
  | zero => rfl
  | succ fuel ih =>
      have hpage := hview page htree.page_mem
      cases depth with
      | zero => simp only [passed, hpage, htree.1]
      | succ depth =>
          obtain ⟨keys, children, below, hnode, hchain, rfl⟩ := htree
          obtain ⟨child, lower, upper, left, middle, right, pagesLeft, pagesMiddle, pagesRight,
            hget, hchild, hinner, rfl, rfl, -, -, -, -⟩ :=
            hchain.focus (fun _ _ _ _ _ hsub => hsub.inRange) hkey
          have hget : children[childIndex keys key]? = some child := hget
          have hbelow : ∀ other ∈ pagesMiddle, view' other = view other := fun other hother =>
            hview other (by simp [hother])
          simp only [passed, hpage, hnode, hget, ih hbelow hchild hinner]

end Ways

namespace Tree

/-! ## What a transaction sees -/

/-- The node at a page: this transaction's, or the stored one. -/
def view (tree : Tree) (page : PageNo) : Node :=
  match tree.dirty[page]? with
  | some node => node
  | none =>
      match tree.store.readHead page with
      | .ok bytes =>
          match Node.decode bytes page with
          | .ok node => node
          | .error _ => .leaf []
      | .error _ => .leaf []

/-- The nodes between the root and the leaf that the key belongs in. -/
def passedBy (key : Key) (tree : Tree) : List (PageNo × Node) :=
  passed tree.view (tree.info.nextFree.val + 1) tree.info.root key

/-- The two transactions differ in their size estimates only. -/
structure SameNodes (tree tree' : Tree) : Prop where
  store : tree'.store = tree.store
  dirty : tree'.dirty = tree.dirty
  info : tree'.info = tree.info
  metaDirty : tree'.metaDirty = tree.metaDirty

theorem SameNodes.refl (tree : Tree) : SameNodes tree tree :=
  ⟨rfl, rfl, rfl, rfl⟩

theorem SameNodes.trans {first second third : Tree} (hleft : SameNodes first second)
    (hright : SameNodes second third) : SameNodes first third :=
  ⟨hright.store.trans hleft.store, hright.dirty.trans hleft.dirty,
    hright.info.trans hleft.info, hright.metaDirty.trans hleft.metaDirty⟩

theorem SameNodes.view {tree tree' : Tree} (hsame : SameNodes tree tree') :
    tree'.view = tree.view := by
  funext page
  simp only [Tree.view, hsame.store, hsame.dirty]

theorem view_of_dirty {tree : Tree} {page : PageNo} {node : Node}
    (hdirty : tree.dirty[page]? = some node) : tree.view page = node := by
  simp [view, hdirty]

/-- Outside the pages written, a transaction sees what it saw. -/
theorem view_congr {tree tree' : Tree} {page : PageNo} (hstore : tree'.store = tree.store)
    (hdirty : tree'.dirty[page]? = tree.dirty[page]?) : tree'.view page = tree.view page := by
  simp only [view, hstore, hdirty]

theorem node_eq_ok {page : PageNo} {tree tree' : Tree} {found : Node}
    (hnode : node page tree = .ok (found, tree')) :
    found = tree.view page ∧ SameNodes tree tree' := by
  simp only [node, StateExcept.get_bind] at hnode
  unfold view
  cases hdirty : tree.dirty[page]? with
  | some node =>
      simp only [hdirty, StateExcept.pure_eq_ok, Prod.mk.injEq] at hnode
      obtain ⟨rfl, rfl⟩ := hnode
      exact ⟨rfl, .refl _⟩
  | none =>
      cases hread : tree.store.readHead page with
      | ok bytes =>
          simp only [hdirty, hread, StateExcept.modify_bind] at hnode
          cases hdecode : Node.decode bytes page with
          | ok node =>
              simp only [hdecode, StateExcept.pure_eq_ok, Prod.mk.injEq] at hnode
              obtain ⟨rfl, rfl⟩ := hnode
              exact ⟨by simp [hdecode], rfl, rfl, rfl, rfl⟩
          | error error => simp [hdecode] at hnode
      | error error =>
          cases error with
          | pageNotFound missing =>
              simp only [hdirty, hread, StateExcept.pure_eq_ok, Prod.mk.injEq] at hnode
              obtain ⟨rfl, rfl⟩ := hnode
              exact ⟨rfl, .refl _⟩
          | _ => simp [hdirty, hread] at hnode

/-- Taking a node reads it and forgets this transaction's copy of it. -/
theorem takeNode_eq_ok {page : PageNo} {tree tree' : Tree} {found : Node}
    (htake : takeNode page tree = .ok (found, tree')) :
    found = tree.view page ∧ tree'.store = tree.store ∧ tree'.info = tree.info ∧
      tree'.metaDirty = tree.metaDirty ∧
      ∀ other, other ≠ page → tree'.dirty[other]? = tree.dirty[other]? := by
  simp only [takeNode, StateExcept.get_bind] at htake
  cases hdirty : tree.dirty[page]? with
  | some node =>
      simp only [hdirty, StateExcept.modify_bind, StateExcept.pure_eq_ok,
        Prod.mk.injEq] at htake
      obtain ⟨rfl, rfl⟩ := htake
      refine ⟨(view_of_dirty hdirty).symm, rfl, rfl, rfl, fun other hother => ?_⟩
      rw [OrderedMap.getElem?_erase, if_neg (Ne.symm hother)]
  | none =>
      simp only [hdirty] at htake
      obtain ⟨hfound, hsame⟩ := node_eq_ok htake
      exact ⟨hfound, hsame.store, hsame.info, hsame.metaDirty,
        fun other _ => by rw [hsame.dirty]⟩

theorem U64.next_eq_ok {value next : U64} (hnext : value.next = .ok next) :
    next.val = value.val + 1 := by
  unfold U64.next at hnext
  split at hnext
  · obtain rfl := Except.ok.inj hnext
    rfl
  · cases hnext

theorem alloc_eq_ok {tree tree' : Tree} {page : PageNo}
    (halloc : alloc tree = .ok (page, tree')) :
    page = tree.info.nextFree ∧ ∃ next : PageNo, next.val = page.val + 1 ∧
      tree' = { tree with info := { tree.info with nextFree := next }, metaDirty := true } := by
  simp only [alloc, StateExcept.get_bind] at halloc
  cases hnext : tree.info.nextFree.next with
  | error error => simp [hnext] at halloc
  | ok next =>
      simp only [hnext, StateExcept.modify_bind, StateExcept.pure_eq_ok, Prod.mk.injEq] at halloc
      obtain ⟨rfl, rfl⟩ := halloc
      exact ⟨rfl, next, U64.next_eq_ok hnext, rfl⟩

theorem countUp_eq_ok {tree tree' : Tree} {done : Unit}
    (hcount : countUp tree = .ok (done, tree')) :
    ∃ count : U64, count.val = tree.info.count.val + 1 ∧
      tree' = { tree with info := { tree.info with count := count }, metaDirty := true } := by
  simp only [countUp, StateExcept.get_bind] at hcount
  cases hnext : tree.info.count.next with
  | error error => simp [hnext] at hcount
  | ok count =>
      simp only [hnext, StateExcept.modify_eq_ok, Prod.mk.injEq] at hcount
      exact ⟨count, U64.next_eq_ok hnext, hcount.2⟩

theorem fuel_eq_ok {tree : Tree} {result : ℕ × Tree} :
    fuel tree = .ok result ↔ result = (tree.info.nextFree.val + 1, tree) := by
  rw [fuel, StateExcept.get_bind, StateExcept.pure_eq_ok]

theorem sizeOf_eq_ok {page : PageNo} {node : Node} {tree tree' : Tree} {size : ℕ}
    (hsize : sizeOf page node tree = .ok (size, tree')) : SameNodes tree tree' := by
  simp only [sizeOf, StateExcept.get_bind] at hsize
  cases hcached : tree.sizes[page]? with
  | some cached =>
      simp only [hcached, StateExcept.pure_eq_ok, Prod.mk.injEq] at hsize
      exact hsize.2 ▸ .refl _
  | none =>
      simp only [hcached, StateExcept.modify_bind, StateExcept.pure_eq_ok,
        Prod.mk.injEq] at hsize
      exact hsize.2 ▸ ⟨rfl, rfl, rfl, rfl⟩

/-! ## Insertion -/

/-- What an insertion under the given pages may change: those pages and fresh
ones. -/
structure Grows (tree tree' : Tree) (pages added : List PageNo) : Prop where
  store : tree'.store = tree.store
  root : tree'.info.root = tree.info.root
  nextFree : tree.info.nextFree ≤ tree'.info.nextFree
  fresh : ∀ page ∈ added, tree.info.nextFree ≤ page ∧ page < tree'.info.nextFree
  nodup : added.Nodup
  frame : ∀ page, page ∉ pages → page ∉ added → tree'.dirty[page]? = tree.dirty[page]?
  dirty : tree.metaDirty = true → tree'.metaDirty = true
  clean : tree'.metaDirty = false → tree'.info = tree.info

/-- The subtree under a page after an insertion: as deep as it was, or two of
that depth on both sides of a separator. -/
def Grown (tree : Tree) (depth : ℕ) (lo hi : Option Key) (page : PageNo)
    (entries : List (Key × Record)) (pages : List PageNo) : Option (Key × PageNo) → Prop
  | none => ∃ pages', pages'.Perm pages ∧ Subtree tree.view depth lo hi page entries pages'
  | some (separator, right) =>
      ∃ left above pagesLeft pagesRight, entries = left ++ above ∧
        (pagesLeft ++ pagesRight).Perm pages ∧ Separates lo hi separator ∧
        Subtree tree.view depth lo (some separator) page left pagesLeft ∧
        Subtree tree.view depth (some separator) hi right above pagesRight

/-- The same, of subtrees whose leaves have ranges as asked. -/
def RangedGrown (ok : Option Key → Option Key → Prop) (tree : Tree) (depth : ℕ)
    (lo hi : Option Key) (page : PageNo) (entries : List (Key × Record)) (pages : List PageNo) :
    Option (Key × PageNo) → Prop
  | none =>
      ∃ pages', pages'.Perm pages ∧ RangedSubtree ok tree.view depth lo hi page entries pages'
  | some (separator, right) =>
      ∃ left above pagesLeft pagesRight, entries = left ++ above ∧
        (pagesLeft ++ pagesRight).Perm pages ∧ Separates lo hi separator ∧
        RangedSubtree ok tree.view depth lo (some separator) page left pagesLeft ∧
        RangedSubtree ok tree.view depth (some separator) hi right above pagesRight

theorem RangedGrown.grown {ok : Option Key → Option Key → Prop} {tree : Tree} {depth : ℕ}
    {lo hi : Option Key} {page : PageNo} {entries : List (Key × Record)} {pages : List PageNo}
    {result : Option (Key × PageNo)}
    (hgrown : RangedGrown ok tree depth lo hi page entries pages result) :
    Grown tree depth lo hi page entries pages result := by
  cases result with
  | none =>
      obtain ⟨grown, hperm, htree⟩ := hgrown
      exact ⟨grown, hperm, htree.subtree⟩
  | some split =>
      obtain ⟨left, above, pagesLeft, pagesRight, hcut, hperm, hseparates, hleft, hright⟩ := hgrown
      exact ⟨left, above, pagesLeft, pagesRight, hcut, hperm, hseparates, hleft.subtree,
        hright.subtree⟩

theorem RangedGrown.perm {ok : Option Key → Option Key → Prop} {tree : Tree} {depth : ℕ} {lo hi : Option Key} {page : PageNo}
    {entries : List (Key × Record)} {pages pages' : List PageNo}
    {result : Option (Key × PageNo)} (hgrown : RangedGrown ok tree depth lo hi page entries pages result)
    (hperm : pages.Perm pages') : RangedGrown ok tree depth lo hi page entries pages' result := by
  cases result with
  | none =>
      obtain ⟨grown, hgrownPerm, htree⟩ := hgrown
      exact ⟨grown, hgrownPerm.trans hperm, htree⟩
  | some split =>
      obtain ⟨left, above, pagesLeft, pagesRight, hcut, hgrownPerm, hrest⟩ := hgrown
      exact ⟨left, above, pagesLeft, pagesRight, hcut, hgrownPerm.trans hperm, hrest⟩

/-- Nothing is asked of the ranges, or a leaf that is cut has an entry for each half. -/
def LeavesRoom (ok : Option Key → Option Key → Prop) (pageSize : ℕ) (key : Key) (record : Record)
    (entries : List (Key × Record)) : Prop :=
  (∀ lo hi, ok lo hi) ∨ Divides ok ∧
    (fillLimit pageSize < (Node.encode (.leaf (insertEntry key record entries))).length →
      1 < (insertEntry key record entries).length)

theorem splitLeaf_spec {ok : Option Key → Option Key → Prop} {page : PageNo}
    {entries : List (Key × Record)} {tree tree' : Tree} {result : Option (Key × PageNo)}
    {lo hi : Option Key} (hsplit : splitLeaf page entries tree = .ok (result, tree'))
    (hroom : (∀ lo hi, ok lo hi) ∨ Divides ok ∧ 1 < entries.length) (hok : ok lo hi)
    (hsorted : Sorted entries) (hrange : ∀ entry ∈ entries, InRange lo hi entry.1)
    (hpage : page < tree.info.nextFree) :
    ∃ added, Grows tree tree' [page] added ∧ tree'.info.count = tree.info.count ∧
      RangedGrown ok tree' 0 lo hi page entries (page :: added) result := by
  simp only [splitLeaf, StateExcept.getThe_bind] at hsplit
  cases hright : (entries.drop (entries.length / 2)).head? with
  | none => simp [hright] at hsplit
  | some first =>
      obtain ⟨separator, record⟩ := first
      simp only [hright, StateExcept.bind_eq_ok] at hsplit
      obtain ⟨right, allocated, halloc, hsplit⟩ := hsplit
      obtain ⟨rfl, next, hnext, rfl⟩ := alloc_eq_ok halloc
      simp only [setSized, StateExcept.modify_eq_ok, StateExcept.pure_eq_ok,
        Prod.mk.injEq] at hsplit
      obtain ⟨_, _, ⟨-, rfl⟩, _, _, ⟨-, rfl⟩, rfl, rfl⟩ := hsplit
      have hlt : tree.info.nextFree < next := by
        rw [Fin.lt_def, hnext]
        exact Nat.lt_succ_self _
      obtain ⟨hfirst, hleft, habove, hbelow, hfrom⟩ := hsorted.cut hright
      have hranges : ok lo (some separator) ∧ ok (some separator) hi := by
        rcases hroom with htrivial | ⟨hdivides, htwo⟩
        · exact ⟨htrivial _ _, htrivial _ _⟩
        · obtain ⟨lower, hlower⟩ : ∃ lower, lower ∈ entries.take (entries.length / 2) := by
            refine List.exists_mem_of_length_pos ?_
            rw [List.length_take]
            omega
          exact hdivides lo hi lower.1 separator hok (hrange lower (List.mem_of_mem_take hlower))
            (hrange _ hfirst) (hbelow lower hlower)
      refine ⟨[tree.info.nextFree], ⟨rfl, rfl, hlt.le, by simpa using hlt, by simp,
        ?_, by simp, by simp⟩, rfl, entries.take (entries.length / 2),
        entries.drop (entries.length / 2), [page], [tree.info.nextFree],
        (List.take_append_drop _ _).symm, by simp, (hrange _ hfirst).separates, ?_, ?_⟩
      · intro other hother hadded
        simp only [List.mem_singleton] at hother hadded
        simp [OrderedMap.getElem?_insert, Ne.symm hother, Ne.symm hadded]
      · refine ⟨hranges.1, view_of_dirty ?_, hleft, fun entry hentry =>
          (hrange entry (List.mem_of_mem_take hentry)).of_lt (hbelow entry hentry), rfl⟩
        rw [OrderedMap.getElem?_insert, if_neg hpage.ne', OrderedMap.getElem?_insert,
          if_pos rfl]
      · refine ⟨hranges.2, view_of_dirty ?_, habove, fun entry hentry =>
          (hrange entry (List.mem_of_mem_drop hentry)).of_le (hfrom entry hentry), rfl⟩
        rw [OrderedMap.getElem?_insert, if_pos rfl]

theorem Grows.trans {first second third : Tree} {pages pages' added added' : List PageNo}
    (hleft : Grows first second pages added) (hright : Grows second third pages' added')
    (hpages : pages' ⊆ pages ++ added) : Grows first third pages (added ++ added') where
  store := hright.store.trans hleft.store
  root := hright.root.trans hleft.root
  nextFree := hleft.nextFree.trans hright.nextFree
  fresh page hpage := by
    rcases List.mem_append.mp hpage with hpage | hpage
    · obtain ⟨hlower, hupper⟩ := hleft.fresh page hpage
      exact ⟨hlower, hupper.trans_le hright.nextFree⟩
    · obtain ⟨hlower, hupper⟩ := hright.fresh page hpage
      exact ⟨hleft.nextFree.trans hlower, hupper⟩
  nodup := hleft.nodup.append hright.nodup fun page hpage hpage' =>
    absurd ((hleft.fresh page hpage).2.trans_le (hright.fresh page hpage').1) (lt_irrefl page)
  frame page hpage hadded := by
    rw [List.mem_append, not_or] at hadded
    have hpage' : page ∉ pages' := fun hmem => by
      rcases List.mem_append.mp (hpages hmem) with hmem | hmem
      · exact hpage hmem
      · exact hadded.1 hmem
    exact (hright.frame page hpage' hadded.2).trans (hleft.frame page hpage hadded.1)
  dirty hdirty := hright.dirty (hleft.dirty hdirty)
  clean hclean := by
    have hmiddle : second.metaDirty = false := by
      by_contra hdirty
      exact absurd (hright.dirty (by simpa using hdirty)) (by simp [hclean])
    exact (hright.clean hclean).trans (hleft.clean hmiddle)

theorem Grows.mono {tree tree' : Tree} {pages pages' added : List PageNo}
    (hgrows : Grows tree tree' pages added) (hpages : pages ⊆ pages') :
    Grows tree tree' pages' added :=
  { hgrows with frame := fun page hpage => hgrows.frame page fun hmem => hpage (hpages hmem) }

theorem SameNodes.grows {tree tree' : Tree} (hsame : SameNodes tree tree')
    (pages : List PageNo) : Grows tree tree' pages [] where
  store := hsame.store
  root := by rw [hsame.info]
  nextFree := by rw [hsame.info]
  fresh := by simp
  nodup := List.nodup_nil
  frame := fun page _ _ => by rw [hsame.dirty]
  dirty := fun hdirty => by rw [hsame.metaDirty, hdirty]
  clean := fun _ => hsame.info

theorem updateLeaf_eq_ok {entries updated : List (Key × Record)} {key : Key}
    {record : Record} {size estimate : ℕ} {tree tree' : Tree}
    (hupdate : updateLeaf entries key record size tree = .ok ((updated, estimate), tree')) :
    updated = insertEntry key record entries ∧ Grows tree tree' [] [] ∧
      tree'.info.nextFree = tree.info.nextFree ∧
      tree'.info.count.val + entries.length = tree.info.count.val + updated.length := by
  unfold updateLeaf at hupdate
  cases hsearch : searchEntries entries key with
  | ok position =>
      cases hget : entries[position]? with
      | none => simp [hsearch, hget] at hupdate
      | some entry =>
          obtain ⟨found, old⟩ := entry
          simp only [hsearch, hget, StateExcept.pure_eq_ok, Prod.mk.injEq] at hupdate
          obtain ⟨⟨rfl, -⟩, rfl⟩ := hupdate
          exact ⟨(set_searchEntries hsearch hget).2, (SameNodes.refl _).grows _, rfl, by simp⟩
  | error position =>
      simp only [hsearch, StateExcept.bind_eq_ok, StateExcept.pure_eq_ok,
        Prod.mk.injEq] at hupdate
      obtain ⟨_, counted, hcount, ⟨rfl, -⟩, rfl⟩ := hupdate
      obtain ⟨count, hval, rfl⟩ := countUp_eq_ok hcount
      have hlength : (entries.insertIdx position (key, record)).length =
          entries.length + 1 := by
        exact List.length_insertIdx_of_le_length (searchEntries_le hsearch) _
      refine ⟨insertIdx_searchEntries hsearch, ⟨rfl, rfl, le_rfl, by simp, List.nodup_nil,
        fun _ _ _ => rfl, fun _ => rfl, by simp⟩, rfl, ?_⟩
      rw [hlength]
      simp only [hval]
      omega

/-- A leaf is only split when it is over the limit, whatever its estimate. -/
theorem lt_of_overflowed {pageSize estimate : ℕ} {node : Node}
    (hover : (overflowed pageSize node estimate).1 = true) :
    fillLimit pageSize < node.encode.length := by
  unfold overflowed at hover
  split at hover
  · cases hover
  · simpa using hover

theorem insertLeaf_spec {ok : Option Key → Option Key → Prop} {page : PageNo}
    {entries : List (Key × Record)} {key : Key} {record : Record} {tree tree' : Tree}
    {result : Option (Key × PageNo)} {lo hi : Option Key}
    (hinsert : insertLeaf page entries key record tree = .ok (result, tree'))
    (hroom : LeavesRoom ok tree.store.pageSize key record entries) (hok : ok lo hi)
    (hsorted : Sorted entries) (hrange : ∀ entry ∈ entries, InRange lo hi entry.1)
    (hkey : InRange lo hi key) (hpage : page < tree.info.nextFree) :
    ∃ added, Grows tree tree' [page] added ∧
      tree'.info.count.val + entries.length =
        tree.info.count.val + (insertEntry key record entries).length ∧
      RangedGrown ok tree' 0 lo hi page (insertEntry key record entries) (page :: added)
        result := by
  simp only [insertLeaf, StateExcept.bind_eq_ok] at hinsert
  obtain ⟨size, sized, hsize, ⟨updated, estimate⟩, counted, hupdate, hstore⟩ := hinsert
  have hsame := sizeOf_eq_ok hsize
  obtain ⟨rfl, hcounted, hnext, hcount⟩ := updateLeaf_eq_ok hupdate
  have hgrows := ((hsame.grows []).trans hcounted (by simp)).mono (List.nil_subset [page])
  rw [hsame.info] at hnext hcount
  have hsorted' : Sorted (insertEntry key record entries) := hsorted.insertEntry
  have hrange' : ∀ entry ∈ insertEntry key record entries, InRange lo hi entry.1 := by
    intro entry hentry
    rcases (mem_insertEntry hsorted).mp hentry with rfl | ⟨_, hentry⟩
    · exact hkey
    · exact hrange entry hentry
  have hpageSize : counted.store.pageSize = tree.store.pageSize := by
    rw [hcounted.store, hsame.store]
  simp only [storeLeaf, StateExcept.getThe_bind, hpageSize] at hstore
  split at hstore
  · next hover =>
    obtain ⟨added, hsplit, hsame', hgrown⟩ := splitLeaf_spec hstore
      (hroom.imp_right (And.imp_right fun htwo => htwo (lt_of_overflowed hover))) hok hsorted'
      hrange' (by rw [hnext]; exact hpage)
    refine ⟨added, by simpa using hgrows.trans hsplit (by simp), ?_, hgrown⟩
    rw [hsame']
    exact hcount
  · simp only [setSized, StateExcept.modify_bind, StateExcept.pure_eq_ok,
      Prod.mk.injEq] at hstore
    obtain ⟨rfl, rfl⟩ := hstore
    have hset : Grows counted { counted with
        sizes := counted.sizes.insert page
          (overflowed tree.store.pageSize (.leaf (insertEntry key record entries)) estimate).2
        dirty := counted.dirty.insert page (.leaf (insertEntry key record entries)) }
        [page] [] := by
      refine ⟨rfl, rfl, le_rfl, by simp, List.nodup_nil, ?_, id, fun _ => rfl⟩
      intro other hother _
      simp only [List.mem_singleton] at hother
      rw [OrderedMap.getElem?_insert, if_neg (Ne.symm hother)]
    refine ⟨[], by simpa using hgrows.trans hset (by simp), hcount, [page], .refl _, ?_⟩
    refine ⟨hok, view_of_dirty ?_, hsorted', hrange', rfl⟩
    rw [OrderedMap.getElem?_insert, if_pos rfl]

/-- Children stay as they are when other pages are written. -/
theorem chain_congr {ok : Option Key → Option Key → Prop} {tree tree' : Tree} {depth : ℕ} {lo hi : Option Key} {keys : List Key}
    {children : List PageNo} {entries : List (Key × Record)} {pages : List PageNo}
    (hview : ∀ page ∈ pages, tree'.view page = tree.view page)
    (hchain : Chain (RangedSubtree ok tree.view depth) lo hi keys children entries pages) :
    Chain (RangedSubtree ok tree'.view depth) lo hi keys children entries pages :=
  hchain.imp fun _ _ _ _ _ hbelow hchild =>
    hchild.congr fun page hpage => hview page (hbelow hpage)

theorem storeInternal_spec {ok : Option Key → Option Key → Prop} {page : PageNo} {keys : List Key} {children : List PageNo}
    {tree tree' : Tree} {result : Option (Key × PageNo)} {depth : ℕ} {lo hi : Option Key}
    {entries : List (Key × Record)} {pages : List PageNo}
    (hstore : storeInternal page keys children tree = .ok (result, tree'))
    (hchain : Chain (RangedSubtree ok tree.view depth) lo hi keys children entries pages)
    (hpage : page < tree.info.nextFree) (hpages : ∀ other ∈ pages, other < tree.info.nextFree)
    (hnotMem : page ∉ pages) :
    ∃ added, Grows tree tree' [page] added ∧ tree'.info.count = tree.info.count ∧
      RangedGrown ok tree' (depth + 1) lo hi page entries (page :: (pages ++ added)) result := by
  simp only [storeInternal, StateExcept.getThe_bind] at hstore
  split at hstore
  · cases hmid : keys[keys.length / 2]? with
    | none => simp [hmid] at hstore
    | some separator =>
        simp only [hmid, StateExcept.bind_eq_ok] at hstore
        obtain ⟨right, allocated, halloc, hstore⟩ := hstore
        obtain ⟨rfl, next, hnext, rfl⟩ := alloc_eq_ok halloc
        simp only [set, StateExcept.modify_eq_ok, StateExcept.pure_eq_ok,
          Prod.mk.injEq] at hstore
        obtain ⟨_, _, ⟨-, rfl⟩, _, _, ⟨-, rfl⟩, rfl, rfl⟩ := hstore
        have hlt : tree.info.nextFree < next := by
          rw [Fin.lt_def, hnext]
          exact Nat.lt_succ_self _
        obtain ⟨left, above, pagesLeft, pagesRight, rfl, rfl, hseparates, hleft, habove⟩ :=
          hchain.split hmid
        have hframe : ∀ other, other ≠ page → other ≠ tree.info.nextFree →
            ((tree.dirty.insert page (.internal (keys.take (keys.length / 2))
              (children.take (keys.length / 2 + 1)))).insert tree.info.nextFree
              (.internal (keys.drop (keys.length / 2 + 1))
                (children.drop (keys.length / 2 + 1))))[other]? = tree.dirty[other]? := by
          intro other hother hfresh
          rw [OrderedMap.getElem?_insert, if_neg hfresh.symm, OrderedMap.getElem?_insert,
            if_neg hother.symm]
        refine ⟨[tree.info.nextFree], ⟨rfl, rfl, hlt.le, by simpa using hlt, by simp, ?_,
          by simp, by simp⟩, rfl, left, above, page :: pagesLeft,
          tree.info.nextFree :: pagesRight, rfl, ?_, hseparates,
          ⟨_, _, _, view_of_dirty ?_, chain_congr ?_ hleft, rfl⟩,
          ⟨_, _, _, view_of_dirty ?_, chain_congr ?_ habove, rfl⟩⟩
        · intro other hother hadded
          exact hframe other (by simpa using hother) (by simpa using hadded)
        · rw [List.cons_append, List.append_assoc]
          exact (List.Perm.append_left _ (List.perm_append_singleton _ _).symm).cons _
        · rw [OrderedMap.getElem?_insert, if_neg hpage.ne', OrderedMap.getElem?_insert,
            if_pos rfl]
        · intro other hother
          have hmem := List.mem_append_left pagesRight hother
          exact view_congr rfl (hframe other (ne_of_mem_of_not_mem hmem hnotMem)
            (hpages other hmem).ne)
        · rw [OrderedMap.getElem?_insert, if_pos rfl]
        · intro other hother
          have hmem := List.mem_append_right pagesLeft hother
          exact view_congr rfl (hframe other (ne_of_mem_of_not_mem hmem hnotMem)
            (hpages other hmem).ne)
  · simp only [setSized, StateExcept.modify_bind, StateExcept.pure_eq_ok,
      Prod.mk.injEq] at hstore
    obtain ⟨rfl, rfl⟩ := hstore
    refine ⟨[], ⟨rfl, rfl, le_rfl, by simp, List.nodup_nil, ?_, id, fun _ => rfl⟩, rfl,
      page :: pages, by simp, _, _, _, view_of_dirty ?_, chain_congr ?_ hchain, rfl⟩
    · intro other hother _
      rw [OrderedMap.getElem?_insert, if_neg (Ne.symm (by simpa using hother))]
    · rw [OrderedMap.getElem?_insert, if_pos rfl]
    · intro other hother
      refine view_congr rfl ?_
      rw [OrderedMap.getElem?_insert, if_neg (ne_of_mem_of_not_mem hother hnotMem).symm]

/-- Bindings around the one a key belongs to stay where they are. -/
theorem insertEntry_around {key : Key} {record : Record}
    {left middle right : List (Key × Record)} (hleft : ∀ entry ∈ left, entry.1 < key)
    (hright : ∀ entry ∈ right, key < entry.1) :
    insertEntry key record (left ++ middle ++ right) =
      left ++ insertEntry key record middle ++ right := by
  rw [insertEntry_append_right hright, insertEntry_append_left hleft]

theorem insertInto_ranged {ok : Option Key → Option Key → Prop} {fuel : ℕ} {page : PageNo}
    {key : Key} {record : Record} {tree tree' : Tree} {result : Option (Key × PageNo)} {depth : ℕ} {lo hi : Option Key}
    {entries : List (Key × Record)} {pages : List PageNo}
    (hinsert : insertInto fuel page key record tree = .ok (result, tree'))
    (hroom : ∀ held bindings, (held, .leaf bindings) ∈ passed tree.view fuel page key →
      LeavesRoom ok tree.store.pageSize key record bindings)
    (htree : RangedSubtree ok tree.view depth lo hi page entries pages) (hkey : InRange lo hi key)
    (hnodup : pages.Nodup) (hpages : ∀ other ∈ pages, other < tree.info.nextFree) :
    ∃ added, Grows tree tree' pages added ∧
      tree'.info.count.val + entries.length =
        tree.info.count.val + (insertEntry key record entries).length ∧
      RangedGrown ok tree' depth lo hi page (insertEntry key record entries) (pages ++ added)
        result := by
  induction fuel generalizing page tree tree' result depth lo hi entries pages with
  | zero => simp [insertInto] at hinsert
  | succ fuel ih =>
      simp only [insertInto, StateExcept.bind_eq_ok] at hinsert
      obtain ⟨found, taken, htake, hinsert⟩ := hinsert
      obtain ⟨hfound, hstore, hinfo, hmeta, hother⟩ := takeNode_eq_ok htake
      have htaken : Grows tree taken [page] [] :=
        ⟨hstore, by rw [hinfo], by rw [hinfo], by simp, List.nodup_nil,
          fun other hpage _ => hother other (by simpa using hpage),
          fun hdirty => hmeta.trans hdirty, fun _ => hinfo⟩
      have hpage := hpages page htree.subtree.page_mem
      cases depth with
      | zero =>
          obtain ⟨hok, hnode, hsorted, hrange, rfl⟩ := htree
          rw [hnode] at hfound
          subst hfound
          have hleaf := hroom page entries (by simp [passed, hnode])
          rw [← hstore] at hleaf
          obtain ⟨added, hgrows, hcount, hgrown⟩ :=
            insertLeaf_spec hinsert hleaf hok hsorted hrange hkey (by rw [hinfo]; exact hpage)
          rw [hinfo] at hcount
          exact ⟨added, by simpa using htaken.trans hgrows (by simp), hcount, hgrown⟩
      | succ depth =>
          obtain ⟨keys, children, below, hnode, hchain, rfl⟩ := htree
          rw [hnode] at hfound
          subst hfound
          obtain ⟨hnotMem, hnodup⟩ := List.nodup_cons.mp hnodup
          obtain ⟨child, lower, upper, left, middle, right, pagesLeft, pagesMiddle, pagesRight,
            hget, hchild, hinner, rfl, rfl, hleft, hright, hreplace, hsplit⟩ :=
            hchain.focus (fun _ _ _ _ _ hsub => hsub.subtree.inRange) hkey
          have hget : children[childIndex keys key]? = some child := hget
          simp only [hget, StateExcept.bind_eq_ok] at hinsert
          obtain ⟨split, inserted, hsub, hinsert⟩ := hinsert
          have hlt : ∀ other ∈ pagesLeft ++ pagesMiddle ++ pagesRight,
              other < tree.info.nextFree := fun other hmem =>
            hpages other (List.mem_cons_of_mem _ hmem)
          have hmiddle : pagesMiddle ⊆ pagesLeft ++ pagesMiddle ++ pagesRight :=
            fun other hmem => List.mem_append_left _ (List.mem_append_right _ hmem)
          have hne : ∀ other ∈ pagesLeft ++ pagesMiddle ++ pagesRight, other ≠ page :=
            fun other hmem => ne_of_mem_of_not_mem hmem hnotMem
          have hview : ∀ other ∈ pagesMiddle, taken.view other = tree.view other :=
            fun other hmem => view_congr hstore (hother other (hne other (hmiddle hmem)))
          have hbelow : ∀ held bindings, (held, .leaf bindings) ∈ passed taken.view fuel child key →
              LeavesRoom ok taken.store.pageSize key record bindings := by
            intro held bindings hheld
            rw [passed_congr hview hchild.subtree hinner] at hheld
            rw [hstore]
            exact hroom held bindings (by simp [passed, hnode, hget, hheld])
          have hchild := hchild.congr hview
          have hnodupMiddle : pagesMiddle.Nodup :=
            (List.nodup_append.mp (List.nodup_append.mp hnodup).1).2.1
          obtain ⟨added, hgrows, hcount, hgrown⟩ := ih hsub hbelow hchild hinner hnodupMiddle
            (fun other hmem => hinfo ▸ hlt other (hmiddle hmem))
          have hadded : ∀ other ∈ added, tree.info.nextFree ≤ other := fun other hmem =>
            hinfo ▸ (hgrows.fresh other hmem).1
          have hentries : insertEntry key record (left ++ middle ++ right) = _ :=
            insertEntry_around hleft hright
          have hsides : ∀ other ∈ pagesLeft ++ pagesRight,
              inserted.view other = tree.view other := by
            intro other hmem
            have hall : other ∈ pagesLeft ++ pagesMiddle ++ pagesRight := by
              rw [List.mem_append] at hmem ⊢
              exact hmem.imp_left (List.mem_append_left _)
            have hnotMiddle : other ∉ pagesMiddle := by
              obtain ⟨hleftMiddle, _, hacross⟩ := List.nodup_append.mp hnodup
              intro hmiddleMem
              rcases List.mem_append.mp hmem with hmem | hmem
              · exact (List.nodup_append.mp hleftMiddle).2.2 other hmem other hmiddleMem rfl
              · exact hacross other (List.mem_append_right _ hmiddleMem) other hmem rfl
            have hnotAdded : other ∉ added := fun hadd =>
              absurd ((hlt other hall).trans_le (hadded other hadd)) (lt_irrefl other)
            refine view_congr (hgrows.store.trans hstore) ?_
            rw [hgrows.frame other hnotMiddle hnotAdded, hother other (hne other hall)]
          have hrest : ∀ lo hi child entries below, below ⊆ pagesLeft ++ pagesRight →
              RangedSubtree ok tree.view depth lo hi child entries below →
              RangedSubtree ok inserted.view depth lo hi child entries below :=
            fun _ _ _ _ _ hbelow hsub =>
              hsub.congr fun other hmem => hsides other (hbelow hmem)
          have hpageAdded : page ∉ added := fun hadd =>
            absurd (hpage.trans_le (hadded page hadd)) (lt_irrefl page)
          have hinserted : Grows tree inserted
              (page :: (pagesLeft ++ pagesMiddle ++ pagesRight)) added := by
            have hwider : pagesMiddle ⊆
                page :: (pagesLeft ++ pagesMiddle ++ pagesRight) ++ [] := fun other hmem =>
              List.mem_append_left _ (List.mem_cons_of_mem _ (hmiddle hmem))
            simpa using (htaken.mono (by simp)).trans hgrows hwider
          have hlength : inserted.info.count.val + (left ++ middle ++ right).length =
              tree.info.count.val +
                (insertEntry key record (left ++ middle ++ right)).length := by
            rw [hentries]
            rw [hinfo] at hcount
            simp only [List.length_append]
            omega
          have hperm : ∀ {grown : List PageNo}, grown.Perm (pagesMiddle ++ added) →
              (pagesLeft ++ grown ++ pagesRight).Perm
                (pagesLeft ++ pagesMiddle ++ pagesRight ++ added) := by
            intro grown hgrownPerm
            have hinner := (hgrownPerm.append_left pagesLeft).append_right pagesRight
            refine hinner.trans ?_
            simp only [List.append_assoc]
            exact (List.perm_append_comm.append_left _).append_left _
          have hgrownNe : ∀ {grown : List PageNo}, grown.Perm (pagesMiddle ++ added) →
              ∀ other ∈ pagesLeft ++ grown ++ pagesRight, other ≠ page := by
            intro grown hgrownPerm other hmem
            rcases List.mem_append.mp ((hperm hgrownPerm).mem_iff.mp hmem) with hmem | hmem
            · exact hne other hmem
            · exact ne_of_mem_of_not_mem hmem hpageAdded
          rw [hentries] at hlength ⊢
          cases split with
          | none =>
              obtain ⟨grown, hgrownPerm, hnew⟩ := hgrown
              simp only [restore, StateExcept.modify_bind, StateExcept.pure_eq_ok,
                Prod.mk.injEq] at hinsert
              obtain ⟨rfl, rfl⟩ := hinsert
              have hwhole := hreplace hrest hnew
              refine ⟨added, ⟨hinserted.store, hinserted.root, hinserted.nextFree,
                hinserted.fresh, hinserted.nodup, ?_, hinserted.dirty, hinserted.clean⟩,
                hlength, page :: (pagesLeft ++ grown ++ pagesRight), (hperm hgrownPerm).cons _,
                _, _, _, view_of_dirty ?_, chain_congr ?_ hwhole, rfl⟩
              · intro other hmem hnot
                rw [OrderedMap.getElem?_insert,
                  if_neg (fun heq : page = other => hmem (heq ▸ List.mem_cons_self)),
                  hinserted.frame other hmem hnot]
              · rw [OrderedMap.getElem?_insert, if_pos rfl]
              · intro other hmem
                refine view_congr rfl ?_
                rw [OrderedMap.getElem?_insert, if_neg (hgrownNe hgrownPerm other hmem).symm]
          | some split =>
              obtain ⟨separator, sibling⟩ := split
              obtain ⟨first, second, pagesFirst, pagesSecond, hcut, hgrownPerm, hseparates,
                hfirst, hsecond⟩ := hgrown
              have hwhole := hsplit hrest hseparates hfirst hsecond
              rw [← hcut] at hwhole
              have hgrownLt : ∀ other ∈ pagesLeft ++ (pagesFirst ++ pagesSecond) ++ pagesRight,
                  other < inserted.info.nextFree := by
                intro other hmem
                rcases List.mem_append.mp ((hperm hgrownPerm).mem_iff.mp hmem) with hmem | hmem
                · exact (hlt other hmem).trans_le hinserted.nextFree
                · exact (hinserted.fresh other hmem).2
              obtain ⟨more, hmore, hsame, hresult⟩ := storeInternal_spec hinsert hwhole
                (hpage.trans_le hinserted.nextFree) hgrownLt
                (fun hmem => hgrownNe hgrownPerm page hmem rfl)
              rw [hsame]
              refine ⟨added ++ more, hinserted.trans hmore (by simp), hlength,
                hresult.perm ?_⟩
              have hmorePerm := ((hperm hgrownPerm).append_right more).cons page
              rwa [List.append_assoc _ added more] at hmorePerm

/-! ## Whole trees -/

/-- The pages a transaction sees form one search tree, and there are no
others. -/
structure Shaped (tree : Tree) (depth : ℕ) (entries : List (Key × Record))
    (pages : List PageNo) : Prop where
  subtree : Subtree tree.view depth none none tree.info.root entries pages
  nodup : pages.Nodup
  handedOut : ∀ page ∈ pages, page < tree.info.nextFree
  notMeta : META_PAGE ∉ pages
  written : ∀ page, tree.dirty[page]? ≠ none → page ∈ pages
  stored : ∀ page bytes, page ≠ META_PAGE → tree.store.readHead page = .ok bytes →
    page ∈ pages
  count : tree.info.count.val = entries.length
  unchanged : tree.metaDirty = false →
    ∃ fresh, openTree tree.store = .ok fresh ∧ fresh.info = tree.info

/-- The transaction sees a tree with the bindings of the map. -/
def Holds (tree : Tree) (map : ExtTreeMap Key Record) : Prop :=
  ∃ depth entries pages, Shaped tree depth entries pages ∧
    ∀ key, map[key]? = lookup key entries

theorem Shaped.sorted {tree : Tree} {depth : ℕ} {entries : List (Key × Record)}
    {pages : List PageNo} (hshaped : Shaped tree depth entries pages) : Sorted entries :=
  hshaped.subtree.sorted

/-- The bindings of the tree are the entries of the map. -/
theorem Shaped.toList_eq {tree : Tree} {depth : ℕ} {entries : List (Key × Record)}
    {pages : List PageNo} (hshaped : Shaped tree depth entries pages)
    {map : ExtTreeMap Key Record} (hmap : ∀ key, map[key]? = lookup key entries) :
    map.toList = entries :=
  OrderedMap.toList_eq hshaped.sorted fun key value => by
    rw [hmap, lookup_eq_some hshaped.sorted]

theorem SameNodes.shaped {tree tree' : Tree} (hsame : SameNodes tree tree') {depth : ℕ}
    {entries : List (Key × Record)} {pages : List PageNo}
    (hshaped : Shaped tree depth entries pages) : Shaped tree' depth entries pages where
  subtree := by rw [hsame.view, hsame.info]; exact hshaped.subtree
  nodup := hshaped.nodup
  handedOut := by rw [hsame.info]; exact hshaped.handedOut
  notMeta := hshaped.notMeta
  written := by rw [hsame.dirty]; exact hshaped.written
  stored := by rw [hsame.store]; exact hshaped.stored
  count := by rw [hsame.info]; exact hshaped.count
  unchanged := by rw [hsame.metaDirty, hsame.store, hsame.info]; exact hshaped.unchanged

theorem SameNodes.holds {tree tree' : Tree} (hsame : SameNodes tree tree')
    {map : ExtTreeMap Key Record} (hholds : Holds tree map) : Holds tree' map := by
  obtain ⟨depth, entries, pages, hshaped, hmap⟩ := hholds
  exact ⟨depth, entries, pages, hsame.shaped hshaped, hmap⟩

/-- What a successful insertion leaves under the old root. -/
theorem Grows.fresh_pages {tree tree' : Tree} {pages added : List PageNo}
    (hgrows : Grows tree tree' pages added) (hnodup : pages.Nodup)
    (hhandedOut : ∀ page ∈ pages, page < tree.info.nextFree) :
    (pages ++ added).Nodup ∧ ∀ page ∈ pages ++ added, page < tree'.info.nextFree := by
  constructor
  · refine hnodup.append hgrows.nodup fun page hpage hadded => ?_
    exact absurd ((hhandedOut page hpage).trans_le (hgrows.fresh page hadded).1) (lt_irrefl _)
  · intro page hpage
    rcases List.mem_append.mp hpage with hpage | hpage
    · exact (hhandedOut page hpage).trans_le hgrows.nextFree
    · exact (hgrows.fresh page hpage).2

/-- A tree whose pages grew is shaped by whatever lies under its root, if the
metadata that went with the old shape is known to be out of date. -/
theorem Shaped.of_grows {tree grown tree' : Tree} {depth depth' : ℕ}
    {entries entries' : List (Key × Record)} {pages pages' added : List PageNo}
    (hshaped : Shaped tree depth entries pages) (hgrows : Grows tree grown pages added)
    (hstore : tree'.store = grown.store) (hdirty : tree'.dirty = grown.dirty)
    (hnext : tree'.info.nextFree = grown.info.nextFree)
    (hclean : tree'.metaDirty = false → tree.metaDirty = false ∧ tree'.info = tree.info)
    (hperm : pages'.Perm (pages ++ added))
    (hsubtree : Subtree tree'.view depth' none none tree'.info.root entries' pages')
    (hcount : tree'.info.count.val = entries'.length) :
    Shaped tree' depth' entries' pages' := by
  obtain ⟨hnodup, hlt⟩ := hgrows.fresh_pages hshaped.nodup hshaped.handedOut
  have hroot := hshaped.subtree.page_mem
  refine ⟨hsubtree, hperm.nodup_iff.mpr hnodup, ?_, ?_, ?_, ?_, hcount, ?_⟩
  · intro page hpage
    rw [hnext]
    exact hlt page (hperm.mem_iff.mp hpage)
  · intro hmeta
    rcases List.mem_append.mp (hperm.mem_iff.mp hmeta) with hmeta | hmeta
    · exact hshaped.notMeta hmeta
    · have hle := (hgrows.fresh _ hmeta).1
      exact absurd ((hshaped.handedOut _ hroot).trans_le hle) (Fin.not_lt_zero _)
  · intro page hpage
    rw [hperm.mem_iff, List.mem_append]
    by_contra hnot
    rw [not_or] at hnot
    rw [hdirty, hgrows.frame page hnot.1 hnot.2] at hpage
    exact hnot.1 (hshaped.written page hpage)
  · intro page bytes hpage hread
    rw [hstore, hgrows.store] at hread
    exact hperm.mem_iff.mpr (List.mem_append_left _ (hshaped.stored page bytes hpage hread))
  · intro hmeta
    obtain ⟨hmeta, hinfo⟩ := hclean hmeta
    rw [hstore, hgrows.store, hinfo]
    exact hshaped.unchanged hmeta

theorem Grows.clean_of {tree tree' : Tree} {pages added : List PageNo}
    (hgrows : Grows tree tree' pages added) (hmeta : tree'.metaDirty = false) :
    tree.metaDirty = false ∧ tree'.info = tree.info := by
  refine ⟨?_, hgrows.clean hmeta⟩
  by_contra hdirty
  exact absurd (hgrows.dirty (by simpa using hdirty)) (by simp [hmeta])

/-- An insertion keeps a tree whose ranges are as asked, if the leaf it comes to leaves room. -/
theorem insert_ranged {ok : Option Key → Option Key → Prop} {key : Key} {record : Record}
    {tree tree' : Tree} {done : Unit} {depth : ℕ} {entries : List (Key × Record)}
    {pages : List PageNo} (hinsert : insert key record tree = .ok (done, tree'))
    (hroom : ∀ held bindings, (held, .leaf bindings) ∈ tree.passedBy key →
      LeavesRoom ok tree.store.pageSize key record bindings)
    (hshaped : Shaped tree depth entries pages)
    (hranged : RangedSubtree ok tree.view depth none none tree.info.root entries pages) :
    ∃ depth' pages', Shaped tree' depth' (insertEntry key record entries) pages' ∧
      RangedSubtree ok tree'.view depth' none none tree'.info.root
        (insertEntry key record entries) pages' ∧ tree'.store = tree.store := by
  simp only [insert, StateExcept.getThe_bind, StateExcept.bind_eq_ok, fuel_eq_ok] at hinsert
  obtain ⟨_, _, ⟨rfl, rfl⟩, result, inserted, hinto, hinsert⟩ := hinsert
  obtain ⟨added, hgrows, hcount, hgrown⟩ := insertInto_ranged hinto hroom hranged
    (InRange.trivial key) hshaped.nodup hshaped.handedOut
  have hcount : inserted.info.count.val = (insertEntry key record entries).length := by
    rw [hshaped.count] at hcount
    omega
  cases result with
  | none =>
      obtain ⟨grown, hperm, hnew⟩ := hgrown
      obtain rfl : tree' = inserted := by simpa using hinsert
      rw [← hgrows.root] at hnew
      exact ⟨depth, grown, hshaped.of_grows hgrows rfl rfl rfl hgrows.clean_of hperm hnew.subtree
        hcount, hnew, hgrows.store⟩
  | some split =>
      obtain ⟨separator, right⟩ := split
      obtain ⟨left, above, pagesLeft, pagesRight, hcut, hperm, hseparates, hleft, hright⟩ := hgrown
      simp only [StateExcept.bind_eq_ok] at hinsert
      obtain ⟨newRoot, allocated, halloc, hinsert⟩ := hinsert
      obtain ⟨rfl, next, hnext, rfl⟩ := alloc_eq_ok halloc
      simp only [set, StateExcept.modify_eq_ok, Prod.mk.injEq] at hinsert
      obtain ⟨_, _, ⟨-, rfl⟩, -, rfl⟩ := hinsert
      have hlt : inserted.info.nextFree < next := by
        rw [Fin.lt_def, hnext]
        exact Nat.lt_succ_self _
      have hrooted : Grows inserted
          { inserted with
            info := { inserted.info with nextFree := next }
            sizes := inserted.sizes.erase inserted.info.nextFree
            dirty := inserted.dirty.insert inserted.info.nextFree
              (.internal [separator] [tree.info.root, right])
            metaDirty := true } [] [inserted.info.nextFree] := by
        refine ⟨rfl, rfl, hlt.le, by simpa using hlt, by simp, ?_, by simp, by simp⟩
        intro other _ hother
        rw [OrderedMap.getElem?_insert, if_neg (Ne.symm (by simpa using hother))]
      have hbelow := (hgrows.fresh_pages hshaped.nodup hshaped.handedOut).2
      have hview : ∀ page ∈ pagesLeft ++ pagesRight,
          view { inserted with
            info := { inserted.info with nextFree := next, root := inserted.info.nextFree }
            sizes := inserted.sizes.erase inserted.info.nextFree
            dirty := inserted.dirty.insert inserted.info.nextFree
              (.internal [separator] [tree.info.root, right])
            metaDirty := true } page = inserted.view page := by
        intro page hpage
        refine view_congr rfl ?_
        rw [OrderedMap.getElem?_insert, if_neg (hbelow page (hperm.mem_iff.mp hpage)).ne']
      have hchain := Chain.cons hseparates
        (hleft.congr fun page hpage => hview page (List.mem_append_left _ hpage))
        (Chain.last (hright.congr fun page hpage => hview page (List.mem_append_right _ hpage)))
      rw [hcut] at hcount ⊢
      have hnew : RangedSubtree ok (view { inserted with
          info := { inserted.info with nextFree := next, root := inserted.info.nextFree }
          sizes := inserted.sizes.erase inserted.info.nextFree
          dirty := inserted.dirty.insert inserted.info.nextFree
            (.internal [separator] [tree.info.root, right])
          metaDirty := true }) (depth + 1) none none inserted.info.nextFree (left ++ above)
          (inserted.info.nextFree :: (pagesLeft ++ pagesRight)) := by
        refine ⟨_, _, _, view_of_dirty ?_, hchain, rfl⟩
        rw [OrderedMap.getElem?_insert, if_pos rfl]
      refine ⟨depth + 1, inserted.info.nextFree :: (pagesLeft ++ pagesRight),
        hshaped.of_grows (hgrows.trans hrooted (by simp)) rfl rfl rfl (by simp) ?_ hnew.subtree
        hcount, hnew, hgrows.store⟩
      rw [← List.append_assoc]
      exact (hperm.cons _).trans (List.perm_append_singleton _ _).symm

theorem insert_spec {key : Key} {record : Record} {tree tree' : Tree} {done : Unit}
    {map : ExtTreeMap Key Record} (hinsert : insert key record tree = .ok (done, tree'))
    (hholds : Holds tree map) :
    Holds tree' (map.insert key record) ∧ tree'.store = tree.store := by
  obtain ⟨depth, entries, pages, hshaped, hmap⟩ := hholds
  have hranged : RangedSubtree (fun _ _ => True) tree.view depth none none tree.info.root entries
      pages := hshaped.subtree.ranged fun _ _ => trivial
  obtain ⟨depth', pages', hshaped', -, hstore⟩ :=
    insert_ranged hinsert (fun _ _ _ => Or.inl fun _ _ => trivial) hshaped hranged
  refine ⟨⟨depth', _, pages', hshaped', fun other => ?_⟩, hstore⟩
  rw [OrderedMap.getElem?_insert, lookup_insertEntry hshaped.sorted, hmap]

end Tree

end LoomDB
