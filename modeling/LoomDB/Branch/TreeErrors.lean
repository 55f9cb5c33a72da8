import LoomDB.Branch.LiveTree
import LoomDB.Branch.NodeSizes
import LoomDB.Branch.TreeStore

/-!
# What a failed insertion leaves

An insertion that comes to a page it cannot read returns an error with the nodes above that page
taken out of the cache; what the transaction had written there is lost. It returns no error for an
entry that no page can hold.
-/

namespace LoomDB

open FallibleState (Raises forget)
open SearchTree

namespace Tree

variable {α β : Type}

/-! ## Size estimates are not seen -/

/-- The two runs fail alike, or return the same and see the same nodes. -/
inductive Alike : Except LoomError (α × Tree) → Except LoomError (α × Tree) → Prop
  | ok {value : α} {left right : Tree} (same : SameNodes left right) :
      Alike (.ok (value, left)) (.ok (value, right))
  | error (error : LoomError) : Alike (.error error) (.error error)

/-- The step does not depend on the size estimates. -/
def Unsized (step : TreeM α) : Prop :=
  ∀ left right, SameNodes left right → Alike (step left) (step right)

theorem Alike.map_fst {left right : Except LoomError (α × Tree)} (halike : Alike left right) :
    left.map Prod.fst = right.map Prod.fst := by
  cases halike with
  | ok same => rfl
  | error error => rfl

namespace Unsized

variable {step : TreeM α} {next : α → TreeM β}

theorem pure (value : α) : Unsized (pure value : TreeM α) :=
  fun _ _ hsame => .ok hsame

theorem throw (error : LoomError) : Unsized (throw error : TreeM α) :=
  fun _ _ _ => .error error

theorem bind (hstep : Unsized step) (hnext : ∀ value, Unsized (next value)) :
    Unsized (step >>= next) := by
  intro left right hsame
  change Alike ((step left).bind fun pair => next pair.1 pair.2)
    ((step right).bind fun pair => next pair.1 pair.2)
  generalize hleft : step left = leftResult
  generalize hright : step right = rightResult
  have halike := hstep left right hsame
  rw [hleft, hright] at halike
  cases halike with
  | ok same => exact hnext _ _ _ same
  | error error => exact .error error

theorem mapM {visit : β → TreeM α} (hvisit : ∀ item, Unsized (visit item)) (items : List β) :
    Unsized (items.mapM visit) := by
  induction items with
  | nil => exact pure []
  | cons item items ih =>
      rw [List.mapM_cons]
      exact (hvisit item).bind fun first => ih.bind fun rest => pure (first :: rest)

end Unsized

theorem unsized_node (page : PageNo) : Unsized (node page) := by
  intro left right hsame
  unfold node
  simp only [StateExcept.get_bind, hsame.dirty, hsame.store]
  cases left.dirty[page]? with
  | some node => exact .ok hsame
  | none =>
      cases left.store.readHead page with
      | ok bytes =>
          simp only [StateExcept.modify_bind]
          cases Node.decode bytes page with
          | ok node => exact .ok ⟨hsame.store, hsame.dirty, hsame.info, hsame.metaDirty⟩
          | error error => exact .error error
      | error error =>
          cases error with
          | pageNotFound page => exact .ok hsame
          | _ => exact .error _

theorem unsized_getFrom (fuel : ℕ) (page : PageNo) (key : Key) :
    Unsized (getFrom fuel page key) := by
  induction fuel generalizing page with
  | zero => exact .throw _
  | succ fuel ih =>
      refine (unsized_node page).bind fun found => ?_
      cases found with
      | leaf entries =>
          simp only
          cases searchEntries entries key with
          | ok position => exact .pure _
          | error position => exact .pure _
      | internal keys children =>
          simp only
          cases children[childIndex keys key]? with
          | none => exact .throw _
          | some child => exact ih child

theorem unsized_collect (fuel : ℕ) (page : PageNo) : Unsized (collect fuel page) := by
  induction fuel generalizing page with
  | zero => exact .throw _
  | succ fuel ih =>
      refine (unsized_node page).bind fun found => ?_
      cases found with
      | leaf entries => exact .pure _
      | internal keys children =>
          exact (Unsized.mapM ih children).bind fun parts => .pure parts.flatten

/-! ## Keeping a tree -/

/-- Nothing of the transaction is lost: the answers, the nodes and what a flush writes are those of
the tree before. -/
structure Keeps (before after : Tree) : Prop where
  get : ∀ key, (Tree.get key after).map Prod.fst = (Tree.get key before).map Prod.fst
  scan : (Tree.scan after).map Prod.fst = (Tree.scan before).map Prod.fst
  len : after.len = before.len
  nodes : after.dirty = before.dirty
  flush : ∀ write, flushTo write after = flushTo write before

theorem SameNodes.keeps {before after : Tree} (hsame : SameNodes before after) :
    Keeps before after where
  get key := by
    change (getFrom (after.info.nextFree.val + 1) after.info.root key after).map _ =
      (getFrom (before.info.nextFree.val + 1) before.info.root key before).map _
    rw [hsame.info]
    exact (unsized_getFrom _ _ key before after hsame).map_fst.symm
  scan := by
    change (collect (after.info.nextFree.val + 1) after.info.root after).map _ =
      (collect (before.info.nextFree.val + 1) before.info.root before).map _
    rw [hsame.info]
    exact (unsized_collect _ _ before after hsame).map_fst.symm
  len := by rw [len, hsame.info, len]
  nodes := hsame.dirty
  flush write := by rw [flushTo, flush, hsame.dirty, hsame.metaDirty, hsame.info, flushTo, flush]

end Tree

namespace LiveTree

/-- The pages that an insertion passes before it comes to one it cannot read; `none` where it
comes to a leaf. -/
def stuckBelow : ℕ → PageNo → Key → Tree → Option (List PageNo)
  | 0, _, _, _ => none
  | fuel + 1, page, key, tree =>
      match Tree.takeNode page tree with
      | .error _ => some []
      | .ok (.leaf _, _) => none
      | .ok (.internal keys children, taken) =>
          (children[childIndex keys key]?).bind fun child =>
            (stuckBelow fuel child key taken).map (page :: ·)

/-- The tree without this transaction's nodes at the given pages. -/
structure Lost (tree tree' : Tree) (pages : List PageNo) : Prop where
  store : tree'.store = tree.store
  info : tree'.info = tree.info
  metaDirty : tree'.metaDirty = tree.metaDirty
  dirty : ∀ page, tree'.dirty[page]? = if page ∈ pages then none else tree.dirty[page]?

theorem Lost.trans {first second third : Tree} {pages more : List PageNo}
    (hfirst : Lost first second pages) (hsecond : Lost second third more) :
    Lost first third (pages ++ more) where
  store := hsecond.store.trans hfirst.store
  info := hsecond.info.trans hfirst.info
  metaDirty := hsecond.metaDirty.trans hfirst.metaDirty
  dirty page := by
    rw [hsecond.dirty, hfirst.dirty]
    by_cases hmore : page ∈ more
    · simp [hmore]
    · simp [hmore]

theorem Lost.sameNodes {tree tree' : Tree} {pages : List PageNo} (hlost : Lost tree tree' pages)
    (hclean : ∀ page ∈ pages, tree.dirty[page]? = none) : Tree.SameNodes tree tree' where
  store := hlost.store
  dirty := by
    apply Std.ExtTreeMap.ext_getElem?
    intro page
    rw [hlost.dirty]
    by_cases hpage : page ∈ pages
    · rw [if_pos hpage, hclean page hpage]
    · rw [if_neg hpage]
  info := hlost.info
  metaDirty := hlost.metaDirty

section Steps

variable {tree : Tree} {page : PageNo} {key : Key} {record : Record}

/-- A page that is not this transaction's is read from the store, and what is read is not kept. -/
theorem node_outcome (hdirty : tree.dirty[page]? = none) :
    (∃ found tree', node page tree = (.ok found, tree') ∧ Lost tree tree' []) ∨
      ∃ error tree', node page tree = (.error error, tree') ∧ error ≠ .panicked ∧
        Lost tree tree' [] := by
  have hsame : Lost tree tree [] := ⟨rfl, rfl, rfl, fun _ => rfl⟩
  unfold node
  simp only [FallibleState.get_bind, hdirty]
  cases tree.store.readHead page with
  | ok bytes =>
      simp only [FallibleState.modify_bind]
      cases hdecode : Node.decode bytes page with
      | ok found => exact Or.inl ⟨found, _, rfl, rfl, rfl, rfl, fun _ => rfl⟩
      | error error =>
          refine Or.inr ⟨error, _, rfl, ?_, rfl, rfl, rfl, fun _ => rfl⟩
          rintro rfl
          unfold Node.decode at hdecode
          split at hdecode <;> cases hdecode
  | error error =>
      cases error with
      | pageNotFound missing => exact Or.inl ⟨_, _, rfl, hsame⟩
      | _ => exact Or.inr ⟨_, _, rfl, (fun heq => by cases heq), hsame⟩

/-- A node that is taken is gone from the cache; one that cannot be read leaves the cache alone. -/
theorem takeNode_outcome (page : PageNo) (tree : Tree) :
    (∃ found tree', takeNode page tree = (.ok found, tree') ∧ Lost tree tree' [page]) ∨
      ∃ error tree', takeNode page tree = (.error error, tree') ∧ error ≠ .panicked ∧
        Lost tree tree' [] := by
  unfold takeNode
  simp only [FallibleState.get_bind]
  cases hdirty : tree.dirty[page]? with
  | some found =>
      refine Or.inl ⟨found, _, rfl, rfl, rfl, rfl, fun other => ?_⟩
      rw [OrderedMap.getElem?_erase]
      simp [eq_comm]
  | none =>
      rcases node_outcome hdirty with ⟨found, tree', hnode, hlost⟩ | hfails
      · refine Or.inl ⟨found, tree', hnode, hlost.store, hlost.info, hlost.metaDirty,
          fun other => ?_⟩
        rw [hlost.dirty, if_neg List.not_mem_nil]
        by_cases hother : other = page
        · rw [if_pos (List.mem_singleton.mpr hother), hother, hdirty]
        · rw [if_neg (fun hmem => hother (List.mem_singleton.mp hmem))]
      · exact Or.inr hfails

end Steps

section Panics

variable {page : PageNo} {key : Key} {record : Record} {entries : List (Key × Record)}

theorem raises_next (value : U64) :
    ∀ error, value.next = .error error → error = LoomError.panicked := by
  intro error hnext
  unfold U64.next at hnext
  split at hnext
  · cases hnext
  · exact (Except.error.inj hnext).symm

theorem raises_sizeOf (page : PageNo) (node : Node) :
    Raises (· = LoomError.panicked) (sizeOf page node) := by
  refine .bind .get fun tree => ?_
  cases tree.sizes[page]? with
  | some size => exact .pure size
  | none => exact .bind (.modify _) fun _ => .pure _

theorem raises_alloc : Raises (· = LoomError.panicked) alloc := by
  refine .bind .get fun tree => ?_
  cases hnext : tree.info.nextFree.next with
  | error error => exact .throw (raises_next _ error hnext)
  | ok next => exact .bind (.modify _) fun _ => .pure _

theorem raises_countUp : Raises (· = LoomError.panicked) countUp := by
  refine .bind .get fun tree => ?_
  cases hnext : tree.info.count.next with
  | error error => exact .throw (raises_next _ error hnext)
  | ok count => exact .modify _

/-- The check for a record that does not fit is made on the upper half, which is never empty. -/
theorem raises_splitLeaf (hentries : entries ≠ []) :
    Raises (· = LoomError.panicked) (splitLeaf page entries) := by
  refine .bind .get fun tree => ?_
  have hdrop : entries.drop (entries.length / 2) ≠ [] := by
    have hpos := List.length_pos_of_ne_nil hentries
    rw [← List.length_pos_iff, List.length_drop]
    omega
  dsimp only
  cases hhead : (entries.drop (entries.length / 2)).head? with
  | none => exact absurd (List.head?_eq_none_iff.mp hhead) hdrop
  | some first =>
      exact raises_alloc.bind fun _ => .bind (.modify _) fun _ => .bind (.modify _) fun _ => .pure _

theorem raises_updateLeaf (size : ℕ) :
    Raises (· = LoomError.panicked) (updateLeaf entries key record size) := by
  unfold updateLeaf
  cases searchEntries entries key with
  | ok position =>
      simp only
      cases entries[position]? with
      | none => exact .throw rfl
      | some entry => exact .pure _
  | error position => exact raises_countUp.bind fun _ => .pure _

/-- The leaf has an entry when it is stored. -/
theorem updateLeaf_ne_nil {size estimate : ℕ} {tree tree' : Tree}
    {updated : List (Key × Record)}
    (hupdate : updateLeaf entries key record size tree = (.ok (updated, estimate), tree')) :
    updated ≠ [] := by
  have hlossy : Tree.updateLeaf entries key record size tree = .ok ((updated, estimate), tree') := by
    rw [← forget_updateLeaf, forget, hupdate]
  obtain ⟨rfl, -⟩ := Tree.updateLeaf_eq_ok hlossy
  cases entries with
  | nil => exact List.cons_ne_nil _ _
  | cons entry entries =>
      unfold insertEntry
      split
      · exact List.cons_ne_nil _ _
      · split
        · exact List.cons_ne_nil _ _
        · exact List.cons_ne_nil _ _

theorem raises_insertLeaf :
    Raises (· = LoomError.panicked) (insertLeaf page entries key record) := by
  refine (raises_sizeOf page _).bind fun size => ?_
  refine (raises_updateLeaf size).bind_of_ok fun tree result tree' hupdate => ?_
  obtain ⟨updated, estimate⟩ := result
  have hstore : Raises (· = LoomError.panicked) (storeLeaf page updated estimate) := by
    refine .bind .get fun tree => ?_
    simp only
    split
    · exact raises_splitLeaf (updateLeaf_ne_nil hupdate)
    · exact .bind (.modify _) fun _ => .pure _
  exact hstore tree'

theorem raises_storeInternal (keys : List Key) (children : List PageNo) :
    Raises (· = LoomError.panicked) (storeInternal page keys children) := by
  refine .bind .get fun tree => ?_
  simp only
  split
  · cases keys[keys.length / 2]? with
    | none => exact .throw rfl
    | some separator =>
        exact raises_alloc.bind fun _ => .bind (.modify _) fun _ => .bind (.modify _) fun _ =>
          .pure _
  · exact .bind (.modify _) fun _ => .pure _

end Panics

/-! ## Whole insertions -/

/-- An insertion stops at a page it cannot read, without the nodes above it, or at a panic. -/
theorem insertInto_outcome (fuel : ℕ) (page : PageNo) (key : Key) (record : Record) (tree : Tree) :
    (∃ above error tree', stuckBelow fuel page key tree = some above ∧
      insertInto fuel page key record tree = (.error error, tree') ∧ error ≠ .panicked ∧
      Lost tree tree' above) ∨
    stuckBelow fuel page key tree = none ∧
      ∀ error, (insertInto fuel page key record tree).1 = .error error → error = .panicked := by
  induction fuel generalizing page tree with
  | zero =>
      refine Or.inr ⟨rfl, fun error herror => ?_⟩
      exact (Except.error.inj herror).symm
  | succ fuel ih =>
      have hforget := congrFun (forget_takeNode page) tree
      unfold insertInto stuckBelow
      rw [FallibleState.bind_eq, ← hforget, forget]
      rcases takeNode_outcome page tree with
        ⟨found, taken, htake, htaken⟩ | ⟨error, taken, htake, herror, hlost⟩
      · rw [htake]
        cases found with
        | leaf entries => exact Or.inr ⟨rfl, raises_insertLeaf taken⟩
        | internal keys children =>
            simp only
            cases hchild : children[childIndex keys key]? with
            | none => exact Or.inr ⟨rfl, fun error herror => (Except.error.inj herror).symm⟩
            | some child =>
                simp only [FallibleState.bind_eq, Option.bind_some]
                rcases ih child taken with
                  ⟨above, error, tree', hstuck, hinsert, herror, hlost⟩ | ⟨hstuck, hpanics⟩
                · rw [hstuck, hinsert]
                  exact Or.inl ⟨page :: above, error, tree', rfl, rfl, herror, htaken.trans hlost⟩
                · rw [hstuck]
                  refine Or.inr ⟨rfl, ?_⟩
                  rcases hinsert : insertInto fuel child key record taken with
                    ⟨error | split, inserted⟩
                  · intro raised hraised
                    obtain rfl := Except.error.inj hraised
                    exact hpanics error (congrArg Prod.fst hinsert)
                  · cases split with
                    | none =>
                        intro raised hraised
                        cases hraised
                    | some split => exact raises_storeInternal _ _ inserted
      · rw [htake]
        exact Or.inl ⟨[], error, taken, rfl, rfl, herror, hlost⟩

/-- The pages that the insertion of a key passes before one it cannot read. -/
def stuckAt (key : Key) (tree : Tree) : Option (List PageNo) :=
  stuckBelow (tree.info.nextFree.val + 1) tree.info.root key tree

theorem fuel_bind {α : Type} (next : ℕ → LiveTreeM α) (tree : Tree) :
    (fuel >>= next) tree = next (tree.info.nextFree.val + 1) tree := rfl

theorem insert_outcome (key : Key) (record : Record) (tree : Tree) :
    (∃ above error tree', stuckAt key tree = some above ∧
      insert key record tree = (.error error, tree') ∧ error ≠ .panicked ∧
      Lost tree tree' above) ∨
    stuckAt key tree = none ∧
      ∀ error, (insert key record tree).1 = .error error → error = .panicked := by
  unfold insert
  rw [FallibleState.get_bind, fuel_bind, FallibleState.bind_eq]
  rcases insertInto_outcome (tree.info.nextFree.val + 1) tree.info.root key record tree with
    ⟨above, error, tree', hstuck, hinsert, herror, hlost⟩ | ⟨hstuck, hpanics⟩
  · rw [hinsert]
    exact Or.inl ⟨above, error, tree', hstuck, rfl, herror, hlost⟩
  · refine Or.inr ⟨hstuck, ?_⟩
    rcases hinsert : insertInto (tree.info.nextFree.val + 1) tree.info.root key record tree with
      ⟨error | split, inserted⟩
    · intro raised hraised
      obtain rfl := Except.error.inj hraised
      exact hpanics error (congrArg Prod.fst hinsert)
    · cases split with
      | none =>
          intro raised hraised
          cases hraised
      | some split =>
          exact (raises_alloc.bind fun _ => .bind (.modify _) fun _ => .modify _) inserted

/-- An entry that no page can hold is refused, and a refused insertion keeps the tree. A panic
does not return. -/
structure InsertsCleanly (key : Key) (record : Record) (tree : Tree) : Prop where
  refuses : tree.store.pageSize < (Node.encode (.leaf [(key, record)])).length →
    ∃ error, error ≠ .panicked ∧ (insert key record tree).1 = .error error
  keeps : ∀ error, error ≠ .panicked → (insert key record tree).1 = .error error →
    Tree.Keeps tree (insert key record tree).2

/-- The insertion stops at a page it cannot read and none of the nodes above it is this
transaction's, or it stops at none and the entry fits into a page. -/
def Harmless (key : Key) (record : Record) (tree : Tree) : Prop :=
  match stuckAt key tree with
  | some above => ∀ page ∈ above, tree.dirty[page]? = none
  | none => (Node.encode (.leaf [(key, record)])).length ≤ tree.store.pageSize

theorem insertsCleanly_of_harmless {key : Key} {record : Record} {tree : Tree}
    (hharmless : Harmless key record tree) : InsertsCleanly key record tree := by
  unfold Harmless at hharmless
  rcases insert_outcome key record tree with
    ⟨above, error, tree', hstuck, hinsert, herror, hlost⟩ | ⟨hstuck, hpanics⟩
  · rw [hstuck] at hharmless
    refine ⟨fun _ => ⟨error, herror, congrArg Prod.fst hinsert⟩, fun _ _ _ => ?_⟩
    rw [hinsert]
    exact (hlost.sameNodes hharmless).keeps
  · rw [hstuck] at hharmless
    exact ⟨fun hlarge => absurd hharmless (Nat.not_le.mpr hlarge),
      fun error herror hraised => absurd (hpanics error hraised) herror⟩

theorem harmless_of_insertsCleanly {key : Key} {record : Record} {tree : Tree}
    (hcleanly : InsertsCleanly key record tree) : Harmless key record tree := by
  unfold Harmless
  rcases insert_outcome key record tree with
    ⟨above, error, tree', hstuck, hinsert, herror, hlost⟩ | ⟨hstuck, hpanics⟩
  · rw [hstuck]
    intro page hpage
    have hkeeps := hcleanly.keeps error herror (congrArg Prod.fst hinsert)
    rw [hinsert] at hkeeps
    have hgone := hlost.dirty page
    rw [if_pos hpage, hkeeps.nodes] at hgone
    exact hgone
  · rw [hstuck]
    by_contra hlarge
    obtain ⟨error, herror, hraised⟩ := hcleanly.refuses (Nat.not_le.mp hlarge)
    exact herror (hpanics error hraised)

/-- An insertion fails cleanly exactly where it is harmless. -/
theorem insertsCleanly_iff (key : Key) (record : Record) (tree : Tree) :
    InsertsCleanly key record tree ↔ Harmless key record tree :=
  ⟨harmless_of_insertsCleanly, insertsCleanly_of_harmless⟩

/-- A new store of small pages. -/
def freshTree : Tree where
  store := Snapshot.ofPages 4096 ∅
  dirty := ∅
  sizes := ∅
  info := Meta.empty
  metaDirty := false

/-- A key longer than a page. -/
def longKey : Key := List.replicate 4096 0

/-- This transaction's root over two leaves, the first of which cannot be read any more. -/
def leafUnread : Tree where
  store :=
    { readHead := fun page => if page = 1 then .error (.unreadable 1) else .error (.pageNotFound page)
      pageSize := 4096 }
  dirty := (∅ : Std.ExtTreeMap PageNo Node).insert 3 (.internal [ascii "m"] [1, 2])
  sizes := ∅
  info := { Meta.empty with root := 3, nextFree := 4 }
  metaDirty := true

theorem length_encode_long :
    4096 < (Node.encode (.leaf [(longKey, Record.blob [])])).length := by
  have hkey : keySize longKey = (Codec.encodeLength 4096).length + 4096 := by
    rw [keySize, longKey, List.length_replicate]
  rw [Node.length_encode_leaf]
  simp only [List.map_cons, List.map_nil, List.sum_cons, List.sum_nil, entrySize, hkey]
  omega

/-- The long key is not refused, and a short one that meets an unreadable page loses the root. -/
theorem not_insertsCleanly :
    ¬InsertsCleanly longKey (Record.blob []) freshTree ∧
      ¬InsertsCleanly (ascii "a") (Record.blob []) leafUnread := by
  constructor
  · intro hcleanly
    have hstuck : stuckAt longKey freshTree = none := rfl
    have hfits := harmless_of_insertsCleanly hcleanly
    unfold Harmless at hfits
    rw [hstuck] at hfits
    exact absurd length_encode_long (Nat.not_lt.mpr hfits)
  · intro hcleanly
    have hstuck : stuckAt (ascii "a") leafUnread = some [3] := by decide +kernel
    have hclean := harmless_of_insertsCleanly hcleanly
    unfold Harmless at hclean
    rw [hstuck] at hclean
    have hroot : leafUnread.dirty[(3 : PageNo)]? = none := hclean 3 List.mem_cons_self
    have hwritten : leafUnread.dirty[(3 : PageNo)]?.isSome = true := by decide +kernel
    rw [hroot] at hwritten
    cases hwritten

end LiveTree

end LoomDB
