import LoomDB.Branch.TreeStore
import Mathlib.Data.Finset.Dedup
import Mathlib.Order.Interval.Finset.Fin

/-!
# The record store as an ordered map

A tree is written and read, flushed to its pages and opened again, any number of times.
What a reader sees is an ordered map with the last value each key was given. No read,
removal or opening fails; an insertion may, and a flush that the pager refuses.
-/

namespace LoomDB

open SearchTree
open Std (ExtTreeMap)

/-- Every page but the metadata is a node. -/
def Pages.Nodes (pages : Pages) : Prop :=
  ∀ page bytes, page ≠ META_PAGE → pages[page]? = some bytes →
    ∃ node : Node, bytes = node.encode

namespace Tree

variable {α β : Type}

/-! ## Reading succeeds -/

/-- The store under the tree is a map of pages. -/
def Reads (tree : Tree) : Prop :=
  ∃ (pageSize : ℕ) (pages : Pages), tree.store = Snapshot.ofPages pageSize pages ∧ pages.Nodes

theorem Reads.same {tree tree' : Tree} (hreads : Reads tree) (hsame : SameNodes tree tree') :
    Reads tree' := by
  obtain ⟨pageSize, pages, hstore, hnodes⟩ := hreads
  exact ⟨pageSize, pages, hsame.store.trans hstore, hnodes⟩

theorem Reads.node {tree : Tree} (hreads : Reads tree) {page : PageNo}
    (hpage : page ≠ META_PAGE) :
    ∃ seen, Tree.node page tree = .ok (tree.view page, seen) ∧ SameNodes tree seen := by
  obtain ⟨pageSize, pages, hstore, hnodes⟩ := hreads
  suffices hsucceeds : ∃ result, Tree.node page tree = .ok result by
    obtain ⟨⟨found, seen⟩, hnode⟩ := hsucceeds
    obtain ⟨rfl, hsame⟩ := node_eq_ok hnode
    exact ⟨seen, hnode, hsame⟩
  simp only [Tree.node, StateExcept.get_bind]
  cases hdirty : tree.dirty[page]? with
  | some node => exact ⟨_, rfl⟩
  | none =>
      rw [hstore]
      simp only [Snapshot.ofPages]
      cases hbytes : pages[page]? with
      | none => exact ⟨_, rfl⟩
      | some bytes =>
          obtain ⟨node, rfl⟩ := hnodes page bytes hpage hbytes
          simp only [StateExcept.modify_bind, Node.decode_encode]
          exact ⟨_, rfl⟩

theorem mapM_succeeds {visit : β → TreeM α} {items : List β} {tree : Tree}
    (hvisit : ∀ item ∈ items, ∀ seen, SameNodes tree seen →
      ∃ result seen', visit item seen = .ok (result, seen') ∧ SameNodes tree seen') :
    ∃ parts tree', items.mapM visit tree = .ok (parts, tree') := by
  suffices hgeneral : ∀ seen, SameNodes tree seen →
      ∃ parts tree', items.mapM visit seen = .ok (parts, tree') from hgeneral tree (.refl tree)
  induction items with
  | nil => exact fun seen _ => ⟨[], seen, rfl⟩
  | cons item items ih =>
      intro seen hseen
      obtain ⟨hitem, hitems⟩ := List.forall_mem_cons.mp hvisit
      obtain ⟨first, visited, hfirst, hsame⟩ := hitem seen hseen
      obtain ⟨rest, last, hrest⟩ := ih hitems visited hsame
      refine ⟨first :: rest, last, ?_⟩
      rw [List.mapM_cons]
      simp only [StateExcept.bind_eq_ok, StateExcept.pure_eq_ok]
      exact ⟨first, visited, hfirst, rest, last, hrest, rfl⟩

section Descents

variable {fuel : ℕ} {page : PageNo} {key : Key} {tree : Tree} {depth : ℕ} {lo hi : Option Key}
  {entries : List (Key × Record)} {pages : List PageNo}

theorem getFrom_succeeds (hreads : Reads tree)
    (htree : Subtree tree.view depth lo hi page entries pages) (hkey : InRange lo hi key)
    (hnotMeta : META_PAGE ∉ pages) (hfuel : depth < fuel) :
    ∃ result, getFrom fuel page key tree = .ok result := by
  induction fuel generalizing page tree depth lo hi entries pages with
  | zero => omega
  | succ fuel ih =>
      obtain ⟨seen, hnode, hsame⟩ :=
        hreads.node (ne_of_mem_of_not_mem htree.page_mem hnotMeta)
      simp only [getFrom, StateExcept.bind_eq_ok]
      cases depth with
      | zero =>
          rw [htree.1] at hnode
          cases hsearch : searchEntries entries key with
          | ok position => exact ⟨_, _, seen, hnode, by simp only [hsearch]; rfl⟩
          | error position => exact ⟨_, _, seen, hnode, by simp only [hsearch]; rfl⟩
      | succ depth =>
          obtain ⟨keys, children, below, hview, hchain, rfl⟩ := htree
          rw [hview] at hnode
          obtain ⟨child, lower, upper, left, middle, right, _, pagesMiddle, _, hchildAt, hchild,
            hinner, rfl, rfl, -, -, -, -⟩ :=
            hchain.focus (fun _ _ _ _ _ hsub => hsub.inRange) hkey
          have hchildAt : children[childIndex keys key]? = some child := hchildAt
          obtain ⟨result, hresult⟩ := ih (hreads.same hsame) (hsame.view ▸ hchild) hinner
            (fun hmem => hnotMeta (by simp [hmem])) (by omega)
          exact ⟨result, _, seen, hnode, by simpa only [hchildAt] using hresult⟩

theorem removeFrom_succeeds (hreads : Reads tree)
    (htree : Subtree tree.view depth lo hi page entries pages) (hkey : InRange lo hi key)
    (hnotMeta : META_PAGE ∉ pages) (hfuel : depth < fuel) :
    ∃ result, removeFrom fuel page key tree = .ok result := by
  induction fuel generalizing page tree depth lo hi entries pages with
  | zero => omega
  | succ fuel ih =>
      obtain ⟨seen, hnode, hsame⟩ :=
        hreads.node (ne_of_mem_of_not_mem htree.page_mem hnotMeta)
      simp only [removeFrom, StateExcept.bind_eq_ok]
      cases depth with
      | zero =>
          rw [htree.1] at hnode
          cases hsearch : searchEntries entries key with
          | ok position => exact ⟨_, _, seen, hnode, by simp only [hsearch]; rfl⟩
          | error position => exact ⟨_, _, seen, hnode, by simp only [hsearch]; rfl⟩
      | succ depth =>
          obtain ⟨keys, children, below, hview, hchain, rfl⟩ := htree
          rw [hview] at hnode
          obtain ⟨child, lower, upper, left, middle, right, _, pagesMiddle, _, hchildAt, hchild,
            hinner, rfl, rfl, -, -, -, -⟩ :=
            hchain.focus (fun _ _ _ _ _ hsub => hsub.inRange) hkey
          have hchildAt : children[childIndex keys key]? = some child := hchildAt
          obtain ⟨result, hresult⟩ := ih (hreads.same hsame) (hsame.view ▸ hchild) hinner
            (fun hmem => hnotMeta (by simp [hmem])) (by omega)
          exact ⟨result, _, seen, hnode, by simpa only [hchildAt] using hresult⟩

theorem collect_succeeds (hreads : Reads tree)
    (htree : Subtree tree.view depth lo hi page entries pages) (hnotMeta : META_PAGE ∉ pages)
    (hfuel : depth < fuel) : ∃ found tree', collect fuel page tree = .ok (found, tree') := by
  induction fuel generalizing page tree depth lo hi entries pages with
  | zero => omega
  | succ fuel ih =>
      obtain ⟨seen, hnode, hsame⟩ :=
        hreads.node (ne_of_mem_of_not_mem htree.page_mem hnotMeta)
      simp only [collect, StateExcept.bind_eq_ok]
      cases depth with
      | zero =>
          rw [htree.1] at hnode
          exact ⟨entries, seen, _, seen, hnode, rfl⟩
      | succ depth =>
          obtain ⟨keys, children, below, hview, hchain, rfl⟩ := htree
          rw [hview] at hnode
          have hchildren : ∃ parts tree', children.mapM (collect fuel) seen = .ok (parts, tree') := by
            refine mapM_succeeds fun child hchild other hother => ?_
            obtain ⟨lower, upper, bindings, held, hheld, hsub⟩ := hchain.exists_sub hchild
            have hsub := (hsame.trans hother).view ▸ hsub
            obtain ⟨found, after, hfound⟩ := ih (hreads.same (hsame.trans hother)) hsub
              (fun hmem => hnotMeta (List.mem_cons_of_mem _ (hheld hmem))) (by omega)
            exact ⟨found, after, hfound, hother.trans (collect_spec hfound hsub).2⟩
          obtain ⟨parts, after, hparts⟩ := hchildren
          exact ⟨parts.flatten, after, _, seen, hnode,
            StateExcept.bind_eq_ok.mpr ⟨parts, after, hparts, rfl⟩⟩

theorem collectRange_succeeds {start : Key} {stop : Option Key} (hreads : Reads tree)
    (htree : Subtree tree.view depth lo hi page entries pages) (hnotMeta : META_PAGE ∉ pages)
    (hfuel : depth < fuel) :
    ∃ found tree', collectRange fuel page start stop tree = .ok (found, tree') := by
  induction fuel generalizing page tree depth lo hi entries pages with
  | zero => omega
  | succ fuel ih =>
      obtain ⟨seen, hnode, hsame⟩ :=
        hreads.node (ne_of_mem_of_not_mem htree.page_mem hnotMeta)
      simp only [collectRange, StateExcept.bind_eq_ok]
      cases depth with
      | zero =>
          rw [htree.1] at hnode
          exact ⟨_, seen, _, seen, hnode, rfl⟩
      | succ depth =>
          obtain ⟨keys, children, below, hview, hchain, rfl⟩ := htree
          rw [hview] at hnode
          have hchildren : ∃ parts tree', ((childRanges none keys children).mapM
              fun range =>
                if overlaps start stop range.1 range.2.2 then
                  collectRange fuel range.2.1 start stop
                else pure []) seen = .ok (parts, tree') := by
            refine mapM_succeeds ?_
            rintro ⟨lower, child, upper⟩ hrange other hother
            by_cases hmeets : overlaps start stop lower upper = true
            · simp only [if_pos hmeets]
              have hchild : child ∈ children := by
                rw [← childRanges_pages none keys children]
                exact List.mem_map_of_mem hrange
              obtain ⟨_, _, bindings, held, hheld, hsub⟩ := hchain.exists_sub hchild
              have hsub := (hsame.trans hother).view ▸ hsub
              obtain ⟨found, after, hfound⟩ := ih (hreads.same (hsame.trans hother)) hsub
                (fun hmem => hnotMeta (List.mem_cons_of_mem _ (hheld hmem))) (by omega)
              exact ⟨found, after, hfound, hother.trans (collectRange_spec hfound hsub).2⟩
            · simp only [if_neg hmeets]
              exact ⟨[], other, rfl, hother⟩
          obtain ⟨parts, after, hparts⟩ := hchildren
          exact ⟨parts.flatten, after, _, seen, hnode,
            StateExcept.bind_eq_ok.mpr ⟨parts, after, hparts, rfl⟩⟩

end Descents

/-! ## What a tree answers -/

/-- The computation succeeds, and this is its value. -/
def Answers (tree : Tree) (question : TreeM α) (answer : α) : Prop :=
  ∃ tree', question tree = .ok (answer, tree')

/-- No path of the tree is longer than a descent may go. -/
theorem Shaped.depth_le {tree : Tree} {depth : ℕ} {entries : List (Key × Record)}
    {pages : List PageNo} (hshaped : Shaped tree depth entries pages) :
    depth < tree.info.nextFree.val + 1 := by
  have hsubset : pages.toFinset ⊆ Finset.Iio tree.info.nextFree := fun page hpage =>
    Finset.mem_Iio.mpr (hshaped.handedOut page (List.mem_toFinset.mp hpage))
  have hcard := Finset.card_le_card hsubset
  rw [List.toFinset_card_of_nodup hshaped.nodup, Fin.card_Iio] at hcard
  have hdepth := hshaped.subtree.depth_lt
  omega

section Answers

variable {tree : Tree} {map : ExtTreeMap Key Record}

theorem Holds.answers_get (hholds : Holds tree map) (hreads : Reads tree) (key : Key) :
    Answers tree (get key) map[key]? := by
  obtain ⟨depth, entries, pages, hshaped, hmap⟩ := id hholds
  obtain ⟨⟨found, tree'⟩, hfound⟩ := getFrom_succeeds hreads hshaped.subtree
    (InRange.trivial key) hshaped.notMeta hshaped.depth_le
  have hget : get key tree = .ok (found, tree') := by
    simp only [get, StateExcept.getThe_bind, StateExcept.bind_eq_ok, fuel_eq_ok]
    exact ⟨_, _, rfl, hfound⟩
  exact ⟨tree', (get_spec hget hholds).1 ▸ hget⟩

theorem Holds.answers_remove (hholds : Holds tree map) (hreads : Reads tree) (key : Key) :
    Answers tree (remove key) map[key]?.isSome := by
  obtain ⟨depth, entries, pages, hshaped, hmap⟩ := id hholds
  obtain ⟨⟨removed, tree'⟩, hremoved⟩ := removeFrom_succeeds hreads hshaped.subtree
    (InRange.trivial key) hshaped.notMeta hshaped.depth_le
  have hremove : remove key tree = .ok (removed, tree') := by
    simp only [remove, StateExcept.getThe_bind, StateExcept.bind_eq_ok, fuel_eq_ok]
    exact ⟨_, _, rfl, hremoved⟩
  exact ⟨tree', (remove_spec hremove hholds).2.1 ▸ hremove⟩

theorem Holds.answers_scan (hholds : Holds tree map) (hreads : Reads tree) :
    Answers tree scan map.toList := by
  obtain ⟨depth, entries, pages, hshaped, hmap⟩ := id hholds
  obtain ⟨found, tree', hfound⟩ := collect_succeeds hreads hshaped.subtree hshaped.notMeta
    hshaped.depth_le
  have hscan : scan tree = .ok (found, tree') := by
    simp only [scan, StateExcept.getThe_bind, StateExcept.bind_eq_ok, fuel_eq_ok]
    exact ⟨_, _, rfl, hfound⟩
  exact ⟨tree', (scan_spec hscan hholds).1 ▸ hscan⟩

theorem Holds.answers_scanPrefix (hholds : Holds tree map) (hreads : Reads tree) (start : Key) :
    Answers tree (scanPrefix start)
      (map.toList.filter fun entry => start.isPrefixOf entry.1) := by
  obtain ⟨depth, entries, pages, hshaped, hmap⟩ := id hholds
  obtain ⟨found, tree', hfound⟩ := collectRange_succeeds hreads hshaped.subtree
    hshaped.notMeta hshaped.depth_le
  have hscan : scanPrefix start tree = .ok (found, tree') := by
    simp only [scanPrefix, StateExcept.getThe_bind, StateExcept.bind_eq_ok, fuel_eq_ok]
    exact ⟨_, _, rfl, hfound⟩
  exact ⟨tree', (scanPrefix_spec hscan hholds).1 ▸ hscan⟩

theorem Holds.val_len (hholds : Holds tree map) : tree.len.val = map.size := by
  obtain ⟨depth, entries, pages, hshaped, hmap⟩ := hholds
  rw [len, hshaped.count, ← hshaped.toList_eq hmap, ExtTreeMap.length_toList]

end Answers

/-- Pages that stand for a map are opened as that map. -/
theorem Stored.opens {pageSize : ℕ} {pages : Pages} {map : ExtTreeMap Key Record}
    (hstored : Stored pageSize pages map) (hnodes : pages.Nodes) :
    ∃ tree, openTree (Snapshot.ofPages pageSize pages) = .ok tree ∧ Holds tree map ∧
      tree.store = Snapshot.ofPages pageSize pages ∧ Reads tree := by
  obtain ⟨tree, hopen, hholds⟩ := hstored
  have hstore : tree.store = Snapshot.ofPages pageSize pages := by
    obtain ⟨info, -, rfl⟩ := openTree_eq_ok.mp hopen
    rfl
  exact ⟨tree, hopen, hholds, hstore, pageSize, pages, hstore, hnodes⟩

end Tree

/-! ## Runs -/

/-- What may be done with a tree. -/
inductive TreeOp where
  | insert (key : Key) (record : Record)
  | remove (key : Key)
  | get (key : Key)
  | scan
  | scanPrefix (start : Key)
  | flush
  | reopen

/-- The pages flushed so far, and the tree that is open on them. -/
structure OpenTree where
  pages : Pages
  tree : Tree

/-- What was flushed, and what was written since. -/
structure Bindings where
  flushed : ExtTreeMap Key Record
  current : ExtTreeMap Key Record

namespace OpenTree

def ofPages (pageSize : ℕ) (pages : Pages) : Except LoomError OpenTree :=
  (Tree.openTree (Snapshot.ofPages pageSize pages)).map fun tree => { pages := pages, tree := tree }

/-- Go on with the tree a computation leaves. -/
def after {α : Type} (opened : OpenTree) (question : TreeM α) : Except LoomError OpenTree :=
  (question opened.tree).map fun (_, tree) => { opened with tree := tree }

end OpenTree

namespace TreeOp

variable (pageSize : ℕ) (write : PageNo → Bytes → Except LoomError Unit)

/-- A flush ends the transaction: the next one reads the pages it wrote. Whether the pager
takes a page is for it to say. -/
def step : TreeOp → OpenTree → Except LoomError OpenTree
  | .insert key record, opened => opened.after (Tree.insert key record)
  | .remove key, opened => opened.after (Tree.remove key)
  | .get key, opened => opened.after (Tree.get key)
  | .scan, opened => opened.after Tree.scan
  | .scanPrefix start, opened => opened.after (Tree.scanPrefix start)
  | .flush, opened => do
      opened.tree.flushTo write
      OpenTree.ofPages pageSize (opened.pages.overlay opened.tree.flush)
  | .reopen, opened => OpenTree.ofPages pageSize opened.pages

/-- Open a tree on some pages, and carry the operations out. -/
def run (pages : Pages) (ops : List TreeOp) : Except LoomError OpenTree := do
  ops.foldlM (fun opened op => op.step pageSize write opened) (← OpenTree.ofPages pageSize pages)

/-- An insertion may find a page too small or a counter at its end, and a flush may be
refused. -/
def mayFail : TreeOp → Bool
  | .insert _ _ | .flush => true
  | .remove _ | .get _ | .scan | .scanPrefix _ | .reopen => false

/-- What the operation does to the map. -/
def apply : TreeOp → Bindings → Bindings
  | .insert key record, bindings =>
      { bindings with current := bindings.current.insert key record }
  | .remove key, bindings => { bindings with current := bindings.current.erase key }
  | .get _, bindings => bindings
  | .scan, bindings => bindings
  | .scanPrefix _, bindings => bindings
  | .flush, bindings => { bindings with flushed := bindings.current }
  | .reopen, bindings => { bindings with current := bindings.flushed }

def bindings (map : ExtTreeMap Key Record) (ops : List TreeOp) : Bindings :=
  ops.foldl (fun bindings op => op.apply bindings) { flushed := map, current := map }

end TreeOp

/-- The tree stands for the map, and so do the pages it was opened on. -/
structure OpenTree.Represents (pageSize : ℕ) (opened : OpenTree) (bindings : Bindings) :
    Prop where
  holds : Tree.Holds opened.tree bindings.current
  store : opened.tree.store = Snapshot.ofPages pageSize opened.pages
  stored : Tree.Stored pageSize opened.pages bindings.flushed
  nodes : opened.pages.Nodes

namespace OpenTree.Represents

variable {pageSize : ℕ} {opened after : OpenTree} {bindings : Bindings} {α : Type}

theorem reads (hrepresents : Represents pageSize opened bindings) : opened.tree.Reads :=
  ⟨pageSize, opened.pages, hrepresents.store, hrepresents.nodes⟩

/-- A computation that ends with a tree of the same store. -/
theorem computed (hrepresents : Represents pageSize opened bindings) {question : TreeM α}
    {map : ExtTreeMap Key Record} (hafter : opened.after question = .ok after)
    (hspec : ∀ answer tree', question opened.tree = .ok (answer, tree') →
      Tree.Holds tree' map ∧ tree'.store = opened.tree.store) :
    Represents pageSize after { bindings with current := map } := by
  unfold OpenTree.after at hafter
  cases hquestion : question opened.tree with
  | error error =>
      rw [hquestion] at hafter
      cases hafter
  | ok result =>
      rw [hquestion] at hafter
      obtain rfl := Except.ok.inj hafter
      obtain ⟨hholds, hstore⟩ := hspec result.1 result.2 hquestion
      exact ⟨hholds, hstore.trans hrepresents.store, hrepresents.stored, hrepresents.nodes⟩

/-- Opening pages that stand for a map. -/
theorem opens {pages : Pages} {map : ExtTreeMap Key Record}
    (hstored : Tree.Stored pageSize pages map) (hnodes : pages.Nodes) :
    ∃ opened, OpenTree.ofPages pageSize pages = .ok opened ∧
      Represents pageSize opened { flushed := map, current := map } := by
  obtain ⟨tree, hopen, hholds, hstore, -⟩ := hstored.opens hnodes
  exact ⟨{ pages := pages, tree := tree }, by rw [OpenTree.ofPages, hopen]; rfl, hholds, hstore,
    hstored, hnodes⟩

theorem opened_of {pages : Pages} {map : ExtTreeMap Key Record}
    (hstored : Tree.Stored pageSize pages map) (hnodes : pages.Nodes)
    (hopen : OpenTree.ofPages pageSize pages = .ok after) :
    Represents pageSize after { flushed := map, current := map } := by
  obtain ⟨opened, hopened, hrepresents⟩ := opens hstored hnodes
  rw [hopen] at hopened
  obtain rfl := Except.ok.inj hopened
  exact hrepresents

/-- The pages a transaction writes are nodes. -/
theorem nodes_flush (hrepresents : Represents pageSize opened bindings) :
    (opened.pages.overlay opened.tree.flush).Nodes := by
  obtain ⟨depth, entries, pages, hshaped, -⟩ := hrepresents.holds
  have hclean : opened.tree.dirty[META_PAGE]? = none := by
    by_contra hdirty
    exact hshaped.notMeta (hshaped.written META_PAGE hdirty)
  intro page bytes hpage hbytes
  by_cases hwritten : ∃ write ∈ opened.tree.flush, write.1 = page
  · obtain ⟨⟨_, written⟩, hwrite, rfl⟩ := hwritten
    rw [Pages.getElem?_overlay_of_mem (Tree.nodup_flush hclean) hwrite] at hbytes
    obtain rfl := Option.some.inj hbytes
    rcases Tree.mem_flush.mp hwrite with ⟨node, -, rfl⟩ | ⟨-, hmeta, -⟩
    · exact ⟨node, rfl⟩
    · exact absurd hmeta hpage
  · rw [Pages.getElem?_overlay_of_notMem fun write hwrite heq => hwritten ⟨write, hwrite, heq⟩]
      at hbytes
    exact hrepresents.nodes page bytes hpage hbytes

theorem step {write : PageNo → Bytes → Except LoomError Unit} {op : TreeOp}
    (hstep : op.step pageSize write opened = .ok after)
    (hrepresents : Represents pageSize opened bindings) :
    Represents pageSize after (op.apply bindings) := by
  have hholds := hrepresents.holds
  cases op with
  | insert key record =>
      exact hrepresents.computed hstep fun _ _ hinsert => Tree.insert_spec hinsert hholds
  | remove key =>
      refine hrepresents.computed hstep fun _ _ hremove => ?_
      obtain ⟨hremoved, -, hstore⟩ := Tree.remove_spec hremove hholds
      exact ⟨hremoved, hstore⟩
  | get key =>
      refine hrepresents.computed hstep fun _ _ hget => ?_
      obtain ⟨-, hsame⟩ := Tree.get_spec hget hholds
      exact ⟨hsame.holds hholds, hsame.store⟩
  | scan =>
      refine hrepresents.computed hstep fun _ _ hscan => ?_
      obtain ⟨-, hsame⟩ := Tree.scan_spec hscan hholds
      exact ⟨hsame.holds hholds, hsame.store⟩
  | scanPrefix start =>
      refine hrepresents.computed hstep fun _ _ hscan => ?_
      obtain ⟨-, hsame⟩ := Tree.scanPrefix_spec hscan hholds
      exact ⟨hsame.holds hholds, hsame.store⟩
  | flush =>
      obtain ⟨_, -, hopen⟩ := StateExcept.except_bind_eq_ok.mp hstep
      exact opened_of (hholds.stored_flush hrepresents.store) hrepresents.nodes_flush hopen
  | reopen => exact opened_of hrepresents.stored hrepresents.nodes hstep

theorem run {write : PageNo → Bytes → Except LoomError Unit} {pages : Pages}
    {map : ExtTreeMap Key Record} {ops : List TreeOp}
    (hstored : Tree.Stored pageSize pages map) (hnodes : pages.Nodes)
    (hrun : TreeOp.run pageSize write pages ops = .ok opened) :
    Represents pageSize opened (TreeOp.bindings map ops) := by
  obtain ⟨first, hfirst, hfold⟩ := StateExcept.except_bind_eq_ok.mp hrun
  have hinitial := opened_of hstored hnodes hfirst
  clear hrun hfirst
  unfold TreeOp.bindings
  generalize ({ flushed := map, current := map } : Bindings) = initial at hinitial ⊢
  induction ops generalizing first initial with
  | nil =>
      obtain rfl := Except.ok.inj hfold
      exact hinitial
  | cons op ops ih =>
      rw [List.foldlM_cons] at hfold
      obtain ⟨next, hstep, hrest⟩ := StateExcept.except_bind_eq_ok.mp hfold
      exact ih next hrest _ (step hstep hinitial)

/-- From the empty store. -/
theorem run_empty {write : PageNo → Bytes → Except LoomError Unit} {ops : List TreeOp}
    (hrun : TreeOp.run pageSize write ∅ ops = .ok opened) :
    Represents pageSize opened (TreeOp.bindings ∅ ops) :=
  run (Tree.stored_empty pageSize) (fun _ _ _ hbytes => by simp at hbytes) hrun

/-- Only an insertion or a flush may fail. -/
theorem step_succeeds {write : PageNo → Bytes → Except LoomError Unit} {op : TreeOp}
    (hrepresents : Represents pageSize opened bindings) (hop : op.mayFail = false) :
    ∃ next, op.step pageSize write opened = .ok next := by
  have hanswered : ∀ {β : Type} {question : TreeM β} {answer : β},
      opened.tree.Answers question answer → ∃ next, opened.after question = .ok next := by
    rintro β question answer ⟨tree', hquestion⟩
    exact ⟨_, by rw [OpenTree.after, hquestion]; rfl⟩
  cases op with
  | insert key record => cases hop
  | flush => cases hop
  | remove key => exact hanswered (hrepresents.holds.answers_remove hrepresents.reads key)
  | get key => exact hanswered (hrepresents.holds.answers_get hrepresents.reads key)
  | scan => exact hanswered (hrepresents.holds.answers_scan hrepresents.reads)
  | scanPrefix start =>
      exact hanswered (hrepresents.holds.answers_scanPrefix hrepresents.reads start)
  | reopen =>
      obtain ⟨reopened, hreopened, -⟩ := opens hrepresents.stored hrepresents.nodes
      exact ⟨reopened, hreopened⟩

end OpenTree.Represents

/-- After any operations the tree answers as the map does, and goes on until an insertion or
a flush fails. -/
theorem TreeOp.answers_as_map {pageSize : ℕ} {write : PageNo → Bytes → Except LoomError Unit}
    {ops : List TreeOp} {opened : OpenTree}
    (hrun : TreeOp.run pageSize write ∅ ops = .ok opened) :
    (∀ key, opened.tree.Answers (Tree.get key) (TreeOp.bindings ∅ ops).current[key]?) ∧
      (∀ key, opened.tree.Answers (Tree.remove key)
        (TreeOp.bindings ∅ ops).current[key]?.isSome) ∧
      opened.tree.Answers Tree.scan (TreeOp.bindings ∅ ops).current.toList ∧
      (∀ start, opened.tree.Answers (Tree.scanPrefix start)
        ((TreeOp.bindings ∅ ops).current.toList.filter fun entry => start.isPrefixOf entry.1)) ∧
      opened.tree.len.val = (TreeOp.bindings ∅ ops).current.size ∧
      ∀ op : TreeOp, op.mayFail = false → ∃ next, op.step pageSize write opened = .ok next := by
  have hrepresents := OpenTree.Represents.run_empty hrun
  exact ⟨hrepresents.holds.answers_get hrepresents.reads,
    hrepresents.holds.answers_remove hrepresents.reads,
    hrepresents.holds.answers_scan hrepresents.reads,
    hrepresents.holds.answers_scanPrefix hrepresents.reads, hrepresents.holds.val_len,
    fun _ hop => hrepresents.step_succeeds hop⟩

/-- Two keys are written, one is flushed, and the other is gone when the tree is opened
again. -/
def TreeOp.twoKeys : List TreeOp :=
  [.insert (ascii "a") (Record.blob [1]), .flush, .insert (ascii "b") (Record.blob [2]), .reopen]

theorem TreeOp.answers_as_map_twoKeys :
    ∃ opened, TreeOp.run 4096 (fun _ _ => .ok ()) ∅ TreeOp.twoKeys = .ok opened ∧
      opened.tree.Answers (Tree.get (ascii "a")) (some (Record.blob [1])) ∧
      opened.tree.Answers (Tree.get (ascii "b")) none := by
  have hruns : (TreeOp.run 4096 (fun _ _ => .ok ()) ∅ TreeOp.twoKeys).isOk = true := by
    decide +kernel
  cases hrun : TreeOp.run 4096 (fun _ _ => .ok ()) ∅ TreeOp.twoKeys with
  | error error =>
      rw [hrun] at hruns
      cases hruns
  | ok opened =>
      obtain ⟨hget, -⟩ := TreeOp.answers_as_map hrun
      have ha : (TreeOp.bindings ∅ TreeOp.twoKeys).current[ascii "a"]? = some (Record.blob [1]) := by
        decide +kernel
      have hb : (TreeOp.bindings ∅ TreeOp.twoKeys).current[ascii "b"]? = none := by decide +kernel
      exact ⟨opened, rfl, ha ▸ hget _, hb ▸ hget _⟩

end LoomDB
