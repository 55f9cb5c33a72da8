import LoomDB.Branch.Rewrites

/-!
# Rules that every node keeps

A rule for nodes that the nodes written by the insertions of a run obey is obeyed by every node of
every tree of that run: a removal takes an entry away, a read changes nothing, and a flush stores the
nodes as they are.
-/

namespace LoomDB

open Codec (lengthEscape)

/-- A rule for nodes: an empty leaf obeys it, the pages of the children do not matter, and an entry
may be removed. -/
structure NodeRule (rule : Node → Prop) : Prop where
  empty : rule (.leaf [])
  renumbered : ∀ {node node' : Node}, Node.Renumbered node node' → rule node → rule node'
  erase : ∀ {entries : List (Key × Record)} (position : ℕ),
    rule (.leaf entries) → rule (.leaf (entries.eraseIdx position))

/-- Every page but the metadata is a node that obeys the rule. -/
def Pages.Follow (rule : Node → Prop) (pages : Pages) : Prop :=
  ∀ page bytes, page ≠ META_PAGE → pages[page]? = some bytes →
    ∃ node : Node, bytes = node.encode ∧ rule node

theorem Pages.Follow.nodes {rule : Node → Prop} {pages : Pages} (hfollow : pages.Follow rule) :
    pages.Nodes := fun page bytes hpage hbytes =>
  let ⟨node, hnode, _⟩ := hfollow page bytes hpage hbytes
  ⟨node, hnode⟩

namespace Tree

variable {α β : Type}

/-- The sizes that are kept are large enough. -/
def Sized (tree : Tree) : Prop :=
  ∀ page, page ≠ META_PAGE → tree.SizedAt page

/-- Every node obeys the rule, and the sizes that are kept are large enough. -/
structure Follows (rule : Node → Prop) (tree : Tree) : Prop where
  nodes : ∀ page, page ≠ META_PAGE → rule (tree.view page)
  sized : Sized tree

/-! ## Reading -/

/-- The computation changes size estimates only, and keeps them large enough. -/
def ReadsOnly (step : TreeM α) : Prop :=
  ∀ tree value tree', step tree = .ok (value, tree') → Reads tree → Sized tree →
    SameNodes tree tree' ∧ Sized tree'

namespace ReadsOnly

variable {step : TreeM α} {next : α → TreeM β}

theorem pure (value : α) : ReadsOnly (pure value : TreeM α) := by
  intro tree found tree' hstep _ hsized
  obtain ⟨rfl, rfl⟩ := Prod.mk.inj (Except.ok.inj hstep)
  exact ⟨.refl _, hsized⟩

theorem throw (error : LoomError) : ReadsOnly (throw error : TreeM α) :=
  fun _ _ _ hstep => nomatch hstep

theorem bind (hstep : ReadsOnly step) (hnext : ∀ value, ReadsOnly (next value)) :
    ReadsOnly (step >>= next) := by
  intro tree value tree' hrun hreads hsized
  obtain ⟨first, middle, hfirst, hrest⟩ := StateExcept.bind_eq_ok.mp hrun
  obtain ⟨hsame, hsized⟩ := hstep tree first middle hfirst hreads hsized
  obtain ⟨hsame', hsized⟩ := hnext first middle value tree' hrest (hreads.same hsame) hsized
  exact ⟨hsame.trans hsame', hsized⟩

theorem mapM {visit : β → TreeM α} (hvisit : ∀ item, ReadsOnly (visit item)) (items : List β) :
    ReadsOnly (items.mapM visit) := by
  induction items with
  | nil => exact pure []
  | cons item items ih =>
      rw [List.mapM_cons]
      exact (hvisit item).bind fun first => ih.bind fun rest => pure (first :: rest)

end ReadsOnly

theorem readsOnly_node (page : PageNo) : ReadsOnly (node page) := by
  intro tree found tree' hnode hreads hsized
  have hsame := (node_eq_ok hnode).2
  refine ⟨hsame, fun other hother => ?_⟩
  by_cases hpage : other = page
  · subst hpage
    exact node_sizedAt hnode hreads hother (hsized other hother)
  · exact sizedAt_congr (congrFun hsame.view other) (node_sizes_frame hnode other hpage)
      (hsized other hother)

theorem readsOnly_getFrom (fuel : ℕ) (page : PageNo) (key : Key) :
    ReadsOnly (getFrom fuel page key) := by
  induction fuel generalizing page with
  | zero => exact .throw _
  | succ fuel ih =>
      refine (readsOnly_node page).bind fun found => ?_
      cases found with
      | leaf entries =>
          simp only
          cases searchEntries entries key with
          | ok position => exact .pure _
          | error position => exact .pure _
      | internal keys children =>
          simp only
          cases children[childIndex keys key]? with
          | none => exact .throw _
          | some child => exact ih child

theorem readsOnly_collect (fuel : ℕ) (page : PageNo) : ReadsOnly (collect fuel page) := by
  induction fuel generalizing page with
  | zero => exact .throw _
  | succ fuel ih =>
      refine (readsOnly_node page).bind fun found => ?_
      cases found with
      | leaf entries => exact .pure _
      | internal keys children =>
          exact (ReadsOnly.mapM ih children).bind fun parts => .pure parts.flatten

theorem readsOnly_collectRange (fuel : ℕ) (page : PageNo) (lo : Key) (hi : Option Key) :
    ReadsOnly (collectRange fuel page lo hi) := by
  induction fuel generalizing page with
  | zero => exact .throw _
  | succ fuel ih =>
      refine (readsOnly_node page).bind fun found => ?_
      cases found with
      | leaf entries => exact .pure _
      | internal keys children =>
          refine (ReadsOnly.mapM ?_ _).bind fun parts => .pure parts.flatten
          rintro ⟨lower, child, upper⟩
          simp only
          split
          · exact ih child
          · exact .pure []

theorem readsOnly_fuel : ReadsOnly fuel := by
  intro tree found tree' hfuel _ hsized
  obtain ⟨rfl, rfl⟩ := Prod.mk.inj (fuel_eq_ok.mp hfuel)
  exact ⟨.refl _, hsized⟩

theorem ReadsOnly.getThe {next : Tree → TreeM α} (hnext : ∀ tree, ReadsOnly (next tree)) :
    ReadsOnly (getThe Tree >>= next) :=
  fun tree => hnext tree tree

theorem readsOnly_get (key : Key) : ReadsOnly (get key) :=
  .getThe fun _ => readsOnly_fuel.bind fun fuel => readsOnly_getFrom fuel _ key

theorem readsOnly_scan : ReadsOnly scan :=
  .getThe fun _ => readsOnly_fuel.bind fun fuel => readsOnly_collect fuel _

theorem readsOnly_scanPrefix (start : Key) : ReadsOnly (scanPrefix start) :=
  .getThe fun _ => readsOnly_fuel.bind fun fuel => readsOnly_collectRange fuel _ _ _

/-! ## Keeping a rule -/

namespace Follows

variable {rule : Node → Prop} {tree tree' : Tree}

theorem reads {step : TreeM α} {value : α} (hfollows : Follows rule tree) (hreads : Reads tree)
    (hstep : ReadsOnly step) (hrun : step tree = .ok (value, tree')) : Follows rule tree' := by
  obtain ⟨hsame, hsized⟩ := hstep tree value tree' hrun hreads hfollows.sized
  exact ⟨fun page hpage => hsame.view ▸ hfollows.nodes page hpage, hsized⟩

theorem rewrites {way : List PageNo} {nodes : List Node} (hfollows : Follows rule tree)
    (hrule : NodeRule rule) (hrewrites : Rewrites tree tree' way nodes)
    (hnodes : ∀ node ∈ nodes, rule node) : Follows rule tree' := by
  refine ⟨fun page hpage => ?_, fun page hpage => ?_⟩
  · by_cases htouched : page ∈ way ∨ Fresh tree tree' page
    · obtain ⟨node, hnode, placed, hplaced, hsame⟩ := hrewrites.written page htouched
      rw [view_of_dirty hplaced]
      exact hrule.renumbered hsame (hnodes node hnode)
    · rw [not_or] at htouched
      rw [view_congr hrewrites.store (hrewrites.frame page htouched.1 htouched.2).1]
      exact hfollows.nodes page hpage
  · by_cases htouched : page ∈ way ∨ Fresh tree tree' page
    · exact hrewrites.sized page htouched
    · rw [not_or] at htouched
      obtain ⟨hdirty, hsizes⟩ := hrewrites.frame page htouched.1 htouched.2
      exact sizedAt_congr (view_congr hrewrites.store hdirty) hsizes (hfollows.sized page hpage)

/-- A node is written whose size is not known. -/
theorem writes {page : PageNo} {node : Node} (hfollows : Follows rule tree)
    (hnode : page ≠ META_PAGE → rule node) (hstore : tree'.store = tree.store)
    (hdirty : tree'.dirty = tree.dirty.insert page node)
    (hsizes : tree'.sizes = tree.sizes.erase page) : Follows rule tree' := by
  have hframe : ∀ other, other ≠ page → tree'.view other = tree.view other := fun other hother =>
    view_congr hstore (by rw [hdirty, OrderedMap.getElem?_insert, if_neg hother.symm])
  refine ⟨fun other hother => ?_, fun other hother => ?_⟩
  · by_cases hpage : other = page
    · subst hpage
      have hplaced : tree'.dirty[other]? = some node := by
        rw [hdirty, OrderedMap.getElem?_insert, if_pos rfl]
      exact view_of_dirty hplaced ▸ hnode hother
    · exact hframe other hpage ▸ hfollows.nodes other hother
  · by_cases hpage : other = page
    · subst hpage
      intro kept size _ hsize
      rw [hsizes, OrderedMap.getElem?_erase, if_pos rfl] at hsize
      cases hsize
    · refine sizedAt_congr (hframe other hpage) ?_ (hfollows.sized other hother)
      rw [hsizes, OrderedMap.getElem?_erase, if_neg (Ne.symm hpage)]

theorem removeFrom {fuel : ℕ} {page : PageNo} {key : Key} {removed : Bool}
    (hfollows : Follows rule tree) (hrule : NodeRule rule) (hreads : Reads tree)
    (hremove : Tree.removeFrom fuel page key tree = .ok (removed, tree')) :
    Follows rule tree' := by
  induction fuel generalizing page tree with
  | zero => simp [Tree.removeFrom] at hremove
  | succ fuel ih =>
      simp only [Tree.removeFrom, StateExcept.bind_eq_ok] at hremove
      obtain ⟨found, seen, hnode, hremove⟩ := hremove
      obtain ⟨hfound, hsame⟩ := node_eq_ok hnode
      have hseen := hfollows.reads hreads (readsOnly_node page) hnode
      cases found with
      | leaf entries =>
          cases hsearch : searchEntries entries key with
          | error position =>
              simp only [hsearch, StateExcept.pure_eq_ok, Prod.mk.injEq] at hremove
              exact hremove.2 ▸ hseen
          | ok position =>
              simp only [hsearch, set, StateExcept.modify_bind, StateExcept.pure_eq_ok,
                Prod.mk.injEq] at hremove
              obtain ⟨-, rfl⟩ := hremove
              refine hseen.writes (fun hpage => hrule.erase position ?_) rfl rfl rfl
              exact hfound ▸ hfollows.nodes page hpage
      | internal keys children =>
          cases hchild : children[childIndex keys key]? with
          | none => simp [hchild] at hremove
          | some child =>
              simp only [hchild] at hremove
              exact ih hseen (hreads.same hsame) hremove

theorem remove {key : Key} {removed : Bool} (hfollows : Follows rule tree)
    (hrule : NodeRule rule) (hreads : Reads tree)
    (hremove : Tree.remove key tree = .ok (removed, tree')) : Follows rule tree' := by
  simp only [Tree.remove, StateExcept.getThe_bind, StateExcept.bind_eq_ok, fuel_eq_ok] at hremove
  obtain ⟨_, _, ⟨rfl, rfl⟩, hremove⟩ := hremove
  exact hfollows.removeFrom hrule hreads hremove

/-- The nodes that an insertion passes obey the rule. -/
theorem passed {map : Std.ExtTreeMap Key Record} (hfollows : Follows rule tree)
    (hholds : Holds tree map) (key : Key) : ∀ node ∈ (tree.passedBy key).map Prod.snd, rule node := by
  obtain ⟨depth, entries, pages, hshaped, -⟩ := hholds
  have hsubset : (tree.passedBy key).map Prod.fst ⊆ pages :=
    passed_subset hshaped.subtree (SearchTree.InRange.trivial key)
  intro node hnode
  obtain ⟨⟨page, _⟩, hpassed, rfl⟩ := List.mem_map.mp hnode
  have hpage : page ∈ pages := hsubset (List.mem_map_of_mem hpassed)
  have hseen := passed_view hpassed
  exact hseen ▸ hfollows.nodes page (ne_of_mem_of_not_mem hpage hshaped.notMeta)

/-- Pages that follow the rule are opened as a tree that does. -/
theorem opens {pageSize : ℕ} {pages : Pages} (hrule : NodeRule rule)
    (hfollow : pages.Follow rule)
    (hopen : openTree (Snapshot.ofPages pageSize pages) = .ok tree) : Follows rule tree := by
  obtain ⟨info, -, rfl⟩ := openTree_eq_ok.mp hopen
  refine ⟨fun page hpage => ?_, fun page _ kept size _ hsize => by simp at hsize⟩
  cases hbytes : pages[page]? with
  | none =>
      simp only [view, Snapshot.ofPages, hbytes, Std.ExtTreeMap.getElem?_empty]
      exact hrule.empty
  | some bytes =>
      obtain ⟨node, rfl, hnode⟩ := hfollow page bytes hpage hbytes
      simp only [view, Snapshot.ofPages, hbytes, Std.ExtTreeMap.getElem?_empty,
        Node.decode_encode]
      exact hnode

end Follows

end Tree

/-! ## Runs -/

namespace TreeOp

variable {pageSize : ℕ} {write : PageNo → Bytes → Except LoomError Unit}

/-- Each insertion of the run meets the condition in the tree it finds. -/
def InsertsMeet (pageSize : ℕ) (write : PageNo → Bytes → Except LoomError Unit)
    (condition : Key → Record → Tree → Prop) (ops : List TreeOp) : Prop :=
  ∀ earlier later key record opened, ops = earlier ++ .insert key record :: later →
    run pageSize write ∅ earlier = .ok opened → condition key record opened.tree

theorem run_append_eq_ok {pages : Pages} {ops : List TreeOp} {op : TreeOp} {after : OpenTree}
    (hrun : run pageSize write pages (ops ++ [op]) = .ok after) :
    ∃ opened, run pageSize write pages ops = .ok opened ∧
      op.step pageSize write opened = .ok after := by
  obtain ⟨first, hfirst, hfold⟩ := StateExcept.except_bind_eq_ok.mp hrun
  rw [List.foldlM_append] at hfold
  obtain ⟨opened, hbefore, hlast⟩ := StateExcept.except_bind_eq_ok.mp hfold
  refine ⟨opened, StateExcept.except_bind_eq_ok.mpr ⟨first, hfirst, hbefore⟩, ?_⟩
  rw [List.foldlM_cons] at hlast
  obtain ⟨last, hstep, hnil⟩ := StateExcept.except_bind_eq_ok.mp hlast
  exact Except.ok.inj hnil ▸ hstep

theorem InsertsMeet.init {condition : Key → Record → Tree → Prop} {ops : List TreeOp}
    {op : TreeOp} (hmeet : InsertsMeet pageSize write condition (ops ++ [op])) :
    InsertsMeet pageSize write condition ops := by
  rintro earlier later key record opened rfl hrun
  exact hmeet earlier (later ++ [op]) key record opened (by simp) hrun

/-- What the start of a run satisfies, and every step of it keeps, holds at its end. -/
theorem run_induction {condition : Key → Record → Tree → Prop}
    (invariant : OpenTree → List TreeOp → Prop)
    (hstart : ∀ opened, OpenTree.ofPages pageSize ∅ = .ok opened → invariant opened [])
    (hstep : ∀ ops op opened after, run pageSize write ∅ ops = .ok opened →
      (∀ key record, op = .insert key record → condition key record opened.tree) →
      op.step pageSize write opened = .ok after → invariant opened ops →
        invariant after (ops ++ [op]))
    {ops : List TreeOp} {opened : OpenTree} (hmeet : InsertsMeet pageSize write condition ops)
    (hrun : run pageSize write ∅ ops = .ok opened) : invariant opened ops := by
  induction ops using List.reverseRecOn generalizing opened with
  | nil =>
      obtain ⟨first, hfirst, hnil⟩ := StateExcept.except_bind_eq_ok.mp hrun
      exact Except.ok.inj hnil ▸ hstart first hfirst
  | append_singleton ops op ih =>
      obtain ⟨before, hbefore, hlast⟩ := run_append_eq_ok hrun
      refine hstep ops op before opened hbefore ?_ hlast (ih hmeet.init hbefore)
      rintro key record rfl
      exact hmeet ops [] key record before rfl hbefore

end TreeOp

namespace OpenTree

variable {pageSize : ℕ} {rule : Node → Prop} {opened after : OpenTree} {bindings : Bindings}

/-- The nodes of the open tree and those on its pages obey the rule. -/
structure Follows (rule : Node → Prop) (opened : OpenTree) : Prop where
  tree : Tree.Follows rule opened.tree
  pages : opened.pages.Follow rule

theorem Follows.opens {pages : Pages} (hrule : NodeRule rule) (hfollow : pages.Follow rule)
    (hopen : OpenTree.ofPages pageSize pages = .ok opened) : Follows rule opened := by
  unfold OpenTree.ofPages at hopen
  cases htree : Tree.openTree (Snapshot.ofPages pageSize pages) with
  | error error =>
      rw [htree] at hopen
      cases hopen
  | ok tree =>
      rw [htree] at hopen
      obtain rfl := Except.ok.inj hopen
      exact ⟨.opens hrule hfollow htree, hfollow⟩

theorem Follows.computed {α : Type} {question : TreeM α} (hfollows : Follows rule opened)
    (hafter : opened.after question = .ok after)
    (hspec : ∀ answer tree', question opened.tree = .ok (answer, tree') →
      Tree.Follows rule tree') : Follows rule after := by
  unfold OpenTree.after at hafter
  cases hquestion : question opened.tree with
  | error error =>
      rw [hquestion] at hafter
      cases hafter
  | ok result =>
      rw [hquestion] at hafter
      obtain rfl := Except.ok.inj hafter
      exact ⟨hspec result.1 result.2 hquestion, hfollows.pages⟩

/-- The dirty nodes obey the rule, so the pages they are flushed to do. -/
theorem Follows.flush (hfollows : Follows rule opened)
    (hrepresents : Represents pageSize opened bindings) :
    (opened.pages.overlay opened.tree.flush).Follow rule := by
  obtain ⟨depth, entries, pages, hshaped, -⟩ := hrepresents.holds
  have hclean : opened.tree.dirty[META_PAGE]? = none := by
    by_contra hdirty
    exact hshaped.notMeta (hshaped.written META_PAGE hdirty)
  intro page bytes hpage hbytes
  by_cases hwritten : ∃ write ∈ opened.tree.flush, write.1 = page
  · obtain ⟨⟨_, written⟩, hwrite, rfl⟩ := hwritten
    rw [Pages.getElem?_overlay_of_mem (Tree.nodup_flush hclean) hwrite] at hbytes
    obtain rfl := Option.some.inj hbytes
    rcases Tree.mem_flush.mp hwrite with ⟨node, hdirty, rfl⟩ | ⟨-, hmeta, -⟩
    · exact ⟨node, rfl, Tree.view_of_dirty hdirty ▸ hfollows.tree.nodes _ hpage⟩
    · exact absurd hmeta hpage
  · rw [Pages.getElem?_overlay_of_notMem fun write hwrite heq => hwritten ⟨write, hwrite, heq⟩]
      at hbytes
    exact hfollows.pages page bytes hpage hbytes

theorem Follows.step {write : PageNo → Bytes → Except LoomError Unit} {op : TreeOp}
    (hrule : NodeRule rule) (hlimit : fillLimit pageSize < lengthEscape)
    (hrepresents : Represents pageSize opened bindings)
    (hwritten : ∀ key record, op = .insert key record →
      ∀ node ∈ opened.tree.written key record, rule node)
    (hstep : op.step pageSize write opened = .ok after) (hfollows : Follows rule opened) :
    Follows rule after := by
  have hreads := hrepresents.reads
  cases op with
  | insert key record =>
      refine hfollows.computed hstep fun done tree' hinsert => ?_
      obtain ⟨depth, entries, pages, hshaped, -⟩ := hrepresents.holds
      have hpageSize : opened.tree.store.pageSize = pageSize := by
        rw [hrepresents.store]
        rfl
      have hrewrites := Tree.insert_rewrites hinsert hreads (hpageSize ▸ hlimit) hshaped
        hfollows.tree.sized
      exact hfollows.tree.rewrites hrule hrewrites (hwritten key record rfl)
  | remove key =>
      exact hfollows.computed hstep fun _ _ hremove => hfollows.tree.remove hrule hreads hremove
  | get key =>
      exact hfollows.computed hstep fun _ _ hget =>
        hfollows.tree.reads hreads (Tree.readsOnly_get key) hget
  | scan =>
      exact hfollows.computed hstep fun _ _ hscan =>
        hfollows.tree.reads hreads Tree.readsOnly_scan hscan
  | scanPrefix start =>
      exact hfollows.computed hstep fun _ _ hscan =>
        hfollows.tree.reads hreads (Tree.readsOnly_scanPrefix start) hscan
  | flush =>
      obtain ⟨_, -, hopen⟩ := StateExcept.except_bind_eq_ok.mp hstep
      exact .opens hrule (hfollows.flush hrepresents) hopen
  | reopen => exact .opens hrule hfollows.pages hstep

/-- Under a condition that makes the nodes an insertion writes obey the rule, every node of every
tree of a run does. -/
theorem Follows.run {write : PageNo → Bytes → Except LoomError Unit} {ops : List TreeOp}
    {condition : Key → Record → Tree → Prop} (hrule : NodeRule rule)
    (hlimit : fillLimit pageSize < lengthEscape)
    (hwritten : ∀ key record tree, tree.store.pageSize = pageSize → Tree.Follows rule tree →
      (∀ node ∈ (tree.passedBy key).map Prod.snd, rule node) → condition key record tree →
        ∀ node ∈ tree.written key record, rule node)
    (hmeet : TreeOp.InsertsMeet pageSize write condition ops)
    (hrun : TreeOp.run pageSize write ∅ ops = .ok opened) : Follows rule opened := by
  refine TreeOp.run_induction (fun opened ops => Follows rule opened) ?_ ?_ hmeet hrun
  · exact fun opened hopen => .opens hrule (fun _ _ _ hbytes => by simp at hbytes) hopen
  · intro ops op before after hbefore hcondition hstep hfollows
    have hrepresents := Represents.run_empty hbefore
    refine hfollows.step hrule hlimit hrepresents (fun key record hop => ?_) hstep
    refine hwritten key record before.tree (by rw [hrepresents.store]; rfl) hfollows.tree ?_
      (hcondition key record hop)
    exact hfollows.tree.passed hrepresents.holds key

end OpenTree

end LoomDB
