import LoomDB.Branch.Splits
import LoomDB.Branch.TreeRuns

/-!
# What an insertion writes

An insertion writes the nodes it passes and the pages it hands out, and nothing else. What it writes
there is what becomes of the nodes it passes, and the size it keeps for a leaf is never too small.
-/

namespace LoomDB

open Codec (lengthEscape)
open SearchTree

namespace Tree

/-- The size kept for a page is no less than the leaf there. -/
def SizedAt (tree : Tree) (page : PageNo) : Prop :=
  ∀ entries size, tree.view page = .leaf entries → tree.sizes[page]? = some size →
    (Node.encode (.leaf entries)).length ≤ size

/-- The page was handed out between the two trees. -/
def Fresh (tree tree' : Tree) (page : PageNo) : Prop :=
  tree.info.nextFree ≤ page ∧ page < tree'.info.nextFree

/-- The nodes are written at the given pages and at fresh ones. -/
structure Rewrites (tree tree' : Tree) (way : List PageNo) (nodes : List Node) : Prop where
  store : tree'.store = tree.store
  allotted : tree'.info.nextFree.val + way.length = tree.info.nextFree.val + nodes.length
  nextFree : tree.info.nextFree ≤ tree'.info.nextFree
  frame : ∀ page, page ∉ way → ¬Fresh tree tree' page →
    tree'.dirty[page]? = tree.dirty[page]? ∧ tree'.sizes[page]? = tree.sizes[page]?
  written : ∀ page, page ∈ way ∨ Fresh tree tree' page →
    ∃ node ∈ nodes, ∃ placed, tree'.dirty[page]? = some placed ∧ Node.Renumbered node placed
  sized : ∀ page, page ∈ way ∨ Fresh tree tree' page → tree'.SizedAt page

theorem sizedAt_of_dirty {tree : Tree} {page : PageNo} {node : Node}
    (hdirty : tree.dirty[page]? = some node)
    (hsize : ∀ entries size, node = .leaf entries → tree.sizes[page]? = some size →
      (Node.encode (.leaf entries)).length ≤ size) : tree.SizedAt page :=
  fun entries size hview => hsize entries size ((view_of_dirty hdirty).symm.trans hview)

theorem sizedAt_congr {tree tree' : Tree} {page : PageNo}
    (hview : tree'.view page = tree.view page) (hsizes : tree'.sizes[page]? = tree.sizes[page]?)
    (hsized : tree.SizedAt page) : tree'.SizedAt page :=
  fun entries size hleaf hsize => hsized entries size (hview ▸ hleaf) (hsizes ▸ hsize)

theorem nextFree_lt {tree tree' : Tree} {next : PageNo} (hnext : tree'.info.nextFree = next)
    (hval : next.val = tree.info.nextFree.val + 1) :
    tree.info.nextFree < tree'.info.nextFree := by
  rw [hnext, Fin.lt_def, hval]
  exact Nat.lt_succ_self _

/-- One page was handed out. -/
theorem eq_of_fresh {tree tree' : Tree} {next page : PageNo} (hnext : tree'.info.nextFree = next)
    (hval : next.val = tree.info.nextFree.val + 1) (hfresh : Fresh tree tree' page) :
    page = tree.info.nextFree := by
  obtain ⟨hlower, hupper⟩ := hfresh
  rw [hnext, Fin.lt_def, hval] at hupper
  exact le_antisymm (Fin.le_def.mpr (Nat.lt_succ_iff.mp hupper)) hlower

namespace Rewrites

/-- One node is written. -/
theorem single {tree tree' : Tree} {page : PageNo} {node placed : Node}
    (hstore : tree'.store = tree.store) (hnext : tree'.info.nextFree = tree.info.nextFree)
    (hdirty : tree'.dirty = tree.dirty.insert page placed)
    (hsizes : ∀ other, other ≠ page → tree'.sizes[other]? = tree.sizes[other]?)
    (hsize : ∀ entries size, placed = .leaf entries → tree'.sizes[page]? = some size →
      (Node.encode (.leaf entries)).length ≤ size)
    (hnode : Node.Renumbered node placed) : Rewrites tree tree' [page] [node] := by
  have hplaced : tree'.dirty[page]? = some placed := by
    rw [hdirty, OrderedMap.getElem?_insert, if_pos rfl]
  have hnone : ∀ other, ¬Fresh tree tree' other := fun other hfresh =>
    absurd hfresh.2 (hnext ▸ not_lt.mpr hfresh.1)
  refine ⟨hstore, by rw [hnext]; rfl, hnext.ge, ?_, ?_, ?_⟩
  · intro other hother _
    have hne : other ≠ page := fun heq => hother (List.mem_singleton.mpr heq)
    exact ⟨by rw [hdirty, OrderedMap.getElem?_insert, if_neg hne.symm], hsizes other hne⟩
  · intro other hother
    obtain rfl := List.mem_singleton.mp (hother.resolve_right (hnone other))
    exact ⟨node, List.mem_singleton_self _, placed, hplaced, hnode⟩
  · intro other hother
    obtain rfl := List.mem_singleton.mp (hother.resolve_right (hnone other))
    exact sizedAt_of_dirty hplaced hsize

/-- One node is written, on a fresh page. -/
theorem fresh {tree tree' : Tree} {next : PageNo} {node placed : Node}
    (hstore : tree'.store = tree.store) (hnext : tree'.info.nextFree = next)
    (hval : next.val = tree.info.nextFree.val + 1)
    (hdirty : tree'.dirty = tree.dirty.insert tree.info.nextFree placed)
    (hsizes : ∀ other, other ≠ tree.info.nextFree → tree'.sizes[other]? = tree.sizes[other]?)
    (hsize : ∀ entries size, placed = .leaf entries →
      tree'.sizes[tree.info.nextFree]? = some size → (Node.encode (.leaf entries)).length ≤ size)
    (hnode : Node.Renumbered node placed) : Rewrites tree tree' [] [node] := by
  have hlt := nextFree_lt hnext hval
  have hplaced : tree'.dirty[tree.info.nextFree]? = some placed := by
    rw [hdirty, OrderedMap.getElem?_insert, if_pos rfl]
  refine ⟨hstore, by rw [hnext, hval]; rfl, hlt.le, ?_, ?_, ?_⟩
  · intro other _ hold
    have hne : other ≠ tree.info.nextFree := fun heq => hold (heq ▸ ⟨le_rfl, hlt⟩)
    exact ⟨by rw [hdirty, OrderedMap.getElem?_insert, if_neg hne.symm], hsizes other hne⟩
  · rintro other (hother | hfresh)
    · cases hother
    · obtain rfl := eq_of_fresh hnext hval hfresh
      exact ⟨node, List.mem_singleton_self _, placed, hplaced, hnode⟩
  · rintro other (hother | hfresh)
    · cases hother
    · obtain rfl := eq_of_fresh hnext hval hfresh
      exact sizedAt_of_dirty hplaced hsize

/-- A node is written, and another on a fresh page. -/
theorem pair {tree tree' : Tree} {page next : PageNo} {left right placedLeft placedRight : Node}
    (hstore : tree'.store = tree.store) (hnext : tree'.info.nextFree = next)
    (hval : next.val = tree.info.nextFree.val + 1) (hpage : page < tree.info.nextFree)
    (hdirty : tree'.dirty = (tree.dirty.insert page placedLeft).insert tree.info.nextFree
      placedRight)
    (hsizes : ∀ other, other ≠ page → other ≠ tree.info.nextFree →
      tree'.sizes[other]? = tree.sizes[other]?)
    (hsizeLeft : ∀ entries size, placedLeft = .leaf entries → tree'.sizes[page]? = some size →
      (Node.encode (.leaf entries)).length ≤ size)
    (hsizeRight : ∀ entries size, placedRight = .leaf entries →
      tree'.sizes[tree.info.nextFree]? = some size →
        (Node.encode (.leaf entries)).length ≤ size)
    (hleft : Node.Renumbered left placedLeft) (hright : Node.Renumbered right placedRight) :
    Rewrites tree tree' [page] [left, right] := by
  have hlt := nextFree_lt hnext hval
  have hdirtyLeft : tree'.dirty[page]? = some placedLeft := by
    rw [hdirty, OrderedMap.getElem?_insert, if_neg hpage.ne', OrderedMap.getElem?_insert,
      if_pos rfl]
  have hdirtyRight : tree'.dirty[tree.info.nextFree]? = some placedRight := by
    rw [hdirty, OrderedMap.getElem?_insert, if_pos rfl]
  refine ⟨hstore, by rw [hnext, hval]; rfl, hlt.le, ?_, ?_, ?_⟩
  · intro other hother hold
    have hne : other ≠ page := fun heq => hother (List.mem_singleton.mpr heq)
    have hneNext : other ≠ tree.info.nextFree := fun heq => hold (heq ▸ ⟨le_rfl, hlt⟩)
    refine ⟨?_, hsizes other hne hneNext⟩
    rw [hdirty, OrderedMap.getElem?_insert, if_neg hneNext.symm, OrderedMap.getElem?_insert,
      if_neg hne.symm]
  · rintro other (hother | hfresh)
    · obtain rfl := List.mem_singleton.mp hother
      exact ⟨left, List.mem_cons_self, placedLeft, hdirtyLeft, hleft⟩
    · obtain rfl := eq_of_fresh hnext hval hfresh
      exact ⟨right, by simp, placedRight, hdirtyRight, hright⟩
  · rintro other (hother | hfresh)
    · obtain rfl := List.mem_singleton.mp hother
      exact sizedAt_of_dirty hdirtyLeft hsizeLeft
    · obtain rfl := eq_of_fresh hnext hval hfresh
      exact sizedAt_of_dirty hdirtyRight hsizeRight

/-- More nodes are written. -/
theorem trans {first second third : Tree} {way more : List PageNo} {nodes above : List Node}
    (hbelow : Rewrites first second way nodes) (habove : Rewrites second third more above) :
    Rewrites first third (more ++ way) (above ++ nodes) := by
  -- A page is written in the second part, or is what the first part made of it.
  have hcases : ∀ other, other ∈ more ∨ Fresh second third other ∨
      (other ∉ more ∧ ¬Fresh second third other) := fun other => by tauto
  have hearlier : ∀ other, other ∉ more → ¬Fresh second third other →
      other ∈ more ++ way ∨ Fresh first third other →
        other ∈ way ∨ Fresh first second other := by
    intro other hother hold htouched
    rcases htouched with hmem | ⟨hlower, hupper⟩
    · exact Or.inl ((List.mem_append.mp hmem).resolve_left hother)
    · exact Or.inr ⟨hlower, not_le.mp fun hle => hold ⟨hle, hupper⟩⟩
  have hkept : ∀ other, other ∉ more → ¬Fresh second third other →
      third.view other = second.view other := fun other hother hold =>
    view_congr habove.store (habove.frame other hother hold).1
  refine ⟨habove.store.trans hbelow.store, ?_, hbelow.nextFree.trans habove.nextFree, ?_, ?_, ?_⟩
  · have hallotted := habove.allotted
    have hallotted' := hbelow.allotted
    rw [List.length_append, List.length_append]
    omega
  · intro other hother hold
    rw [List.mem_append, not_or] at hother
    have hlate : ¬Fresh second third other := fun hfresh =>
      hold ⟨hbelow.nextFree.trans hfresh.1, hfresh.2⟩
    have hearly : ¬Fresh first second other := fun hfresh =>
      hold ⟨hfresh.1, hfresh.2.trans_le habove.nextFree⟩
    obtain ⟨hdirty, hsizes⟩ := habove.frame other hother.1 hlate
    obtain ⟨hdirty', hsizes'⟩ := hbelow.frame other hother.2 hearly
    exact ⟨hdirty.trans hdirty', hsizes.trans hsizes'⟩
  · intro other htouched
    rcases hcases other with hother | hfresh | ⟨hother, hold⟩
    · obtain ⟨node, hnode, hplaced⟩ := habove.written other (Or.inl hother)
      exact ⟨node, List.mem_append_left _ hnode, hplaced⟩
    · obtain ⟨node, hnode, hplaced⟩ := habove.written other (Or.inr hfresh)
      exact ⟨node, List.mem_append_left _ hnode, hplaced⟩
    · obtain ⟨node, hnode, placed, hplaced, hsame⟩ :=
        hbelow.written other (hearlier other hother hold htouched)
      exact ⟨node, List.mem_append_right _ hnode, placed,
        (habove.frame other hother hold).1.trans hplaced, hsame⟩
  · intro other htouched
    rcases hcases other with hother | hfresh | ⟨hother, hold⟩
    · exact habove.sized other (Or.inl hother)
    · exact habove.sized other (Or.inr hfresh)
    · exact sizedAt_congr (hkept other hother hold) (habove.frame other hother hold).2
        (hbelow.sized other (hearlier other hother hold htouched))

/-- What was at a page that is written anyway does not matter. -/
theorem of_taken {tree taken tree' : Tree} {page : PageNo} {way : List PageNo}
    {nodes : List Node} (hrewrites : Rewrites taken tree' (page :: way) nodes)
    (hstore : taken.store = tree.store) (hinfo : taken.info = tree.info)
    (hdirty : ∀ other, other ≠ page → taken.dirty[other]? = tree.dirty[other]?)
    (hsizes : ∀ other, other ≠ page → taken.sizes[other]? = tree.sizes[other]?) :
    Rewrites tree tree' (page :: way) nodes := by
  have hfresh : ∀ other, Fresh tree tree' other ↔ Fresh taken tree' other := fun other => by
    rw [Fresh, Fresh, hinfo]
  refine ⟨hrewrites.store.trans hstore, hinfo ▸ hrewrites.allotted, hinfo ▸ hrewrites.nextFree,
    ?_, ?_, ?_⟩
  · intro other hother hold
    have hne : other ≠ page := fun heq => hother (heq ▸ List.mem_cons_self)
    obtain ⟨hframe, hframeSizes⟩ := hrewrites.frame other hother ((hfresh other).not.mp hold)
    exact ⟨hframe.trans (hdirty other hne), hframeSizes.trans (hsizes other hne)⟩
  · exact fun other hother => hrewrites.written other (hother.imp_right (hfresh other).mp)
  · exact fun other hother => hrewrites.sized other (hother.imp_right (hfresh other).mp)

end Rewrites

/-! ## Reading and measuring a node -/

section Sizes

variable {tree tree' : Tree} {page : PageNo} {key : Key} {record : Record}

theorem node_sizes_frame {found : Node} (hnode : node page tree = .ok (found, tree'))
    (other : PageNo) (hother : other ≠ page) : tree'.sizes[other]? = tree.sizes[other]? := by
  simp only [node, StateExcept.get_bind] at hnode
  cases hdirty : tree.dirty[page]? with
  | some node =>
      simp only [hdirty, StateExcept.pure_eq_ok, Prod.mk.injEq] at hnode
      obtain ⟨-, rfl⟩ := hnode
      rfl
  | none =>
      cases hread : tree.store.readHead page with
      | ok bytes =>
          simp only [hdirty, hread, StateExcept.modify_bind] at hnode
          cases hdecode : Node.decode bytes page with
          | error error => simp [hdecode] at hnode
          | ok node =>
              simp only [hdecode, StateExcept.pure_eq_ok, Prod.mk.injEq] at hnode
              obtain ⟨-, rfl⟩ := hnode
              simp only [OrderedMap.getElem?_insert, if_neg hother.symm]
      | error error =>
          cases error with
          | pageNotFound missing =>
              simp only [hdirty, hread, StateExcept.pure_eq_ok, Prod.mk.injEq] at hnode
              obtain ⟨-, rfl⟩ := hnode
              rfl
          | _ => simp [hdirty, hread] at hnode

/-- A node that is read from the store is measured there. -/
theorem node_sizedAt {found : Node} (hnode : node page tree = .ok (found, tree'))
    (hreads : Reads tree) (hpage : page ≠ META_PAGE) (hsized : tree.SizedAt page) :
    tree'.SizedAt page := by
  obtain ⟨pageSize, pages, hstore, hnodes⟩ := hreads
  simp only [node, StateExcept.get_bind] at hnode
  cases hdirty : tree.dirty[page]? with
  | some node =>
      simp only [hdirty, StateExcept.pure_eq_ok, Prod.mk.injEq] at hnode
      obtain ⟨-, rfl⟩ := hnode
      exact hsized
  | none =>
      simp only [hdirty, hstore, Snapshot.ofPages] at hnode
      cases hbytes : pages[page]? with
      | none =>
          simp only [hbytes, StateExcept.pure_eq_ok, Prod.mk.injEq] at hnode
          obtain ⟨-, rfl⟩ := hnode
          exact hsized
      | some bytes =>
          obtain ⟨stored, rfl⟩ := hnodes page bytes hpage hbytes
          simp only [hbytes, StateExcept.modify_bind, Node.decode_encode, StateExcept.pure_eq_ok,
            Prod.mk.injEq] at hnode
          obtain ⟨-, rfl⟩ := hnode
          intro entries size hview hsize
          simp only [view, hdirty, hstore, Snapshot.ofPages, hbytes, Node.decode_encode] at hview
          subst hview
          simp only [OrderedMap.getElem?_insert, if_true, Option.some.injEq] at hsize
          exact hsize.le

theorem takeNode_sizes {found : Node} (htake : takeNode page tree = .ok (found, tree'))
    (hreads : Reads tree) (hpage : page ≠ META_PAGE) (hsized : tree.SizedAt page) :
    (∀ entries size, found = .leaf entries → tree'.sizes[page]? = some size →
      (Node.encode (.leaf entries)).length ≤ size) ∧
      ∀ other, other ≠ page → tree'.sizes[other]? = tree.sizes[other]? := by
  simp only [takeNode, StateExcept.get_bind] at htake
  cases hdirty : tree.dirty[page]? with
  | some node =>
      simp only [hdirty, StateExcept.modify_bind, StateExcept.pure_eq_ok, Prod.mk.injEq] at htake
      obtain ⟨rfl, rfl⟩ := htake
      exact ⟨fun entries size hleaf =>
        hsized entries size ((view_of_dirty hdirty).trans hleaf), fun _ _ => rfl⟩
  | none =>
      simp only [hdirty] at htake
      have hsized' := node_sizedAt htake hreads hpage hsized
      obtain ⟨rfl, hsame⟩ := node_eq_ok htake
      exact ⟨fun entries size hleaf => hsized' entries size (hsame.view ▸ hleaf),
        node_sizes_frame htake⟩

theorem sizeOf_sizes {node : Node} {size : ℕ} (hsizeOf : sizeOf page node tree = .ok (size, tree')) :
    (size = node.encode.length ∨ tree.sizes[page]? = some size) ∧
      ∀ other, other ≠ page → tree'.sizes[other]? = tree.sizes[other]? := by
  simp only [sizeOf, StateExcept.get_bind] at hsizeOf
  cases hcached : tree.sizes[page]? with
  | some cached =>
      simp only [hcached, StateExcept.pure_eq_ok, Prod.mk.injEq] at hsizeOf
      obtain ⟨rfl, rfl⟩ := hsizeOf
      exact ⟨Or.inr rfl, fun _ _ => rfl⟩
  | none =>
      simp only [hcached, StateExcept.modify_bind, StateExcept.pure_eq_ok,
        Prod.mk.injEq] at hsizeOf
      obtain ⟨rfl, rfl⟩ := hsizeOf
      refine ⟨Or.inl rfl, fun other hother => ?_⟩
      simp only [OrderedMap.getElem?_insert, if_neg hother.symm]

/-- Only the count changes. -/
theorem updateLeaf_frame {entries updated : List (Key × Record)} {size estimate : ℕ}
    (hupdate : updateLeaf entries key record size tree = .ok ((updated, estimate), tree')) :
    tree'.store = tree.store ∧ tree'.dirty = tree.dirty ∧ tree'.sizes = tree.sizes ∧
      tree'.info.nextFree = tree.info.nextFree := by
  unfold updateLeaf at hupdate
  cases hsearch : searchEntries entries key with
  | ok position =>
      cases hget : entries[position]? with
      | none => simp [hsearch, hget] at hupdate
      | some entry =>
          simp only [hsearch, hget, StateExcept.pure_eq_ok, Prod.mk.injEq] at hupdate
          obtain ⟨-, rfl⟩ := hupdate
          exact ⟨rfl, rfl, rfl, rfl⟩
  | error position =>
      simp only [hsearch, StateExcept.bind_eq_ok, StateExcept.pure_eq_ok,
        Prod.mk.injEq] at hupdate
      obtain ⟨_, counted, hcount, -, rfl⟩ := hupdate
      obtain ⟨count, -, rfl⟩ := countUp_eq_ok hcount
      exact ⟨rfl, rfl, rfl, rfl⟩

/-- An estimate that lets a leaf through is no less than its size. -/
theorem overflowed_fst_iff {pageSize estimate : ℕ} {node : Node}
    (hestimate : estimate ≤ fillLimit pageSize → node.encode.length ≤ estimate) :
    (overflowed pageSize node estimate).1 = true ↔ fillLimit pageSize < node.encode.length := by
  unfold overflowed
  split
  next hfits => simpa using (hestimate hfits).trans hfits
  next => simp

theorem le_overflowed_snd {pageSize estimate : ℕ} {node : Node}
    (hestimate : estimate ≤ fillLimit pageSize → node.encode.length ≤ estimate) :
    node.encode.length ≤ (overflowed pageSize node estimate).2 := by
  unfold overflowed
  split
  next hfits => exact hestimate hfits
  next => exact le_rfl

end Sizes

/-! ## Insertion -/

section Insertion

variable {tree tree' : Tree} {page : PageNo} {key : Key} {record : Record}
  {result : Option (Key × PageNo)}

theorem splitLeaf_rewrites {entries : List (Key × Record)}
    (hsplit : splitLeaf page entries tree = .ok (result, tree'))
    (hpage : page < tree.info.nextFree) :
    Node.separator (.leaf entries) = result.map Prod.fst ∧
      Rewrites tree tree' [page] (Node.halves (.leaf entries)) := by
  simp only [splitLeaf, StateExcept.getThe_bind] at hsplit
  cases hright : (entries.drop (entries.length / 2)).head? with
  | none => simp [hright] at hsplit
  | some first =>
      obtain ⟨separator, value⟩ := first
      simp only [hright, StateExcept.bind_eq_ok] at hsplit
      obtain ⟨right, allocated, halloc, hsplit⟩ := hsplit
      obtain ⟨rfl, next, hnext, rfl⟩ := alloc_eq_ok halloc
      simp only [setSized, StateExcept.modify_eq_ok, StateExcept.pure_eq_ok,
        Prod.mk.injEq] at hsplit
      obtain ⟨_, _, ⟨-, rfl⟩, _, _, ⟨-, rfl⟩, rfl, rfl⟩ := hsplit
      refine ⟨by simp [Node.separator, hright], .pair rfl rfl hnext hpage rfl ?_ ?_ ?_ (.refl _)
        (.refl _)⟩
      · intro other hother hfresh
        simp only [OrderedMap.getElem?_insert, if_neg hother.symm, if_neg hfresh.symm]
      · rintro kept size ⟨⟩ hsize
        simp only [OrderedMap.getElem?_insert, if_neg hpage.ne', if_true,
          Option.some.injEq] at hsize
        exact hsize.le
      · rintro kept size ⟨⟩ hsize
        simp only [OrderedMap.getElem?_insert, if_true, Option.some.injEq] at hsize
        exact hsize.le

theorem insertLeaf_rewrites {entries : List (Key × Record)}
    (hinsert : insertLeaf page entries key record tree = .ok (result, tree'))
    (hsize : ∀ size, tree.sizes[page]? = some size →
      (Node.encode (.leaf entries)).length ≤ size)
    (hlimit : fillLimit tree.store.pageSize < lengthEscape) (hpage : page < tree.info.nextFree) :
    (fates (fillLimit tree.store.pageSize) key record [.leaf entries]).2 = result.map Prod.fst ∧
      Rewrites tree tree' [page]
        ((fates (fillLimit tree.store.pageSize) key record [.leaf entries]).1.flatMap
          Fate.nodes) := by
  simp only [insertLeaf, StateExcept.bind_eq_ok] at hinsert
  obtain ⟨size, sized, hsizeOf, ⟨updated, estimate⟩, counted, hupdate, hstore⟩ := hinsert
  have hsame := sizeOf_eq_ok hsizeOf
  obtain ⟨hmeasured, hsizes⟩ := sizeOf_sizes hsizeOf
  have hmeasured : (Node.encode (.leaf entries)).length ≤ size :=
    hmeasured.elim (fun heq => heq.ge) (hsize size)
  obtain ⟨hcountedStore, hcountedDirty, hcountedSizes, hcountedNext⟩ := updateLeaf_frame hupdate
  obtain ⟨rfl, -⟩ := updateLeaf_eq_ok hupdate
  have hpageSize : counted.store.pageSize = tree.store.pageSize := by
    rw [hcountedStore, hsame.store]
  have hnext : counted.info.nextFree = tree.info.nextFree := by rw [hcountedNext, hsame.info]
  have hestimate : estimate ≤ fillLimit tree.store.pageSize →
      (Node.encode (.leaf (insertEntry key record entries))).length ≤ estimate := fun hle =>
    updateLeaf_estimate hupdate hmeasured (hle.trans_lt hlimit)
  have hdirty : ∀ other, other ≠ page → counted.dirty[other]? = tree.dirty[other]? :=
    fun other _ => by rw [hcountedDirty, hsame.dirty]
  have hsizes : ∀ other, other ≠ page → counted.sizes[other]? = tree.sizes[other]? :=
    fun other hother => by rw [hcountedSizes, hsizes other hother]
  -- The metadata that was counted up has the pages it had.
  have hback : ∀ {last : Tree} {nodes : List Node}, Rewrites counted last [page] nodes →
      Rewrites tree last [page] nodes := by
    intro last nodes hrewrites
    have hinfo : ∀ other, Fresh tree last other ↔ Fresh counted last other := fun other => by
      rw [Fresh, Fresh, hnext]
    refine ⟨hrewrites.store.trans (hcountedStore.trans hsame.store), hnext ▸ hrewrites.allotted,
      hnext ▸ hrewrites.nextFree, ?_, fun other hother => hrewrites.written other (hother.imp_right (hinfo other).mp),
      fun other hother => hrewrites.sized other (hother.imp_right (hinfo other).mp)⟩
    intro other hother hold
    have hne : other ≠ page := fun heq => hother (List.mem_singleton.mpr heq)
    obtain ⟨hframe, hframeSizes⟩ := hrewrites.frame other hother ((hinfo other).not.mp hold)
    exact ⟨hframe.trans (hdirty other hne), hframeSizes.trans (hsizes other hne)⟩
  simp only [storeLeaf, StateExcept.getThe_bind, hpageSize] at hstore
  simp only [fates, Node.grow]
  by_cases hover : fillLimit tree.store.pageSize <
      (Node.encode (.leaf (insertEntry key record entries))).length
  · rw [if_pos ((overflowed_fst_iff hestimate).mpr hover)] at hstore
    obtain ⟨hseparator, hrewrites⟩ := splitLeaf_rewrites hstore (hnext.symm ▸ hpage)
    rw [if_pos hover]
    exact ⟨hseparator, by simpa [Fate.nodes] using hback hrewrites⟩
  · rw [if_neg ((overflowed_fst_iff hestimate).not.mpr hover)] at hstore
    simp only [setSized, StateExcept.modify_bind, StateExcept.pure_eq_ok,
      Prod.mk.injEq] at hstore
    obtain ⟨rfl, rfl⟩ := hstore
    rw [if_neg hover]
    refine ⟨rfl, hback ?_⟩
    refine .single rfl rfl rfl (fun other hother => ?_) ?_ (.refl _)
    · simp only [OrderedMap.getElem?_insert, if_neg hother.symm]
    · rintro kept size ⟨⟩ hsize
      simp only [OrderedMap.getElem?_insert, if_true, Option.some.injEq] at hsize
      exact hsize ▸ le_overflowed_snd hestimate

theorem storeInternal_rewrites {keys : List Key} {children children' : List PageNo}
    (hstore : storeInternal page keys children' tree = .ok (result, tree'))
    (hlength : children.length = children'.length) (hpage : page < tree.info.nextFree) :
    let whole : Node := .internal keys children
    (if fillLimit tree.store.pageSize < whole.encode.length then whole.separator else none) =
        result.map Prod.fst ∧
      Rewrites tree tree' [page]
        (if fillLimit tree.store.pageSize < whole.encode.length then whole.halves else [whole]) := by
  dsimp only
  have hnodes : Node.Renumbered (.internal keys children) (.internal keys children') :=
    ⟨rfl, hlength⟩
  have hsame := hnodes.length_encode
  simp only [storeInternal, StateExcept.getThe_bind] at hstore
  have hover : (overflowed tree.store.pageSize (.internal keys children')
      (Node.encode (.internal keys children')).length).1 = true ↔
      fillLimit tree.store.pageSize < (Node.encode (.internal keys children)).length := by
    rw [overflowed_fst_iff fun _ => le_rfl, hsame]
  by_cases hlarge : fillLimit tree.store.pageSize <
      (Node.encode (.internal keys children)).length
  · rw [if_pos (hover.mpr hlarge)] at hstore
    rw [if_pos hlarge, if_pos hlarge]
    cases hmid : keys[keys.length / 2]? with
    | none => simp [hmid] at hstore
    | some separator =>
        simp only [hmid, StateExcept.bind_eq_ok] at hstore
        obtain ⟨right, allocated, halloc, hstore⟩ := hstore
        obtain ⟨rfl, next, hnext, rfl⟩ := alloc_eq_ok halloc
        simp only [set, StateExcept.modify_eq_ok, StateExcept.pure_eq_ok,
          Prod.mk.injEq] at hstore
        obtain ⟨_, _, ⟨-, rfl⟩, _, _, ⟨-, rfl⟩, rfl, rfl⟩ := hstore
        refine ⟨hmid, .pair rfl rfl hnext hpage rfl ?_ (fun _ _ heq => by cases heq)
          (fun _ _ heq => by cases heq) ⟨rfl, ?_⟩ ⟨rfl, ?_⟩⟩
        · intro other hother hfresh
          simp only [OrderedMap.getElem?_erase, if_neg hother.symm, if_neg hfresh.symm]
        · rw [List.length_take, List.length_take, hlength]
        · rw [List.length_drop, List.length_drop, hlength]
  · rw [if_neg (hover.not.mpr hlarge)] at hstore
    rw [if_neg hlarge, if_neg hlarge]
    simp only [setSized, StateExcept.modify_bind, StateExcept.pure_eq_ok,
      Prod.mk.injEq] at hstore
    obtain ⟨rfl, rfl⟩ := hstore
    refine ⟨rfl, .single rfl rfl rfl (fun other hother => ?_) (fun _ _ heq => by cases heq)
      ⟨rfl, hlength⟩⟩
    simp only [OrderedMap.getElem?_insert, if_neg hother.symm]

end Insertion

theorem insertInto_rewrites {fuel : ℕ} {page : PageNo} {key : Key} {record : Record}
    {tree tree' : Tree} {result : Option (Key × PageNo)} {depth : ℕ} {lo hi : Option Key}
    {entries : List (Key × Record)} {pages : List PageNo}
    (hinsert : insertInto fuel page key record tree = .ok (result, tree'))
    (hreads : Reads tree) (hlimit : fillLimit tree.store.pageSize < lengthEscape)
    (htree : Subtree tree.view depth lo hi page entries pages) (hkey : InRange lo hi key)
    (hnodup : pages.Nodup) (hpages : ∀ other ∈ pages, other < tree.info.nextFree)
    (hnotMeta : META_PAGE ∉ pages) (hsized : ∀ other ∈ pages, tree.SizedAt other) :
    let way := passed tree.view fuel page key
    let outcome := fates (fillLimit tree.store.pageSize) key record (way.map Prod.snd)
    outcome.2 = result.map Prod.fst ∧
      Rewrites tree tree' (way.map Prod.fst) (outcome.1.flatMap Fate.nodes) := by
  induction fuel generalizing page tree tree' result depth lo hi entries pages with
  | zero => simp [insertInto] at hinsert
  | succ fuel ih =>
      simp only [insertInto, StateExcept.bind_eq_ok] at hinsert
      obtain ⟨found, taken, htake, hinsert⟩ := hinsert
      obtain ⟨hfound, hstore, hinfo, -, hother⟩ := takeNode_eq_ok htake
      have hpage := hpages page htree.page_mem
      obtain ⟨hsize, hsizes⟩ := takeNode_sizes htake hreads
        (ne_of_mem_of_not_mem htree.page_mem hnotMeta) (hsized page htree.page_mem)
      cases depth with
      | zero =>
          obtain ⟨hnode, -, -, rfl⟩ := htree
          rw [hnode] at hfound
          subst hfound
          obtain ⟨hseparator, hrewrites⟩ := insertLeaf_rewrites hinsert
            (fun size => hsize entries size rfl) (hstore ▸ hlimit) (hinfo ▸ hpage)
          simp only [passed, hnode, List.map_cons, List.map_nil]
          rw [hstore] at hseparator hrewrites
          exact ⟨hseparator, hrewrites.of_taken hstore hinfo hother hsizes⟩
      | succ depth =>
          obtain ⟨keys, children, below, hnode, hchain, rfl⟩ := htree
          rw [hnode] at hfound
          subst hfound
          obtain ⟨hnotMem, hnodup⟩ := List.nodup_cons.mp hnodup
          obtain ⟨child, lower, upper, left, middle, right, pagesLeft, pagesMiddle, pagesRight,
            hget, hchild, hinner, rfl, rfl, -, -, -, -⟩ :=
            hchain.focus (fun _ _ _ _ _ hsub => hsub.inRange) hkey
          have hget : children[childIndex keys key]? = some child := hget
          simp only [hget, StateExcept.bind_eq_ok] at hinsert
          obtain ⟨split, inserted, hsub, hinsert⟩ := hinsert
          have hmiddle : pagesMiddle ⊆ pagesLeft ++ pagesMiddle ++ pagesRight :=
            fun other hmem => List.mem_append_left _ (List.mem_append_right _ hmem)
          have hne : ∀ other ∈ pagesMiddle, other ≠ page := fun other hmem =>
            ne_of_mem_of_not_mem (hmiddle hmem) hnotMem
          have hview : ∀ other ∈ pagesMiddle, taken.view other = tree.view other :=
            fun other hmem => view_congr hstore (hother other (hne other hmem))
          have hreadsTaken : Reads taken := by
            obtain ⟨pageSize, pages, hpages, hnodes⟩ := hreads
            exact ⟨pageSize, pages, hstore.trans hpages, hnodes⟩
          obtain ⟨hseparator, hrewrites⟩ := ih hsub hreadsTaken (hstore ▸ hlimit)
            (hchild.congr hview) hinner
            (List.nodup_append.mp (List.nodup_append.mp hnodup).1).2.1
            (fun other hmem => hinfo ▸ hpages other (List.mem_cons_of_mem _ (hmiddle hmem)))
            (fun hmem => hnotMeta (List.mem_cons_of_mem _ (hmiddle hmem)))
            (fun other hmem => sizedAt_congr (hview other hmem) (hsizes other (hne other hmem))
              (hsized other (List.mem_cons_of_mem _ (hmiddle hmem))))
          rw [passed_congr hview hchild hinner, hstore] at hseparator hrewrites
          have hinserted : inserted.store.pageSize = tree.store.pageSize := by
            rw [hrewrites.store, hstore]
          have hpageInserted : page < inserted.info.nextFree :=
            (hinfo ▸ hpage : page < taken.info.nextFree).trans_le hrewrites.nextFree
          simp only [passed, hnode, hget, List.map_cons, fates]
          cases split with
          | none =>
              simp only [restore, StateExcept.modify_bind, StateExcept.pure_eq_ok,
                Prod.mk.injEq] at hinsert
              obtain ⟨rfl, rfl⟩ := hinsert
              rw [hseparator, Option.map_none]
              have habove : Rewrites inserted { inserted with
                  dirty := inserted.dirty.insert page (.internal keys children) } [page]
                  [.internal keys children] :=
                .single rfl rfl rfl (fun _ _ => rfl) (fun _ _ heq => by cases heq) (.refl _)
              exact ⟨rfl, (hrewrites.trans habove).of_taken hstore hinfo hother hsizes⟩
          | some split =>
              obtain ⟨separator, sibling⟩ := split
              have hlength : (children.insertIdx (childIndex keys key + 1) META_PAGE).length =
                  (children.insertIdx (childIndex keys key + 1) sibling).length := by
                rw [List.length_insertIdx, List.length_insertIdx]
              obtain ⟨hupper, habove⟩ := storeInternal_rewrites hinsert hlength hpageInserted
              rw [hinserted] at hupper habove
              rw [hseparator, Option.map_some]
              simp only [Node.grow]
              split
              next hover =>
                rw [if_pos hover] at hupper habove
                exact ⟨hupper, (hrewrites.trans habove).of_taken hstore hinfo hother hsizes⟩
              next hfits =>
                rw [if_neg hfits] at hupper habove
                exact ⟨hupper, (hrewrites.trans habove).of_taken hstore hinfo hother hsizes⟩

/-- The root over the two halves of the old one. -/
def newRoot : Option Key → List Node
  | none => []
  | some separator => [.internal [separator] [META_PAGE, META_PAGE]]

/-- The nodes that an insertion writes. -/
def written (key : Key) (record : Record) (tree : Tree) : List Node :=
  let outcome := fates (fillLimit tree.store.pageSize) key record ((tree.passedBy key).map Prod.snd)
  newRoot outcome.2 ++ outcome.1.flatMap Fate.nodes

theorem insert_rewrites {key : Key} {record : Record} {tree tree' : Tree} {done : Unit}
    {depth : ℕ} {entries : List (Key × Record)} {pages : List PageNo}
    (hinsert : insert key record tree = .ok (done, tree')) (hreads : Reads tree)
    (hlimit : fillLimit tree.store.pageSize < lengthEscape)
    (hshaped : Shaped tree depth entries pages)
    (hsized : ∀ page, page ≠ META_PAGE → tree.SizedAt page) :
    Rewrites tree tree' ((tree.passedBy key).map Prod.fst) (tree.written key record) := by
  simp only [insert, StateExcept.getThe_bind, StateExcept.bind_eq_ok, fuel_eq_ok] at hinsert
  obtain ⟨_, _, ⟨rfl, rfl⟩, result, inserted, hinto, hinsert⟩ := hinsert
  obtain ⟨hseparator, hrewrites⟩ := insertInto_rewrites hinto hreads hlimit hshaped.subtree
    (InRange.trivial key) hshaped.nodup hshaped.handedOut hshaped.notMeta
    fun page hpage => hsized page (ne_of_mem_of_not_mem hpage hshaped.notMeta)
  unfold written passedBy
  dsimp only
  rw [hseparator]
  cases result with
  | none =>
      obtain rfl : tree' = inserted := by simpa using hinsert
      exact hrewrites
  | some split =>
      obtain ⟨separator, right⟩ := split
      simp only [StateExcept.bind_eq_ok] at hinsert
      obtain ⟨newRoot, allocated, halloc, hinsert⟩ := hinsert
      obtain ⟨rfl, next, hnext, rfl⟩ := alloc_eq_ok halloc
      simp only [set, StateExcept.modify_eq_ok, Prod.mk.injEq] at hinsert
      obtain ⟨_, _, ⟨-, rfl⟩, -, rfl⟩ := hinsert
      have hrenumbered : Node.Renumbered (.internal [separator] [META_PAGE, META_PAGE])
          (.internal [separator] [tree.info.root, right]) := ⟨rfl, rfl⟩
      refine hrewrites.trans (.fresh ?_ ?_ hnext ?_ ?_ ?_ hrenumbered)
      · rfl
      · rfl
      · rfl
      · intro other hother
        simp only [OrderedMap.getElem?_erase, if_neg hother.symm]
      · intro kept size hleaf
        cases hleaf

end Tree

end LoomDB
