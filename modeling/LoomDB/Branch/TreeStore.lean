import LoomDB.Foundations.KeyValue
import LoomDB.Branch.TreeReads

/-!
# Trees in pages

The pages of a commit stand for one map. A transaction that opens them, runs and
is flushed leaves pages that stand for the map it would have left. The keys of
a set of pages are a prefilter: a record that differs between two commits lies
on a page that differs.
-/

namespace LoomDB

open Std (ExtTreeMap ExtTreeSet)
open SearchTree

/-- The pages of a commit. -/
abbrev Pages := ExtTreeMap PageNo Bytes

namespace Pages

/-- Pages written over others. -/
def overlay (pages : Pages) (writes : List (PageNo × Bytes)) : Pages :=
  writes.foldl (fun pages write => pages.insert write.1 write.2) pages

theorem getElem?_overlay_of_notMem {pages : Pages} {writes : List (PageNo × Bytes)}
    {page : PageNo} (hpage : ∀ write ∈ writes, write.1 ≠ page) :
    (pages.overlay writes)[page]? = pages[page]? := by
  induction writes generalizing pages with
  | nil => rfl
  | cons write writes ih =>
      obtain ⟨hwrite, hwrites⟩ := List.forall_mem_cons.mp hpage
      rw [overlay, List.foldl_cons]
      exact (ih hwrites).trans (by rw [OrderedMap.getElem?_insert, if_neg hwrite])

theorem getElem?_overlay_of_mem {pages : Pages} {writes : List (PageNo × Bytes)}
    {page : PageNo} {bytes : Bytes} (hwrites : (writes.map Prod.fst).Nodup)
    (hmem : (page, bytes) ∈ writes) : (pages.overlay writes)[page]? = some bytes := by
  induction writes generalizing pages with
  | nil => cases hmem
  | cons write writes ih =>
      obtain ⟨hfresh, hwrites⟩ := List.nodup_cons.mp hwrites
      rw [overlay, List.foldl_cons]
      rcases List.mem_cons.mp hmem with rfl | hmem
      · refine (getElem?_overlay_of_notMem fun other hother heq => ?_).trans
          (by rw [OrderedMap.getElem?_insert, if_pos rfl])
        exact hfresh (List.mem_map.mpr ⟨other, hother, heq⟩)
      · exact ih hwrites hmem

end Pages

/-- Reading at a commit whose pages are given. -/
def Snapshot.ofPages (pageSize : ℕ) (pages : Pages) : Snapshot where
  readHead page :=
    match pages[page]? with
    | some bytes => .ok bytes
    | none => .error (.pageNotFound page)
  pageSize := pageSize

namespace Tree

/-! ## Transactions -/

/-- The record store as it answers a transaction. -/
def records : KeyValue.Store Key Record LoomError Tree where
  get := get
  insert := insert
  remove := remove
  scan := scan

theorem records_simulates (snapshot : Snapshot) :
    KeyValue.Simulates records KeyValue.mapStore fun tree map =>
      Holds tree map ∧ tree.store = snapshot where
  get := by
    rintro tree tree' map key found ⟨hholds, hstore⟩ hget
    obtain ⟨rfl, hsame⟩ := get_spec hget hholds
    exact ⟨map, rfl, hsame.holds hholds, hsame.store.trans hstore⟩
  insert := by
    rintro tree tree' map key record done ⟨hholds, hstore⟩ hinsert
    obtain ⟨hholds', hsame⟩ := insert_spec hinsert hholds
    exact ⟨_, rfl, hholds', hsame.trans hstore⟩
  remove := by
    rintro tree tree' map key removed ⟨hholds, hstore⟩ hremove
    obtain ⟨hholds', rfl, hsame⟩ := remove_spec hremove hholds
    exact ⟨_, rfl, hholds', hsame.trans hstore⟩
  scan := by
    rintro tree tree' map entries ⟨hholds, hstore⟩ hscan
    obtain ⟨rfl, hsame⟩ := scan_spec hscan hholds
    exact ⟨map, rfl, hsame.holds hholds, hsame.store.trans hstore⟩

/-- A tree stands for one map. -/
theorem Holds.unique {tree : Tree} {map map' : ExtTreeMap Key Record} (hholds : Holds tree map)
    (hholds' : Holds tree map') : map = map' := by
  obtain ⟨_, entries, _, hshaped, hmap⟩ := hholds
  obtain ⟨_, entries', _, hshaped', hmap'⟩ := hholds'
  obtain rfl := hshaped.subtree.unique hshaped'.subtree
  exact ExtTreeMap.ext_getElem? fun key => by rw [hmap, hmap']

/-! ## Commits -/

/-- The pages stand for the map. -/
def Stored (pageSize : ℕ) (pages : Pages) (map : ExtTreeMap Key Record) : Prop :=
  ∃ tree, openTree (Snapshot.ofPages pageSize pages) = .ok tree ∧ Holds tree map

theorem Stored.unique {pageSize : ℕ} {pages : Pages} {map map' : ExtTreeMap Key Record}
    (hstored : Stored pageSize pages map) (hstored' : Stored pageSize pages map') :
    map = map' := by
  obtain ⟨tree, hopen, hholds⟩ := hstored
  obtain ⟨tree', hopen', hholds'⟩ := hstored'
  rw [hopen] at hopen'
  obtain rfl := Except.ok.inj hopen'
  exact hholds.unique hholds'

theorem Stored.holds {pageSize : ℕ} {pages : Pages} {map : ExtTreeMap Key Record} {tree : Tree}
    (hstored : Stored pageSize pages map)
    (hopen : openTree (Snapshot.ofPages pageSize pages) = .ok tree) : Holds tree map := by
  obtain ⟨tree', hopen', hholds⟩ := hstored
  rw [hopen] at hopen'
  obtain rfl := Except.ok.inj hopen'
  exact hholds

theorem openTree_eq_ok {snapshot : Snapshot} {tree : Tree} :
    openTree snapshot = .ok tree ↔
      ∃ info, readMeta snapshot = .ok info ∧
        tree = { store := snapshot, dirty := ∅, sizes := ∅, info := info, metaDirty := false } := by
  unfold openTree
  cases readMeta snapshot with
  | error error => simp [Except.map]
  | ok info => simp [Except.map, eq_comm]

/-- A commit without pages is an empty map. -/
theorem stored_empty (pageSize : ℕ) : Stored pageSize ∅ ∅ := by
  refine ⟨_, rfl, 0, [], [1], ⟨⟨rfl, .nil, by simp, rfl⟩, by simp, ?_, by decide, ?_, ?_,
    rfl, fun _ => ⟨_, rfl, rfl⟩⟩, fun key => by simp [lookup]⟩
  · intro page hpage
    obtain rfl := List.mem_singleton.mp hpage
    change (1 : PageNo) < 2
    decide
  · intro page hpage
    simp at hpage
  · intro page bytes _ hread
    simp [Snapshot.ofPages] at hread

/-! ## Flushing -/

theorem nodup_flush {tree : Tree} (hmeta : tree.dirty[META_PAGE]? = none) :
    ((flush tree).map Prod.fst).Nodup := by
  have hdirty : (tree.dirty.toList.map Prod.fst).Nodup :=
    List.pairwise_map.mpr (ExtTreeMap.distinct_keys_toList.imp fun hne heq => hne (by simp [heq]))
  have hpages : (tree.dirty.toList.map fun entry => (entry.1, entry.2.encode)).map Prod.fst =
      tree.dirty.toList.map Prod.fst := by simp [Function.comp_def]
  have hnot : META_PAGE ∉ tree.dirty.toList.map Prod.fst := by
    intro hmem
    obtain ⟨⟨_, node⟩, hentry, rfl⟩ := List.mem_map.mp hmem
    rw [ExtTreeMap.mem_toList_iff_getElem?_eq_some, hmeta] at hentry
    cases hentry
  rw [flush, List.map_append, hpages]
  cases tree.metaDirty with
  | false => simpa using hdirty
  | true =>
      rw [List.nodup_append]
      exact ⟨hdirty, by simp, fun page hpage other hother heq =>
        hnot (by simp_all)⟩

theorem mem_flush {tree : Tree} {page : PageNo} {bytes : Bytes} :
    (page, bytes) ∈ flush tree ↔
      (∃ node, tree.dirty[page]? = some node ∧ bytes = node.encode) ∨
        (tree.metaDirty = true ∧ page = META_PAGE ∧ bytes = tree.info.encode) := by
  simp only [flush, List.mem_append, List.mem_map, Prod.mk.injEq, Prod.exists]
  constructor
  · rintro (⟨_, node, hmem, rfl, rfl⟩ | hmem)
    · exact Or.inl ⟨node, ExtTreeMap.mem_toList_iff_getElem?_eq_some.mp hmem, rfl⟩
    · split at hmem
      · next hmeta =>
        right
        simpa [hmeta] using hmem
      · cases hmem
  · rintro (⟨node, hnode, rfl⟩ | ⟨hmeta, rfl, rfl⟩)
    · exact Or.inl ⟨page, node, ExtTreeMap.mem_toList_iff_getElem?_eq_some.mpr hnode, rfl, rfl⟩
    · right
      simp [hmeta]

/-- A flushed transaction leaves pages that are opened as the tree it saw. -/
theorem Shaped.opens_flush {tree : Tree} {depth : ℕ} {entries : List (Key × Record)}
    {treePages : List PageNo} {pageSize : ℕ} {pages : Pages}
    (hshaped : Shaped tree depth entries treePages)
    (hstore : tree.store = Snapshot.ofPages pageSize pages) :
    ∃ fresh, openTree (Snapshot.ofPages pageSize (pages.overlay (flush tree))) = .ok fresh ∧
      Shaped fresh depth entries treePages ∧ fresh.info = tree.info ∧
      ∀ page ∈ treePages, fresh.view page = tree.view page := by
  have hmetaClean : tree.dirty[META_PAGE]? = none := by
    by_contra hdirty
    exact hshaped.notMeta (hshaped.written _ hdirty)
  have hnodup := nodup_flush hmetaClean
  -- What the flushed pages are, page by page.
  have hwritten : ∀ page (node : Node), tree.dirty[page]? = some node →
      (pages.overlay (flush tree))[page]? = some node.encode := fun page node hnode =>
    Pages.getElem?_overlay_of_mem hnodup (mem_flush.mpr (Or.inl ⟨node, hnode, rfl⟩))
  have hkept : ∀ page, tree.dirty[page]? = none →
      (tree.metaDirty = true → page ≠ META_PAGE) →
      (pages.overlay (flush tree))[page]? = pages[page]? := by
    intro page hclean hmeta
    apply Pages.getElem?_overlay_of_notMem
    rintro ⟨other, bytes⟩ hmem rfl
    rcases mem_flush.mp hmem with ⟨node, hnode, -⟩ | ⟨hdirty, heq, -⟩
    · simp [hclean] at hnode
    · exact hmeta hdirty heq
  have hinfo : readMeta (Snapshot.ofPages pageSize (pages.overlay (flush tree))) = .ok tree.info := by
    cases hmeta : tree.metaDirty with
    | true =>
        have hpage : (pages.overlay (flush tree))[META_PAGE]? = some tree.info.encode :=
          Pages.getElem?_overlay_of_mem hnodup (mem_flush.mpr (Or.inr ⟨hmeta, rfl, rfl⟩))
        simp [readMeta, Snapshot.ofPages, hpage]
    | false =>
        obtain ⟨fresh, hfresh, hsame⟩ := hshaped.unchanged hmeta
        obtain ⟨info, hread, rfl⟩ := openTree_eq_ok.mp hfresh
        have hpage := hkept META_PAGE hmetaClean (by simp [hmeta])
        rw [hstore] at hread
        rw [← hsame, ← hread]
        simp only [readMeta, Snapshot.ofPages, hpage]
  have hview : ∀ page ∈ treePages, view { tree with
      store := Snapshot.ofPages pageSize (pages.overlay (flush tree)), dirty := ∅, sizes := ∅,
      metaDirty := false } page = tree.view page := by
    intro page hpage
    cases hdirty : tree.dirty[page]? with
    | some node =>
        rw [view_of_dirty hdirty]
        simp [view, Snapshot.ofPages, hwritten page node hdirty]
    | none =>
        have hne : page ≠ META_PAGE := fun heq => hshaped.notMeta (heq ▸ hpage)
        simp only [view, hdirty, hstore, Snapshot.ofPages, hkept page hdirty fun _ => hne]
        simp
  refine ⟨_, openTree_eq_ok.mpr ⟨_, hinfo, rfl⟩,
    ⟨hshaped.subtree.congr hview, hshaped.nodup, hshaped.handedOut, hshaped.notMeta, ?_, ?_,
      hshaped.count, fun _ => ⟨_, openTree_eq_ok.mpr ⟨_, hinfo, rfl⟩, rfl⟩⟩, rfl, hview⟩
  · intro page hpage
    simp at hpage
  · intro page bytes hne hread
    cases hdirty : tree.dirty[page]? with
    | some node => exact hshaped.written page (by simp [hdirty])
    | none =>
        refine hshaped.stored page bytes hne ?_
        simp only [hstore, Snapshot.ofPages, hkept page hdirty fun _ => hne] at hread ⊢
        exact hread

/-- A flushed transaction leaves pages that stand for its map. -/
theorem Holds.stored_flush {tree : Tree} {map : ExtTreeMap Key Record} {pageSize : ℕ}
    {pages : Pages} (hholds : Holds tree map) (hstore : tree.store = Snapshot.ofPages pageSize pages) :
    Stored pageSize (pages.overlay (flush tree)) map := by
  obtain ⟨depth, entries, treePages, hshaped, hmap⟩ := hholds
  obtain ⟨fresh, hopen, hshaped', -, -⟩ := hshaped.opens_flush hstore
  exact ⟨fresh, hopen, depth, entries, treePages, hshaped', hmap⟩

/-! ## The prefilter -/

theorem keysInPage_eq_ok {page : PageNo} {tree tree' : Tree} {keys : List Key}
    (hkeys : keysInPage page tree = .ok (keys, tree')) :
    SameNodes tree tree' ∧ ∀ bytes, tree.store.readHead page = .ok bytes → tree.dirty = ∅ →
      ∀ bindings, tree.view page = .leaf bindings → bindings ≠ [] →
        keys = bindings.map Prod.fst := by
  unfold keysInPage at hkeys
  cases hnode : node page tree with
  | error error =>
      simp only [hnode, Except.ok.injEq, Prod.mk.injEq] at hkeys
      obtain ⟨rfl, rfl⟩ := hkeys
      refine ⟨.refl _, fun bytes hread hclean bindings hview hne => absurd hnode ?_⟩
      simp only [view, hclean, hread] at hview
      cases hdecode : Node.decode bytes page with
      | error error =>
          simp [hdecode] at hview
          exact absurd hview hne
      | ok node =>
          simp only [Tree.node, StateExcept.get_bind, hclean, ExtTreeMap.getElem?_empty, hread,
            StateExcept.modify_bind, hdecode]
          rintro ⟨⟩
  | ok found =>
      obtain ⟨node, visited⟩ := found
      obtain ⟨hview, hsame⟩ := node_eq_ok hnode
      cases node with
      | leaf entries =>
          simp only [hnode, Except.ok.injEq, Prod.mk.injEq] at hkeys
          obtain ⟨rfl, rfl⟩ := hkeys
          refine ⟨hsame, fun _ _ _ bindings hbindings _ => ?_⟩
          rw [← hview] at hbindings
          obtain rfl : entries = bindings := by simpa using hbindings
          rfl
      | internal children pages =>
          simp only [hnode, Except.ok.injEq, Prod.mk.injEq] at hkeys
          obtain ⟨rfl, rfl⟩ := hkeys
          refine ⟨hsame, fun _ _ _ bindings hbindings _ => ?_⟩
          rw [← hview] at hbindings
          simp at hbindings

theorem mapM_keysInPage {listed : List PageNo} {tree tree' : Tree} {keys : List (List Key)}
    (hkeys : listed.mapM keysInPage tree = .ok (keys, tree')) :
    SameNodes tree tree' ∧ ∀ page ∈ listed, ∃ found ∈ keys, ∃ before after,
      SameNodes tree before ∧ keysInPage page before = .ok (found, after) := by
  induction listed generalizing tree keys with
  | nil =>
      simp only [List.mapM_nil, StateExcept.pure_eq_ok, Prod.mk.injEq] at hkeys
      obtain ⟨rfl, rfl⟩ := hkeys
      exact ⟨.refl _, by simp⟩
  | cons page listed ih =>
      simp only [List.mapM_cons, StateExcept.bind_eq_ok, StateExcept.pure_eq_ok,
        Prod.mk.injEq] at hkeys
      obtain ⟨first, visited, hfirst, rest, _, hrest, rfl, rfl⟩ := hkeys
      have hsame := (keysInPage_eq_ok hfirst).1
      obtain ⟨hafter, hpages⟩ := ih hrest
      refine ⟨hsame.trans hafter, List.forall_mem_cons.mpr ⟨?_, fun other hother => ?_⟩⟩
      · exact ⟨first, List.mem_cons_self, tree, visited, .refl _, hfirst⟩
      · obtain ⟨found, hfound, before, after, hbefore, hother⟩ := hpages other hother
        exact ⟨found, List.mem_cons_of_mem _ hfound, before, after, hsame.trans hbefore, hother⟩

theorem keysInPages_same {listed : List PageNo} {tree tree' : Tree} {keys : List Key}
    (hkeys : keysInPages listed tree = .ok (keys, tree')) : SameNodes tree tree' := by
  simp only [keysInPages, StateExcept.bind_eq_ok, StateExcept.pure_eq_ok, Prod.mk.injEq] at hkeys
  obtain ⟨found, _, hfound, -, rfl⟩ := hkeys
  exact (mapM_keysInPage hfound).1

/-- A record that another commit does not have under its key lies on a page the
other commit does not have: the keys of the pages that differ include its
key. -/
theorem keysInPages_covers {listed : List PageNo} {tree tree' other : Tree} {keys : List Key}
    {pageSize : ℕ} {pages otherPages : Pages} {map otherMap : ExtTreeMap Key Record} {key : Key}
    {record : Record} (hopen : openTree (Snapshot.ofPages pageSize pages) = .ok tree)
    (hholds : Holds tree map)
    (hopen' : openTree (Snapshot.ofPages pageSize otherPages) = .ok other)
    (hholds' : Holds other otherMap)
    (hlisted : ∀ page, pages[page]? ≠ otherPages[page]? → page ∈ listed)
    (hkeys : keysInPages listed tree = .ok (keys, tree'))
    (hrecord : map[key]? = some record) (hdiffers : otherMap[key]? ≠ some record) :
    key ∈ keys := by
  obtain ⟨depth, entries, treePages, hshaped, hmap⟩ := hholds
  obtain ⟨depth', entries', otherTreePages, hshaped', hmap'⟩ := hholds'
  obtain ⟨info, -, rfl⟩ := openTree_eq_ok.mp hopen
  obtain ⟨info', -, rfl⟩ := openTree_eq_ok.mp hopen'
  rw [hmap, lookup_eq_some hshaped.sorted] at hrecord
  rw [hmap', ne_eq, lookup_eq_some hshaped'.sorted] at hdiffers
  obtain ⟨leaf, hleaf, bindings, hview, hbinding⟩ := hshaped.subtree.exists_leaf hrecord
  have hne : bindings ≠ [] := List.ne_nil_of_mem hbinding
  have hnotMeta : leaf ≠ META_PAGE := fun heq => hshaped.notMeta (heq ▸ hleaf)
  -- The leaf is on disk, since it is not empty.
  obtain ⟨bytes, hbytes⟩ : ∃ bytes, pages[leaf]? = some bytes := by
    cases hpage : pages[leaf]? with
    | some bytes => exact ⟨bytes, rfl⟩
    | none =>
        simp [view, Snapshot.ofPages, hpage] at hview
        exact absurd hview hne
  have hread : (Snapshot.ofPages pageSize pages).readHead leaf = .ok bytes := by
    simp [Snapshot.ofPages, hbytes]
  -- The other commit has not got that page: it would hold the record.
  have hchanged : leaf ∈ listed := by
    apply hlisted
    intro hsame
    have hread' : (Snapshot.ofPages pageSize otherPages).readHead leaf = .ok bytes := by
      simp [Snapshot.ofPages, ← hsame, hbytes]
    refine hdiffers (hshaped'.subtree.leaf_subset (hshaped'.stored leaf bytes hnotMeta hread') ?_
      hbinding)
    rw [← hview]
    simp only [view, hread, hread']
  simp only [keysInPages, StateExcept.bind_eq_ok, StateExcept.pure_eq_ok, Prod.mk.injEq] at hkeys
  obtain ⟨found, _, hfound, rfl, rfl⟩ := hkeys
  obtain ⟨leafKeys, hmem, before, after, hbefore, hleafKeys⟩ :=
    (mapM_keysInPage hfound).2 leaf (List.mem_filter.mpr ⟨hchanged, by simpa using hnotMeta⟩)
  obtain rfl := (keysInPage_eq_ok hleafKeys).2 bytes (hbefore.store ▸ hread) hbefore.dirty bindings
    (hbefore.view ▸ hview) hne
  rw [ExtTreeSet.mem_toList, ExtTreeSet.mem_ofList, List.contains_iff_mem, List.mem_flatten]
  exact ⟨_, hmem, List.mem_map.mpr ⟨_, hbinding, rfl⟩⟩

end Tree

end LoomDB
