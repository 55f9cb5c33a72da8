import LoomDB.Branch.TreeRuns

/-!
# Pages that cannot be read

A page store may fail to give a page of a commit, or give bytes that are no node. A lookup
reads the pages on one way down the tree. It fails at a page that is there and is no node; one
that is missing it takes for an empty leaf.
-/

namespace LoomDB

open Std (ExtTreeMap)

/-- What the store gives for a page that has become missing, corrupt or undecodable. -/
structure Fault where
  read : Except PagerError Bytes
  unreadable : ∀ bytes, read = .ok bytes →
    Node.codec.deserialize bytes = none ∧ Meta.codec.deserialize bytes = none

/-- The faults of the pages of each commit. -/
abbrev Faults := CommitId → PageNo → Option Fault

namespace Snapshot

/-- The faults of pages that the store has. -/
def withFaults (faults : PageNo → Option Fault) (store : Snapshot) : Snapshot :=
  { store with
    readHead := fun page =>
      match faults page, store.readHead page with
      | some fault, .ok _ => fault.read
      | _, read => read }

/-- The store has the page, and it has a fault. -/
def Damaged (faults : PageNo → Option Fault) (store : Snapshot) (page : PageNo) : Prop :=
  faults page ≠ none ∧ ∃ bytes, store.readHead page = .ok bytes

theorem readHead_withFaults {faults : PageNo → Option Fault} {store : Snapshot} {page : PageNo}
    (hsound : ¬store.Damaged faults page) :
    (store.withFaults faults).readHead page = store.readHead page := by
  unfold Damaged at hsound
  cases hfault : faults page with
  | none => simp only [withFaults, hfault]
  | some fault =>
      cases hread : store.readHead page with
      | error error => simp only [withFaults, hfault, hread]
      | ok bytes => exact absurd ⟨by rw [hfault]; nofun, bytes, hread⟩ hsound

/-- A read of the page is an error other than that it is missing. -/
def Corrupt (store : Snapshot) (page : PageNo) : Prop :=
  ∃ error, store.readHead page = .error error ∧ ∀ missing, error ≠ .pageNotFound missing

theorem read_cases (store : Snapshot) (page : PageNo) :
    (∃ bytes, store.readHead page = .ok bytes ∧ ¬store.Corrupt page) ∨
      (∃ missing, store.readHead page = .error (.pageNotFound missing) ∧ ¬store.Corrupt page) ∨
      ∃ error, store.readHead page = .error error ∧ (∀ missing, error ≠ .pageNotFound missing) ∧
        store.Corrupt page := by
  unfold Corrupt
  cases hread : store.readHead page with
  | ok bytes => exact Or.inl ⟨bytes, rfl, fun ⟨_, heq, _⟩ => nomatch heq⟩
  | error error =>
      by_cases hmissing : ∃ missing, error = .pageNotFound missing
      · obtain ⟨missing, rfl⟩ := hmissing
        refine Or.inr (Or.inl ⟨missing, rfl, ?_⟩)
        rintro ⟨other, heq, hother⟩
        exact hother missing (Except.error.inj heq).symm
      · have hother : ∀ missing, error ≠ .pageNotFound missing :=
          fun missing heq => hmissing ⟨missing, heq⟩
        exact Or.inr (Or.inr ⟨error, rfl, hother, error, rfl, hother⟩)

/-- The page is there, and is no node. -/
def Refuses (store : Snapshot) (page : PageNo) : Prop :=
  store.Corrupt page ∨
    ∃ bytes, store.readHead page = .ok bytes ∧ Node.codec.deserialize bytes = none

/-- The metadata page is there, and is no metadata. -/
def RefusesMeta (store : Snapshot) : Prop :=
  store.Corrupt META_PAGE ∨
    ∃ bytes, store.readHead META_PAGE = .ok bytes ∧ Meta.codec.deserialize bytes = none

end Snapshot

namespace Tree

variable {tree tree' : Tree} {page : PageNo} {fuel : ℕ} {key : Key}

/-! ## Opening -/

theorem openTree_congr {store store' : Snapshot}
    (hread : store'.readHead META_PAGE = store.readHead META_PAGE) :
    openTree store' = (openTree store).map fun tree => { tree with store := store' } := by
  have hmeta : readMeta store' = readMeta store := by rw [readMeta, hread, readMeta]
  unfold openTree
  rw [hmeta]
  cases readMeta store <;> rfl

theorem openTree_fails (store : Snapshot) :
    (store.RefusesMeta ∧ ∃ error, error ≠ .panicked ∧ openTree store = .error error) ∨
      ¬store.RefusesMeta ∧ ∃ tree, openTree store = .ok tree ∧ tree.store = store ∧
        tree.dirty = ∅ := by
  have hopens : ∀ info, readMeta store = .ok info → ∃ tree, openTree store = .ok tree ∧
      tree.store = store ∧ tree.dirty = ∅ :=
    fun info hmeta => ⟨_, congrArg _ hmeta, rfl, rfl⟩
  have hfails : ∀ error, readMeta store = .error error → openTree store = .error error :=
    fun error hmeta => congrArg _ hmeta
  unfold Snapshot.RefusesMeta
  rcases store.read_cases META_PAGE with
    ⟨bytes, hread, hsound⟩ | ⟨missing, hread, hsound⟩ | ⟨error, hread, hother, hcorrupt⟩
  · cases hmeta : Meta.codec.deserialize bytes with
    | none =>
        refine Or.inl ⟨Or.inr ⟨bytes, hread, hmeta⟩, _, ?_, hfails
          (.corruptNode META_PAGE "metadata page will not decode") ?_⟩
        · intro heq
          cases heq
        · rw [readMeta, hread]
          simp only [hmeta]
    | some info =>
        refine Or.inr ⟨?_, hopens info (by rw [readMeta, hread]; simp only [hmeta])⟩
        rintro (hcorrupt | ⟨_, hbytes, hnone⟩)
        · exact hsound hcorrupt
        · obtain rfl := Except.ok.inj (hread.symm.trans hbytes)
          rw [hmeta] at hnone
          cases hnone
  · refine Or.inr ⟨?_, hopens Meta.empty (by rw [readMeta, hread])⟩
    rintro (hcorrupt | ⟨_, hbytes, -⟩)
    · exact hsound hcorrupt
    · rw [hread] at hbytes
      cases hbytes
  · refine Or.inl ⟨Or.inl hcorrupt, .pager error, (fun heq => by cases heq), hfails _ ?_⟩
    rw [readMeta, hread]
    cases error with
    | pageNotFound missing => exact absurd rfl (hother missing)
    | _ => rfl

/-! ## Nodes -/

theorem node_sameNodes {found : Node} (hnode : node page tree = .ok (found, tree')) :
    SameNodes tree tree' :=
  (node_eq_ok hnode).2

/-- Trees with the same writes read the same at a page that their stores have in common. -/
theorem node_congr (hdirty : tree'.dirty = tree.dirty)
    (hread : tree'.store.readHead page = tree.store.readHead page) :
    (∃ error, node page tree = .error error ∧ node page tree' = .error error) ∨
      ∃ found seen seen', node page tree = .ok (found, seen) ∧
        node page tree' = .ok (found, seen') ∧ SameNodes tree seen ∧ SameNodes tree' seen' := by
  have hsame : (∃ error, node page tree = .error error ∧ node page tree' = .error error) ∨
      ∃ found seen seen', node page tree = .ok (found, seen) ∧
        node page tree' = .ok (found, seen') := by
    simp only [node, StateExcept.get_bind, hdirty, hread]
    cases tree.dirty[page]? with
    | some node => exact Or.inr ⟨node, tree, tree', rfl, rfl⟩
    | none =>
        cases tree.store.readHead page with
        | ok bytes =>
            simp only [StateExcept.modify_bind]
            cases Node.decode bytes page with
            | ok node => exact Or.inr ⟨node, _, _, rfl, rfl⟩
            | error error => exact Or.inl ⟨error, rfl, rfl⟩
        | error error =>
            cases error with
            | pageNotFound missing => exact Or.inr ⟨.leaf [], tree, tree', rfl, rfl⟩
            | _ => exact Or.inl ⟨_, rfl, rfl⟩
  refine hsame.imp id ?_
  rintro ⟨found, seen, seen', hnode, hnode'⟩
  exact ⟨found, seen, seen', hnode, hnode', node_sameNodes hnode, node_sameNodes hnode'⟩

/-- Without writes, a read fails at the pages that the store refuses. -/
theorem node_fails (hclean : tree.dirty = ∅) (page : PageNo) :
    (tree.store.Refuses page ∧ ∃ error, error ≠ .panicked ∧ node page tree = .error error) ∨
      ¬tree.store.Refuses page ∧ ∃ found seen, node page tree = .ok (found, seen) := by
  unfold Snapshot.Refuses
  simp only [node, StateExcept.get_bind, hclean, ExtTreeMap.getElem?_empty]
  rcases tree.store.read_cases page with
    ⟨bytes, hread, hsound⟩ | ⟨missing, hread, hsound⟩ | ⟨error, hread, hother, hcorrupt⟩
  · simp only [hread, StateExcept.modify_bind, Node.decode]
    cases hnode : Node.codec.deserialize bytes with
    | none =>
        refine Or.inl ⟨Or.inr ⟨bytes, rfl, hnode⟩, .corruptNode page "tree node", ?_, rfl⟩
        intro heq
        cases heq
    | some found =>
        refine Or.inr ⟨?_, found, _, rfl⟩
        rintro (hcorrupt | ⟨_, hbytes, hnone⟩)
        · exact hsound hcorrupt
        · obtain rfl := Except.ok.inj hbytes
          rw [hnode] at hnone
          cases hnone
  · simp only [hread]
    refine Or.inr ⟨?_, .leaf [], tree, rfl⟩
    rintro (hcorrupt | ⟨_, hbytes, -⟩)
    · exact hsound hcorrupt
    · cases hbytes
  · simp only [hread]
    refine Or.inl ⟨Or.inl hcorrupt, .pager error, (fun heq => by cases heq), ?_⟩
    cases error with
    | pageNotFound missing => exact absurd rfl (hother missing)
    | _ => rfl

/-! ## Lookups -/

/-- The pages that a lookup reads, down to the last. -/
def pathFrom : ℕ → PageNo → Key → Tree → List PageNo
  | 0, _, _, _ => []
  | fuel + 1, page, key, tree =>
      page :: match node page tree with
        | .ok (.internal keys children, seen) =>
            match children[childIndex keys key]? with
            | some child => pathFrom fuel child key seen
            | none => []
        | _ => []

def path (key : Key) (tree : Tree) : List PageNo :=
  pathFrom (tree.info.nextFree.val + 1) tree.info.root key tree

/-- What a lookup finds. -/
def find (key : Key) (tree : Tree) : Except LoomError (Option Record) :=
  (get key tree).map Prod.fst

theorem get_eq_getFrom (key : Key) (tree : Tree) :
    get key tree = getFrom (tree.info.nextFree.val + 1) tree.info.root key tree := rfl

/-- Lookups in trees whose stores have the pages on the way in common. -/
theorem getFrom_congr (hdirty : tree'.dirty = tree.dirty)
    (hreads : ∀ other ∈ pathFrom fuel page key tree,
      tree'.store.readHead other = tree.store.readHead other) :
    (getFrom fuel page key tree').map Prod.fst = (getFrom fuel page key tree).map Prod.fst ∧
      pathFrom fuel page key tree' = pathFrom fuel page key tree := by
  induction fuel generalizing page tree tree' with
  | zero => exact ⟨rfl, rfl⟩
  | succ fuel ih =>
      have hpage := hreads page (by rw [pathFrom]; exact List.mem_cons_self)
      simp only [getFrom, pathFrom, bind, StateT.bind] at hreads ⊢
      rcases node_congr hdirty hpage with
        ⟨error, hnode, hnode'⟩ | ⟨found, seen, seen', hnode, hnode', hsame, hsame'⟩
      · rw [hnode, hnode']
        exact ⟨rfl, rfl⟩
      · rw [hnode] at hreads ⊢
        rw [hnode']
        cases found with
        | leaf entries =>
            refine ⟨?_, rfl⟩
            simp only [Except.bind]
            cases searchEntries entries key <;> rfl
        | internal keys children =>
            simp only [Except.bind] at hreads ⊢
            cases hchild : children[childIndex keys key]? with
            | none => exact ⟨rfl, rfl⟩
            | some child =>
                rw [hchild] at hreads
                obtain ⟨hfound, hpath⟩ := ih
                  (hsame'.dirty.trans (hdirty.trans hsame.dirty.symm)) fun other hother => by
                    rw [hsame'.store, hsame.store]
                    exact hreads other (List.mem_cons_of_mem _ hother)
                exact ⟨hfound, congrArg (List.cons page) hpath⟩

/-- A lookup fails at a page on the way that the store refuses. -/
theorem getFrom_fails_iff (hclean : tree.dirty = ∅) :
    (∃ error, error ≠ .panicked ∧ getFrom fuel page key tree = .error error) ↔
      ∃ other ∈ pathFrom fuel page key tree, tree.store.Refuses other := by
  induction fuel generalizing page tree with
  | zero =>
      refine iff_of_false ?_ fun ⟨_, hmem, _⟩ => List.not_mem_nil hmem
      rintro ⟨error, herror, heq⟩
      exact herror (Except.error.inj heq).symm
  | succ fuel ih =>
      simp only [getFrom, pathFrom, bind, StateT.bind, List.exists_mem_cons_iff]
      rcases node_fails hclean page with
        ⟨hrefuses, error, herror, hnode⟩ | ⟨hreads, found, seen, hnode⟩
      · rw [hnode]
        exact iff_of_true ⟨error, herror, rfl⟩ (Or.inl hrefuses)
      rw [hnode, or_iff_right hreads]
      have hsame := node_sameNodes hnode
      cases found with
      | leaf entries =>
          refine iff_of_false ?_ fun ⟨_, hmem, _⟩ => List.not_mem_nil hmem
          rintro ⟨error, -, heq⟩
          simp only [Except.bind] at heq
          cases hsearch : searchEntries entries key with
          | ok position =>
              rw [hsearch] at heq
              cases heq
          | error position =>
              rw [hsearch] at heq
              cases heq
      | internal keys children =>
          simp only [Except.bind]
          cases hchild : children[childIndex keys key]? with
          | none =>
              refine iff_of_false ?_ fun ⟨_, hmem, _⟩ => List.not_mem_nil hmem
              rintro ⟨error, herror, heq⟩
              exact herror (Except.error.inj heq).symm
          | some child =>
              have hseen : (∃ error, error ≠ .panicked ∧ getFrom fuel child key seen = .error error) ↔
                  ∃ other ∈ pathFrom fuel child key seen, seen.store.Refuses other :=
                ih (hsame.dirty.trans hclean)
              rwa [hsame.store] at hseen

theorem getFrom_sameNodes {found : Option Record}
    (hget : getFrom fuel page key tree = .ok (found, tree')) : SameNodes tree tree' := by
  induction fuel generalizing page tree with
  | zero => cases hget
  | succ fuel ih =>
      rw [getFrom, StateExcept.bind_eq_ok] at hget
      obtain ⟨node, seen, hnode, hget⟩ := hget
      have hsame := node_sameNodes hnode
      cases node with
      | leaf entries =>
          simp only at hget
          cases hsearch : searchEntries entries key with
          | ok position =>
              rw [hsearch] at hget
              obtain ⟨-, rfl⟩ := Prod.mk.inj (Except.ok.inj hget)
              exact hsame
          | error position =>
              rw [hsearch] at hget
              obtain ⟨-, rfl⟩ := Prod.mk.inj (Except.ok.inj hget)
              exact hsame
      | internal keys children =>
          simp only at hget
          cases hchild : children[childIndex keys key]? with
          | none =>
              rw [hchild] at hget
              cases hget
          | some child =>
              rw [hchild] at hget
              exact hsame.trans (ih hget)

theorem find_congr (hdirty : tree'.dirty = tree.dirty) (hinfo : tree'.info = tree.info)
    (hreads : ∀ other ∈ path key tree, tree'.store.readHead other = tree.store.readHead other) :
    find key tree' = find key tree ∧ path key tree' = path key tree := by
  unfold find path
  rw [get_eq_getFrom, get_eq_getFrom, hinfo]
  exact getFrom_congr hdirty hreads

theorem SameNodes.find (hsame : SameNodes tree tree') (key : Key) :
    find key tree' = Tree.find key tree :=
  (find_congr hsame.dirty hsame.info fun _ _ => by rw [hsame.store]).1

theorem SameNodes.path (hsame : SameNodes tree tree') (key : Key) :
    path key tree' = Tree.path key tree :=
  (find_congr hsame.dirty hsame.info fun _ _ => by rw [hsame.store]).2

theorem find_fails_iff (hclean : tree.dirty = ∅) :
    (∃ error, error ≠ .panicked ∧ find key tree = .error error) ↔
      ∃ other ∈ path key tree, tree.store.Refuses other := by
  simp only [find, StateExcept.except_map_eq_error]
  exact getFrom_fails_iff hclean

/-! ## The keys of pages -/

theorem keysInPage_congr (hdirty : tree'.dirty = tree.dirty)
    (hread : tree'.store.readHead page = tree.store.readHead page) :
    ∃ keys seen seen', keysInPage page tree = .ok (keys, seen) ∧
      keysInPage page tree' = .ok (keys, seen') ∧ SameNodes tree seen ∧ SameNodes tree' seen' := by
  unfold keysInPage
  rcases node_congr hdirty hread with
    ⟨error, hnode, hnode'⟩ | ⟨found, seen, seen', hnode, hnode', hsame, hsame'⟩
  · rw [hnode, hnode']
    exact ⟨[], tree, tree', rfl, rfl, .refl tree, .refl tree'⟩
  · rw [hnode, hnode']
    cases found with
    | leaf entries => exact ⟨_, seen, seen', rfl, rfl, hsame, hsame'⟩
    | internal keys children => exact ⟨[], seen, seen', rfl, rfl, hsame, hsame'⟩

theorem keysInPages_congr {pages : List PageNo} (hdirty : tree'.dirty = tree.dirty)
    (hreads : ∀ page ∈ pages, page ≠ META_PAGE →
      tree'.store.readHead page = tree.store.readHead page) :
    ∃ keys seen seen', keysInPages pages tree = .ok (keys, seen) ∧
      keysInPages pages tree' = .ok (keys, seen') ∧ SameNodes tree seen ∧
      SameNodes tree' seen' := by
  have hvisits : ∀ (pages : List PageNo) (tree tree' : Tree), tree'.dirty = tree.dirty →
      (∀ page ∈ pages, tree'.store.readHead page = tree.store.readHead page) →
      ∃ keys seen seen', pages.mapM keysInPage tree = .ok (keys, seen) ∧
        pages.mapM keysInPage tree' = .ok (keys, seen') ∧ SameNodes tree seen ∧
        SameNodes tree' seen' := by
    intro pages
    induction pages with
    | nil => exact fun tree tree' _ _ => ⟨[], tree, tree', rfl, rfl, .refl tree, .refl tree'⟩
    | cons page pages ih =>
        intro tree tree' hdirty hreads
        obtain ⟨hpage, hpages⟩ := List.forall_mem_cons.mp hreads
        obtain ⟨first, middle, middle', hfirst, hfirst', hsame, hsame'⟩ :=
          keysInPage_congr hdirty hpage
        obtain ⟨rest, seen, seen', hrest, hrest', hlast, hlast'⟩ := ih middle middle'
          (hsame'.dirty.trans (hdirty.trans hsame.dirty.symm)) fun other hother => by
            rw [hsame'.store, hsame.store]
            exact hpages other hother
        refine ⟨first :: rest, seen, seen', ?_, ?_, hsame.trans hlast, hsame'.trans hlast'⟩
        · rw [List.mapM_cons, StateExcept.bind_eq_ok]
          exact ⟨first, middle, hfirst, StateExcept.bind_eq_ok.mpr ⟨rest, seen, hrest, rfl⟩⟩
        · rw [List.mapM_cons, StateExcept.bind_eq_ok]
          exact ⟨first, middle', hfirst', StateExcept.bind_eq_ok.mpr ⟨rest, seen', hrest', rfl⟩⟩
  obtain ⟨keys, seen, seen', hkeys, hkeys', hsame, hsame'⟩ :=
    hvisits (pages.filter (· ≠ META_PAGE)) tree tree' hdirty fun page hpage => by
      obtain ⟨hmem, hother⟩ := List.mem_filter.mp hpage
      exact hreads page hmem (of_decide_eq_true hother)
  refine ⟨_, seen, seen', StateExcept.bind_eq_ok.mpr ⟨keys, seen, hkeys, rfl⟩,
    StateExcept.bind_eq_ok.mpr ⟨keys, seen', hkeys', rfl⟩, hsame, hsame'⟩

end Tree

end LoomDB
