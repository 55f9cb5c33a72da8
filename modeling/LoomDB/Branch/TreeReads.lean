import LoomDB.Branch.TreeSpec

/-!
# Lookups, scans and removals

What a transaction reads from its tree is what the map holds. A prefix scan
passes only the children whose range meets the prefix, and loses nothing by it.
-/

namespace LoomDB

open Std (ExtTreeMap)
open SearchTree

/-! ## Prefixes -/

theorem Bytes.nil_le (key : Bytes) : [] ≤ key :=
  not_lt.mp (List.not_lt_nil key)

theorem Bytes.cons_le_cons (first head : Byte) (start key : Bytes) :
    first :: start ≤ head :: key ↔ first < head ∨ first = head ∧ start ≤ key := by
  rw [← not_lt, List.cons_lt_cons_iff, not_or, not_and, not_lt, not_lt, le_iff_lt_or_eq]
  constructor
  · rintro ⟨hlt | heq, hle⟩
    · exact Or.inl hlt
    · exact Or.inr ⟨heq, hle heq.symm⟩
  · rintro (hlt | ⟨rfl, hle⟩)
    · exact ⟨Or.inl hlt, fun heq => absurd hlt (heq ▸ lt_irrefl _)⟩
    · exact ⟨Or.inr rfl, fun _ => hle⟩

theorem prefixUpper_cons (first : Byte) (start : Bytes) :
    prefixUpper (first :: start) =
      match prefixUpper start with
      | some upper => some (first :: upper)
      | none => if first = 255 then none else some [first + 1] := by
  unfold prefixUpper
  rw [List.reverse_cons, List.dropWhile_append]
  cases hrest : start.reverse.dropWhile (· = 255) with
  | nil => by_cases hfirst : first = 255 <;> simp [hfirst]
  | cons last rest => simp

/-- The byte strings that start with a prefix lie from it up to the bound. -/
theorem prefixUpper_spec (start key : Bytes) :
    (start ≤ key ∧ ∀ upper ∈ prefixUpper start, key < upper) ↔ start <+: key := by
  induction start generalizing key with
  | nil => simp [prefixUpper, Bytes.nil_le]
  | cons first start ih =>
      cases key with
      | nil => simp [← not_lt]
      | cons head key =>
          rw [Bytes.cons_le_cons, List.cons_prefix_cons, ← ih key, prefixUpper_cons]
          cases prefixUpper start with
          | some upper =>
              simp only [Option.mem_def, Option.some.injEq, forall_eq', List.cons_lt_cons_iff]
              constructor
              · rintro ⟨hlt | ⟨rfl, hle⟩, hgt | ⟨heq, hupper⟩⟩
                · exact absurd hlt hgt.not_gt
                · exact absurd (heq ▸ hlt) (lt_irrefl _)
                · exact absurd hgt (lt_irrefl _)
                · exact ⟨rfl, hle, hupper⟩
              · rintro ⟨rfl, hle, hupper⟩
                exact ⟨Or.inr ⟨rfl, hle⟩, Or.inr ⟨rfl, hupper⟩⟩
          | none =>
              by_cases hmax : first = 255
              · have hnot : ¬ first < head := by
                  rw [hmax, not_lt]
                  exact Fin.le_last head
                simp [hmax ▸ hnot, hmax]
              · have hnext : ∀ byte : Byte, byte < first + 1 ↔ byte ≤ first := by
                  intro byte
                  have hlt : first.val < 255 := by
                    have hval : first.val ≠ 255 := fun h => hmax (Fin.ext h)
                    have := first.isLt
                    omega
                  rw [Fin.lt_def, Fin.le_def, Fin.val_add_one_of_lt (by simpa [Fin.lt_def] using hlt)]
                  omega
                simp only [hmax, if_false, Option.mem_def, Option.some.injEq, forall_eq',
                  List.cons_lt_cons_iff, hnext, List.not_lt_nil, and_false, or_false, reduceCtorEq,
                  IsEmpty.forall_iff, implies_true, and_true]
                constructor
                · rintro ⟨hlt | hsame, hge⟩
                  · exact absurd hlt hge.not_gt
                  · exact hsame
                · rintro ⟨rfl, hle⟩
                  exact ⟨Or.inr ⟨rfl, hle⟩, le_rfl⟩

namespace Tree

/-! ## Lookups -/

theorem getFrom_spec {fuel : ℕ} {page : PageNo} {key : Key} {tree tree' : Tree}
    {found : Option Record} {depth : ℕ} {lo hi : Option Key} {entries : List (Key × Record)}
    {pages : List PageNo} (hget : getFrom fuel page key tree = .ok (found, tree'))
    (htree : Subtree tree.view depth lo hi page entries pages) (hkey : InRange lo hi key) :
    found = lookup key entries ∧ SameNodes tree tree' := by
  induction fuel generalizing page tree depth lo hi entries pages with
  | zero => simp [getFrom] at hget
  | succ fuel ih =>
      simp only [getFrom, StateExcept.bind_eq_ok] at hget
      obtain ⟨node, visited, hnode, hget⟩ := hget
      obtain ⟨hfound, hsame⟩ := node_eq_ok hnode
      cases depth with
      | zero =>
          obtain ⟨hview, hsorted, -, -⟩ := htree
          obtain rfl := hfound.trans hview
          rw [lookup_searchEntries hsorted]
          cases hsearch : searchEntries entries key with
          | ok position =>
              simp only [hsearch, StateExcept.pure_eq_ok, Prod.mk.injEq] at hget
              exact ⟨hget.1, hget.2 ▸ hsame⟩
          | error position =>
              simp only [hsearch, StateExcept.pure_eq_ok, Prod.mk.injEq] at hget
              exact ⟨hget.1, hget.2 ▸ hsame⟩
      | succ depth =>
          obtain ⟨keys, children, below, hview, hchain, -⟩ := htree
          obtain rfl := hfound.trans hview
          obtain ⟨child, lower, upper, left, middle, right, _, pagesMiddle, _, hchildAt, hchild,
            hinner, rfl, rfl, hleft, hright, -, -⟩ :=
            hchain.focus (fun _ _ _ _ _ hsub => hsub.inRange) hkey
          have hchildAt : children[childIndex keys key]? = some child := hchildAt
          simp only [hchildAt] at hget
          obtain ⟨hfound, hrest⟩ := ih hget (hsame.view ▸ hchild) hinner
          refine ⟨?_, hsame.trans hrest⟩
          rw [hfound, lookup_append_left fun entry hentry => (hright entry hentry).ne',
            lookup_append_right fun entry hentry => (hleft entry hentry).ne]

theorem get_spec {key : Key} {tree tree' : Tree} {found : Option Record}
    {map : ExtTreeMap Key Record} (hget : get key tree = .ok (found, tree'))
    (hholds : Holds tree map) : found = map[key]? ∧ SameNodes tree tree' := by
  obtain ⟨depth, entries, pages, hshaped, hmap⟩ := hholds
  simp only [get, StateExcept.getThe_bind, StateExcept.bind_eq_ok, fuel_eq_ok] at hget
  obtain ⟨_, _, ⟨rfl, rfl⟩, hget⟩ := hget
  rw [hmap]
  exact getFrom_spec hget hshaped.subtree (InRange.trivial key)

/-! ## Scans -/

/-- Visiting the children of a node, if each visit returns the child's bindings
that the filter keeps. -/
theorem mapM_children (keep : Key × Record → Bool)
    {visit : Option Key × PageNo × Option Key → TreeM (List (Key × Record))} {depth : ℕ}
    {tree tree' : Tree} {lo hi lower : Option Key} {keys : List Key} {children : List PageNo}
    {entries : List (Key × Record)} {pages : List PageNo} {parts : List (List (Key × Record))}
    (hvisit : ∀ range above below bindings held seen seen' result,
      (∀ bound ∈ range.1, bound ∈ above) → (∀ bound ∈ range.2.2, bound ∈ below) →
      Subtree (view seen) depth above below range.2.1 bindings held →
      visit range seen = .ok (result, seen') →
      result = bindings.filter keep ∧ SameNodes seen seen')
    (hlower : ∀ bound ∈ lower, bound ∈ lo)
    (hchain : Chain (Subtree tree.view depth) lo hi keys children entries pages)
    (hparts : (childRanges lower keys children).mapM visit tree = .ok (parts, tree')) :
    parts.flatten = entries.filter keep ∧ SameNodes tree tree' := by
  suffices hgeneral : ∀ seen, SameNodes tree seen →
      (childRanges lower keys children).mapM visit seen = .ok (parts, tree') →
      parts.flatten = entries.filter keep ∧ SameNodes seen tree' from
    hgeneral tree (.refl tree) hparts
  clear hparts
  induction hchain generalizing lower parts with
  | @last lo hi child entries pages hchild =>
      intro seen hseen hparts
      simp only [childRanges, List.head?_nil, List.mapM_cons, List.mapM_nil,
        StateExcept.bind_eq_ok, StateExcept.pure_eq_ok, Prod.mk.injEq] at hparts
      obtain ⟨first, visited, hfirst, _, _, ⟨rfl, rfl⟩, rfl, rfl⟩ := hparts
      have hchild := hseen.view ▸ hchild
      obtain ⟨rfl, hsame⟩ := hvisit _ lo hi _ _ _ _ _ hlower (by simp) hchild hfirst
      exact ⟨by simp, hsame⟩
  | @cons lo hi separator keys child children entries rest pages more _ hchild _ ih =>
      intro seen hseen hparts
      simp only [childRanges, List.head?_cons, List.tail_cons, List.mapM_cons,
        StateExcept.bind_eq_ok, StateExcept.pure_eq_ok, Prod.mk.injEq] at hparts
      obtain ⟨first, visited, hfirst, others, _, hothers, rfl, rfl⟩ := hparts
      have hchild := hseen.view ▸ hchild
      obtain ⟨rfl, hsame⟩ := hvisit _ lo (some separator) _ _ _ _ _ hlower
        (fun _ hbound => hbound) hchild hfirst
      obtain ⟨hflat, hafter⟩ := ih (fun _ hbound => hbound) visited (hseen.trans hsame) hothers
      exact ⟨by simp [hflat], hsame.trans hafter⟩

theorem childRanges_pages (lower : Option Key) (keys : List Key) (children : List PageNo) :
    (childRanges lower keys children).map (fun range => range.2.1) = children := by
  induction children generalizing lower keys with
  | nil => rfl
  | cons child children ih => simp [childRanges, ih]

theorem collect_spec {fuel : ℕ} {page : PageNo} {tree tree' : Tree}
    {found : List (Key × Record)} {depth : ℕ} {lo hi : Option Key}
    {entries : List (Key × Record)} {pages : List PageNo}
    (hcollect : collect fuel page tree = .ok (found, tree'))
    (htree : Subtree tree.view depth lo hi page entries pages) :
    found = entries ∧ SameNodes tree tree' := by
  induction fuel generalizing page tree tree' found depth lo hi entries pages with
  | zero => simp [collect] at hcollect
  | succ fuel ih =>
      simp only [collect, StateExcept.bind_eq_ok] at hcollect
      obtain ⟨node, visited, hnode, hcollect⟩ := hcollect
      obtain ⟨hfound, hsame⟩ := node_eq_ok hnode
      cases depth with
      | zero =>
          obtain rfl := hfound.trans htree.1
          simp only [StateExcept.pure_eq_ok, Prod.mk.injEq] at hcollect
          exact ⟨hcollect.1, hcollect.2 ▸ hsame⟩
      | succ depth =>
          obtain ⟨keys, children, below, hview, hchain, -⟩ := htree
          obtain rfl := hfound.trans hview
          simp only [StateExcept.bind_eq_ok, StateExcept.pure_eq_ok, Prod.mk.injEq] at hcollect
          obtain ⟨parts, _, hparts, rfl, rfl⟩ := hcollect
          rw [← childRanges_pages none keys children, List.mapM_map] at hparts
          obtain ⟨hflat, hrest⟩ := mapM_children (fun _ => true)
            (fun range above below bindings held seen seen' result _ _ hsub hvisit => by
              simpa using ih hvisit hsub)
            (by simp : ∀ bound ∈ none, bound ∈ lo) (hsame.view ▸ hchain) hparts
          exact ⟨by simpa using hflat, hsame.trans hrest⟩

theorem scan_spec {tree tree' : Tree} {found : List (Key × Record)}
    {map : ExtTreeMap Key Record} (hscan : scan tree = .ok (found, tree'))
    (hholds : Holds tree map) : found = map.toList ∧ SameNodes tree tree' := by
  obtain ⟨depth, entries, pages, hshaped, hmap⟩ := hholds
  simp only [scan, StateExcept.getThe_bind, StateExcept.bind_eq_ok, fuel_eq_ok] at hscan
  obtain ⟨_, _, ⟨rfl, rfl⟩, hscan⟩ := hscan
  rw [hshaped.toList_eq hmap]
  exact collect_spec hscan hshaped.subtree

/-- Whether a key lies from `lo` up to `hi`. -/
def inInterval (lo : Key) (hi : Option Key) (entry : Key × Record) : Bool :=
  lo ≤ entry.1 && (match hi with
    | some hi => entry.1 < hi
    | none => true)

/-- A child whose range misses the interval has no key in it. -/
theorem inInterval_eq_false {lo : Key} {hi lower upper above below : Option Key}
    (habove : ∀ bound ∈ lower, bound ∈ above) (hbelow : ∀ bound ∈ upper, bound ∈ below)
    (hmiss : overlaps lo hi lower upper = false) {entry : Key × Record}
    (hentry : InRange above below entry.1) : inInterval lo hi entry = false := by
  simp only [overlaps, Bool.and_eq_false_iff] at hmiss
  simp only [inInterval, Bool.and_eq_false_iff]
  rcases hmiss with hmiss | hmiss
  · right
    cases lower with
    | none => simp at hmiss
    | some lower =>
        cases hi with
        | none => simp at hmiss
        | some hi =>
            have hge : hi ≤ lower := by simpa using hmiss
            have hlower := hentry.above lower (habove lower rfl)
            simpa using hge.trans hlower
  · left
    cases upper with
    | none => simp at hmiss
    | some upper =>
        have hge : upper ≤ lo := by simpa using hmiss
        have hupper := hentry.below upper (hbelow upper rfl)
        simpa using hupper.trans_le hge

theorem collectRange_spec {fuel : ℕ} {page : PageNo} {start : Key} {stop : Option Key}
    {tree tree' : Tree} {found : List (Key × Record)} {depth : ℕ} {lo hi : Option Key}
    {entries : List (Key × Record)} {pages : List PageNo}
    (hcollect : collectRange fuel page start stop tree = .ok (found, tree'))
    (htree : Subtree tree.view depth lo hi page entries pages) :
    found = entries.filter (inInterval start stop) ∧ SameNodes tree tree' := by
  induction fuel generalizing page tree tree' found depth lo hi entries pages with
  | zero => simp [collectRange] at hcollect
  | succ fuel ih =>
      simp only [collectRange, StateExcept.bind_eq_ok] at hcollect
      obtain ⟨node, visited, hnode, hcollect⟩ := hcollect
      obtain ⟨hfound, hsame⟩ := node_eq_ok hnode
      cases depth with
      | zero =>
          obtain rfl := hfound.trans htree.1
          simp only [StateExcept.pure_eq_ok, Prod.mk.injEq] at hcollect
          exact ⟨hcollect.1, hcollect.2 ▸ hsame⟩
      | succ depth =>
          obtain ⟨keys, children, below, hview, hchain, -⟩ := htree
          obtain rfl := hfound.trans hview
          simp only [StateExcept.bind_eq_ok, StateExcept.pure_eq_ok, Prod.mk.injEq] at hcollect
          obtain ⟨parts, _, hparts, rfl, rfl⟩ := hcollect
          have hchain := hsame.view ▸ hchain
          obtain ⟨hflat, hrest⟩ := mapM_children (inInterval start stop) (by
            rintro ⟨lower, child, upper⟩ above below bindings held seen seen' result habove hbelow
              hsub hvisit
            by_cases hmeets : overlaps start stop lower upper = true
            · rw [if_pos hmeets] at hvisit
              exact ih hvisit hsub
            · rw [if_neg hmeets, StateExcept.pure_eq_ok, Prod.mk.injEq] at hvisit
              obtain ⟨rfl, rfl⟩ := hvisit
              refine ⟨(List.filter_eq_nil_iff.mpr fun entry hentry => ?_).symm, .refl _⟩
              rw [inInterval_eq_false habove hbelow (Bool.eq_false_iff.mpr hmeets)
                (hsub.inRange entry hentry)]
              exact Bool.false_ne_true)
            (by simp : ∀ bound ∈ none, bound ∈ lo) hchain hparts
          exact ⟨hflat, hsame.trans hrest⟩

theorem scanPrefix_spec {start : Key} {tree tree' : Tree} {found : List (Key × Record)}
    {map : ExtTreeMap Key Record} (hscan : scanPrefix start tree = .ok (found, tree'))
    (hholds : Holds tree map) :
    found = map.toList.filter (fun entry => start.isPrefixOf entry.1) ∧ SameNodes tree tree' := by
  obtain ⟨depth, entries, pages, hshaped, hmap⟩ := hholds
  simp only [scanPrefix, StateExcept.getThe_bind, StateExcept.bind_eq_ok, fuel_eq_ok] at hscan
  obtain ⟨_, _, ⟨rfl, rfl⟩, hscan⟩ := hscan
  obtain ⟨hfound, hsame⟩ := collectRange_spec hscan hshaped.subtree
  rw [hshaped.toList_eq hmap]
  refine ⟨hfound.trans (List.filter_congr fun entry _ => ?_), hsame⟩
  rw [Bool.eq_iff_iff, List.isPrefixOf_iff_prefix, ← prefixUpper_spec]
  cases prefixUpper start <;> simp [inInterval]

/-! ## Removal -/

theorem removeFrom_spec {ok : Option Key → Option Key → Prop} {fuel : ℕ} {page : PageNo}
    {key : Key} {tree tree' : Tree} {removed : Bool} {depth : ℕ} {lo hi : Option Key}
    {entries : List (Key × Record)} {pages : List PageNo}
    (hremove : removeFrom fuel page key tree = .ok (removed, tree'))
    (htree : RangedSubtree ok tree.view depth lo hi page entries pages) (hkey : InRange lo hi key)
    (hnodup : pages.Nodup) :
    Grows tree tree' pages [] ∧ removed = (lookup key entries).isSome ∧
      tree'.info.count.val =
        tree.info.count.val - (entries.length - (eraseEntry key entries).length) ∧
      RangedSubtree ok tree'.view depth lo hi page (eraseEntry key entries) pages := by
  induction fuel generalizing page tree depth lo hi entries pages with
  | zero => simp [removeFrom] at hremove
  | succ fuel ih =>
      simp only [removeFrom, StateExcept.bind_eq_ok] at hremove
      obtain ⟨node, visited, hnode, hremove⟩ := hremove
      obtain ⟨hfound, hsame⟩ := node_eq_ok hnode
      cases depth with
      | zero =>
          obtain ⟨hok, hview, hsorted, hrange, rfl⟩ := htree
          obtain rfl := hfound.trans hview
          rw [lookup_searchEntries hsorted]
          cases hsearch : searchEntries entries key with
          | error position =>
              simp only [hsearch, StateExcept.pure_eq_ok, Prod.mk.injEq] at hremove
              obtain ⟨rfl, rfl⟩ := hremove
              rw [eraseEntry_searchEntries hsorted hsearch]
              exact ⟨hsame.grows _, rfl, by simp [hsame.info], hok,
                by rw [hsame.view]; exact hview, hsorted, hrange, rfl⟩
          | ok position =>
              simp only [hsearch, set, StateExcept.modify_bind, StateExcept.pure_eq_ok,
                Prod.mk.injEq] at hremove
              obtain ⟨rfl, htree'⟩ := hremove
              obtain ⟨hlt, hentry⟩ := searchEntries_lt hsearch
              have herase := eraseIdx_searchEntries hsorted hsearch
              have hset : Grows visited tree' [page] [] := by
                subst htree'
                refine ⟨rfl, rfl, le_rfl, by simp, List.nodup_nil, ?_, by simp, by simp⟩
                intro other hother _
                rw [OrderedMap.getElem?_insert, if_neg (Ne.symm (by simpa using hother))]
              have hgrows := (hsame.grows [page]).trans hset (by simp)
              refine ⟨by simpa using hgrows, by simpa using hentry, ?_, hok, view_of_dirty ?_,
                hsorted.eraseEntry, ?_, rfl⟩
              · rw [← herase, List.length_eraseIdx_of_lt hlt, htree', hsame.info]
                dsimp only
                omega
              · rw [htree', OrderedMap.getElem?_insert, if_pos rfl, herase]
              · exact fun entry hmem => hrange entry (List.mem_of_mem_filter hmem)
      | succ depth =>
          obtain ⟨keys, children, below, hview, hchain, rfl⟩ := htree
          obtain rfl := hfound.trans hview
          obtain ⟨hnotMem, hnodup⟩ := List.nodup_cons.mp hnodup
          obtain ⟨child, lower, upper, left, middle, right, pagesLeft, pagesMiddle, pagesRight,
            hchildAt, hchild, hinner, rfl, rfl, hleft, hright, hreplace, -⟩ :=
            hchain.focus (fun _ _ _ _ _ hsub => hsub.subtree.inRange) hkey
          have hchildAt : children[childIndex keys key]? = some child := hchildAt
          simp only [hchildAt] at hremove
          have hmiddle : pagesMiddle ⊆ pagesLeft ++ pagesMiddle ++ pagesRight :=
            fun other hmem => List.mem_append_left _ (List.mem_append_right _ hmem)
          obtain ⟨hleftMiddle, _, hacross⟩ := List.nodup_append.mp hnodup
          obtain ⟨hgrows, hremoved, hcount, hsub⟩ := ih hremove (hsame.view ▸ hchild) hinner
            (List.nodup_append.mp hleftMiddle).2.1
          have hwider : pagesMiddle ⊆ page :: (pagesLeft ++ pagesMiddle ++ pagesRight) :=
            fun other hmem => List.mem_cons_of_mem _ (hmiddle hmem)
          have hwhole := ((hsame.grows pagesMiddle).trans hgrows (by simp)).mono hwider
          have hsides : eraseEntry key (left ++ middle ++ right) =
              left ++ eraseEntry key middle ++ right := by
            rw [eraseEntry_append, eraseEntry_append,
              eraseEntry_of_absent fun entry hentry => (hleft entry hentry).ne,
              eraseEntry_of_absent fun entry hentry => (hright entry hentry).ne']
          rw [hsides]
          refine ⟨by simpa using hwhole, ?_, ?_, ?_⟩
          · rw [hremoved, lookup_append_left fun entry hentry => (hright entry hentry).ne',
              lookup_append_right fun entry hentry => (hleft entry hentry).ne]
          · rw [hcount, hsame.info]
            simp only [List.length_append]
            congr 1
            omega
          · have hother : ∀ other, other ∉ pagesMiddle → tree'.view other = tree.view other :=
              fun other hnot => view_congr (hgrows.store.trans hsame.store)
                (by rw [hgrows.frame other hnot (by simp), hsame.dirty])
            refine ⟨keys, children, _, (hother page fun hmem => hnotMem (hmiddle hmem)).trans hview,
              hreplace ?_ hsub, rfl⟩
            intro lo hi child entries below hbelow hchild
            refine hchild.congr fun other hmem => hother other fun hinside => ?_
            rcases List.mem_append.mp (hbelow hmem) with hmem | hmem
            · exact (List.nodup_append.mp hleftMiddle).2.2 other hmem other hinside rfl
            · exact hacross other (List.mem_append_right _ hinside) other hmem rfl

/-- A removal keeps a tree whose ranges are as asked. -/
theorem remove_ranged {ok : Option Key → Option Key → Prop} {key : Key} {tree tree' : Tree}
    {removed : Bool} {depth : ℕ} {entries : List (Key × Record)} {pages : List PageNo}
    (hremove : remove key tree = .ok (removed, tree')) (hshaped : Shaped tree depth entries pages)
    (hranged : RangedSubtree ok tree.view depth none none tree.info.root entries pages) :
    Shaped tree' depth (eraseEntry key entries) pages ∧
      RangedSubtree ok tree'.view depth none none tree'.info.root (eraseEntry key entries) pages ∧
      removed = (lookup key entries).isSome ∧ tree'.store = tree.store := by
  simp only [remove, StateExcept.getThe_bind, StateExcept.bind_eq_ok, fuel_eq_ok] at hremove
  obtain ⟨_, _, ⟨rfl, rfl⟩, hremove⟩ := hremove
  obtain ⟨hgrows, hremoved, hcount, hsubtree⟩ :=
    removeFrom_spec hremove hranged (InRange.trivial key) hshaped.nodup
  have hle : (eraseEntry key entries).length ≤ entries.length := List.length_filter_le _ _
  rw [← hgrows.root] at hsubtree
  refine ⟨hshaped.of_grows hgrows rfl rfl rfl hgrows.clean_of (by simp) hsubtree.subtree ?_,
    hsubtree, hremoved, hgrows.store⟩
  rw [hcount, hshaped.count]
  omega

theorem remove_spec {key : Key} {tree tree' : Tree} {removed : Bool}
    {map : ExtTreeMap Key Record} (hremove : remove key tree = .ok (removed, tree'))
    (hholds : Holds tree map) :
    Holds tree' (map.erase key) ∧ removed = map[key]?.isSome ∧ tree'.store = tree.store := by
  obtain ⟨depth, entries, pages, hshaped, hmap⟩ := hholds
  have hranged : RangedSubtree (fun _ _ => True) tree.view depth none none tree.info.root entries
      pages := hshaped.subtree.ranged fun _ _ => trivial
  obtain ⟨hshaped', -, hremoved, hstore⟩ := remove_ranged hremove hshaped hranged
  refine ⟨⟨depth, _, pages, hshaped', fun other => ?_⟩, hmap key ▸ hremoved, hstore⟩
  rw [OrderedMap.getElem?_erase, lookup_eraseEntry hshaped.sorted, hmap]

end Tree

end LoomDB
