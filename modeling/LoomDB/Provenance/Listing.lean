import LoomDB.Foundations.Deduplication
import LoomDB.Provenance.Staleness
import LoomDB.Provenance.Walks

/-!
# What a plan lists

The items of a plan are sorted by branch and description, and an item is removed if the one
before it has the same branch, description and commit. So an item may stand for several
nodes, and a node may have several items.
-/

namespace LoomDB

open Std (ExtTreeMap ExtTreeSet)

/-! ## Sorted items -/

namespace ReversibleItem

/-- What a removal of repeats compares. -/
def mark (item : ReversibleItem) : (BranchId × Bytes) × CommitId :=
  ((item.branch, item.description), item.commit)

theorem same_iff {left right : ReversibleItem} : left.Same right ↔ left.mark = right.mark := by
  simp [Same, mark, and_assoc]

theorem arranged_eq (items : List ReversibleItem) :
    arranged items = (items.insertionSort fun left right => left.le right).destutter
      fun left right => left.mark ≠ right.mark := by
  unfold arranged
  simp only [same_iff, ne_eq]

theorem le_both_iff {left right : ReversibleItem} :
    (left.le right = true ∧ right.le left = true) ↔ left.mark.1 = right.mark.1 := by
  have heq : compareLex (compareOn branch) (compareOn description) left right = .eq ↔
      left.mark.1 = right.mark.1 := by
    rw [compareLex_eq_eq, mark, mark, Prod.mk.injEq]
    change compare left.branch right.branch = .eq ∧ compare left.description right.description = .eq ↔ _
    rw [Std.LawfulEqCmp.compare_eq_iff_eq, Std.LawfulEqCmp.compare_eq_iff_eq]
  rw [← heq]
  constructor
  · exact fun hboth => Std.OrientedCmp.isLE_antisymm hboth.1 hboth.2
  · intro hcompare
    unfold le
    rw [hcompare, Std.OrientedCmp.eq_symm hcompare]
    exact ⟨rfl, rfl⟩

instance : Std.Total fun left right : ReversibleItem => left.le right = true where
  total left right := by
    unfold le
    cases hcompare : compareLex (compareOn branch) (compareOn description) left right with
    | lt => exact Or.inl rfl
    | eq => exact Or.inl rfl
    | gt =>
        rw [Std.OrientedCmp.lt_of_gt hcompare]
        exact Or.inr rfl

instance : IsTrans ReversibleItem fun left right => left.le right = true where
  trans _ _ _ hfirst hsecond := Std.TransCmp.isLE_trans hfirst hsecond

theorem mem_mark_arranged {items : List ReversibleItem} {mark : (BranchId × Bytes) × CommitId} :
    mark ∈ (arranged items).map ReversibleItem.mark ↔ mark ∈ items.map ReversibleItem.mark := by
  rw [arranged_eq]
  exact Deduplication.mem_arranged

/-- No two items have one mark if equal marks were together within a branch and description. -/
theorem nodup_mark_arranged {items : List ReversibleItem} :
    ((arranged items).map mark).Nodup ↔
      ∀ item other, [item, other, item].Sublist (items.map mark) → other.1 = item.1 →
        other = item := by
  rw [arranged_eq]
  exact Deduplication.nodup_arranged_iff fun _ _ => le_both_iff

end ReversibleItem

/-! ## Items and nodes -/

/-- What is written of a node, and where. -/
def DerivationNode.mark (platform : Platform) (node : DerivationNode) :
    (BranchId × Except LoomError Bytes) × CommitId :=
  ((node.branch, node.describe platform), node.commit)

/-- The branch, the key and the commit that a node is from. -/
def DerivationNode.place (node : DerivationNode) : BranchId × Key × CommitId :=
  (node.branch, node.key, node.commit)

/-- The item says what is written of the node. -/
def ReversibleItem.Displays (platform : Platform) (item : ReversibleItem) (node : DerivationNode) :
    Prop :=
  item.branch = node.branch ∧ item.commit = node.commit ∧
    node.describe platform = .ok item.description

/-- Each place has one item, and each item one place. -/
structure ListsOnce (platform : Platform) (contaminated : DerivationNode → Prop)
    (items : List ReversibleItem) : Prop where
  once : ∀ node, contaminated node → ∃! index : ℕ, ∃ item, items[index]? = some item ∧ ∃ other,
    contaminated other ∧ other.place = node.place ∧ ReversibleItem.Displays platform item other
  single : ∀ item ∈ items, ∃! place, ∃ node, contaminated node ∧ node.place = place ∧
    item.Displays platform node

/-- The nodes, in the order they are found, are told apart by what is written of them. -/
structure ToldApart (platform : Platform) (found : List DerivationNode) : Prop where
  /-- What is from one place has one description. -/
  described : ∀ left ∈ found, ∀ right ∈ found, left.place = right.place →
    left.describe platform = right.describe platform
  /-- What has one mark has one key. -/
  keyed : ∀ left ∈ found, ∀ right ∈ found, left.mark platform = right.mark platform →
    left.key = right.key
  /-- Between two of one mark there is none of the same branch and description from another
  commit. -/
  together : ∀ first second third, [first, second, third].Sublist found →
    first.mark platform = third.mark platform →
    (second.mark platform).1 = (first.mark platform).1 → second.commit = first.commit

instance (platform : Platform) (found : List DerivationNode) : Decidable (ToldApart platform found) :=
  decidable_of_iff
    ((∀ left ∈ found, ∀ right ∈ found, left.place = right.place →
        left.describe platform = right.describe platform) ∧
      (∀ left ∈ found, ∀ right ∈ found, left.mark platform = right.mark platform →
        left.key = right.key) ∧
      ∀ three ∈ found.sublistsLen 3, ∀ first ∈ three[0]?, ∀ second ∈ three[1]?,
        ∀ third ∈ three[2]?, first.mark platform = third.mark platform →
          (second.mark platform).1 = (first.mark platform).1 → second.commit = first.commit)
    ⟨fun hapart => ⟨hapart.1, hapart.2.1, fun first second third hthree =>
      hapart.2.2 [first, second, third] (List.mem_sublistsLen.mpr ⟨hthree, rfl⟩) first rfl second rfl
        third rfl⟩,
    fun hapart => ⟨hapart.described, hapart.keyed, fun three hthree first hfirst second hsecond
        third hthird => by
      obtain ⟨hsublist, hlength⟩ := List.mem_sublistsLen.mp hthree
      obtain ⟨one, two, last, rfl⟩ := List.length_eq_three.mp hlength
      cases hfirst
      cases hsecond
      cases hthird
      exact hapart.together _ _ _ hsublist⟩⟩

section Arranged

variable {platform : Platform} {contaminated : DerivationNode → Prop} {found : List DerivationNode}
  {items : List ReversibleItem}

/-- The mark of a node whose item has this one. -/
def shown (mark : (BranchId × Bytes) × CommitId) : (BranchId × Except LoomError Bytes) × CommitId :=
  ((mark.1.1, .ok mark.1.2), mark.2)

theorem shown_injective : Function.Injective shown := by
  rintro ⟨⟨branch, description⟩, commit⟩ ⟨⟨branch', description'⟩, commit'⟩ heq
  simp only [shown, Prod.mk.injEq, Except.ok.injEq] at heq
  obtain ⟨⟨rfl, rfl⟩, rfl⟩ := heq
  rfl

theorem displays_iff {item : ReversibleItem} {node : DerivationNode} :
    item.Displays platform node ↔ shown item.mark = node.mark platform := by
  simp only [ReversibleItem.Displays, shown, ReversibleItem.mark, DerivationNode.mark,
    Prod.mk.injEq]
  constructor
  · rintro ⟨hbranch, hcommit, hdescribe⟩
    exact ⟨⟨hbranch, hdescribe.symm⟩, hcommit⟩
  · rintro ⟨⟨hbranch, hdescribe⟩, hcommit⟩
    exact ⟨hbranch, hcommit, hdescribe.symm⟩

/-- The items of the nodes are in their order. -/
def ItemsOf (platform : Platform) (found : List DerivationNode) (items : List ReversibleItem) :
    Prop :=
  items.map (fun item => shown item.mark) = found.map (DerivationNode.mark platform)

/-- Every item displays a node. -/
theorem ItemsOf.exists_node (hitems : ItemsOf platform found items) {item : ReversibleItem}
    (hitem : item ∈ ReversibleItem.arranged items) :
    ∃ node ∈ found, item.Displays platform node := by
  have hmark := ReversibleItem.mem_mark_arranged.mp (List.mem_map_of_mem hitem)
  obtain ⟨first, hfirst, heq⟩ := List.mem_map.mp hmark
  have hshown : shown item.mark ∈ found.map (DerivationNode.mark platform) := by
    rw [← heq, ← hitems]
    exact List.mem_map_of_mem hfirst
  obtain ⟨node, hnode, hmark⟩ := List.mem_map.mp hshown
  exact ⟨node, hnode, displays_iff.mpr hmark.symm⟩

/-- Every node is displayed by an item. -/
theorem ItemsOf.exists_item (hitems : ItemsOf platform found items) {node : DerivationNode}
    (hnode : node ∈ found) :
    ∃ item ∈ ReversibleItem.arranged items, item.Displays platform node := by
  have hmark : node.mark platform ∈ items.map fun item => shown item.mark := by
    rw [hitems]
    exact List.mem_map_of_mem hnode
  obtain ⟨first, hfirst, heq⟩ := List.mem_map.mp hmark
  obtain ⟨item, hitem, hsame⟩ := List.mem_map.mp
    (ReversibleItem.mem_mark_arranged.mpr (List.mem_map_of_mem hfirst))
  exact ⟨item, hitem, displays_iff.mpr (by rw [hsame, heq])⟩

/-- No mark is listed twice if equal marks were found together. -/
theorem ItemsOf.nodup_iff (hitems : ItemsOf platform found items) :
    ((ReversibleItem.arranged items).map ReversibleItem.mark).Nodup ↔
      ∀ first second third, [first, second, third].Sublist found →
        first.mark platform = third.mark platform →
        (second.mark platform).1 = (first.mark platform).1 → second.commit = first.commit := by
  rw [ReversibleItem.nodup_mark_arranged]
  have hmarks : (items.map ReversibleItem.mark).map shown =
      found.map (DerivationNode.mark platform) := by
    rw [List.map_map]
    exact hitems
  constructor
  · intro htogether first second third hthree hmark hpart
    have hsublist := hthree.map (DerivationNode.mark platform)
    rw [← hmarks, List.sublist_map_iff] at hsublist
    obtain ⟨marks, hsublist, heq⟩ := hsublist
    obtain ⟨item, two, rfl, hitem, htwo⟩ := List.map_eq_cons_iff.mp heq.symm
    obtain ⟨other, one, rfl, hother, hone⟩ := List.map_eq_cons_iff.mp htwo
    obtain ⟨last, none, rfl, hlast, hnone⟩ := List.map_eq_cons_iff.mp hone
    obtain rfl := List.map_eq_nil_iff.mp hnone
    obtain rfl : item = last := shown_injective (by rw [hitem, hlast, hmark])
    have hsame : other = item := by
      refine htogether item other hsublist ?_
      rw [← hitem, ← hother] at hpart
      obtain ⟨hbranch, hdescription⟩ := Prod.ext_iff.mp hpart
      exact Prod.ext_iff.mpr ⟨hbranch, Except.ok.inj hdescription⟩
    have hcommit := congrArg Prod.snd (congrArg shown hsame)
    rwa [hitem, hother] at hcommit
  · intro htogether item other hsublist hpart
    have hshown := hsublist.map shown
    rw [hmarks, List.sublist_map_iff] at hshown
    obtain ⟨nodes, hnodes, heq⟩ := hshown
    obtain ⟨first, two, rfl, hfirst, htwo⟩ := List.map_eq_cons_iff.mp heq.symm
    obtain ⟨second, one, rfl, hsecond, hone⟩ := List.map_eq_cons_iff.mp htwo
    obtain ⟨third, none, rfl, hthird, hnone⟩ := List.map_eq_cons_iff.mp hone
    obtain rfl := List.map_eq_nil_iff.mp hnone
    refine Prod.ext_iff.mpr ⟨hpart, ?_⟩
    have hcommit := htogether first second third hnodes (hfirst.trans hthird.symm) (by
      rw [hsecond, hfirst]
      unfold shown
      rw [hpart])
    change (second.mark platform).2 = (first.mark platform).2 at hcommit
    rwa [hsecond, hfirst] at hcommit

/-- Where no mark is listed twice, two places with one mark are one. -/
theorem index_unique {plan : List ReversibleItem} (hnodup : (plan.map ReversibleItem.mark).Nodup)
    {index index' : ℕ} {item item' : ReversibleItem} (hitem : plan[index]? = some item)
    (hitem' : plan[index']? = some item') (hmark : item.mark = item'.mark) : index = index' := by
  obtain ⟨hlt, rfl⟩ := List.getElem?_eq_some_iff.mp hitem
  refine (List.getElem?_inj (by rwa [List.length_map]) hnodup).mp ?_
  rw [List.getElem?_map, List.getElem?_map, hitem, hitem', Option.map_some, Option.map_some, hmark]

/-- If each place has one item, no mark is listed twice. -/
theorem ListsOnce.nodup (hmem : ∀ node, contaminated node ↔ node ∈ found)
    (hitems : ItemsOf platform found items)
    (hlists : ListsOnce platform contaminated (ReversibleItem.arranged items)) :
    ((ReversibleItem.arranged items).map ReversibleItem.mark).Nodup := by
  refine List.nodup_iff_getElem?_ne_getElem?.mpr fun index index' hlt hlast heq => ?_
  rw [List.length_map] at hlast
  have hlast := List.getElem?_eq_getElem hlast
  generalize (ReversibleItem.arranged items)[index'] = last at hlast
  rw [List.getElem?_map, List.getElem?_map, hlast, Option.map_some, Option.map_eq_some_iff] at heq
  obtain ⟨item, hitem, hmark⟩ := heq
  obtain ⟨node, hnode, hdisplays⟩ := hitems.exists_node (List.mem_of_getElem? hlast)
  have hdisplays' : item.Displays platform node := by
    rwa [displays_iff, hmark, ← displays_iff]
  have hcontaminated := (hmem node).mpr hnode
  exact hlt.ne ((hlists.once node hcontaminated).unique
    ⟨item, hitem, node, hcontaminated, rfl, hdisplays'⟩
    ⟨last, hlast, node, hcontaminated, rfl, hdisplays⟩)

/-- The arranged items list each place once if what is written tells the nodes apart. -/
theorem listsOnce_iff (hmem : ∀ node, contaminated node ↔ node ∈ found)
    (hitems : ItemsOf platform found items) :
    ListsOnce platform contaminated (ReversibleItem.arranged items) ↔ ToldApart platform found := by
  constructor
  · intro hlists
    refine ⟨fun left hleft right hright hplace => ?_, fun left hleft right hright hmark => ?_,
      hitems.nodup_iff.mp (hlists.nodup hmem hitems)⟩
    · obtain ⟨item, hitem, hdisplays⟩ := hitems.exists_item hleft
      obtain ⟨item', hitem', hdisplays'⟩ := hitems.exists_item hright
      obtain ⟨index, hindex⟩ := List.mem_iff_getElem?.mp hitem
      obtain ⟨index', hindex'⟩ := List.mem_iff_getElem?.mp hitem'
      obtain rfl : index = index' := (hlists.once left ((hmem left).mpr hleft)).unique
        ⟨item, hindex, left, (hmem left).mpr hleft, rfl, hdisplays⟩
        ⟨item', hindex', right, (hmem right).mpr hright, hplace.symm, hdisplays'⟩
      obtain rfl := Option.some.inj (hindex.symm.trans hindex')
      rw [hdisplays.2.2, hdisplays'.2.2]
    · obtain ⟨item, hitem, hdisplays⟩ := hitems.exists_item hleft
      have hdisplays' : item.Displays platform right := by
        rwa [displays_iff, ← hmark, ← displays_iff]
      have hplace := (hlists.single item hitem).unique
        ⟨left, (hmem left).mpr hleft, rfl, hdisplays⟩
        ⟨right, (hmem right).mpr hright, rfl, hdisplays'⟩
      exact congrArg (fun place => place.2.1) hplace
  · intro htold
    have hnodup := hitems.nodup_iff.mpr htold.together
    refine ⟨fun node hnode => ?_, fun item hitem => ?_⟩
    · obtain ⟨item, hitem, hdisplays⟩ := hitems.exists_item ((hmem node).mp hnode)
      obtain ⟨index, hindex⟩ := List.mem_iff_getElem?.mp hitem
      refine ⟨index, ⟨item, hindex, node, hnode, rfl, hdisplays⟩, ?_⟩
      rintro index' ⟨item', hindex', other, hother, hplace, hdisplays'⟩
      have hdescribe := htold.described other ((hmem other).mp hother) node ((hmem node).mp hnode)
        hplace
      have hmark : other.mark platform = node.mark platform := by
        obtain ⟨hbranch, hrest⟩ := Prod.ext_iff.mp hplace
        exact Prod.ext_iff.mpr
          ⟨Prod.ext_iff.mpr ⟨hbranch, hdescribe⟩, (Prod.ext_iff.mp hrest).2⟩
      refine index_unique hnodup hindex' hindex (shown_injective ?_)
      rw [displays_iff.mp hdisplays', hmark, displays_iff.mp hdisplays]
    · obtain ⟨node, hnode, hdisplays⟩ := hitems.exists_node hitem
      refine ⟨node.place, ⟨node, (hmem node).mpr hnode, rfl, hdisplays⟩, ?_⟩
      rintro place ⟨other, hother, rfl, hdisplays'⟩
      have hmark : other.mark platform = node.mark platform := by
        rw [← displays_iff.mp hdisplays', displays_iff.mp hdisplays]
      have hkey := htold.keyed other ((hmem other).mp hother) node hnode hmark
      obtain ⟨hpart, hcommit⟩ := Prod.ext_iff.mp hmark
      exact Prod.ext_iff.mpr ⟨(Prod.ext_iff.mp hpart).1, Prod.ext_iff.mpr ⟨hkey, hcommit⟩⟩

end Arranged

/-! ## What a taint finds -/

/-- The caller's nodes with these ids. -/
def callerNodes (nodes : NodeMap) (ids : List NodeId) : List DerivationNode :=
  (ids.filterMap fun id => nodes[id]?).filter fun node => !isProvenance node.key

theorem itemsOf_reversibleItems {platform : Platform} {nodes : NodeMap} {source : SourceRef}
    {ids : List NodeId} {items : List ReversibleItem}
    (hitems : reversibleItems platform nodes source ids = .ok items) :
    ItemsOf platform (callerNodes nodes ids) items := by
  induction ids generalizing items with
  | nil =>
      obtain rfl := Except.ok.inj hitems
      rfl
  | cons id ids ih =>
      unfold reversibleItems at hitems
      unfold callerNodes at ih ⊢
      cases hnode : nodes[id]? with
      | none =>
          rw [hnode] at hitems
          rw [List.filterMap_cons_none hnode]
          exact ih hitems
      | some node =>
      rw [hnode] at hitems
      rw [List.filterMap_cons_some hnode]
      cases hkey : isProvenance node.key with
      | true =>
          rw [List.filter_cons_of_neg (by simp [hkey])]
          simp only [hkey, if_true] at hitems
          exact ih hitems
      | false =>
          rw [List.filter_cons_of_pos (by simp [hkey])]
          simp only [hkey, Bool.false_eq_true, if_false, StateExcept.except_bind_eq_ok] at hitems
          obtain ⟨description, hdescribe, rest, hrest, heq⟩ := hitems
          obtain rfl := Except.ok.inj heq
          have hfirst : shown ((node.branch, description), node.commit) = node.mark platform := by
            rw [shown, DerivationNode.mark, hdescribe]
          exact congrArg₂ List.cons hfirst (ih hrest)

namespace Engine

variable {σ ρ : Type} {engine : Engine σ ρ} {lawful : engine.pager.Lawful} {loom loom' : Loom σ ρ}
  {source : SourceRef}

/-- The caller's nodes that the walk over a branch finds, in its order. -/
def foundOn (engine : Engine σ ρ) (loom : Loom σ ρ) (source : SourceRef) (branch : BranchId) :
    List DerivationNode :=
  match (engine.nodesOn branch loom).1, (engine.seedsOn branch source loom).1 with
  | .ok nodes, .ok seeds =>
      match floodDownstream nodes seeds with
      | .ok contaminated => callerNodes nodes contaminated.toList
      | .error _ => []
  | _, _ => []

/-- The node is a caller's, and downstream of the source on some branch. -/
def ContaminatedNode (engine : Engine σ ρ) (loom : Loom σ ρ) (source : SourceRef)
    (node : DerivationNode) : Prop :=
  ∃ branch ∈ branchNames loom, ∃ (nodes : NodeMap) (seeds : ExtTreeSet NodeId) (id : NodeId),
    (engine.nodesOn branch loom).1 = .ok nodes ∧
    (engine.seedsOn branch source loom).1 = .ok seeds ∧
    Downstream nodes seeds id ∧ nodes[id]? = some node ∧ isProvenance node.key = false

theorem Walked.foundOn_eq {branch : BranchId} {nodes : NodeMap} {contaminated : ExtTreeSet NodeId}
    (hwalked : Walked engine loom source branch nodes contaminated) :
    foundOn engine loom source branch = callerNodes nodes contaminated.toList := by
  obtain ⟨hnodes, seeds, hseeds, hflood⟩ := hwalked
  unfold foundOn
  rw [hnodes, hseeds]
  dsimp only
  rw [hflood]

theorem Walked.mem_foundOn {branch : BranchId} {walked : NodeMap} {contaminated : ExtTreeSet NodeId}
    (hwalked : Walked engine loom source branch walked contaminated) {node : DerivationNode} :
    node ∈ foundOn engine loom source branch ↔
      ∃ (nodes : NodeMap) (seeds : ExtTreeSet NodeId) (id : NodeId),
        (engine.nodesOn branch loom).1 = .ok nodes ∧
        (engine.seedsOn branch source loom).1 = .ok seeds ∧
        Downstream nodes seeds id ∧ nodes[id]? = some node ∧ isProvenance node.key = false := by
  rw [hwalked.foundOn_eq]
  obtain ⟨hnodes, seeds, hseeds, hflood⟩ := hwalked
  simp only [callerNodes, List.mem_filter, List.mem_filterMap, ExtTreeSet.mem_toList,
    Bool.not_eq_true', mem_floodDownstream hflood]
  constructor
  · rintro ⟨⟨id, hdownstream, hnode⟩, hcaller⟩
    exact ⟨walked, seeds, id, hnodes, hseeds, hdownstream, hnode, hcaller⟩
  · rintro ⟨nodes, seeds', id, hnodes', hseeds', hdownstream, hnode, hcaller⟩
    obtain rfl := Except.ok.inj (hnodes.symm.trans hnodes')
    obtain rfl := Except.ok.inj (hseeds.symm.trans hseeds')
    exact ⟨⟨id, hdownstream, hnode⟩, hcaller⟩

/-- A taint that returns walked every branch, and has the items of what it found there. -/
theorem taintBranches_eq_ok (hlegible : lawful.Legible loom.pager) {branches : List BranchId}
    {stats stats' : TaintStats} {items items' : List ReversibleItem}
    (htaint : (engine.taintBranches source branches stats items loom).1 = .ok (items', stats')) :
    (∀ branch ∈ branches, ∃ nodes contaminated,
      Walked engine loom source branch nodes contaminated) ∧
    ∃ added, items' = items ++ added ∧
      ItemsOf engine.platform (branches.flatMap (foundOn engine loom source)) added := by
  induction branches generalizing stats items with
  | nil =>
      obtain ⟨rfl, -⟩ := Prod.mk.inj (Except.ok.inj htaint)
      exact ⟨by simp, [], (List.append_nil items).symm, rfl⟩
  | cons branch branches ih =>
      rcases taintBranches_cons hlegible source branch branches stats items with
        ⟨error, -, -, hfails⟩ | ⟨nodes, contaminated, hwalked, ⟨error, -, hfails⟩ |
          ⟨found, next, hfound, hcontinues⟩⟩
      · rw [hfails] at htaint
        cases htaint
      · rw [hfails] at htaint
        cases htaint
      · rw [hcontinues] at htaint
        obtain ⟨hwalks, added, rfl, hadded⟩ := ih htaint
        refine ⟨List.forall_mem_cons.mpr ⟨⟨nodes, contaminated, hwalked⟩, hwalks⟩, found ++ added,
          List.append_assoc _ _ _, ?_⟩
        have hfirst := itemsOf_reversibleItems hfound
        unfold ItemsOf at hadded hfirst ⊢
        rw [List.flatMap_cons, List.map_append, List.map_append, hwalked.foundOn_eq, hfirst, hadded]

/-- The plan of a taint is arranged from the items of the contaminated nodes. -/
theorem taint_eq_ok (hreachable : Reachable engine lawful loom) {plan : RecallPlan}
    {stats : TaintStats} (htaint : engine.taint source loom = (.ok (plan, stats), loom')) :
    ∃ items, plan.reversible = ReversibleItem.arranged items ∧
      ItemsOf engine.platform ((branchNames loom).flatMap (foundOn engine loom source)) items ∧
      ∀ node, ContaminatedNode engine loom source node ↔
        node ∈ (branchNames loom).flatMap (foundOn engine loom source) := by
  rw [taint, FallibleState.get_bind, FallibleState.bind_eq_ok] at htaint
  obtain ⟨⟨items, counted⟩, _, hbranches, hplan⟩ := htaint
  obtain ⟨heq, -⟩ := FallibleState.pure_eq_ok.mp hplan
  obtain ⟨rfl, -⟩ := Prod.mk.inj heq
  obtain ⟨hwalks, _, rfl, hadded⟩ :=
    taintBranches_eq_ok hreachable.legible (congrArg Prod.fst hbranches)
  refine ⟨items, rfl, hadded, fun node => ?_⟩
  rw [ContaminatedNode, List.mem_flatMap]
  refine exists_congr fun branch => and_congr_right fun hbranch => ?_
  obtain ⟨nodes, contaminated, hwalked⟩ := hwalks branch hbranch
  exact hwalked.mem_foundOn.symm

/-- The plan of a taint lists each contaminated place once, and nothing else, exactly if what
is written of the contaminated nodes tells them apart, in the order they are found. -/
theorem taint_listsOnce_iff (hreachable : Reachable engine lawful loom) {plan : RecallPlan}
    {stats : TaintStats} (htaint : engine.taint source loom = (.ok (plan, stats), loom')) :
    ListsOnce engine.platform (ContaminatedNode engine loom source) plan.reversible ↔
      ToldApart engine.platform ((branchNames loom).flatMap (foundOn engine loom source)) := by
  obtain ⟨items, hplan, hitems, hmem⟩ := taint_eq_ok hreachable htaint
  rw [hplan]
  exact listsOnce_iff hmem hitems

/-! ## A fork -/

/-- The marks of the items that a taint of the page lists. -/
def listedMarks (loom : Loom MemPager (Option Refs)) :
    Option (List ((BranchId × Bytes) × CommitId)) :=
  (memoryEngine.taint claimPage loom).1.toOption.map fun result =>
    result.1.reversible.map ReversibleItem.mark

theorem taint_of_listedMarks {loom : Loom MemPager (Option Refs)}
    {marks : List ((BranchId × Bytes) × CommitId)} (hlisted : listedMarks loom = some marks) :
    ∃ plan stats, memoryEngine.taint claimPage loom = (.ok (plan, stats), loom) ∧
      plan.reversible.map ReversibleItem.mark = marks := by
  obtain ⟨⟨plan, stats⟩, hresult, hplan⟩ := Option.map_eq_some_iff.mp hlisted
  refine ⟨plan, stats, ?_, hplan⟩
  rcases htaint : memoryEngine.taint claimPage loom with ⟨result, last⟩
  obtain rfl := (taint_moves claimPage).of_eq htaint
  rw [htaint] at hresult
  obtain rfl := StateExcept.toOption_eq_some.mp hresult
  rfl

/-- The mark of a write of the claim on `main`. -/
def toldMark (commit : CommitId) : (BranchId × Bytes) × CommitId :=
  ((MAIN, ascii "act_a wrote k " ++ emDash ++ ascii " i"), commit)

/-- The claim is on `main` and, from the same page, under another key on a fork. -/
def spreadLoom : Loom MemPager (Option Refs) :=
  memoryEngine.afterAll [.branch (memoryToken [MAIN]) MAIN (ascii "f"),
    .write (memoryToken [ascii "f"]) (ascii "f") [(ascii "l", .claim pageClaim)] ∅
      { memoryEnvelope (ascii "f") with derivedFrom := [claimPage] }] toldLoom

/-- The fork has the node of `main` too, and each of the two places is listed once. -/
theorem taint_listsOnce_fork :
    memoryEngine.Reachable memoryLawful spreadLoom ∧ ∃ plan stats,
      memoryEngine.taint claimPage spreadLoom = (.ok (plan, stats), spreadLoom) ∧
        plan.reversible.length = 2 ∧
        ListsOnce Platform.plain (ContaminatedNode memoryEngine spreadLoom claimPage)
          plan.reversible := by
  have hreachable : memoryEngine.Reachable memoryLawful spreadLoom :=
    (memoryLoom_reachable.called _).afterAll _
  have hapart : ToldApart Platform.plain
      ((branchNames spreadLoom).flatMap (foundOn memoryEngine spreadLoom claimPage)) := by
    decide +kernel
  have hlisted : (listedMarks spreadLoom).map List.length = some 2 := by decide +kernel
  obtain ⟨marks, hmarks, hlength⟩ := Option.map_eq_some_iff.mp hlisted
  obtain ⟨plan, stats, htaint, rfl⟩ := taint_of_listedMarks hmarks
  exact ⟨hreachable, plan, stats, htaint, by rwa [List.length_map] at hlength,
    (taint_listsOnce_iff hreachable htaint).mpr hapart⟩

/-- The claim is written from the page twice, and then the branch is forked. -/
def forkedLoom : Loom MemPager (Option Refs) :=
  memoryEngine.afterAll [
    .write (memoryToken [MAIN]) MAIN [(ascii "k", .claim pageClaim)] ∅ pageEnvelope,
    .branch (memoryToken [MAIN]) MAIN (ascii "f")] toldLoom

/-- Each of the two writes is listed again for the fork. -/
theorem not_listsOnce_forked :
    memoryEngine.Reachable memoryLawful forkedLoom ∧ ∃ plan stats,
      memoryEngine.taint claimPage forkedLoom = (.ok (plan, stats), forkedLoom) ∧
        plan.reversible.map ReversibleItem.mark =
          [toldMark 0, toldMark 1, toldMark 0, toldMark 1] ∧
        ¬ListsOnce Platform.plain (ContaminatedNode memoryEngine forkedLoom claimPage)
          plan.reversible := by
  have hreachable : memoryEngine.Reachable memoryLawful forkedLoom :=
    (memoryLoom_reachable.called _).afterAll _
  have hlisted : listedMarks forkedLoom =
      some [toldMark 0, toldMark 1, toldMark 0, toldMark 1] := by
    decide +kernel
  obtain ⟨plan, stats, htaint, hmarks⟩ := taint_of_listedMarks hlisted
  refine ⟨hreachable, plan, stats, htaint, hmarks, fun hlists => ?_⟩
  obtain ⟨items, hplan, hitems, hmem⟩ := taint_eq_ok hreachable htaint
  rw [hplan] at hlists hmarks
  have hnodup := hlists.nodup hmem hitems
  rw [hmarks] at hnodup
  simp at hnodup

end Engine

end LoomDB
