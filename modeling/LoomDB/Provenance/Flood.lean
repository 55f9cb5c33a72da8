import LoomDB.Foundations.Ancestry
import LoomDB.Provenance.Taint

/-!
# What a flood reaches

The walk down a derivation graph, when it returns, returns what can be reached from
the seeds, whatever the graph looks like. It returns unless a line of derivations
longer than it goes leads down from a seed.
-/

namespace LoomDB

open Std (ExtTreeMap ExtTreeSet)
open Ancestry (Ancestor walk)

/-- A node of the graph names the parent. -/
def Derives (nodes : NodeMap) (parent child : NodeId) : Prop :=
  ∃ (id : NodeId) (node : DerivationNode), nodes[id]? = some node ∧ parent ∈ node.derivedFrom ∧
    node.id = child

/-- Reached from a seed, from parent to child. -/
def Downstream (nodes : NodeMap) (seeds : ExtTreeSet NodeId) (id : NodeId) : Prop :=
  ∃ seed ∈ seeds, Relation.ReflTransGen (Derives nodes) seed id

abbrev ChildMap := ExtTreeMap NodeId (List NodeId)

/-- The children a map has for a node. -/
def childrenAt (children : ChildMap) (id : NodeId) : List NodeId :=
  (children[id]?).getD []

/-! ## Children -/

/-- One more child of a parent. -/
theorem childrenAt_insert (children : ChildMap) (parent child id : NodeId) :
    childrenAt (children.insert parent (childrenAt children parent ++ [child])) id =
      childrenAt children id ++ if parent = id then [child] else [] := by
  unfold childrenAt
  rw [OrderedMap.getElem?_insert]
  split
  · next heq => rw [heq, Option.getD_some]
  · rw [List.append_nil]

/-- The parents of a node get it as a child. -/
theorem mem_childrenAt_parents {parents : List NodeId} {children : ChildMap}
    {id child child' : NodeId} :
    child' ∈ childrenAt (parents.foldl (fun children parent =>
        children.insert parent (childrenAt children parent ++ [child])) children) id ↔
      child' ∈ childrenAt children id ∨ id ∈ parents ∧ child' = child := by
  induction parents generalizing children with
  | nil => simp
  | cons parent parents ih =>
      rw [List.foldl_cons, ih, childrenAt_insert, List.mem_append, List.mem_cons]
      by_cases heq : parent = id
      · simp [heq]
        tauto
      · simp [heq, Ne.symm heq]

theorem mem_childrenAt_nodes {entries : List (NodeId × DerivationNode)} {children : ChildMap}
    {parent child : NodeId} :
    child ∈ childrenAt (entries.foldl (fun children entry =>
        entry.2.derivedFrom.foldl (fun children parent =>
          children.insert parent (childrenAt children parent ++ [entry.2.id])) children)
        children) parent ↔
      child ∈ childrenAt children parent ∨
        ∃ entry ∈ entries, parent ∈ entry.2.derivedFrom ∧ entry.2.id = child := by
  induction entries generalizing children with
  | nil => simp
  | cons entry entries ih =>
      rw [List.foldl_cons, ih, mem_childrenAt_parents, or_assoc, @eq_comm _ child]
      simp only [List.mem_cons, exists_eq_or_imp]

/-- The children of a node are the nodes that name it. -/
theorem mem_childrenOf {nodes : NodeMap} {parent child : NodeId} :
    child ∈ childrenAt (childrenOf nodes) parent ↔ Derives nodes parent child := by
  have hfold : childrenOf nodes = nodes.toList.foldl (fun children entry =>
      entry.2.derivedFrom.foldl (fun children parent =>
        children.insert parent (childrenAt children parent ++ [entry.2.id])) children) ∅ :=
    ExtTreeMap.foldl_eq_foldl_toList
  rw [hfold, mem_childrenAt_nodes]
  have hnone : child ∉ childrenAt ∅ parent := by simp [childrenAt]
  constructor
  · rintro (hmem | ⟨⟨id, node⟩, hentry, hparent, hid⟩)
    · exact absurd hmem hnone
    · exact ⟨id, node, ExtTreeMap.mem_toList_iff_getElem?_eq_some.mp hentry, hparent, hid⟩
  · rintro ⟨id, node, hnode, hparent, hid⟩
    exact Or.inr ⟨(id, node), ExtTreeMap.mem_toList_iff_getElem?_eq_some.mpr hnode, hparent, hid⟩

/-! ## The walk -/

/-- A flood that returns is a walk. -/
theorem walk_of_floodFrom {children : ChildMap} {fuel : ℕ} {stack : List (NodeId × ℕ)}
    {contaminated found : ExtTreeSet NodeId}
    (hflood : floodFrom children fuel stack contaminated = .ok found) :
    walk (childrenAt children) fuel (stack.map Prod.fst) contaminated = some found := by
  fun_induction floodFrom children fuel stack contaminated with
  | case1 => cases hflood; simp [walk]
  | case2 => cases hflood
  | case3 => cases hflood
  | case4 contaminated fuel id depth stack _ hcontains ih =>
      rw [List.map_cons, walk, if_pos (ExtTreeSet.contains_iff_mem.mp hcontains)]
      exact ih hflood
  | case5 contaminated fuel id depth stack _ hcontains ih =>
      rw [List.map_cons, walk, if_neg fun hmem => hcontains (ExtTreeSet.contains_iff_mem.mpr hmem)]
      have hwalk := ih hflood
      rw [List.map_append, List.map_map] at hwalk
      simpa [Function.comp_def, childrenAt] using hwalk

/-- A flood that returns has found exactly what is downstream of the seeds. -/
theorem mem_floodDownstream {nodes : NodeMap} {seeds found : ExtTreeSet NodeId}
    (hflood : floodDownstream nodes seeds = .ok found) {id : NodeId} :
    id ∈ found ↔ Downstream nodes seeds id := by
  have hwalk := walk_of_floodFrom hflood
  rw [List.map_map, Function.comp_def, List.map_id'] at hwalk
  rw [Ancestry.mem_walk (by simp) hwalk]
  have hderives : (fun parent child => child ∈ childrenAt (childrenOf nodes) parent) =
      Derives nodes := by
    funext parent child
    exact propext mem_childrenOf
  simp only [ExtTreeSet.not_mem_empty, false_or, List.mem_reverse, ExtTreeSet.mem_toList,
    Ancestor, hderives, Downstream]

/-! ## Where it ends -/

/-- Every parent that a node names, as often as one does. -/
def namedParents (nodes : NodeMap) : List NodeId :=
  nodes.toList.flatMap fun entry => entry.2.derivedFrom

theorem length_childrenAt_parents {parents : List NodeId} {children : ChildMap}
    {id child : NodeId} :
    (childrenAt (parents.foldl (fun children parent =>
        children.insert parent (childrenAt children parent ++ [child])) children) id).length =
      (childrenAt children id).length + parents.count id := by
  induction parents generalizing children with
  | nil => rfl
  | cons parent parents ih =>
      rw [List.foldl_cons, ih, childrenAt_insert, List.length_append, List.count_cons]
      by_cases heq : parent = id
      · simp [heq]
        omega
      · simp [heq]

theorem length_childrenAt_nodes {entries : List (NodeId × DerivationNode)} {children : ChildMap}
    {id : NodeId} :
    (childrenAt (entries.foldl (fun children entry =>
        entry.2.derivedFrom.foldl (fun children parent =>
          children.insert parent (childrenAt children parent ++ [entry.2.id])) children)
        children) id).length =
      (childrenAt children id).length +
        (entries.flatMap fun entry => entry.2.derivedFrom).count id := by
  induction entries generalizing children with
  | nil => rfl
  | cons entry entries ih =>
      rw [List.foldl_cons, ih, length_childrenAt_parents, List.flatMap_cons, List.count_append]
      omega

/-- A node has a child for each time it is named. -/
theorem length_childrenOf (nodes : NodeMap) (id : NodeId) :
    (childrenAt (childrenOf nodes) id).length = (namedParents nodes).count id := by
  have hfold : childrenOf nodes = nodes.toList.foldl (fun children entry =>
      entry.2.derivedFrom.foldl (fun children parent =>
        children.insert parent (childrenAt children parent ++ [entry.2.id])) children) ∅ :=
    ExtTreeMap.foldl_eq_foldl_toList
  rw [hfold, length_childrenAt_nodes]
  simp [childrenAt, namedParents]

theorem floodLimit_eq (nodes : NodeMap) (seeds : ExtTreeSet NodeId) :
    floodLimit nodes seeds = seeds.size + (namedParents nodes).length := by
  have hsum : ∀ (entries : List (NodeId × DerivationNode)) (total : ℕ),
      entries.foldl (fun total entry => total + entry.2.derivedFrom.length) total =
        total + (entries.flatMap fun entry => entry.2.derivedFrom).length := by
    intro entries
    induction entries with
    | nil => exact fun total => rfl
    | cons entry entries ih =>
        intro total
        rw [List.foldl_cons, ih, List.flatMap_cons, List.length_append, Nat.add_assoc]
  rw [floodLimit, ExtTreeMap.foldl_eq_foldl_toList, hsum, namedParents]

/-- What is named and not yet visited gets less by what the next node is named. -/
theorem length_filter_insert (ids : List NodeId) {seen : ExtTreeSet NodeId} {id : NodeId}
    (hnew : id ∉ seen) :
    (ids.filter fun named => named ∉ seen.insert id).length + ids.count id =
      (ids.filter fun named => named ∉ seen).length := by
  induction ids with
  | nil => rfl
  | cons named ids ih =>
      have hvisited : named ∈ seen.insert id ↔ id = named ∨ named ∈ seen := by
        rw [ExtTreeSet.mem_insert, Std.compare_eq_iff_eq]
      rw [List.filter_cons, List.filter_cons, List.count_cons]
      by_cases heq : id = named
      · have hunseen : named ∉ seen := heq ▸ hnew
        rw [if_neg (by simp [heq]), if_pos (by simp [heq]), if_pos (by simp [hunseen]),
          List.length_cons, ← ih, Nat.add_assoc]
      · have hsame : named ∈ seen.insert id ↔ named ∈ seen := by
          rw [hvisited, or_iff_right heq]
        have hother : ¬(named == id) = true := by simpa using Ne.symm heq
        rw [if_neg hother, Nat.add_zero]
        by_cases hseen : named ∈ seen
        · rw [if_neg (by simp [hsame, hseen]), if_neg (by simp [hseen]), ih]
        · rw [if_pos (by simp [hsame, hseen]), if_pos (by simp [hseen]), List.length_cons,
            List.length_cons, ← ih]
          omega

/-- A flood that runs out is a walk that does. -/
theorem walk_of_floodFrom_panicked {children : ChildMap} {fuel : ℕ} {stack : List (NodeId × ℕ)}
    {contaminated : ExtTreeSet NodeId}
    (hflood : floodFrom children fuel stack contaminated = .error .panicked) :
    walk (childrenAt children) fuel (stack.map Prod.fst) contaminated = none := by
  fun_induction floodFrom children fuel stack contaminated with
  | case1 => cases hflood
  | case2 => rfl
  | case3 => cases hflood
  | case4 contaminated fuel id depth stack _ hcontains ih =>
      rw [List.map_cons, walk, if_pos (ExtTreeSet.contains_iff_mem.mp hcontains)]
      exact ih hflood
  | case5 contaminated fuel id depth stack _ hcontains ih =>
      rw [List.map_cons, walk, if_neg fun hmem => hcontains (ExtTreeSet.contains_iff_mem.mpr hmem)]
      have hwalk := ih hflood
      rw [List.map_append, List.map_map] at hwalk
      simpa [Function.comp_def, childrenAt] using hwalk

/-- A line of derivations, the last one first, down from a seed. -/
structure Line (nodes : NodeMap) (seeds : ExtTreeSet NodeId) (line : List NodeId) : Prop where
  derives : line.IsChain fun child parent => Derives nodes parent child
  seeded : ∃ seed ∈ seeds, line.getLast? = some seed

/-- The end of a line as long as the depth says. -/
def LineTo (nodes : NodeMap) (seeds : ExtTreeSet NodeId) (entry : NodeId × ℕ) : Prop :=
  ∃ line, Line nodes seeds (entry.1 :: line) ∧ line.length = entry.2

theorem LineTo.child {nodes : NodeMap} {seeds : ExtTreeSet NodeId} {id child : NodeId} {depth : ℕ}
    (hline : LineTo nodes seeds (id, depth)) (hchild : Derives nodes id child) :
    LineTo nodes seeds (child, depth + 1) := by
  obtain ⟨line, ⟨hderives, hseeded⟩, hlength⟩ := hline
  exact ⟨id :: line, ⟨.cons_cons hchild hderives, by rwa [List.getLast?_cons_cons]⟩,
    congrArg (· + 1) hlength⟩

/-- A flood gives up for depth only at the end of a line that is that long. -/
theorem line_of_floodFrom {nodes : NodeMap} {seeds : ExtTreeSet NodeId} {fuel depth : ℕ}
    {stack : List (NodeId × ℕ)} {contaminated : ExtTreeSet NodeId}
    (hstack : ∀ entry ∈ stack, LineTo nodes seeds entry)
    (hflood : floodFrom (childrenOf nodes) fuel stack contaminated =
      .error (.derivationCycle depth)) :
    depth = MAX_DERIVATION_DEPTH ∧
      ∃ line, Line nodes seeds line ∧ MAX_DERIVATION_DEPTH + 1 < line.length := by
  fun_induction floodFrom (childrenOf nodes) fuel stack contaminated with
  | case1 => cases hflood
  | case2 => cases hflood
  | case3 contaminated fuel id found stack hdeep =>
      cases hflood
      obtain ⟨line, hline, hlength⟩ := hstack _ List.mem_cons_self
      refine ⟨rfl, _, hline, ?_⟩
      rw [List.length_cons, hlength]
      omega
  | case4 contaminated fuel id found stack _ _ ih =>
      exact ih (fun entry hentry => hstack entry (List.mem_cons_of_mem _ hentry)) hflood
  | case5 contaminated fuel id found stack _ _ ih =>
      refine ih (fun entry hentry => ?_) hflood
      rcases List.mem_append.mp hentry with hentry | hentry
      · obtain ⟨child, hchild, rfl⟩ := List.mem_map.mp hentry
        exact (hstack _ List.mem_cons_self).child
          (mem_childrenOf.mp (List.mem_reverse.mp hchild))
      · exact hstack entry (List.mem_cons_of_mem _ hentry)

theorem floodFrom_eq_error {children : ChildMap} {fuel : ℕ} {stack : List (NodeId × ℕ)}
    {contaminated : ExtTreeSet NodeId} {error : LoomError}
    (hflood : floodFrom children fuel stack contaminated = .error error) :
    error = .panicked ∨ ∃ depth, error = .derivationCycle depth := by
  fun_induction floodFrom children fuel stack contaminated with
  | case1 => cases hflood
  | case2 => exact Or.inl (Except.error.inj hflood).symm
  | case3 => exact Or.inr ⟨_, (Except.error.inj hflood).symm⟩
  | case4 _ _ _ _ _ _ _ ih => exact ih hflood
  | case5 _ _ _ _ _ _ _ ih => exact ih hflood

/-- A flood that does not return was stopped by a line that is too long. -/
theorem floodDownstream_eq_error {nodes : NodeMap} {seeds : ExtTreeSet NodeId} {error : LoomError}
    (hflood : floodDownstream nodes seeds = .error error) :
    error = .derivationCycle MAX_DERIVATION_DEPTH ∧
      ∃ line, Line nodes seeds line ∧ MAX_DERIVATION_DEPTH + 1 < line.length := by
  rcases floodFrom_eq_error hflood with rfl | ⟨depth, rfl⟩
  · -- The walk has fuel for every seed and for every time a node is named.
    refine absurd (walk_of_floodFrom_panicked hflood) (Ancestry.walk_ne_none
      (fun seen => ((namedParents nodes).filter fun id => id ∉ seen).length)
      (fun seen id hnew => ?_) ?_)
    · rw [length_childrenOf, length_filter_insert _ hnew]
    · simp [floodLimit_eq]
  · have hseeds : ∀ entry ∈ seeds.toList.reverse.map fun id => (id, 0),
        LineTo nodes seeds entry := by
      intro entry hentry
      obtain ⟨seed, hseed, rfl⟩ := List.mem_map.mp hentry
      exact ⟨[], ⟨.singleton _, seed, ExtTreeSet.mem_toList.mp (List.mem_reverse.mp hseed), rfl⟩,
        rfl⟩
    obtain ⟨rfl, hline⟩ := line_of_floodFrom hseeds hflood
    exact ⟨rfl, hline⟩

/-- On every graph, whatever its nodes name, a flood ends: it finds exactly what is
downstream of the seeds, or it is stopped by a line that is too long. -/
theorem floodDownstream_cases (nodes : NodeMap) (seeds : ExtTreeSet NodeId) :
    (∃ found, floodDownstream nodes seeds = .ok found ∧
      ∀ id, id ∈ found ↔ Downstream nodes seeds id) ∨
    floodDownstream nodes seeds = .error (.derivationCycle MAX_DERIVATION_DEPTH) ∧
      ∃ line, Line nodes seeds line ∧ MAX_DERIVATION_DEPTH + 1 < line.length := by
  cases hflood : floodDownstream nodes seeds with
  | ok found => exact Or.inl ⟨found, rfl, fun id => mem_floodDownstream hflood⟩
  | error error =>
      obtain ⟨rfl, hline⟩ := floodDownstream_eq_error hflood
      exact Or.inr ⟨rfl, hline⟩

end LoomDB
