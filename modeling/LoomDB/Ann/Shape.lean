import LoomDB.Ann.Built

/-!
# The shape of a graph

A graph that inserts have built, of new items or of the same again, keeps its shape: its links lead
to other nodes that have the layer, no list is longer than its layer allows, and the entry goes as
high as any node. An insert gives a node its layers, and no later step takes one from it or adds one
to it; so what a list may hold does not change while it is linked anew.
-/

namespace LoomDB

variable {K : Type} {arithmetic : Arithmetic K}

namespace Hnsw

/-- How many layers each node has. -/
def heights (graph : Hnsw K) : List ℕ :=
  graph.nodes.map fun node => node.neighbours.length

/-- The node is there, and has the layer. -/
def HasLayer (graph : Hnsw K) (layer n : ℕ) : Prop :=
  ∃ height, graph.heights[n]? = some height ∧ layer < height

/-- The most links at a layer. -/
def maxDegree (layer : ℕ) : ℕ :=
  if layer = 0 then M_MAX0 else M

/-- A list that a node may have at a layer. -/
structure Suits (graph : Hnsw K) (layer n : ℕ) (list : List ℕ) : Prop where
  layered : ∀ m ∈ list, graph.HasLayer layer m
  others : n ∉ list
  few : list.length ≤ maxDegree layer

def Linked (graph : Hnsw K) : Prop :=
  ∀ layer n, graph.Suits layer n (graph.links layer n)

variable {graph after : Hnsw K}

/-! ## Layers -/

theorem hasLayer_iff {layer n : ℕ} :
    graph.HasLayer layer n ↔
      ∃ node, graph.nodes[n]? = some node ∧ layer < node.neighbours.length := by
  simp only [HasLayer, heights, List.getElem?_map, Option.map_eq_some_iff]
  constructor
  · rintro ⟨_, ⟨node, hnode, rfl⟩, hlayer⟩
    exact ⟨node, hnode, hlayer⟩
  · rintro ⟨node, hnode, hlayer⟩
    exact ⟨_, ⟨node, hnode, rfl⟩, hlayer⟩

theorem HasLayer.has {layer n : ℕ} (hlayer : graph.HasLayer layer n) : graph.Has n := by
  obtain ⟨node, hnode, -⟩ := hasLayer_iff.mp hlayer
  exact (List.getElem?_eq_some_iff.mp hnode).1

theorem HasLayer.mono {layer lower n : ℕ} (hlayer : graph.HasLayer layer n)
    (hlower : lower ≤ layer) : graph.HasLayer lower n := by
  obtain ⟨height, hheight, hlayer⟩ := hlayer
  exact ⟨height, hheight, hlower.trans_lt hlayer⟩

theorem HasLayer.le_levelAt {layer n : ℕ} (hlayer : graph.HasLayer layer n) :
    layer ≤ graph.levelAt n := by
  obtain ⟨node, hnode, hlayer⟩ := hasLayer_iff.mp hlayer
  rw [levelAt, hnode, Option.map_some, Option.getD_some]
  omega

theorem hasLayer_congr (hheights : after.heights = graph.heights) :
    after.HasLayer = graph.HasLayer := by
  funext layer n
  rw [HasLayer, HasLayer, hheights]

theorem Suits.congr (hheights : after.heights = graph.heights) {layer n : ℕ} {list : List ℕ}
    (hsuits : graph.Suits layer n list) : after.Suits layer n list :=
  ⟨hasLayer_congr hheights ▸ hsuits.layered, hsuits.others, hsuits.few⟩

theorem suits_nil (graph : Hnsw K) (layer n : ℕ) : graph.Suits layer n [] :=
  ⟨fun _ hm => absurd hm List.not_mem_nil, List.not_mem_nil, Nat.zero_le _⟩

theorem Linked.links_stay (hlinked : graph.Linked) {layer n : ℕ} :
    ∀ m ∈ graph.links layer n, graph.HasLayer layer m :=
  (hlinked layer n).layered

/-! ## Setting a list -/

theorem setLinks_heights (graph : Hnsw K) (layer n : ℕ) (list : List ℕ) :
    (graph.setLinks layer n list).heights = graph.heights := by
  apply List.ext_getElem?
  intro a
  simp only [heights, setLinks, List.getElem?_map, List.getElem?_modify]
  cases graph.nodes[a]? with
  | none => rfl
  | some node =>
      by_cases ha : n = a
      · simp [ha]
      · simp [ha]

theorem setLinks_setLinks (graph : Hnsw K) (layer n : ℕ) (first second : List ℕ) :
    (graph.setLinks layer n first).setLinks layer n second = graph.setLinks layer n second := by
  simp only [setLinks, List.modify_modify_eq]
  congr 2
  funext node
  simp only [Function.comp_apply, List.set_set]

theorem setLinks_linked (hlinked : graph.Linked) {layer n : ℕ} {list : List ℕ}
    (hlist : graph.Suits layer n list) : (graph.setLinks layer n list).Linked := by
  intro l a
  refine Suits.congr (setLinks_heights graph layer n list) ?_
  rcases graph.links_setLinks layer n list l a with hsame | ⟨rfl, rfl, hset⟩
  · rw [hsame]
    exact hlinked l a
  · rw [hset]
    exact hlist

theorem length_selectHeuristic (graph : Hnsw K) (candidates : List (ℕ × K)) (m : ℕ) :
    (graph.selectHeuristic arithmetic candidates m).length ≤ m := by
  have hfold : ∀ (entries : List (ℕ × K)) (kept : List ℕ), kept.length ≤ m →
      (entries.foldl (fun kept entry =>
        if kept.length ≥ m then kept
        else
          let redundant := kept.any fun r =>
            arithmetic.lt (graph.dist arithmetic entry.1 (graph.vector r)) entry.2
          if redundant then kept else kept ++ [entry.1]) kept).length ≤ m := by
    intro entries
    induction entries with
    | nil => exact fun kept hkept => hkept
    | cons entry entries ih =>
        intro kept hkept
        refine ih _ ?_
        dsimp only
        split
        · exact hkept
        next hroom =>
          split
          · exact hkept
          · rw [List.length_append, List.length_singleton]
            omega
  exact hfold candidates [] (Nat.zero_le m)

/-! ## Linking a node -/

section Linking

variable {idx layer n : ℕ} {middle : Hnsw K}

/-- The nodes have the layers that they had, and their links are in shape. -/
structure KeepsShape (graph after : Hnsw K) : Prop where
  heights : after.heights = graph.heights
  linked : after.Linked

theorem KeepsShape.hasLayer (hkeeps : KeepsShape graph after) : after.HasLayer = graph.HasLayer :=
  hasLayer_congr hkeeps.heights

theorem setLinks_keepsShape (hkeeps : KeepsShape graph middle) {list : List ℕ}
    (hlist : middle.Suits layer n list) : KeepsShape graph (middle.setLinks layer n list) :=
  ⟨(setLinks_heights middle layer n list).trans hkeeps.heights,
    setLinks_linked hkeeps.linked hlist⟩

/-- A list that gets one more is pruned if it becomes too long. -/
theorem backLink_keepsShape (arithmetic : Arithmetic K) (hkeeps : KeepsShape graph middle)
    (hidx : graph.HasLayer layer idx) (hother : idx ≠ n) :
    KeepsShape graph (backLink arithmetic idx layer (maxDegree layer) middle n) := by
  obtain ⟨hlayered, hothers, hfew⟩ := hkeeps.linked layer n
  have happend : ∀ m ∈ middle.links layer n ++ [idx], middle.HasLayer layer m ∧ n ≠ m := by
    intro m hm
    rcases List.mem_append.mp hm with hm | hm
    · exact ⟨hlayered m hm, fun heq => hothers (heq ▸ hm)⟩
    · obtain rfl := List.mem_singleton.mp hm
      exact ⟨hkeeps.hasLayer ▸ hidx, hother.symm⟩
  have hsuits : ∀ list ⊆ middle.links layer n ++ [idx], list.length ≤ maxDegree layer →
      middle.Suits layer n list := fun list hlist hlength =>
    ⟨fun m hm => (happend m (hlist hm)).1, fun hn => (happend n (hlist hn)).2 rfl, hlength⟩
  unfold backLink
  change KeepsShape graph (if idx ∈ middle.links layer n then middle else _)
  split
  · exact hkeeps
  · dsimp only
    split
    · change KeepsShape graph ((middle.setLinks layer n (middle.links layer n ++ [idx])).setLinks
        layer n _)
      rw [setLinks_setLinks]
      refine setLinks_keepsShape hkeeps (hsuits _ (fun m hm => ?_) (length_selectHeuristic _ _ _))
      obtain ⟨entry, hentry, rfl⟩ := List.mem_map.mp (mem_selectHeuristic hm)
      have hranked := (Comparison.perm_insertionSort _ _).mem_iff.mp hentry
      obtain ⟨link, hlink, rfl⟩ := List.mem_map.mp hranked
      exact hlink
    next hroom =>
      refine setLinks_keepsShape hkeeps (hsuits _ (List.Subset.refl _) (Nat.le_of_not_lt hroom))

theorem foldl_backLink_keepsShape (arithmetic : Arithmetic K) (hidx : graph.HasLayer layer idx)
    {selected : List ℕ} (hkeeps : KeepsShape graph middle) (hothers : idx ∉ selected) :
    KeepsShape graph (selected.foldl (backLink arithmetic idx layer (maxDegree layer)) middle) := by
  induction selected generalizing middle with
  | nil => exact hkeeps
  | cons n selected ih =>
      have hother : idx ≠ n := fun heq => hothers (heq ▸ List.mem_cons_self)
      exact ih (backLink_keepsShape arithmetic hkeeps hidx hother)
        fun hmem => hothers (List.mem_cons_of_mem n hmem)

/-- A search of a layer leaves the nodes and their ids. -/
theorem searchLayer_nodes {query : Embedding K} {start ef : ℕ} {found : List (ℕ × K)}
    (hfound : graph.searchLayer arithmetic query [start] ef layer = some (found, after)) :
    after.nodes = graph.nodes ∧ after.ids = graph.ids := by
  rw [searchLayer_eq] at hfound
  obtain ⟨final, -, heq⟩ := Option.map_eq_some_iff.mp hfound
  cases heq
  exact ⟨rfl, rfl⟩

/-- Links are a matter of the nodes alone. -/
theorem linked_congr (hnodes : after.nodes = graph.nodes) (hlinked : graph.Linked) :
    KeepsShape graph after := by
  have hheights : after.heights = graph.heights := by rw [heights, heights, hnodes]
  refine ⟨hheights, fun layer n => Suits.congr hheights ?_⟩
  have hsame : after.links layer n = graph.links layer n := by
    rw [links, links, links?, links?, hnodes]
  rw [hsame]
  exact hlinked layer n

/-- What is selected among what a search of a layer finds is a list for the node. -/
theorem selected_keepsShape {query : Embedding K} {current ef : ℕ} {found : List (ℕ × K)}
    (hlinked : graph.Linked) (hcurrent : graph.HasLayer layer current)
    (hfound : graph.searchLayer arithmetic query [current] ef layer = some (found, middle)) :
    (∀ entry ∈ found.filter fun entry => entry.1 ≠ idx,
      graph.HasLayer layer entry.1 ∧ idx ≠ entry.1) ∧
    (∀ n ∈ middle.selectHeuristic arithmetic (found.filter fun entry => entry.1 ≠ idx) M,
      graph.HasLayer layer n ∧ idx ≠ n) ∧
    KeepsShape graph (middle.setLinks layer idx
      (middle.selectHeuristic arithmetic (found.filter fun entry => entry.1 ≠ idx) M)) := by
  obtain ⟨hstays, -⟩ := searchLayer_stays (fun n _ => hlinked.links_stay) hcurrent hfound
  have hkeeps := linked_congr (searchLayer_nodes hfound).1 hlinked
  have hothers : ∀ entry ∈ found.filter fun entry => entry.1 ≠ idx,
      graph.HasLayer layer entry.1 ∧ idx ≠ entry.1 := by
    intro entry hentry
    obtain ⟨hentry, hne⟩ := List.mem_filter.mp hentry
    exact ⟨hstays entry hentry, Ne.symm (of_decide_eq_true hne)⟩
  have hselected : ∀ n ∈ middle.selectHeuristic arithmetic
      (found.filter fun entry => entry.1 ≠ idx) M, graph.HasLayer layer n ∧ idx ≠ n := by
    intro n hn
    obtain ⟨entry, hentry, rfl⟩ := List.mem_map.mp (mem_selectHeuristic hn)
    exact hothers entry hentry
  refine ⟨hothers, hselected, setLinks_keepsShape hkeeps ⟨?_, ?_, ?_⟩⟩
  · exact fun m hm => hkeeps.hasLayer ▸ (hselected m hm).1
  · exact fun hmem => (hselected idx hmem).2 rfl
  · refine (length_selectHeuristic ..).trans ?_
    unfold maxDegree
    split
    · decide
    · exact Nat.le_refl M

theorem linkLayer_keepsShape {query : Embedding K} {current next : ℕ} (hlinked : graph.Linked)
    (hidx : graph.HasLayer layer idx) (hcurrent : graph.HasLayer layer current)
    (hstep : linkLayer arithmetic idx query (graph, current) layer = some (after, next)) :
    KeepsShape graph after ∧ graph.HasLayer layer next := by
  unfold linkLayer at hstep
  obtain ⟨⟨found, searched⟩, hfound, hstep⟩ := Option.bind_eq_some_iff.mp hstep
  cases hstep
  obtain ⟨hothers, hselected, hkeeps⟩ := selected_keepsShape hlinked hcurrent hfound
  constructor
  · exact foldl_backLink_keepsShape arithmetic hidx hkeeps fun hmem => (hselected idx hmem).2 rfl
  · cases hhead : (found.filter fun entry => entry.1 ≠ idx).head? with
    | none => exact hcurrent
    | some entry => exact (hothers entry (List.mem_of_mem_head? hhead)).1

/-- Going down from a layer, a walk comes to nodes that have the layers still to come. -/
theorem descend_hasLayer (hlinked : graph.Linked) {query : Embedding K} {bottom : ℕ}
    {layers : List ℕ} (hdown : layers.Pairwise fun upper lower => lower ≤ upper)
    (hbottom : ∀ layer ∈ layers, bottom ≤ layer) {start found : ℕ}
    (hstart : ∀ layer ∈ layers, graph.HasLayer layer start) (hend : graph.HasLayer bottom start)
    (hfound : graph.descend arithmetic query layers start = some found) :
    graph.HasLayer bottom found := by
  unfold descend at hfound
  induction layers generalizing start with
  | nil =>
      cases hfound
      exact hend
  | cons layer layers ih =>
      obtain ⟨hlower, hdown⟩ := List.pairwise_cons.mp hdown
      obtain ⟨hlayer, hbottom⟩ := List.forall_mem_cons.mp hbottom
      rw [List.foldlM_cons] at hfound
      obtain ⟨next, hnext, hrest⟩ := Option.bind_eq_some_iff.mp hfound
      have hreached : graph.HasLayer layer next := by
        rw [greedyClosest, greedyLoop_eq] at hnext
        exact BestFirst.greedy_stays (fun n _ => hlinked.links_stay)
          (hstart layer List.mem_cons_self) hnext
      exact ih hdown hbottom (fun lower hmem => hreached.mono (hlower lower hmem))
        (hreached.mono hlayer) hrest

theorem linkLayers_keepsShape {query : Embedding K} {current next : ℕ} {layers : List ℕ}
    (hdown : layers.Pairwise fun upper lower => lower ≤ upper) (hlinked : graph.Linked)
    (hidx : ∀ layer ∈ layers, graph.HasLayer layer idx)
    (hcurrent : ∀ layer ∈ layers, graph.HasLayer layer current)
    (hlinks : layers.foldlM (linkLayer arithmetic idx query) (graph, current) =
      some (after, next)) :
    KeepsShape graph after := by
  induction layers generalizing graph current with
  | nil =>
      cases hlinks
      exact ⟨rfl, hlinked⟩
  | cons layer layers ih =>
      obtain ⟨hlower, hdown⟩ := List.pairwise_cons.mp hdown
      obtain ⟨hlayer, hidx⟩ := List.forall_mem_cons.mp hidx
      rw [List.foldlM_cons] at hlinks
      obtain ⟨⟨linked, reached⟩, hstep, hrest⟩ := Option.bind_eq_some_iff.mp hlinks
      obtain ⟨hkeeps, hreached⟩ := linkLayer_keepsShape hlinked hlayer
        (hcurrent layer List.mem_cons_self) hstep
      rw [← hkeeps.hasLayer] at hreached
      obtain ⟨hheights, hlinked⟩ := ih hdown hkeeps.linked
        (fun lower hmem => hkeeps.hasLayer ▸ hidx lower hmem)
        (fun lower hmem => hreached.mono (hlower lower hmem)) hrest
      exact ⟨hheights.trans hkeeps.heights, hlinked⟩

theorem pairwise_reverse_range' (start count : ℕ) :
    (List.range' start count).reverse.Pairwise fun upper lower => lower ≤ upper :=
  List.pairwise_reverse.mpr List.pairwise_le_range'

theorem pairwise_reverse_range (count : ℕ) :
    (List.range count).reverse.Pairwise fun upper lower => lower ≤ upper := by
  rw [List.range_eq_range']
  exact pairwise_reverse_range' 0 count

theorem mem_reverse_range {level top layer : ℕ}
    (hlayer : layer ∈ (List.range (min level top + 1)).reverse) : layer ≤ level ∧ layer ≤ top := by
  have hlt := List.mem_range.mp (List.mem_reverse.mp hlayer)
  omega

/-- From the top down to a level: there the walk is at a node that has all the layers below. -/
theorem descend_reaches (hlinked : graph.Linked) {top entry : ℕ} (htop : graph.HasLayer top entry)
    {query : Embedding K} {level found : ℕ}
    (hfound : graph.descend arithmetic query (List.range' (level + 1) (top - level)).reverse entry =
      some found) :
    ∀ layer ∈ (List.range (min level top + 1)).reverse, graph.HasLayer layer found := by
  have hreached : graph.HasLayer (min level top) found := by
    refine descend_hasLayer hlinked (pairwise_reverse_range' ..) (fun layer hmem => ?_)
      (fun layer hmem => htop.mono ?_) (htop.mono (Nat.min_le_right _ _)) hfound
    · obtain ⟨hlow, -⟩ := List.mem_range'_1.mp (List.mem_reverse.mp hmem)
      omega
    · obtain ⟨hlow, hhigh⟩ := List.mem_range'_1.mp (List.mem_reverse.mp hmem)
      omega
  intro layer hlayer
  obtain ⟨hlevel, htop⟩ := mem_reverse_range hlayer
  exact hreached.mono (Nat.le_min.mpr ⟨hlevel, htop⟩)

theorem relink_keepsShape {entry : ℕ} (hentry : graph.entry = some entry)
    (htop : graph.HasLayer graph.maxLevel entry) (hlinked : graph.Linked)
    (hidx : graph.HasLayer (graph.levelAt idx) idx)
    (hrelink : graph.relink arithmetic idx = some after) : KeepsShape graph after := by
  unfold relink at hrelink
  rw [hentry] at hrelink
  obtain ⟨current, hcurrent, hrelink⟩ := Option.bind_eq_some_iff.mp hrelink
  obtain ⟨⟨linked, next⟩, hloop, heq⟩ := Option.bind_eq_some_iff.mp hrelink
  cases heq
  exact linkLayers_keepsShape (pairwise_reverse_range _) hlinked
    (fun layer hmem => hidx.mono (mem_reverse_range hmem).1)
    (descend_reaches hlinked htop hcurrent) hloop

end Linking

/-! ## What an insert does -/

/-- The graph with a node that has a new vector and no links. -/
def replaced (graph : Hnsw K) (idx : ℕ) (unit : Embedding K) : Hnsw K :=
  { graph with
    dim := some unit.length
    nodes := graph.nodes.modify idx (HnswNode.cleared unit) }

/-- The graph with a node of a level for its entry. -/
def entered (graph : Hnsw K) (idx level : ℕ) : Hnsw K :=
  { graph with entry := some idx, maxLevel := level }

/-- A vector is refused, a node that is there is linked anew, the first node becomes the entry, or a
new node is linked and becomes the entry if it goes higher. -/
inductive Inserts (arithmetic : Arithmetic K) (levelOf : ItemId → ℕ) (graph : Hnsw K) (id : ItemId) :
    Option (Bool × Hnsw K) → Prop
  | refused : Inserts arithmetic levelOf graph id (some (false, graph))
  | known {unit : Embedding K} {idx : ℕ} : graph.idToIndex[id]? = some idx →
      Inserts arithmetic levelOf graph id
        (((graph.replaced idx unit).relink arithmetic idx).map fun linked => (true, linked))
  | first {unit : Embedding K} : graph.idToIndex[id]? = none → graph.entry = none →
      Inserts arithmetic levelOf graph id (some (true,
        (graph.withItem id unit (levelOf id)).entered graph.nodes.length (levelOf id)))
  | linked {unit : Embedding K} {entry : ℕ} : graph.idToIndex[id]? = none →
      graph.entry = some entry → Inserts arithmetic levelOf graph id
        (((graph.withItem id unit (levelOf id)).relink arithmetic graph.nodes.length).map
          fun linked => (true, if levelOf id > linked.maxLevel then
            linked.entered graph.nodes.length (levelOf id) else linked))

theorem insert_inserts (arithmetic : Arithmetic K) (levelOf : ItemId → ℕ) (graph : Hnsw K)
    (id : ItemId) (vector : Embedding K) :
    Inserts arithmetic levelOf graph id (graph.insert arithmetic levelOf id vector) := by
  unfold insert
  split
  · exact .refused
  next unit hunit =>
    split
    · exact .refused
    · dsimp only
      cases hindex : graph.idToIndex[id]? with
      | some idx =>
          have hknown : Inserts arithmetic levelOf graph id
              (((graph.replaced idx unit).relink arithmetic idx).map fun linked =>
                (true, linked)) := .known hindex
          rw [Option.map_eq_bind] at hknown
          exact hknown
      | none =>
          dsimp only
          split
          next hempty => exact .first hindex hempty
          next hnonempty =>
            obtain ⟨entry, hentry⟩ := Option.ne_none_iff_exists'.mp hnonempty
            have hlinked : Inserts arithmetic levelOf graph id
                (((graph.withItem id unit (levelOf id)).relink arithmetic
                  graph.nodes.length).map fun linked =>
                    (true, if levelOf id > linked.maxLevel then
                      linked.entered graph.nodes.length (levelOf id) else linked)) :=
              .linked hindex hentry
            rw [Option.map_eq_bind] at hlinked
            have hnext : (Option.some ∘ fun linked : Hnsw K =>
                (true, if levelOf id > linked.maxLevel then
                  linked.entered graph.nodes.length (levelOf id) else linked)) =
                fun linked => if levelOf id > linked.maxLevel then
                  some (true, linked.entered graph.nodes.length (levelOf id))
                else some (true, linked) := by
              funext linked
              dsimp only [Function.comp_apply]
              split
              · rfl
              · rfl
            rw [hnext] at hlinked
            exact hlinked

/-! ## The shape -/

/-- What a graph keeps also while a node is linked. -/
structure Placed (graph : Hnsw K) : Prop where
  ids : graph.ids.length = graph.nodes.length
  known : ∀ (id : ItemId) (idx : ℕ), graph.idToIndex[id]? = some idx → graph.Has idx
  layered : ∀ height ∈ graph.heights, 0 < height
  linked : graph.Linked

/-- A node can be linked from the entry on. -/
structure Linkable (graph : Hnsw K) (idx : ℕ) : Prop extends Placed graph where
  has : graph.Has idx
  top : ∃ entry, graph.entry = some entry ∧ graph.HasLayer graph.maxLevel entry

/-- The shape of a graph between two inserts. -/
structure Formed (graph : Hnsw K) : Prop extends Placed graph where
  entry : ∀ entry, graph.entry = some entry → graph.HasLayer graph.maxLevel entry
  highest : ∀ height ∈ graph.heights, height ≤ graph.maxLevel + 1
  started : graph.entry = none → graph.nodes = []

theorem length_heights (graph : Hnsw K) : graph.heights.length = graph.nodes.length :=
  List.length_map ..

theorem levelAt_eq (graph : Hnsw K) (n : ℕ) :
    graph.levelAt n = (graph.heights[n]?).getD 0 - 1 := by
  rw [levelAt, heights, List.getElem?_map]

theorem heights_replaced (graph : Hnsw K) (idx : ℕ) (unit : Embedding K) :
    (graph.replaced idx unit).heights = graph.heights := by
  apply List.ext_getElem?
  intro a
  simp only [heights, replaced, List.getElem?_map, List.getElem?_modify]
  cases graph.nodes[a]? with
  | none => rfl
  | some node =>
      by_cases ha : idx = a
      · simp [ha, HnswNode.cleared]
      · simp [ha]

theorem heights_withItem (graph : Hnsw K) (id : ItemId) (unit : Embedding K) (level : ℕ) :
    (graph.withItem id unit level).heights = graph.heights ++ [level + 1] := by
  simp [heights, withItem, HnswNode.fresh]

/-- A new node takes no layer from the others. -/
theorem hasLayer_withItem {layer n : ℕ} (hlayer : graph.HasLayer layer n) (id : ItemId)
    (unit : Embedding K) (level : ℕ) : (graph.withItem id unit level).HasLayer layer n := by
  obtain ⟨height, hheight, hlayer⟩ := hlayer
  refine ⟨height, ?_, hlayer⟩
  rw [heights_withItem, List.getElem?_append_left (List.getElem?_eq_some_iff.mp hheight).1]
  exact hheight

theorem hasLayer_last (graph : Hnsw K) (id : ItemId) (unit : Embedding K) (level : ℕ) :
    (graph.withItem id unit level).HasLayer level graph.nodes.length := by
  refine ⟨level + 1, ?_, Nat.lt_succ_self level⟩
  rw [heights_withItem, ← length_heights, List.getElem?_concat_length]

theorem levelAt_last (graph : Hnsw K) (id : ItemId) (unit : Embedding K) (level : ℕ) :
    (graph.withItem id unit level).levelAt graph.nodes.length = level := by
  rw [levelAt_eq, heights_withItem, ← length_heights, List.getElem?_concat_length,
    Option.getD_some, Nat.add_sub_cancel]

namespace Placed

theorem hasLayer_levelAt (hplaced : graph.Placed) {n : ℕ} (hn : graph.Has n) :
    graph.HasLayer (graph.levelAt n) n := by
  have hlength : n < graph.heights.length := graph.length_heights ▸ hn
  have hheight : graph.heights[n]? = some graph.heights[n] := List.getElem?_eq_getElem hlength
  have hpositive := hplaced.layered _ (List.mem_of_getElem? hheight)
  refine ⟨_, hheight, ?_⟩
  rw [levelAt_eq, hheight, Option.getD_some]
  omega

theorem linksIn (hplaced : graph.Placed) : graph.LinksIn graph.Has :=
  fun _ _ m hm => (hplaced.linked.links_stay m hm).has

theorem relinked (hplaced : graph.Placed) (hrewires : Rewires graph after)
    (hkeeps : KeepsShape graph after) : after.Placed where
  ids := by rw [hrewires.ids, hrewires.length, hplaced.ids]
  known := by
    rw [hrewires.idToIndex, hrewires.has]
    exact hplaced.known
  layered := hkeeps.heights ▸ hplaced.layered
  linked := hkeeps.linked

/-- Clearing the links of a node takes nothing from the shape. -/
theorem replaced (hplaced : graph.Placed) (idx : ℕ) (unit : Embedding K) :
    (graph.replaced idx unit).Placed := by
  have hheights := graph.heights_replaced idx unit
  refine ⟨?_, ?_, hheights ▸ hplaced.layered, fun layer n => Suits.congr hheights ?_⟩
  · rw [Hnsw.replaced, List.length_modify]
    exact hplaced.ids
  · intro id known hknown
    rw [Has, Hnsw.replaced, List.length_modify]
    exact hplaced.known id known hknown
  · by_cases hn : idx = n
    · have hnone : (graph.replaced idx unit).links layer n = [] := by
        simp only [links, links?, Hnsw.replaced, List.getElem?_modify, if_pos hn]
        cases graph.nodes[n]? with
        | none => rfl
        | some node =>
            by_cases hlayer : layer < node.neighbours.length
            · simp [HnswNode.cleared, hlayer]
            · simp [HnswNode.cleared, hlayer]
      rw [hnone]
      exact suits_nil graph layer n
    · have hsame : (graph.replaced idx unit).links layer n = graph.links layer n := by
        simp only [links, links?, Hnsw.replaced, List.getElem?_modify, if_neg hn]
        simp
      rw [hsame]
      exact hplaced.linked layer n

/-- A new node has no links, and no links lead to it. -/
theorem withItem (hplaced : graph.Placed) (id : ItemId) (unit : Embedding K) (level : ℕ) :
    (graph.withItem id unit level).Placed where
  ids := by simp [Hnsw.withItem, hplaced.ids]
  known := fun other idx hidx => by
    simp only [Has, Hnsw.withItem, List.length_append, List.length_singleton]
    rw [Hnsw.withItem, OrderedMap.getElem?_insert] at hidx
    split at hidx
    next =>
      cases hidx
      exact Nat.lt_succ_self _
    next => exact (hplaced.known other idx hidx).trans (Nat.lt_succ_self _)
  layered := by
    rw [heights_withItem]
    intro height hheight
    rcases List.mem_append.mp hheight with hold | hnew
    · exact hplaced.layered height hold
    · obtain rfl := List.mem_singleton.mp hnew
      exact Nat.succ_pos level
  linked := fun layer n => by
    have hlist : (graph.withItem id unit level).links layer n = graph.links layer n := by
      simp only [links, links?, Hnsw.withItem]
      rcases Nat.lt_trichotomy n graph.nodes.length with hn | rfl | hn
      · rw [List.getElem?_append_left hn]
      · rw [List.getElem?_concat_length, List.getElem?_eq_none (Nat.le_refl _)]
        by_cases hlayer : layer < level + 1
        · simp [HnswNode.fresh, hlayer]
        · simp [HnswNode.fresh, hlayer]
      · rw [List.getElem?_eq_none (by simp; omega), List.getElem?_eq_none (Nat.le_of_lt hn)]
    obtain ⟨hlayered, hothers, hfew⟩ := hplaced.linked layer n
    rw [hlist]
    exact ⟨fun m hm => hasLayer_withItem (hlayered m hm) id unit level, hothers, hfew⟩

end Placed

namespace Formed

variable {id : ItemId} {idx : ℕ}

theorem replaced (hformed : graph.Formed) (hknown : graph.idToIndex[id]? = some idx)
    (unit : Embedding K) : (graph.replaced idx unit).Linkable idx := by
  have hidx := hformed.known id idx hknown
  refine ⟨hformed.toPlaced.replaced idx unit, ?_, ?_⟩
  · rw [Has, Hnsw.replaced, List.length_modify]
    exact hidx
  · cases hentry : graph.entry with
    | none =>
        rw [Has, hformed.started hentry] at hidx
        exact absurd hidx (Nat.not_lt_zero idx)
    | some entry =>
        refine ⟨entry, hentry, ?_⟩
        rw [hasLayer_congr (graph.heights_replaced idx unit)]
        exact hformed.entry entry hentry

theorem withItem (hformed : graph.Formed) {entry : ℕ} (hentry : graph.entry = some entry)
    (id : ItemId) (unit : Embedding K) (level : ℕ) :
    (graph.withItem id unit level).Linkable graph.nodes.length :=
  ⟨hformed.toPlaced.withItem id unit level, (hasLayer_last graph id unit level).has, entry, hentry,
    hasLayer_withItem (hformed.entry entry hentry) id unit level⟩

theorem levelAt_le (hformed : graph.Formed) {n : ℕ} (hn : graph.Has n) :
    graph.levelAt n ≤ graph.maxLevel := by
  obtain ⟨height, hheight, -⟩ := hformed.hasLayer_levelAt hn
  have hhighest := hformed.highest height (List.mem_of_getElem? hheight)
  rw [levelAt_eq, hheight, Option.getD_some]
  omega

end Formed

/-! ## Runs -/

/-- The level of an item that is inserted: that of its node, if it has one. -/
def insertLevel (graph : Hnsw K) (levelOf : ItemId → ℕ) (id : ItemId) : ℕ :=
  (graph.idToIndex[id]?.map graph.levelAt).getD (levelOf id)

/-- How many layers a query searches: the lowest one, unless there is nothing to find. -/
def querySearches (arithmetic : Arithmetic K) (graph : Hnsw K) (query : Embedding K) (k : ℕ) : ℕ :=
  if graph.entry = none ∨ graph.dim ≠ some query.length ∨ k = 0 ∨
    query.normalized arithmetic = none then 0 else 1

/-- A graph that a run of inserts and searches has left, and how often a layer was searched. -/
inductive Ran (arithmetic : Arithmetic K) (levelOf : ItemId → ℕ) : ℕ → Hnsw K → Prop
  | empty : Ran arithmetic levelOf 0 Hnsw.empty
  | insert {searches : ℕ} {graph after : Hnsw K} {id : ItemId} {vector : Embedding K}
      {accepted : Bool} : Ran arithmetic levelOf searches graph →
      graph.insert arithmetic levelOf id vector = some (accepted, after) →
      Ran arithmetic levelOf
        (searches + graph.insertSearches (graph.insertLevel levelOf id) accepted) after
  | search {searches : ℕ} {graph after : Hnsw K} {query : Embedding K} {k ef : ℕ}
      {found : List (ItemId × K)} : Ran arithmetic levelOf searches graph →
      graph.search arithmetic query k ef = some (found, after) →
      Ran arithmetic levelOf (searches + graph.querySearches arithmetic query k) after

/-- Inserts one after the other, refused or not. -/
def insertAll (arithmetic : Arithmetic K) (levelOf : ItemId → ℕ)
    (items : List (ItemId × Embedding K)) (graph : Hnsw K) : Option (Hnsw K) :=
  items.foldlM (fun graph (id, vector) =>
    (graph.insert arithmetic levelOf id vector).map Prod.snd) graph

section Steps

variable {levelOf : ItemId → ℕ} {id : ItemId} {vector : Embedding K} {searches : ℕ}

/-- A node that can be linked is linked at the layers that there are. -/
theorem relink_placed {idx : ℕ} (hlinkable : graph.Linkable idx)
    (hmarked : graph.MarkedBelow searches) (hrelink : graph.relink arithmetic idx = some after) :
    after.Placed ∧ Rewires graph after ∧ after.heights = graph.heights ∧
      after.MarkedBelow (searches + (min (graph.levelAt idx) graph.maxLevel + 1)) := by
  obtain ⟨hplaced, hidx, entry, hentry, htop⟩ := hlinkable
  have hkeeps := relink_keepsShape hentry htop hplaced.linked (hplaced.hasLayer_levelAt hidx)
    hrelink
  obtain ⟨hrewires, -, hmarked⟩ :=
    relink_changes hentry htop.has hplaced.linksIn hidx hmarked hrelink
  exact ⟨hplaced.relinked hrewires hkeeps, hrewires, hkeeps.heights, hmarked⟩

theorem formed_empty : (Hnsw.empty : Hnsw K).Formed where
  ids := rfl
  known := fun id idx hknown => by simp [Hnsw.empty] at hknown
  layered := fun _ hheight => absurd hheight List.not_mem_nil
  linked := fun layer n => suits_nil _ layer n
  entry := fun _ hentry => nomatch hentry
  highest := fun _ hheight => absurd hheight List.not_mem_nil
  started := fun _ => rfl

theorem replaced_marked (hmarked : graph.MarkedBelow searches) (idx : ℕ) (unit : Embedding K) :
    (graph.replaced idx unit).MarkedBelow searches := by
  refine ⟨?_, hmarked.epoch, hmarked.marks⟩
  rw [replaced, List.length_modify]
  exact hmarked.length

/-- A node that is there is linked anew. -/
theorem replaced_formed {idx : ℕ} {unit : Embedding K} (hformed : graph.Formed)
    (hknown : graph.idToIndex[id]? = some idx) (hmarked : graph.MarkedBelow searches)
    (hrelink : (graph.replaced idx unit).relink arithmetic idx = some after) :
    after.Formed ∧ after.MarkedBelow
      (searches + graph.insertSearches (graph.insertLevel levelOf id) true) := by
  have hlinkable := hformed.replaced hknown unit
  have hheights := graph.heights_replaced idx unit
  obtain ⟨entry, hentry, -⟩ := hlinkable.top
  have hentry : graph.entry = some entry := hentry
  obtain ⟨hplaced, hrewires, hlinked, hmarked⟩ :=
    relink_placed hlinkable (replaced_marked hmarked idx unit) hrelink
  have hsame : after.heights = graph.heights := hlinked.trans hheights
  have hafter : after.entry = graph.entry := hrewires.entry
  have hmaxLevel : after.maxLevel = graph.maxLevel := hrewires.maxLevel
  refine ⟨⟨hplaced, ?_, ?_, ?_⟩, ?_⟩
  · rw [hafter, hmaxLevel, hasLayer_congr hsame]
    exact hformed.entry
  · rw [hsame, hmaxLevel]
    exact hformed.highest
  · exact fun hnone => nomatch hnone.symm.trans (hafter.trans hentry)
  · rw [insertSearches, insertLevel, hknown, hentry, Option.map_some, Option.getD_some]
    rw [levelAt_eq, hheights, ← levelAt_eq] at hmarked
    exact hmarked

theorem length_withItem (graph : Hnsw K) (id : ItemId) (unit : Embedding K) (level : ℕ) :
    graph.nodes.length ≤ (graph.withItem id unit level).nodes.length := by
  rw [withItem, List.length_append]
  exact Nat.le_add_right _ _

theorem withItem_marked (hmarked : graph.MarkedBelow searches) (id : ItemId) (unit : Embedding K)
    (level : ℕ) : (graph.withItem id unit level).MarkedBelow searches :=
  ⟨hmarked.length.trans (length_withItem graph id unit level), hmarked.epoch, hmarked.marks⟩

/-- A node that goes highest is an entry for the shape. -/
theorem entered_formed {idx level : ℕ} (hplaced : graph.Placed) (hidx : graph.HasLayer level idx)
    (hhighest : ∀ height ∈ graph.heights, height ≤ level + 1) :
    (graph.entered idx level).Formed where
  ids := hplaced.ids
  known := hplaced.known
  layered := hplaced.layered
  linked := by
    have hnodes : (graph.entered idx level).nodes = graph.nodes := rfl
    exact (linked_congr hnodes hplaced.linked).linked
  entry := fun entry hentry => by
    cases hentry
    exact hidx
  highest := hhighest
  started := fun hnone => nomatch hnone

theorem first_formed {unit : Embedding K} (hformed : graph.Formed) (hentry : graph.entry = none)
    (level : ℕ) : ((graph.withItem id unit level).entered graph.nodes.length level).Formed := by
  refine entered_formed (hformed.toPlaced.withItem id unit level)
    (hasLayer_last graph id unit level) fun height hheight => ?_
  rw [heights_withItem, heights, hformed.started hentry] at hheight
  exact (List.mem_singleton.mp hheight).le

/-- A new node is linked, and becomes the entry if it goes higher. -/
theorem linked_formed {unit : Embedding K} {entry : ℕ} {linked : Hnsw K} (hformed : graph.Formed)
    (hnew : graph.idToIndex[id]? = none) (hentry : graph.entry = some entry)
    (hmarked : graph.MarkedBelow searches)
    (hrelink : (graph.withItem id unit (levelOf id)).relink arithmetic graph.nodes.length =
      some linked) :
    (if levelOf id > linked.maxLevel then linked.entered graph.nodes.length (levelOf id)
        else linked).Formed ∧
      linked.MarkedBelow
        (searches + graph.insertSearches (graph.insertLevel levelOf id) true) := by
  have hlast := hasLayer_last graph id unit (levelOf id)
  have htop := hasLayer_withItem (hformed.entry entry hentry) id unit (levelOf id)
  obtain ⟨hplaced, hrewires, hheights, hmarked⟩ :=
    relink_placed (hformed.withItem hentry id unit (levelOf id))
      (withItem_marked hmarked id unit (levelOf id)) hrelink
  have hmaxLevel : linked.maxLevel = graph.maxLevel := hrewires.maxLevel
  have hafter : linked.entry = some entry := hrewires.entry.trans hentry
  rw [← hasLayer_congr hheights] at hlast htop
  rw [heights_withItem] at hheights
  have hheight : ∀ height ∈ linked.heights,
      height ≤ graph.maxLevel + 1 ∨ height = levelOf id + 1 := by
    rw [hheights]
    intro height hheight
    rcases List.mem_append.mp hheight with hold | hlast
    · exact Or.inl (hformed.highest height hold)
    · exact Or.inr (List.mem_singleton.mp hlast)
  constructor
  · split
    next hhigher =>
      refine entered_formed hplaced hlast fun height hmem => ?_
      rcases hheight height hmem with hold | hnew
      · omega
      · omega
    next hlower =>
      refine ⟨hplaced, ?_, fun height hmem => ?_, fun hnone => nomatch hnone.symm.trans hafter⟩
      · intro other hother
        cases hother.symm.trans hafter
        rw [hmaxLevel]
        exact htop
      · rcases hheight height hmem with hold | hnew
        · omega
        · omega
  · rw [insertSearches, insertLevel, hnew, hentry, Option.map_none, Option.getD_none]
    rw [levelAt_last] at hmarked
    exact hmarked

theorem insert_formed (hformed : graph.Formed) (hmarked : graph.MarkedBelow searches)
    {accepted : Bool} (hinsert : graph.insert arithmetic levelOf id vector = some (accepted, after)) :
    after.Formed ∧ after.MarkedBelow
      (searches + graph.insertSearches (graph.insertLevel levelOf id) accepted) := by
  have hcases := insert_inserts arithmetic levelOf graph id vector
  rw [hinsert] at hcases
  generalize hresult : some (accepted, after) = result at hcases
  cases hcases with
  | refused =>
      cases hresult
      exact ⟨hformed, hmarked⟩
  | known hknown =>
      obtain ⟨linked, hrelink, heq⟩ := Option.map_eq_some_iff.mp hresult.symm
      cases heq
      exact replaced_formed hformed hknown hmarked hrelink
  | @first unit hnew hentry =>
      cases hresult
      refine ⟨first_formed hformed hentry (levelOf id), ?_⟩
      obtain ⟨hlength, hepoch, hmarks⟩ := withItem_marked hmarked id unit (levelOf id)
      rw [insertSearches, hentry]
      exact ⟨hlength, hepoch, hmarks⟩
  | linked hnew hentry =>
      obtain ⟨linked, hrelink, heq⟩ := Option.map_eq_some_iff.mp hresult.symm
      cases heq
      obtain ⟨hformed, hmarked⟩ := linked_formed hformed hnew hentry hmarked hrelink
      refine ⟨hformed, ?_⟩
      split
      · exact ⟨hmarked.length, hmarked.epoch, hmarked.marks⟩
      · exact hmarked

/-- A query that is not answered at once goes down to the lowest layer and searches it. -/
theorem search_cases {query : Embedding K} {k ef : ℕ} {found : List (ItemId × K)}
    (hsearch : graph.search arithmetic query k ef = some (found, after)) :
    graph.querySearches arithmetic query k = 0 ∧ after = graph ∨
      graph.querySearches arithmetic query k = 1 ∧ ∃ unit entry current nearest,
        graph.entry = some entry ∧
        graph.descend arithmetic unit (List.range' 1 graph.maxLevel).reverse entry =
          some current ∧
        graph.searchLayer arithmetic unit [current] (max ef k) 0 = some (nearest, after) := by
  unfold search at hsearch
  unfold querySearches
  split at hsearch
  next hempty =>
    cases hsearch
    exact Or.inl ⟨if_pos (Or.inl hempty), rfl⟩
  next entry hentry =>
    split at hsearch
    next hother =>
      cases hsearch
      exact Or.inl ⟨if_pos (Or.inr (hother.imp_right Or.inl)), rfl⟩
    next hfits =>
      split at hsearch
      next hunit =>
        cases hsearch
        exact Or.inl ⟨if_pos (Or.inr (Or.inr (Or.inr hunit))), rfl⟩
      next unit hunit =>
        obtain ⟨current, hcurrent, hsearch⟩ := Option.bind_eq_some_iff.mp hsearch
        obtain ⟨⟨nearest, searched⟩, hnearest, heq⟩ := Option.bind_eq_some_iff.mp hsearch
        cases heq
        refine Or.inr ⟨if_neg ?_, unit, entry, current, nearest, hentry, hcurrent, hnearest⟩
        rintro (hempty | hdim | hk | hnone)
        · exact nomatch hempty.symm.trans hentry
        · exact hfits (Or.inl hdim)
        · exact hfits (Or.inr hk)
        · exact nomatch hnone.symm.trans hunit

theorem search_formed {query : Embedding K} {k ef : ℕ} {found : List (ItemId × K)}
    (hformed : graph.Formed) (hmarked : graph.MarkedBelow searches)
    (hsearch : graph.search arithmetic query k ef = some (found, after)) :
    after.Formed ∧ after.MarkedBelow (searches + graph.querySearches arithmetic query k) := by
  rcases search_cases hsearch with
    ⟨hcount, rfl⟩ | ⟨hcount, unit, entry, current, nearest, -, -, hnearest⟩
  · rw [hcount]
    exact ⟨hformed, hmarked⟩
  · rw [hcount]
    obtain ⟨hrewires, hnodes, hmarked⟩ := searchLayer_changes hmarked hnearest
    have hkeeps := linked_congr hnodes hformed.linked
    refine ⟨⟨hformed.toPlaced.relinked hrewires hkeeps, ?_, ?_, ?_⟩, hmarked⟩
    · rw [hrewires.entry, hrewires.maxLevel, hkeeps.hasLayer]
      exact hformed.entry
    · rw [hkeeps.heights, hrewires.maxLevel]
      exact hformed.highest
    · rw [hrewires.entry, hnodes]
      exact hformed.started

/-- Every step of a run keeps the shape. -/
theorem Ran.formed (hran : Ran arithmetic levelOf searches graph) :
    graph.Formed ∧ graph.MarkedBelow searches := by
  induction hran with
  | empty =>
      refine ⟨formed_empty, Nat.le_refl _, fun _ => Nat.le_refl _, fun _ mark hmark => ?_⟩
      exact absurd hmark List.not_mem_nil
  | insert _ hinsert ih => exact insert_formed ih.1 ih.2 hinsert
  | search _ hsearch ih => exact search_formed ih.1 ih.2 hsearch

theorem Ran.insertAll (hran : Ran arithmetic levelOf searches graph)
    {items : List (ItemId × Embedding K)}
    (hinserts : graph.insertAll arithmetic levelOf items = some after) :
    ∃ searches, Ran arithmetic levelOf searches after := by
  refine foldlM_keeps (fun graph => ∃ searches, Ran arithmetic levelOf searches graph)
    (fun graph item next hran hnext => ?_) ⟨searches, hran⟩ hinserts
  obtain ⟨searches, hran⟩ := hran
  obtain ⟨⟨accepted, inserted⟩, hinsert, rfl⟩ := Option.map_eq_some_iff.mp hnext
  exact ⟨_, hran.insert hinsert⟩

/-! ## Every step returns -/

theorem relink_returns {idx : ℕ} (hstrict : arithmetic.ranking.Strict)
    (hlinkable : graph.Linkable idx) (hmarked : graph.MarkedBelow searches) :
    (graph.relink arithmetic idx).isSome = true := by
  obtain ⟨hplaced, hidx, entry, hentry, htop⟩ := hlinkable
  exact relink_isSome hstrict hentry htop.has hplaced.linksIn hidx hmarked

theorem Formed.insert_isSome (hstrict : arithmetic.ranking.Strict) (hformed : graph.Formed)
    (hmarked : graph.MarkedBelow searches) (levelOf : ItemId → ℕ) (id : ItemId)
    (vector : Embedding K) : (graph.insert arithmetic levelOf id vector).isSome = true := by
  have hcases := insert_inserts arithmetic levelOf graph id vector
  generalize graph.insert arithmetic levelOf id vector = result at hcases
  cases hcases with
  | refused => rfl
  | @known unit idx hknown =>
      rw [Option.isSome_map]
      exact relink_returns hstrict (hformed.replaced hknown unit) (replaced_marked hmarked idx unit)
  | first => rfl
  | @linked unit entry _ hentry =>
      rw [Option.isSome_map]
      exact relink_returns hstrict (hformed.withItem hentry id unit (levelOf id))
        (withItem_marked hmarked id unit (levelOf id))

theorem Formed.search_isSome (hstrict : arithmetic.ranking.Strict) (hformed : graph.Formed)
    (hmarked : graph.MarkedBelow searches) (query : Embedding K) (k ef : ℕ) :
    (graph.search arithmetic query k ef).isSome = true := by
  unfold search
  cases hentry : graph.entry with
  | none => rfl
  | some entry =>
      dsimp only
      split
      · rfl
      · cases query.normalized arithmetic with
        | none => rfl
        | some unit =>
            have hhas := (hformed.entry entry hentry).has
            obtain ⟨current, hcurrent⟩ := Option.isSome_iff_exists.mp
              (descend_isSome hstrict hformed.linksIn unit
                (List.range' 1 graph.maxLevel).reverse hhas)
            have hreached := descend_stays (fun layer n _ => hformed.linksIn layer n) hhas hcurrent
            obtain ⟨⟨found, searched⟩, hfound⟩ := Option.isSome_iff_exists.mp
              (searchLayer_isSome hformed.linksIn arithmetic unit hmarked.length hreached
                (max ef k) 0)
            exact Option.isSome_iff_exists.mpr ⟨_, Option.bind_eq_some_iff.mpr ⟨current, hcurrent,
              Option.bind_eq_some_iff.mpr ⟨_, hfound, rfl⟩⟩⟩

end Steps

end Hnsw

end LoomDB
