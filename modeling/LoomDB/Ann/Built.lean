import LoomDB.Ann.Reinsertion

/-!
# Graphs that are built by inserts

A graph is built by inserts of distinct items, with searches in between. Its links lead to nodes, its
vectors are those of the items, and as long as the epochs do not wrap around, no node carries the
epoch of a search to come. An insert changes nothing but links and marks, and on such graphs every
search and every insert returns.
-/

namespace LoomDB

variable {K : Type} {arithmetic : Arithmetic K}

namespace Hnsw

/-- Every link leads to a node with the property. -/
def LinksIn (P : ℕ → Prop) (graph : Hnsw K) : Prop :=
  ∀ layer n, ∀ m ∈ graph.links layer n, P m

/-- The nodes of a graph. -/
def Has (graph : Hnsw K) (n : ℕ) : Prop :=
  n < graph.nodes.length

variable {graph after : Hnsw K}

/-! ## Searches return -/

section Returning

theorem seen_visited (epoch : U32) (visited : List U32) (n : ℕ) :
    (seen epoch visited n).2.length = visited.length ∧
      ∀ mark ∈ (seen epoch visited n).2, mark ∈ visited ∨ mark = epoch := by
  unfold seen
  split
  · exact ⟨rfl, fun mark => Or.inl⟩
  · exact ⟨List.length_set, fun mark => List.mem_or_eq_of_mem_set⟩

theorem seen_eq_false {epoch : U32} {visited : List U32} {n : ℕ} :
    (seen epoch visited n).1 = false ↔ visited[n]? ≠ some epoch := by
  unfold seen
  split
  next hseen => simp [hseen]
  next hnew => simp [hnew]

theorem length_marks (hvisited : graph.visited.length ≤ graph.nodes.length) :
    graph.marks.length = graph.nodes.length := by
  rw [marks, List.length_append, List.length_replicate]
  omega

/-- Each node that is marked is one less without the mark. -/
theorem seen_counts (graph : Hnsw K) (epoch : U32) :
    BestFirst.Counts graph.Has (seen epoch)
      (fun visited => visited.length = graph.nodes.length)
      fun visited => visited.countP (· ≠ epoch) := by
  refine ⟨fun visited n hlength _ _ => (seen_visited epoch visited n).1.trans hlength,
    fun visited n hlength hn hnew => ?_⟩
  have hnew := seen_eq_false.mp hnew
  have hset : (seen epoch visited n).2 = visited.set n epoch := by
    unfold seen
    rw [if_neg hnew]
  have hn : n < visited.length := hlength ▸ hn
  have hother : visited[n] ≠ epoch := fun heq => hnew (List.getElem?_eq_some_iff.mpr ⟨hn, heq⟩)
  have hpositive : 0 < visited.countP (· ≠ epoch) :=
    List.countP_pos_iff.mpr ⟨visited[n], List.getElem_mem hn, decide_eq_true hother⟩
  have hmarked : Decidable.decide (epoch ≠ epoch) = false := decide_eq_false fun hne => hne rfl
  rw [hset, List.countP_set hn, if_pos (decide_eq_true hother), hmarked,
    if_neg Bool.false_ne_true]
  omega

variable (hstrict : arithmetic.ranking.Strict) (hlinks : graph.LinksIn graph.Has)

include hlinks

include hstrict in
theorem greedyClosest_isSome (query : Embedding K) {start : ℕ} (hstart : graph.Has start)
    (layer : ℕ) : (graph.greedyClosest arithmetic query start layer).isSome = true := by
  rw [greedyClosest, greedyLoop_eq]
  refine BestFirst.greedy_isSome hstrict (List.range graph.nodes.length) ?_ ?_ ?_
  · exact fun n _ m hm => List.mem_range.mpr (hlinks layer n m hm)
  · exact List.mem_range.mpr hstart
  · refine Nat.lt_succ_of_le ?_
    exact List.countP_le_length.trans_eq List.length_range

include hstrict in
theorem descend_isSome (query : Embedding K) (layers : List ℕ) {start : ℕ}
    (hstart : graph.Has start) :
    (graph.descend arithmetic query layers start).isSome = true := by
  unfold descend
  induction layers generalizing start with
  | nil => rfl
  | cons layer layers ih =>
      obtain ⟨next, hnext⟩ := Option.isSome_iff_exists.mp
        (greedyClosest_isSome hstrict hlinks query hstart layer)
      rw [List.foldlM_cons, hnext]
      refine ih ?_
      rw [greedyClosest, greedyLoop_eq] at hnext
      exact BestFirst.greedy_stays (fun n _ => hlinks layer n) hstart hnext

/-- Starting from one node there is fuel for all the others. -/
theorem explore_isSome (arithmetic : Arithmetic K) (dist : ℕ → K) (layer ef : ℕ)
    (hvisited : graph.visited.length ≤ graph.nodes.length) {start : ℕ} (hstart : graph.Has start) :
    (BestFirst.explore arithmetic.ranking dist (graph.links layer) (seen (graph.epoch + 1)) ef
      (graph.nodes.length + 1) (graph.startAt arithmetic dist start)).isSome = true := by
  have hnothing : BestFirst.State.Within graph.Has
      ({ visited := graph.marks, candidates := [], result := [] } : LayerState K) :=
    ⟨fun entry hentry => absurd hentry List.not_mem_nil,
      fun entry hentry => absurd hentry List.not_mem_nil⟩
  have hlength := (seen_visited (graph.epoch + 1) graph.marks start).1.trans (length_marks hvisited)
  refine BestFirst.explore_isSome (seen_counts graph (graph.epoch + 1))
    (fun n _ => hlinks layer n) (hnothing.enter hstart) hlength ?_
  -- The start itself is marked.
  have hmarked : (seen (graph.epoch + 1) graph.marks start).2[start]? = some (graph.epoch + 1) := by
    have hstart : start < graph.marks.length := (length_marks hvisited).symm ▸ hstart
    unfold seen
    split
    next hold => exact hold
    next => exact List.getElem?_set_self hstart
  have hfewer : (seen (graph.epoch + 1) graph.marks start).2.countP (· ≠ graph.epoch + 1) <
      (seen (graph.epoch + 1) graph.marks start).2.length := by
    refine Nat.lt_of_le_of_ne List.countP_le_length fun hall => ?_
    have hother := List.countP_eq_length.mp hall _ (List.mem_of_getElem? hmarked)
    exact of_decide_eq_true hother rfl
  have hpush := (BinaryHeap.perm_push arithmetic.ranking.closest [] (start, dist start)).length_eq
  rw [List.length_singleton] at hpush
  unfold BestFirst.State.weight startAt BestFirst.enter
  dsimp only
  omega

theorem searchLayer_isSome (arithmetic : Arithmetic K) (query : Embedding K)
    (hvisited : graph.visited.length ≤ graph.nodes.length) {start : ℕ} (hstart : graph.Has start)
    (ef layer : ℕ) :
    (graph.searchLayer arithmetic query [start] ef layer).isSome = true := by
  rw [searchLayer_eq, Option.isSome_map]
  exact explore_isSome hlinks arithmetic (graph.dist arithmetic · query) layer ef hvisited hstart

end Returning

/-! ## What an insert changes -/

/-- Two graphs differ in links and marks only. -/
structure Rewires (graph after : Hnsw K) : Prop where
  ids : after.ids = graph.ids
  idToIndex : after.idToIndex = graph.idToIndex
  entry : after.entry = graph.entry
  maxLevel : after.maxLevel = graph.maxLevel
  dim : after.dim = graph.dim
  length : after.nodes.length = graph.nodes.length
  vector : ∀ n, after.vector n = graph.vector n

namespace Rewires

theorem refl (graph : Hnsw K) : Rewires graph graph :=
  ⟨rfl, rfl, rfl, rfl, rfl, rfl, fun _ => rfl⟩

theorem trans {middle : Hnsw K} (hfirst : Rewires graph middle) (hsecond : Rewires middle after) :
    Rewires graph after :=
  ⟨hsecond.ids.trans hfirst.ids, hsecond.idToIndex.trans hfirst.idToIndex,
    hsecond.entry.trans hfirst.entry, hsecond.maxLevel.trans hfirst.maxLevel,
    hsecond.dim.trans hfirst.dim, hsecond.length.trans hfirst.length,
    fun n => (hsecond.vector n).trans (hfirst.vector n)⟩

theorem has (hrewires : Rewires graph after) : after.Has = graph.Has :=
  funext fun n => congrArg (n < ·) hrewires.length

end Rewires

theorem setLinks_rewires (graph : Hnsw K) (layer n : ℕ) (list : List ℕ) :
    Rewires graph (graph.setLinks layer n list) := by
  refine ⟨rfl, rfl, rfl, rfl, rfl, List.length_modify .., fun a => ?_⟩
  simp only [vector, setLinks, List.getElem?_modify]
  cases graph.nodes[a]? with
  | none => rfl
  | some node =>
      by_cases ha : n = a
      · simp [ha]
      · simp [ha]

theorem setLinks_linksIn {P : ℕ → Prop} (hlinks : graph.LinksIn P) (layer n : ℕ) {list : List ℕ}
    (hlist : ∀ m ∈ list, P m) : (graph.setLinks layer n list).LinksIn P := by
  intro l a m hm
  rcases graph.links_setLinks layer n list l a with hsame | ⟨-, -, hset⟩
  · exact hlinks l a m (hsame ▸ hm)
  · exact hlist m (hset ▸ hm)

/-- The marks of two graphs are the same. -/
def SameMarks (graph after : Hnsw K) : Prop :=
  after.visited = graph.visited ∧ after.epoch = graph.epoch

/-- Two graphs differ in links only, which all lead to nodes with the property. -/
structure DiffersInLinks (P : ℕ → Prop) (graph after : Hnsw K) : Prop where
  rewires : Rewires graph after
  marks : SameMarks graph after
  links : after.LinksIn P

theorem setLinks_differs {P : ℕ → Prop} {middle : Hnsw K} (hdiffers : DiffersInLinks P graph middle)
    (layer n : ℕ) {list : List ℕ} (hlist : ∀ m ∈ list, P m) :
    DiffersInLinks P graph (middle.setLinks layer n list) :=
  ⟨hdiffers.rewires.trans (setLinks_rewires middle layer n list), hdiffers.marks,
    setLinks_linksIn hdiffers.links layer n hlist⟩

theorem backLink_differs (arithmetic : Arithmetic K) {P : ℕ → Prop} {middle : Hnsw K}
    (hdiffers : DiffersInLinks P graph middle) {idx : ℕ} (hidx : P idx) (layer mMax n : ℕ) :
    DiffersInLinks P graph (backLink arithmetic idx layer mMax middle n) := by
  have happend : ∀ m ∈ middle.links layer n ++ [idx], P m := by
    intro m hm
    rcases List.mem_append.mp hm with hm | hm
    · exact hdiffers.links layer n m hm
    · exact List.mem_singleton.mp hm ▸ hidx
  unfold backLink
  change DiffersInLinks P graph (if idx ∈ middle.links layer n then middle else _)
  split
  · exact hdiffers
  · have hset := setLinks_differs hdiffers layer n happend
    dsimp only
    split
    · refine setLinks_differs hset layer n fun m hm => happend m ?_
      obtain ⟨entry, hentry, rfl⟩ := List.mem_map.mp (mem_selectHeuristic hm)
      have hranked := (Comparison.perm_insertionSort _ _).mem_iff.mp hentry
      obtain ⟨link, hlink, rfl⟩ := List.mem_map.mp hranked
      exact hlink
    · exact hset

theorem foldl_backLink_differs (arithmetic : Arithmetic K) {P : ℕ → Prop} {middle : Hnsw K}
    (hdiffers : DiffersInLinks P graph middle) {idx : ℕ} (hidx : P idx) (layer mMax : ℕ)
    (selected : List ℕ) :
    DiffersInLinks P graph (selected.foldl (backLink arithmetic idx layer mMax) middle) := by
  induction selected generalizing middle with
  | nil => exact hdiffers
  | cons n selected ih => exact ih (backLink_differs arithmetic hdiffers hidx layer mMax n)

/-! ## Marks -/

/-- There was room for some more searches: no node carries an epoch to come. -/
structure MarkedBelow (graph : Hnsw K) (bound : ℕ) : Prop where
  length : graph.visited.length ≤ graph.nodes.length
  epoch : bound < 256 ^ 4 → graph.epoch.val ≤ bound
  marks : bound < 256 ^ 4 → ∀ mark ∈ graph.visited, mark.val ≤ graph.epoch.val

theorem val_epoch_succ {epoch : U32} (hroom : epoch.val + 1 < 256 ^ 4) :
    (epoch + 1).val = epoch.val + 1 := by
  rw [Fin.val_add]
  exact Nat.mod_eq_of_lt hroom

theorem MarkedBelow.mono {bound more : ℕ} (hmarked : graph.MarkedBelow bound)
    (hmore : bound ≤ more) : graph.MarkedBelow more :=
  ⟨hmarked.length, fun hroom => (hmarked.epoch (by omega)).trans hmore,
    fun hroom => hmarked.marks (by omega)⟩

theorem MarkedBelow.rewires {bound : ℕ} (hmarked : graph.MarkedBelow bound)
    (hrewires : Rewires graph after) (hsame : SameMarks graph after) :
    after.MarkedBelow bound := by
  obtain ⟨hvisited, hepoch⟩ := hsame
  refine ⟨?_, ?_, ?_⟩
  · rw [hvisited, hrewires.length]
    exact hmarked.length
  · rw [hepoch]
    exact hmarked.epoch
  · rw [hvisited, hepoch]
    exact hmarked.marks

theorem mem_marks {mark : U32} (hmark : mark ∈ graph.marks) : mark ∈ graph.visited ∨ mark = 0 := by
  rcases List.mem_append.mp hmark with hmark | hmark
  · exact Or.inl hmark
  · exact Or.inr (List.eq_of_mem_replicate hmark)

/-- A search of a layer marks with the next epoch. -/
theorem searchLayer_changes {query : Embedding K} {start ef layer bound : ℕ}
    (hmarked : graph.MarkedBelow bound) {found : List (ℕ × K)}
    (hfound : graph.searchLayer arithmetic query [start] ef layer = some (found, after)) :
    Rewires graph after ∧ after.nodes = graph.nodes ∧ after.MarkedBelow (bound + 1) := by
  rw [searchLayer_eq] at hfound
  obtain ⟨final, hfinal, heq⟩ := Option.map_eq_some_iff.mp hfound
  cases heq
  have hlook : ∀ (visited : List U32) (n : ℕ),
      (visited.length = graph.nodes.length ∧ ∀ mark ∈ visited, mark ∈ graph.marks ∨
        mark = graph.epoch + 1) →
      (seen (graph.epoch + 1) visited n).2.length = graph.nodes.length ∧
        ∀ mark ∈ (seen (graph.epoch + 1) visited n).2, mark ∈ graph.marks ∨
          mark = graph.epoch + 1 := by
    intro visited n hvisited
    obtain ⟨hlength, hmem⟩ := seen_visited (graph.epoch + 1) visited n
    exact ⟨hlength.trans hvisited.1, fun mark hmark =>
      (hmem mark hmark).elim (hvisited.2 mark) Or.inr⟩
  obtain ⟨hlength, hmem⟩ := BestFirst.explore_visited hlook
    (hlook graph.marks start ⟨length_marks hmarked.length, fun mark hmark => Or.inl hmark⟩) hfinal
  refine ⟨⟨rfl, rfl, rfl, rfl, rfl, rfl, fun _ => rfl⟩, rfl, hlength.le, fun hroom => ?_,
    fun hroom mark hmark => ?_⟩
  · have hepoch := hmarked.epoch (by omega)
    change (graph.epoch + 1).val ≤ bound + 1
    rw [val_epoch_succ (by omega)]
    omega
  · have hepoch := hmarked.epoch (by omega)
    change mark.val ≤ (graph.epoch + 1).val
    rcases hmem mark hmark with hold | rfl
    · rw [val_epoch_succ (by omega)]
      rcases mem_marks hold with hold | rfl
      · exact (hmarked.marks (by omega) mark hold).trans (Nat.le_succ _)
      · exact Nat.zero_le _
    · exact Nat.le_refl _

/-- No node carries the next epoch. -/
theorem MarkedBelow.fresh {bound : ℕ} (hmarked : graph.MarkedBelow bound)
    (hroom : bound + 1 < 256 ^ 4) (n : ℕ) : graph.marks[n]? ≠ some (graph.epoch + 1) := by
  intro hmark
  have hepoch := hmarked.epoch (by omega)
  have hsucc : (graph.epoch + 1).val = graph.epoch.val + 1 := val_epoch_succ (by omega)
  rcases mem_marks (List.mem_of_getElem? hmark) with hold | hold
  · have hbelow := hmarked.marks (by omega) _ hold
    omega
  · have hzero := congrArg Fin.val hold
    change (graph.epoch + 1).val = 0 at hzero
    omega

/-! ## Linking a node -/

section Linking

variable {P : ℕ → Prop} {idx current next bound : ℕ} {query : Embedding K}

theorem linkLayer_changes (hlinks : graph.LinksIn P) (hidx : P idx) (hcurrent : P current)
    (hmarked : graph.MarkedBelow bound) {layer : ℕ}
    (hlinked : linkLayer arithmetic idx query (graph, current) layer = some (after, next)) :
    Rewires graph after ∧ after.LinksIn P ∧ after.MarkedBelow (bound + 1) ∧ P next := by
  unfold linkLayer at hlinked
  obtain ⟨⟨found, searched⟩, hfound, hlinked⟩ := Option.bind_eq_some_iff.mp hlinked
  obtain ⟨hstays, hsame⟩ := searchLayer_stays (fun n _ => hlinks layer n) hcurrent hfound
  obtain ⟨hrewires, hnodes, hmarked⟩ := searchLayer_changes hmarked hfound
  have hkept : ∀ entry ∈ found.filter fun entry => entry.1 ≠ idx, P entry.1 :=
    fun entry hentry => hstays entry (List.mem_filter.mp hentry).1
  have hsearched : searched.LinksIn P := by
    intro l a m hm
    rw [show searched.links l a = graph.links l a by
      rw [links, links?, hnodes]
      rfl] at hm
    exact hlinks l a m hm
  cases hlinked
  have hselected : ∀ n ∈ searched.selectHeuristic arithmetic
      (found.filter fun entry => entry.1 ≠ idx) M, P n := by
    intro n hn
    obtain ⟨entry, hentry, rfl⟩ := List.mem_map.mp (mem_selectHeuristic hn)
    exact hkept entry hentry
  have hdiffers := foldl_backLink_differs arithmetic
    (setLinks_differs ⟨.refl searched, ⟨rfl, rfl⟩, hsearched⟩ layer idx hselected) hidx layer
    (if layer = 0 then M_MAX0 else M)
    (searched.selectHeuristic arithmetic (found.filter fun entry => entry.1 ≠ idx) M)
  refine ⟨hrewires.trans hdiffers.rewires, hdiffers.links,
    hmarked.rewires hdiffers.rewires hdiffers.marks, ?_⟩
  cases hhead : (found.filter fun entry => entry.1 ≠ idx).head? with
  | none => exact hcurrent
  | some entry => exact hkept entry (List.mem_of_mem_head? hhead)

/-- Linking at some layers takes a search for each. -/
theorem linkLayers_changes (hidx : P idx) {layers : List ℕ} (hlinks : graph.LinksIn P)
    (hcurrent : P current) (hmarked : graph.MarkedBelow bound)
    (hlinked : layers.foldlM (linkLayer arithmetic idx query) (graph, current) =
      some (after, next)) :
    Rewires graph after ∧ after.LinksIn P ∧ after.MarkedBelow (bound + layers.length) := by
  induction layers generalizing graph current bound with
  | nil =>
      cases hlinked
      exact ⟨.refl _, hlinks, hmarked⟩
  | cons layer layers ih =>
      rw [List.foldlM_cons] at hlinked
      obtain ⟨⟨linked, reached⟩, hstep, hrest⟩ := Option.bind_eq_some_iff.mp hlinked
      obtain ⟨hrewires, hlinks, hmarked, hreached⟩ :=
        linkLayer_changes hlinks hidx hcurrent hmarked hstep
      obtain ⟨hrewires', hlinks', hmarked'⟩ := ih hlinks hreached hmarked hrest
      refine ⟨hrewires.trans hrewires', hlinks', hmarked'.mono ?_⟩
      rw [List.length_cons]
      omega

theorem linkLayers_isSome (arithmetic : Arithmetic K) (query : Embedding K)
    (hlinks : graph.LinksIn graph.Has) (hidx : graph.Has idx)
    (layers : List ℕ) (hcurrent : graph.Has current) (hmarked : graph.MarkedBelow bound) :
    (layers.foldlM (linkLayer arithmetic idx query) (graph, current)).isSome = true := by
  induction layers generalizing graph current bound with
  | nil => rfl
  | cons layer layers ih =>
      rw [List.foldlM_cons]
      obtain ⟨⟨linked, reached⟩, hstep⟩ :
          ∃ linked, linkLayer arithmetic idx query (graph, current) layer = some linked := by
        obtain ⟨⟨found, searched⟩, hfound⟩ := Option.isSome_iff_exists.mp
          (searchLayer_isSome hlinks arithmetic query hmarked.length hcurrent EF_CONSTRUCTION
            layer)
        exact ⟨_, Option.bind_eq_some_iff.mpr ⟨(found, searched), hfound, rfl⟩⟩
      rw [hstep]
      obtain ⟨hrewires, hlinked, hmarked, hreached⟩ :=
        linkLayer_changes hlinks hidx hcurrent hmarked hstep
      rw [← hrewires.has] at hlinked hidx hreached
      exact ih hlinked hidx hreached hmarked

/-- The level of a node. -/
def levelAt (graph : Hnsw K) (idx : ℕ) : ℕ :=
  (graph.nodes[idx]?.map fun node => node.neighbours.length).getD 0 - 1

theorem relink_changes {entry : ℕ} (hentry : graph.entry = some entry) (hstart : P entry)
    (hlinks : graph.LinksIn P) (hidx : P idx) (hmarked : graph.MarkedBelow bound)
    (hlinked : graph.relink arithmetic idx = some after) :
    Rewires graph after ∧ after.LinksIn P ∧
      after.MarkedBelow (bound + (min (graph.levelAt idx) graph.maxLevel + 1)) := by
  unfold relink at hlinked
  rw [hentry] at hlinked
  obtain ⟨current, hcurrent, hlinked⟩ := Option.bind_eq_some_iff.mp hlinked
  obtain ⟨⟨linked, next⟩, hloop, heq⟩ := Option.bind_eq_some_iff.mp hlinked
  cases heq
  have hreached := descend_stays (fun layer n _ => hlinks layer n) hstart hcurrent
  have hchanges := linkLayers_changes hidx hlinks hreached hmarked hloop
  rw [List.length_reverse, List.length_range] at hchanges
  exact hchanges

theorem relink_isSome (hstrict : arithmetic.ranking.Strict) {entry : ℕ}
    (hentry : graph.entry = some entry) (hstart : graph.Has entry)
    (hlinks : graph.LinksIn graph.Has) (hidx : graph.Has idx) (hmarked : graph.MarkedBelow bound) :
    (graph.relink arithmetic idx).isSome = true := by
  unfold relink
  rw [hentry]
  obtain ⟨current, hcurrent⟩ := Option.isSome_iff_exists.mp
    (descend_isSome hstrict hlinks (graph.vector idx)
      (List.range' (graph.levelAt idx + 1) (graph.maxLevel - graph.levelAt idx)).reverse hstart)
  have hreached := descend_stays (fun layer n _ => hlinks layer n) hstart hcurrent
  obtain ⟨linked, hlinked⟩ := Option.isSome_iff_exists.mp
    (linkLayers_isSome arithmetic (graph.vector idx) hlinks hidx
      (List.range (min (graph.levelAt idx) graph.maxLevel + 1)).reverse hreached hmarked)
  refine Option.isSome_iff_exists.mpr ⟨linked.1, ?_⟩
  exact Option.bind_eq_some_iff.mpr ⟨current, hcurrent,
    Option.bind_eq_some_iff.mpr ⟨linked, hlinked, rfl⟩⟩

end Linking

/-! ## Building -/

/-- How many searches an insert runs: one for each layer of the new node that there was. -/
def insertSearches (graph : Hnsw K) (level : ℕ) (accepted : Bool) : ℕ :=
  if accepted && graph.entry.isSome then min level graph.maxLevel + 1 else 0

/-- A graph that inserts of distinct items have built, and how many searches were run. -/
inductive Built (arithmetic : Arithmetic K) (levelOf : ItemId → ℕ) :
    List (ItemId × Embedding K) → ℕ → Hnsw K → Prop
  | empty : Built arithmetic levelOf [] 0 Hnsw.empty
  | insert {items : List (ItemId × Embedding K)} {searches : ℕ} {graph after : Hnsw K}
      {id : ItemId} {vector : Embedding K} {accepted : Bool} :
      Built arithmetic levelOf items searches graph → id ∉ items.map Prod.fst →
      graph.insert arithmetic levelOf id vector = some (accepted, after) →
      Built arithmetic levelOf (items ++ [(id, vector)])
        (searches + graph.insertSearches (levelOf id) accepted) after
  | search {items : List (ItemId × Embedding K)} {searches : ℕ} {graph after : Hnsw K}
      {query : Embedding K} {k ef : ℕ} {found : List (ItemId × K)} :
      Built arithmetic levelOf items searches graph →
      graph.search arithmetic query k ef = some (found, after) →
      Built arithmetic levelOf items (searches + 1) after

/-- The graph with a new node that is not linked yet. -/
def withItem (graph : Hnsw K) (id : ItemId) (unit : Embedding K) (level : ℕ) : Hnsw K :=
  { graph with
    dim := some unit.length
    nodes := graph.nodes ++ [HnswNode.fresh unit level]
    ids := graph.ids ++ [id]
    idToIndex := graph.idToIndex.insert id graph.nodes.length }

/-- What holds of a graph that was built. -/
structure Sound (arithmetic : Arithmetic K) (items : List (ItemId × Embedding K)) (graph : Hnsw K) :
    Prop where
  length : graph.ids.length = graph.nodes.length
  nodup : graph.ids.Nodup
  known : ∀ (id : ItemId) (idx : ℕ), graph.idToIndex[id]? = some idx → id ∈ graph.ids
  vectors : ∀ (n : ℕ) (id : ItemId), graph.ids[n]? = some id → ∃ original,
    (id, original) ∈ items ∧ original.normalized arithmetic = some (graph.vector n)
  links : graph.LinksIn graph.Has
  entry : ∀ entry, graph.entry = some entry → graph.Has entry

namespace Sound

variable {items : List (ItemId × Embedding K)}

theorem empty : Sound arithmetic [] (Hnsw.empty : Hnsw K) where
  length := rfl
  nodup := List.nodup_nil
  known := fun id idx hidx => by simp [Hnsw.empty] at hidx
  vectors := fun n id hid => by simp [Hnsw.empty] at hid
  links := fun layer n m hm => absurd hm List.not_mem_nil
  entry := fun entry hentry => by cases hentry

theorem rewires (hsound : Sound arithmetic items graph) (hrewires : Rewires graph after)
    (hlinks : after.LinksIn graph.Has) : Sound arithmetic items after where
  length := by rw [hrewires.ids, hrewires.length, hsound.length]
  nodup := hrewires.ids ▸ hsound.nodup
  known := by
    rw [hrewires.ids, hrewires.idToIndex]
    exact hsound.known
  vectors := fun n id hid => by
    rw [hrewires.vector]
    exact hsound.vectors n id (hrewires.ids ▸ hid)
  links := hrewires.has ▸ hlinks
  entry := by
    rw [hrewires.entry, hrewires.has]
    exact hsound.entry

/-- A new node is added at the end, without links. -/
theorem append (hsound : Sound arithmetic items graph) {id : ItemId} {vector unit : Embedding K}
    (hfresh : id ∉ graph.ids) (hunit : vector.normalized arithmetic = some unit) (level : ℕ) :
    Sound arithmetic (items ++ [(id, vector)]) (graph.withItem id unit level) where
  length := by simp [withItem, hsound.length]
  nodup := List.nodup_append.mpr ⟨hsound.nodup, List.nodup_cons.mpr ⟨List.not_mem_nil, List.nodup_nil⟩,
    fun first hfirst second hsecond heq => hfresh (List.mem_singleton.mp hsecond ▸ heq ▸ hfirst)⟩
  known := fun other idx hidx => by
    rw [withItem, OrderedMap.getElem?_insert] at hidx
    split at hidx
    next heq => exact List.mem_append_right _ (List.mem_singleton.mpr heq.symm)
    next => exact List.mem_append_left _ (hsound.known other idx hidx)
  vectors := fun n other hother => by
    simp only [withItem, Hnsw.vector] at hother ⊢
    rcases Nat.lt_trichotomy n graph.nodes.length with hn | rfl | hn
    · rw [List.getElem?_append_left (hsound.length ▸ hn)] at hother
      obtain ⟨original, hitem, hnormalized⟩ := hsound.vectors n other hother
      rw [List.getElem?_append_left hn]
      exact ⟨original, List.mem_append_left _ hitem, hnormalized⟩
    · rw [← hsound.length, List.getElem?_concat_length] at hother
      obtain rfl := Option.some.inj hother
      rw [List.getElem?_concat_length]
      exact ⟨vector, List.mem_append_right _ (List.mem_singleton.mpr rfl), hunit⟩
    · rw [List.getElem?_eq_none (by simp [hsound.length]; omega)] at hother
      cases hother
  links := fun layer n m hm => by
    simp only [withItem, Has, List.length_append, List.length_singleton]
    simp only [withItem, Hnsw.links, links?] at hm
    rcases Nat.lt_trichotomy n graph.nodes.length with hn | rfl | hn
    · rw [List.getElem?_append_left hn] at hm
      exact (hsound.links layer n m hm).trans (Nat.lt_succ_self _)
    · rw [List.getElem?_concat_length, Option.bind_some] at hm
      by_cases hlayer : layer < level + 1
      · simp [HnswNode.fresh, hlayer] at hm
      · simp [HnswNode.fresh, hlayer] at hm
    · rw [List.getElem?_eq_none (by simp; omega)] at hm
      exact absurd hm List.not_mem_nil
  entry := fun entry hentry => by
    simp only [withItem, Has, List.length_append, List.length_singleton]
    exact (hsound.entry entry hentry).trans (Nat.lt_succ_self _)

theorem more (hsound : Sound arithmetic items graph) (id : ItemId) (vector : Embedding K) :
    Sound arithmetic (items ++ [(id, vector)]) graph where
  length := hsound.length
  nodup := hsound.nodup
  known := hsound.known
  vectors := fun n other hother => by
    obtain ⟨original, hitem, hnormalized⟩ := hsound.vectors n other hother
    exact ⟨original, List.mem_append_left _ hitem, hnormalized⟩
  links := hsound.links
  entry := hsound.entry

theorem mem_items (hsound : Sound arithmetic items graph) {id : ItemId} (hid : id ∈ graph.ids) :
    id ∈ items.map Prod.fst := by
  obtain ⟨n, hn⟩ := List.mem_iff_getElem?.mp hid
  obtain ⟨original, hitem, -⟩ := hsound.vectors n id hn
  exact List.mem_map_of_mem hitem

end Sound

section Steps

variable {items : List (ItemId × Embedding K)} {searches : ℕ} {id : ItemId}
  {vector : Embedding K} {levelOf : ItemId → ℕ}

/-- A new item is linked to the graph at the layers that there are. -/
theorem insert_fresh (hsound : Sound arithmetic items graph) (hmarked : graph.MarkedBelow searches)
    (hfresh : id ∉ graph.ids) {accepted : Bool}
    (hinsert : graph.insert arithmetic levelOf id vector = some (accepted, after)) :
    Sound arithmetic (items ++ [(id, vector)]) after ∧
      after.MarkedBelow (searches + graph.insertSearches (levelOf id) accepted) := by
  unfold insert at hinsert
  split at hinsert
  · cases hinsert
    exact ⟨hsound.more id vector, hmarked⟩
  next unit hunit =>
    split at hinsert
    · cases hinsert
      exact ⟨hsound.more id vector, hmarked⟩
    · have hunknown : graph.idToIndex[id]? = none := by
        cases hindex : graph.idToIndex[id]? with
        | none => rfl
        | some idx => exact absurd (hsound.known id idx hindex) hfresh
      dsimp only at hinsert
      rw [hunknown] at hinsert
      have happend := hsound.append hfresh hunit (levelOf id)
      have hgrown : (graph.withItem id unit (levelOf id)).MarkedBelow searches := by
        refine ⟨?_, hmarked.epoch, hmarked.marks⟩
        rw [withItem, List.length_append]
        exact hmarked.length.trans (Nat.le_add_right _ _)
      have hidx : (graph.withItem id unit (levelOf id)).Has graph.nodes.length := by
        simp [withItem, Has]
      dsimp only at hinsert
      cases hentry : graph.entry with
      | none =>
          rw [hentry, if_pos rfl] at hinsert
          cases hinsert
          refine ⟨⟨happend.length, happend.nodup, happend.known, happend.vectors, happend.links,
            fun entry heq => ?_⟩, ?_⟩
          · cases heq
            exact hidx
          · rw [insertSearches, hentry]
            exact ⟨hgrown.length, hgrown.epoch, hgrown.marks⟩
      | some entry =>
          have hnonempty : graph.entry ≠ none := fun hnone => nomatch hnone.symm.trans hentry
          rw [if_neg hnonempty] at hinsert
          obtain ⟨linked, hlinked, hinsert⟩ := Option.bind_eq_some_iff.mp hinsert
          have hgrownEntry : (graph.withItem id unit (levelOf id)).entry = some entry := hentry
          obtain ⟨hrewires, hlinks, hmarked⟩ := relink_changes hgrownEntry
            (happend.entry entry hentry) happend.links hidx hgrown hlinked
          have hlevel : (graph.withItem id unit (levelOf id)).levelAt graph.nodes.length =
              levelOf id := by
            simp [withItem, levelAt, HnswNode.fresh]
          have hlinked := happend.rewires hrewires hlinks
          rw [hlevel] at hmarked
          rw [insertSearches, hentry]
          split at hinsert
          · cases hinsert
            refine ⟨⟨hlinked.length, hlinked.nodup, hlinked.known, hlinked.vectors, hlinked.links,
              fun entry heq => ?_⟩, hmarked.length, hmarked.epoch, hmarked.marks⟩
            cases heq
            exact hrewires.has ▸ hidx
          · cases hinsert
            exact ⟨hlinked, hmarked⟩

/-- An item that is not there yet can always be inserted. -/
theorem insert_isSome (hstrict : arithmetic.ranking.Strict) (hsound : Sound arithmetic items graph)
    (hmarked : graph.MarkedBelow searches) (hfresh : id ∉ graph.ids) :
    (graph.insert arithmetic levelOf id vector).isSome = true := by
  unfold insert
  split
  · rfl
  next unit hunit =>
    split
    · rfl
    · have hunknown : graph.idToIndex[id]? = none := by
        cases hindex : graph.idToIndex[id]? with
        | none => rfl
        | some idx => exact absurd (hsound.known id idx hindex) hfresh
      dsimp only
      rw [hunknown]
      dsimp only
      split
      · rfl
      next hnonempty =>
        obtain ⟨entry, hentry⟩ := Option.ne_none_iff_exists'.mp hnonempty
        have happend := hsound.append hfresh hunit (levelOf id)
        have hgrown : (graph.withItem id unit (levelOf id)).MarkedBelow searches := by
          refine ⟨?_, hmarked.epoch, hmarked.marks⟩
          rw [withItem, List.length_append]
          exact hmarked.length.trans (Nat.le_add_right _ _)
        have hidx : (graph.withItem id unit (levelOf id)).Has graph.nodes.length := by
          simp [withItem, Has]
        have hgrownEntry : (graph.withItem id unit (levelOf id)).entry = some entry := hentry
        obtain ⟨linked, hlinked⟩ := Option.isSome_iff_exists.mp (relink_isSome hstrict hgrownEntry
          (happend.entry entry hentry) happend.links hidx hgrown)
        change ((graph.withItem id unit (levelOf id)).relink arithmetic graph.nodes.length >>=
          fun linked => _).isSome = true
        rw [hlinked]
        change (if _ then _ else _ : Option (Bool × Hnsw K)).isSome = true
        split
        · rfl
        · rfl

/-- A search changes nothing but marks. -/
theorem search_changes {query : Embedding K} {k ef : ℕ} (hmarked : graph.MarkedBelow searches)
    {found : List (ItemId × K)}
    (hsearch : graph.search arithmetic query k ef = some (found, after)) :
    Rewires graph after ∧ after.nodes = graph.nodes ∧ after.MarkedBelow (searches + 1) := by
  have hsame : Rewires graph graph ∧ graph.nodes = graph.nodes ∧ graph.MarkedBelow (searches + 1) :=
    ⟨.refl graph, rfl, hmarked.mono (Nat.le_succ searches)⟩
  unfold search at hsearch
  split at hsearch
  · cases hsearch
    exact hsame
  split at hsearch
  · cases hsearch
    exact hsame
  split at hsearch
  · cases hsearch
    exact hsame
  obtain ⟨current, -, hsearch⟩ := Option.bind_eq_some_iff.mp hsearch
  obtain ⟨⟨nearest, searched⟩, hnearest, heq⟩ := Option.bind_eq_some_iff.mp hsearch
  cases heq
  exact searchLayer_changes hmarked hnearest

end Steps

/-- A graph that was built is sound, and marked for the searches that were run only. -/
theorem Built.sound {levelOf : ItemId → ℕ} {items : List (ItemId × Embedding K)} {searches : ℕ}
    (hbuilt : Built arithmetic levelOf items searches graph) :
    Sound arithmetic items graph ∧ graph.MarkedBelow searches := by
  induction hbuilt with
  | empty =>
      refine ⟨.empty, Nat.le_refl _, fun _ => Nat.le_refl _, fun _ mark hmark => ?_⟩
      exact absurd hmark List.not_mem_nil
  | insert _ hnew hinsert ih =>
      exact insert_fresh ih.1 ih.2 (fun hid => hnew (ih.1.mem_items hid)) hinsert
  | search _ hsearch ih =>
      obtain ⟨hrewires, hnodes, hmarked⟩ := search_changes ih.2 hsearch
      refine ⟨ih.1.rewires hrewires fun layer n m hm => ih.1.links layer n m ?_, hmarked⟩
      simpa only [links, links?, hnodes] using hm

/-- The items that were offered are distinct. -/
theorem Built.nodup {levelOf : ItemId → ℕ} {items : List (ItemId × Embedding K)} {searches : ℕ}
    (hbuilt : Built arithmetic levelOf items searches graph) : (items.map Prod.fst).Nodup := by
  induction hbuilt with
  | empty => exact List.nodup_nil
  | insert _ hnew _ ih =>
      rw [List.map_append]
      refine List.nodup_append.mpr ⟨ih, List.nodup_cons.mpr ⟨List.not_mem_nil, List.nodup_nil⟩, ?_⟩
      rintro first hfirst second hsecond rfl
      obtain rfl := List.mem_singleton.mp hsecond
      exact hnew hfirst
  | search _ _ ih => exact ih

/-- A graph that was built takes any item that was not offered yet. -/
theorem Built.insert_isSome (hstrict : arithmetic.ranking.Strict) {levelOf : ItemId → ℕ}
    {items : List (ItemId × Embedding K)} {searches : ℕ}
    (hbuilt : Built arithmetic levelOf items searches graph) {id : ItemId}
    (hnew : id ∉ items.map Prod.fst) (vector : Embedding K) :
    (graph.insert arithmetic levelOf id vector).isSome = true :=
  Hnsw.insert_isSome hstrict hbuilt.sound.1 hbuilt.sound.2
    fun hid => hnew (hbuilt.sound.1.mem_items hid)

end Hnsw

end LoomDB
