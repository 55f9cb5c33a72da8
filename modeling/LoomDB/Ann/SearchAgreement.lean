import LoomDB.Ann.Built
import LoomDB.Ann.Exact
import LoomDB.Ann.Shape

/-!
# The search of the exported graph

A graph that was built is exported into a store, where its nodes go by their ids and have the vectors
of the caller. Its links and distances are the same, so the search in the store goes the same way as
the one in memory and finds the same items in the same order. Only a query that is zero is refused in
memory and not in the store.
-/

namespace LoomDB

open Std (ExtTreeMap)
open BestFirst (Renames Alike renameEntry)

variable {σ ε K : Type} {arithmetic : Arithmetic K}

/-- A store has the nodes and the meta of an exported graph, and no call fails. -/
structure NodeStore.Holds (store : NodeStore σ ε K) (state : σ)
    (exported : List (ItemId × PersistedNode K) × HnswMeta) : Prop where
  info : store.getMeta state = .ok exported.2
  nodes : ∀ id, store.getNode state id = .ok (exported.1.lookup id)

theorem lookup_eq_some_of_mem {entries : List (ItemId × PersistedNode K)}
    (hnodup : (entries.map Prod.fst).Nodup) {id : ItemId} {node : PersistedNode K}
    (hmem : (id, node) ∈ entries) : entries.lookup id = some node := by
  induction entries with
  | nil => exact absurd hmem List.not_mem_nil
  | cons entry entries ih =>
      obtain ⟨hnew, hrest⟩ := List.nodup_cons.mp hnodup
      rcases List.mem_cons.mp hmem with rfl | hmem
      · exact List.lookup_cons_self
      · have hother : (id == entry.1) = false :=
          beq_eq_false_iff_ne.mpr fun heq => hnew (heq ▸ List.mem_map_of_mem hmem)
        rw [List.lookup_cons, hother]
        exact ih hrest hmem

namespace Hnsw

variable {graph : Hnsw K} {items : List (ItemId × Embedding K)}
  {raw : ExtTreeMap ItemId (Embedding K)}

/-- The node that is exported under an id. -/
def exportedNode (graph : Hnsw K) (raw : ExtTreeMap ItemId (Embedding K)) (id : ItemId) :
    Option (PersistedNode K) :=
  (graph.exportPersisted raw).1.lookup id

/-- The id of a node. -/
def idOf (graph : Hnsw K) (n : ℕ) : ItemId :=
  (graph.ids[n]?).getD []

/-- The vectors of the caller, as far as there are, are those of the items. -/
def Originals (raw : ExtTreeMap ItemId (Embedding K)) (items : List (ItemId × Embedding K)) : Prop :=
  ∀ (id : ItemId) (vector : Embedding K), raw[id]? = some vector → (id, vector) ∈ items

theorem ids_get (hsound : Sound arithmetic items graph) {n : ℕ} (hn : graph.Has n) :
    graph.ids[n]? = some (graph.idOf n) := by
  have hn : n < graph.ids.length := hsound.length ▸ hn
  rw [idOf, List.getElem?_eq_getElem hn, Option.getD_some]

theorem idOf_injective (hsound : Sound arithmetic items graph) {first second : ℕ}
    (hfirst : graph.Has first) (hsecond : graph.Has second)
    (heq : graph.idOf first = graph.idOf second) : first = second := by
  have hfirstId := ids_get hsound hfirst
  have hsecondId := ids_get hsound hsecond
  rw [heq, ← hsecondId] at hfirstId
  have hlength : first < graph.ids.length := hsound.length.symm ▸ hfirst
  exact (List.getElem?_inj hlength hsound.nodup).mp hfirstId

theorem export_ids (hsound : Sound arithmetic items graph) :
    (graph.exportPersisted raw).1.map Prod.fst = graph.ids := by
  refine List.ext_getElem? fun n => ?_
  simp only [exportPersisted, List.map_map, List.getElem?_map, List.getElem?_zipIdx]
  cases hnode : graph.nodes[n]? with
  | none =>
      have hn := List.getElem?_eq_none_iff.mp hnode
      rw [List.getElem?_eq_none (hsound.length ▸ hn)]
      rfl
  | some node =>
      have hn := (List.getElem?_eq_some_iff.mp hnode).1
      rw [ids_get hsound hn]
      simp [idOf]

theorem exportedNode_idOf (hsound : Sound arithmetic items graph) {n : ℕ} {node : HnswNode K}
    (hnode : graph.nodes[n]? = some node) :
    graph.exportedNode raw (graph.idOf n) =
      some {
        vector := (raw[graph.idOf n]?).getD node.vector
        neighbours := node.neighbours.map fun layer => layer.map graph.idOf } := by
  refine lookup_eq_some_of_mem (export_ids hsound ▸ hsound.nodup) ?_
  refine List.mem_map.mpr ⟨(node, n), ?_, rfl⟩
  exact List.mem_zipIdx_iff_getElem?.mpr hnode

theorem has_iff {n : ℕ} : graph.Has n ↔ ∃ node, graph.nodes[n]? = some node := by
  constructor
  · exact fun hn => ⟨graph.nodes[n], List.getElem?_eq_getElem hn⟩
  · rintro ⟨node, hnode⟩
    exact (List.getElem?_eq_some_iff.mp hnode).1

theorem storedLinks_export (hsound : Sound arithmetic items graph) {n : ℕ} (hn : graph.Has n)
    (layer : ℕ) :
    storedLinks (graph.exportedNode raw) layer (graph.idOf n) =
      (graph.links layer n).map graph.idOf := by
  obtain ⟨node, hnode⟩ := has_iff.mp hn
  rw [storedLinks, exportedNode_idOf hsound hnode, links, links?, hnode, Option.bind_some,
    Option.bind_some, List.getElem?_map]
  cases node.neighbours[layer]? with
  | none => rfl
  | some list => rfl

/-- Seen in memory and listed in a store are the same nodes. -/
def SameSeen (graph : Hnsw K) (epoch : U32) (visited : List U32) (ids : List ItemId) : Prop :=
  visited.length = graph.nodes.length ∧
    ∀ n, graph.Has n → (visited[n]? = some epoch ↔ graph.idOf n ∈ ids)

/-- The exported graph is the graph under other names. -/
theorem export_renames (hsound : Sound arithmetic items graph) (layer : ℕ) (epoch : U32)
    {query : Embedding K} {dist : ℕ → K}
    (hdist : ∀ n, graph.Has n →
      storedDist arithmetic (graph.exportedNode raw) query (graph.idOf n) = dist n) :
    Renames graph.idOf graph.Has (graph.SameSeen epoch) dist (graph.links layer) (seen epoch)
      (storedDist arithmetic (graph.exportedNode raw) query)
      (storedLinks (graph.exportedNode raw) layer) listed where
  dist_eq := hdist
  links_eq := fun n hn => storedLinks_export hsound hn layer
  stays := fun n _ => hsound.links layer n
  seen_eq := fun visited ids n hsame hn => by
    have hmem := hsame.2 n hn
    change Decidable.decide (graph.idOf n ∈ ids) = _
    by_cases hseen : visited[n]? = some epoch
    · rw [seen, if_pos hseen]
      exact decide_eq_true (hmem.mp hseen)
    · rw [seen, if_neg hseen]
      exact decide_eq_false fun hid => hseen (hmem.mpr hid)
  seen_same := fun visited ids n hsame hn hnew => by
    have hnew := seen_eq_false.mp hnew
    have hset : (seen epoch visited n).2 = visited.set n epoch := by
      rw [seen, if_neg hnew]
    rw [hset]
    refine ⟨List.length_set.trans hsame.1, fun m hm => ?_⟩
    change _ ↔ graph.idOf m ∈ graph.idOf n :: ids
    by_cases heq : n = m
    · subst heq
      have hlength : n < visited.length := hsame.1.symm ▸ hn
      rw [List.getElem?_set_self hlength]
      exact iff_of_true rfl List.mem_cons_self
    · rw [List.getElem?_set_ne heq, hsame.2 m hm, List.mem_cons]
      exact (or_iff_right fun hid => heq (idOf_injective hsound hm hn hid).symm).symm

/-- Before a search nothing carries its epoch, and nothing is listed. -/
theorem sameSeen_start {searches : ℕ} (hmarked : graph.MarkedBelow searches)
    (hroom : searches + 1 < 256 ^ 4) :
    graph.SameSeen (graph.epoch + 1) graph.marks [] :=
  ⟨length_marks hmarked.length, fun n _ =>
    iff_of_false (hmarked.fresh hroom n) List.not_mem_nil⟩

/-- Greedily through some layers, by some distances. -/
def walk (graph : Hnsw K) (arithmetic : Arithmetic K) (dist : ℕ → K) (layers : List ℕ)
    (start : ℕ) : Option ℕ :=
  layers.foldlM (fun current layer => BestFirst.greedy arithmetic.ranking dist (graph.links layer)
    (graph.nodes.length + 1) current (dist current)) start

theorem descend_eq (query : Embedding K) (layers : List ℕ) (start : ℕ) :
    graph.descend arithmetic query layers start =
      graph.walk arithmetic (graph.dist arithmetic · query) layers start := by
  have hstep : (fun current layer => graph.greedyClosest arithmetic query current layer) =
      fun current layer => BestFirst.greedy arithmetic.ranking (graph.dist arithmetic · query)
        (graph.links layer) (graph.nodes.length + 1) current
        (graph.dist arithmetic current query) := by
    funext current layer
    exact greedyLoop_eq query layer _ current _
  rw [descend, walk, hstep]

section Stored

variable {store : NodeStore σ ε K} {state : σ} {fuel : ℕ} {query : Embedding K} {dist : ℕ → K}
  (hstrict : arithmetic.ranking.Strict) (hsound : Sound arithmetic items graph)
  (hholds : store.Holds state (graph.exportPersisted raw)) (hfuel : graph.nodes.length < fuel)
  (hdist : ∀ n, graph.Has n →
    storedDist arithmetic (graph.exportedNode raw) query (graph.idOf n) = dist n)

include hholds in
theorem holds_reads : store.ReadsAs state (graph.exportedNode raw) := by
  intro id found hfound
  rw [hholds.nodes id] at hfound
  exact (Except.ok.inj hfound).symm

include hholds in
theorem holds_not_faulty : ¬ store.Faulty state := by
  rintro ⟨id, error, herror⟩
  rw [hholds.nodes id] at herror
  cases herror

include hstrict hsound hholds hfuel hdist

/-- The store's walk through the layers is the one in memory. -/
theorem storedDescend (layers : List ℕ) {start : ℕ} (hstart : graph.Has start) :
    ∃ found, graph.Has found ∧ graph.walk arithmetic dist layers start = some found ∧
      store.descend arithmetic state fuel query layers (graph.idOf start) =
        .ok (graph.idOf found) := by
  induction layers generalizing start with
  | nil => exact ⟨start, hstart, rfl, rfl⟩
  | cons layer layers ih =>
      have hrenames := export_renames hsound layer (graph.epoch + 1) hdist
      have hgreedy : (BestFirst.greedy arithmetic.ranking dist (graph.links layer)
          (graph.nodes.length + 1) start (dist start)).isSome = true := by
        refine BestFirst.greedy_isSome hstrict (List.range graph.nodes.length) ?_ ?_ ?_
        · exact fun n _ m hm => List.mem_range.mpr (hsound.links layer n m hm)
        · exact List.mem_range.mpr hstart
        · exact Nat.lt_succ_of_le (List.countP_le_length.trans_eq List.length_range)
      obtain ⟨next, hnext⟩ := Option.isSome_iff_exists.mp hgreedy
      have hhas := BestFirst.greedy_stays (fun n _ => hsound.links layer n) hstart hnext
      have hstored := NodeStore.greedyClosest_follows arithmetic (holds_reads hholds) query fuel
        (graph.idOf start) layer
      rw [hdist start hstart, BestFirst.greedy_rename hrenames fuel hstart,
        BestFirst.greedy_of_le hfuel hnext] at hstored
      obtain ⟨found, hfound, hwalk, hdescend⟩ := ih hhas
      refine ⟨found, hfound, ?_, ?_⟩
      · rw [walk, List.foldlM_cons, hnext]
        exact hwalk
      · rw [NodeStore.descend, List.foldlM_cons,
          hstored.eq_ok (holds_not_faulty hholds)]
        exact hdescend

omit hstrict in
/-- The store's search of a layer keeps the nodes that the one in memory keeps. -/
theorem storedLayer (layer : ℕ) {searches ef start : ℕ} (hmarked : graph.MarkedBelow searches)
    (hroom : searches + 1 < 256 ^ 4) (hef : 0 < ef) (hstart : graph.Has start) :
    ∃ final, BestFirst.explore arithmetic.ranking dist (graph.links layer)
        (seen (graph.epoch + 1)) ef (graph.nodes.length + 1)
        (graph.startAt arithmetic dist start) = some final ∧
      final.result ≠ [] ∧
      store.searchLayer arithmetic state fuel query [graph.idOf start] ef layer =
        .ok ((arithmetic.sortByDistance final.result).map (renameEntry graph.idOf)) := by
  obtain ⟨final, hfinal⟩ := Option.isSome_iff_exists.mp
    (explore_isSome hsound.links arithmetic dist layer ef hmarked.length hstart)
  have hrenames := export_renames hsound layer (graph.epoch + 1) hdist
  have hnothing : Alike graph.idOf (graph.SameSeen (graph.epoch + 1))
      ({ visited := graph.marks, candidates := [], result := [] } : LayerState K)
      ({ visited := [], candidates := [], result := [] } : StoreLayerState K) :=
    ⟨sameSeen_start hmarked hroom, rfl, rfl⟩
  have hwithin : (graph.startAt arithmetic dist start).Within graph.Has :=
    BestFirst.State.Within.enter ⟨fun entry hentry => absurd hentry List.not_mem_nil,
      fun entry hentry => absurd hentry List.not_mem_nil⟩ hstart
  have halike : Alike graph.idOf (graph.SameSeen (graph.epoch + 1))
      (graph.startAt arithmetic dist start)
      (storedStart arithmetic (storedDist arithmetic (graph.exportedNode raw) query)
        (graph.idOf start)) :=
    hnothing.enter hrenames hstart (seen_eq_false.mpr (hmarked.fresh hroom start))
  have hresult := BestFirst.explore_rename hrenames arithmetic.ranking ef fuel halike hwithin
  rw [BestFirst.explore_of_le hfuel hfinal] at hresult
  obtain ⟨storedFinal, hstoredFinal, hsame⟩ := Option.map_eq_some_iff.mp hresult
  have hstored := NodeStore.searchLayer_follows arithmetic (holds_reads hholds) query fuel ef layer
    (graph.idOf start)
  rw [hstoredFinal, Option.map_some, hsame] at hstored
  refine ⟨final, hfinal, ?_, ?_⟩
  · refine BestFirst.explore_ne_nil hef ?_ hfinal
    exact List.ne_nil_of_length_pos
      ((BinaryHeap.perm_push _ _ _).length_eq.trans_gt (Nat.succ_pos _))
  · rw [hstored.eq_ok (holds_not_faulty hholds)]
    exact congrArg Except.ok (Comparison.map_insertionSort (fun _ _ => rfl) final.result)

/-- What the store's search returns, if there is anything to search and to return. -/
theorem storedSearch (ef : ℕ) {searches k entry : ℕ} (hmarked : graph.MarkedBelow searches)
    (hroom : searches + 1 < 256 ^ 4) (hentry : graph.entry = some entry)
    (hdim : graph.dim = some query.length) (hk : k ≠ 0) :
    ∃ current final, graph.walk arithmetic dist (List.range' 1 graph.maxLevel).reverse entry =
        some current ∧
      BestFirst.explore arithmetic.ranking dist (graph.links 0) (seen (graph.epoch + 1)) (max ef k)
        (graph.nodes.length + 1) (graph.startAt arithmetic dist current) = some final ∧
      final.result ≠ [] ∧
      store.search arithmetic state fuel query k ef =
        .ok ((arithmetic.sortBySimilarity ((arithmetic.sortByDistance final.result).map
          fun found => (graph.idOf found.1, arithmetic.sub arithmetic.one found.2))).take k) := by
  have hstart := hsound.entry entry hentry
  obtain ⟨current, hcurrent, hwalk, hdescend⟩ := storedDescend hstrict hsound hholds hfuel hdist
    (List.range' 1 graph.maxLevel).reverse hstart
  have hef : 0 < max ef k := Nat.lt_of_lt_of_le (Nat.pos_of_ne_zero hk) (Nat.le_max_right ef k)
  obtain ⟨final, hfinal, hresult, hlayer⟩ :=
    storedLayer hsound hholds hfuel hdist 0 hmarked hroom hef hcurrent
  refine ⟨current, final, hwalk, hfinal, hresult, ?_⟩
  have hinfo : (graph.exportPersisted raw).2 =
      { entry := some (graph.idOf entry), maxLevel := graph.maxLevel, dim := graph.dim } := by
    rw [exportPersisted, hentry]
    rfl
  unfold NodeStore.search
  rw [hholds.info, hinfo]
  change (if graph.dim ≠ some query.length ∨ k = 0 then _ else _) = _
  rw [if_neg (not_or.mpr ⟨not_not.mpr hdim, hk⟩), hdescend]
  change (store.searchLayer arithmetic state fuel query [graph.idOf current] (max ef k) 0 >>=
    fun found => _) = _
  rw [hlayer]
  change Except.ok _ = Except.ok _
  rw [List.map_map]
  rfl

end Stored

/-! ## In exact arithmetic -/

section Exact

variable {infinity : ℝ} {levelOf : ItemId → ℕ} {graph : Hnsw ℝ}
  {items : List (ItemId × Embedding ℝ)} {raw : ExtTreeMap ItemId (Embedding ℝ)} {searches : ℕ}

/-- What is exported of a node comes to its unit vector. -/
theorem exported_normalized (hbuilt : Built (exactArithmetic infinity) levelOf items searches graph)
    (horiginals : Originals raw items) {n : ℕ} (hn : graph.Has n) :
    ∃ node, graph.exportedNode raw (graph.idOf n) = some node ∧
      node.vector.normalized (exactArithmetic infinity) = some (graph.vector n) := by
  have hsound := hbuilt.sound.1
  obtain ⟨node, hnode⟩ := has_iff.mp hn
  obtain ⟨original, hitem, hnormalized⟩ := hsound.vectors n (graph.idOf n) (ids_get hsound hn)
  refine ⟨_, exportedNode_idOf hsound hnode, ?_⟩
  dsimp only
  cases hraw : raw[graph.idOf n]? with
  | none =>
      rw [Option.getD_none]
      have hvector : graph.vector n = node.vector := by
        rw [Hnsw.vector, hnode]
        rfl
      exact hvector ▸ normalized_unit hnormalized
  | some vector =>
      rw [Option.getD_some]
      have hsame := List.inj_on_of_nodup_map hbuilt.nodup (horiginals _ vector hraw) hitem rfl
      obtain rfl : original = vector := (congrArg Prod.snd hsame).symm
      exact hnormalized

/-- The distances to a query with a direction are the same in memory and in a store. -/
theorem storedDist_exported (hbuilt : Built (exactArithmetic infinity) levelOf items searches graph)
    (horiginals : Originals raw items) {query unit : Embedding ℝ}
    (hunit : query.normalized (exactArithmetic infinity) = some unit) (n : ℕ) (hn : graph.Has n) :
    storedDist (exactArithmetic infinity) (graph.exportedNode raw) query (graph.idOf n) =
      graph.dist (exactArithmetic infinity) n unit := by
  obtain ⟨node, hnode, hnormalized⟩ := exported_normalized hbuilt horiginals hn
  rw [storedDist, hnode]
  exact (dist_normalized hnormalized hunit).symm

/-- Everything in a store is equally far from a query that is zero. -/
theorem storedDist_zero (hbuilt : Built (exactArithmetic infinity) levelOf items searches graph)
    (horiginals : Originals raw items) {query : Embedding ℝ} (hzero : normSq query = 0) (n : ℕ)
    (hn : graph.Has n) :
    storedDist (exactArithmetic infinity) (graph.exportedNode raw) query (graph.idOf n) = 2 := by
  obtain ⟨node, hnode, -⟩ := exported_normalized hbuilt horiginals hn
  rw [storedDist, hnode]
  exact dist_zero node.vector hzero

section Queries

variable (hbuilt : Built (exactArithmetic infinity) levelOf items searches graph)
  (hroom : searches + 1 < 256 ^ 4) (horiginals : Originals raw items)
  {store : NodeStore σ ε ℝ} {state : σ}
  (hholds : store.Holds state (graph.exportPersisted raw)) {fuel : ℕ}
  (hfuel : graph.nodes.length < fuel) {query : Embedding ℝ} {k entry : ℕ}
  (hentry : graph.entry = some entry) (hdim : graph.dim = some query.length) (hk : k ≠ 0)

include hbuilt hroom horiginals hholds hfuel hentry hdim hk

/-- Both searches go the same way. -/
theorem searches_eq {unit : Embedding ℝ}
    (hunit : query.normalized (exactArithmetic infinity) = some unit) (ef : ℕ) :
    ∃ found after, graph.search (exactArithmetic infinity) query k ef = some (found, after) ∧
      store.search (exactArithmetic infinity) state fuel query k ef = .ok found := by
  obtain ⟨hsound, hmarked⟩ := hbuilt.sound
  obtain ⟨current, final, hwalk, hfinal, -, hstored⟩ := storedSearch exact_strict hsound hholds hfuel
    (storedDist_exported hbuilt horiginals hunit) ef hmarked hroom hentry hdim hk
  refine ⟨_, { graph with visited := final.visited, epoch := graph.epoch + 1 }, ?_, hstored⟩
  rw [search, hentry]
  dsimp only
  rw [if_neg (not_or.mpr ⟨not_not.mpr hdim, hk⟩), hunit]
  dsimp only
  rw [descend_eq, hwalk]
  change (graph.searchLayer (exactArithmetic infinity) unit [current] (max ef k) 0 >>=
    fun searched => _) = _
  rw [searchLayer_eq, hfinal]
  exact congrArg some (Prod.ext rfl (hentry ▸ rfl))

/-- A query that is zero finds nothing in memory and something in a store. -/
theorem searches_zero (hzero : normSq query = 0) (ef : ℕ) :
    graph.search (exactArithmetic infinity) query k ef = some ([], graph) ∧
      ∃ stored, store.search (exactArithmetic infinity) state fuel query k ef = .ok stored ∧
        stored ≠ [] := by
  obtain ⟨hsound, hmarked⟩ := hbuilt.sound
  obtain ⟨current, final, -, -, hresult, hstored⟩ := storedSearch exact_strict hsound hholds hfuel
    (storedDist_zero hbuilt horiginals hzero) ef hmarked hroom hentry hdim hk
  refine ⟨?_, _, hstored, ?_⟩
  · rw [search, hentry]
    dsimp only
    rw [if_neg (not_or.mpr ⟨not_not.mpr hdim, hk⟩), normalized_eq_none.mpr hzero]
  · rw [ne_eq, List.take_eq_nil_iff]
    rintro (hnone | hnone)
    · exact hk hnone
    · have hlength := congrArg List.length hnone
      rw [Arithmetic.sortBySimilarity, (Comparison.perm_insertionSort _ _).length_eq,
        List.length_map, Arithmetic.sortByDistance,
        (Comparison.perm_insertionSort _ _).length_eq] at hlength
      exact hresult (List.length_eq_zero_iff.mp hlength)

end Queries

/-- The item "a" with the vector one. -/
noncomputable def single : Hnsw ℝ where
  nodes := [{ vector := [1], neighbours := [[]] }]
  ids := [[97]]
  idToIndex := (∅ : ExtTreeMap ItemId ℕ).insert [97] 0
  entry := some 0
  maxLevel := 0
  dim := some 1
  visited := []
  epoch := 0

theorem single_built : Built (exactArithmetic 0) (fun _ => 0) [([97], [1])] 0 single := by
  have hone : normSq [1] = 1 := by simp [normSq]
  have hunit : Embedding.normalized (exactArithmetic 0) [1] = some [1] := by
    rw [normalized_eq, hone, if_neg one_ne_zero, Real.sqrt_one, div_one]
    simp
  have hinsert : Hnsw.empty.insert (exactArithmetic 0) (fun _ => 0) [97] [1] =
      some (true, single) := by
    rw [insert, hunit]
    rfl
  exact Built.insert Built.empty List.not_mem_nil hinsert

/-- The exported item. -/
noncomputable def singleStored : (ItemId → Option (PersistedNode ℝ)) × HnswMeta :=
  (single.exportedNode ∅, (single.exportPersisted ∅).2)

theorem single_holds : (mapStore ℝ).Holds singleStored (single.exportPersisted ∅) :=
  ⟨rfl, fun _ => rfl⟩

theorem originals_empty (items : List (ItemId × Embedding ℝ)) : Originals ∅ items :=
  fun id vector hraw => by simp at hraw

/-- The items "a" and "b" with opposite vectors. -/
noncomputable def opposites : Hnsw ℝ where
  nodes := [{ vector := [1], neighbours := [[1]] }, { vector := [-1], neighbours := [[0]] }]
  ids := [[97], [98]]
  idToIndex := ((∅ : ExtTreeMap ItemId ℕ).insert [97] 0).insert [98] 1
  entry := some 0
  maxLevel := 0
  dim := some 1
  visited := [1, 0]
  epoch := 1

/-- The second item before it is linked. -/
noncomputable def joined : Hnsw ℝ :=
  single.withItem [98] [-1] 0

/-- The one item there is to link with. -/
noncomputable def firstFound : ℕ × ℝ :=
  (0, joined.dist (exactArithmetic 0) 0 [-1])

theorem layerLoop_joined :
    joined.layerLoop (exactArithmetic 0) [-1] EF_CONSTRUCTION 0 1 3
      ⟨[1, 0], [firstFound], [firstFound]⟩ = some ⟨[1, 0], [], [firstFound]⟩ := by
  have hopen : exhausted (exactArithmetic 0) EF_CONSTRUCTION firstFound.2 [firstFound] = false := by
    simp [exhausted, EF_CONSTRUCTION]
  rw [layerLoop]
  change (if exhausted (exactArithmetic 0) EF_CONSTRUCTION firstFound.2 [firstFound] then _
    else _) = _
  rw [hopen, if_neg Bool.false_ne_true]
  rfl

theorem searchLayer_joined :
    joined.searchLayer (exactArithmetic 0) [-1] [0] EF_CONSTRUCTION 0 =
      some ([firstFound], { joined with visited := [1, 0], epoch := 1 }) := by
  unfold searchLayer
  change (layerLoop _ _ _ _ _ _ _ _ >>= _) = _
  exact (congrArg (· >>= _) layerLoop_joined).trans rfl

theorem linkLayer_joined :
    linkLayer (exactArithmetic 0) 1 [-1] (joined, 0) 0 = some (opposites, 0) := by
  rw [linkLayer, searchLayer_joined]
  rfl

theorem insert_opposites :
    single.insert (exactArithmetic 0) (fun _ => 0) [98] [-1] = some (true, opposites) := by
  have hunit : Embedding.normalized (exactArithmetic 0) [-1] = some [-1] := by
    rw [normalized_eq, show normSq [-1] = 1 by simp [normSq], if_neg one_ne_zero, Real.sqrt_one]
    simp
  have hrelink : joined.relink (exactArithmetic 0) 1 = some opposites := by
    unfold relink
    change ((linkLayer (exactArithmetic 0) 1 [-1] (joined, 0) 0 >>= _) >>= _) = _
    rw [linkLayer_joined]
    rfl
  rw [insert, hunit]
  change (joined.relink (exactArithmetic 0) 1 >>= _) = _
  rw [hrelink]
  rfl

theorem opposites_built :
    Built (exactArithmetic 0) (fun _ => 0) [([97], [1]), ([98], [-1])] 1 opposites :=
  single_built.insert (by decide) insert_opposites

end Exact

end Hnsw

end LoomDB
