import LoomDB.Ann.HnswStore

/-!
# The two searches as one

The graph in memory and the graph in a store search in the same way: each hop and each visit is one
of the greedy and the best-first search over its own nodes, with its own distances and its own set of
what was seen. The store may fail in between; if it does not, its search finds what the search of
its nodes finds.
-/

namespace LoomDB

variable {α β σ ε K : Type} {arithmetic : Arithmetic K}

def Arithmetic.ranking (arithmetic : Arithmetic K) : BestFirst.Ranking K where
  lt := arithmetic.lt
  compare := arithmetic.compare
  infinity := arithmetic.infinity

/-! ## In memory -/

namespace Hnsw

variable (graph : Hnsw K)

/-- The list of a node at a layer; none where there is no such layer. -/
def links (layer n : ℕ) : List ℕ :=
  (graph.links? layer n).getD []

/-- The marks of the nodes, one for each. -/
def marks : List U32 :=
  graph.visited ++ List.replicate (graph.nodes.length - graph.visited.length) 0

/-- A search of a layer from one node. -/
def startAt (arithmetic : Arithmetic K) (dist : ℕ → K) (start : ℕ) : LayerState K :=
  BestFirst.enter arithmetic.ranking dist (seen (graph.epoch + 1))
    { visited := graph.marks, candidates := [], result := [] } start

variable {graph}

theorem closer_eq (query : Embedding K) :
    graph.closer arithmetic query =
      BestFirst.hop arithmetic.ranking (graph.dist arithmetic · query) := by
  funext ⟨current, currentDist, improved⟩ n
  rfl

theorem greedyLoop_eq (query : Embedding K) (layer fuel current : ℕ) (currentDist : K) :
    graph.greedyLoop arithmetic query layer fuel current currentDist =
      BestFirst.greedy arithmetic.ranking (graph.dist arithmetic · query) (graph.links layer) fuel
        current currentDist := by
  induction fuel generalizing current currentDist with
  | zero => rfl
  | succ fuel ih =>
      unfold greedyLoop BestFirst.greedy
      rw [closer_eq, links]
      cases graph.links? layer current with
      | none => rfl
      | some neighbours =>
          dsimp only [Option.getD_some]
          rw [ih]

theorem visit_eq (query : Embedding K) (ef : ℕ) (epoch : U32) :
    graph.visit arithmetic query ef epoch =
      BestFirst.visit arithmetic.ranking (graph.dist arithmetic · query) (seen epoch) ef := by
  funext state n
  unfold visit BestFirst.visit
  split
  next hseen => rw [hseen]
  next visited hseen =>
    rw [hseen]
    rfl

theorem exhausted_eq (ef : ℕ) (d : K) (result : List (ℕ × K)) :
    exhausted arithmetic ef d result = BestFirst.exhausted arithmetic.ranking ef d result := by
  unfold exhausted BestFirst.exhausted
  cases result.head? with
  | none => rfl
  | some worst => rfl

theorem layerLoop_eq (query : Embedding K) (ef layer : ℕ) (epoch : U32) (fuel : ℕ)
    (state : LayerState K) :
    graph.layerLoop arithmetic query ef layer epoch fuel state =
      BestFirst.explore arithmetic.ranking (graph.dist arithmetic · query) (graph.links layer)
        (seen epoch) ef fuel state := by
  induction fuel generalizing state with
  | zero => rfl
  | succ fuel ih =>
      unfold layerLoop BestFirst.explore
      have hclosest : (arithmetic.ranking.closest : ℕ × K → ℕ × K → Bool) = arithmetic.closest :=
        rfl
      rw [hclosest]
      cases BinaryHeap.pop arithmetic.closest state.candidates with
      | none => rfl
      | some popped =>
          obtain ⟨⟨n, d⟩, rest⟩ := popped
          dsimp only
          rw [exhausted_eq, visit_eq]
          split
          · rfl
          · rw [links]
            cases graph.links? layer n with
            | none => exact ih _
            | some neighbours => exact ih _

theorem searchLayer_eq (query : Embedding K) (start ef layer : ℕ) :
    graph.searchLayer arithmetic query [start] ef layer =
      (BestFirst.explore arithmetic.ranking (graph.dist arithmetic · query) (graph.links layer)
        (seen (graph.epoch + 1)) ef (graph.nodes.length + 1)
        (graph.startAt arithmetic (graph.dist arithmetic · query) start)).map fun state =>
          (arithmetic.sortByDistance state.result,
            { graph with visited := state.visited, epoch := graph.epoch + 1 }) := by
  simp only [searchLayer, List.foldl_cons, List.foldl_nil, layerLoop_eq]
  rw [Option.map_eq_bind]
  rfl

end Hnsw

/-! ## Runs that may fail -/

/-- A run gives an answer, or none for want of fuel; unless the store fails, if it can. -/
def Follows (faulty : Prop) (run : Except (Halt ε) α) (answer : Option α) : Prop :=
  run = answer.elim (.error .outOfFuel) .ok ∨ faulty ∧ ∃ error, run = .error (.store error)

namespace Follows

variable {faulty : Prop} {run : Except (Halt ε) α} {answer : Option α}

theorem ok (faulty : Prop) (value : α) :
    Follows faulty (.ok value : Except (Halt ε) α) (some value) :=
  Or.inl rfl

theorem bind {next : α → Except (Halt ε) β} {answers : α → Option β}
    (hrun : Follows faulty run answer)
    (hnext : ∀ value, Follows faulty (next value) (answers value)) :
    Follows faulty (run >>= next) (answer.bind answers) := by
  rcases hrun with rfl | ⟨hfaulty, error, rfl⟩
  · cases answer with
    | none => exact Or.inl rfl
    | some value => exact hnext value
  · exact Or.inr ⟨hfaulty, error, rfl⟩

theorem bind_some {value : α} (hrun : Follows faulty run (some value))
    {next : α → Except (Halt ε) β} {answer : Option β} (hnext : Follows faulty (next value) answer) :
    Follows faulty (run >>= next) answer := by
  rcases hrun with rfl | ⟨hfaulty, error, rfl⟩
  · exact hnext
  · exact Or.inr ⟨hfaulty, error, rfl⟩

theorem foldlM {items : List β} {step : α → β → Except (Halt ε) α} {next : α → β → α}
    (hstep : ∀ value item, Follows faulty (step value item) (some (next value item))) (start : α) :
    Follows faulty (items.foldlM step start) (some (items.foldl next start)) := by
  induction items generalizing start with
  | nil => exact .ok faulty start
  | cons item items ih =>
      rw [List.foldlM_cons]
      exact (hstep start item).bind_some (ih _)

theorem answer_eq (hrun : Follows faulty run answer) {value : α} (hvalue : run = .ok value) :
    answer = some value := by
  rcases hrun with hrun | ⟨-, error, hrun⟩
  · rw [hvalue] at hrun
    cases answer with
    | none => cases hrun
    | some other =>
        cases hrun
        rfl
  · rw [hvalue] at hrun
    cases hrun

theorem eq_ok {value : α} (hrun : Follows faulty run (some value)) (hfaultless : ¬ faulty) :
    run = .ok value :=
  hrun.resolve_right fun hfails => hfaultless hfails.1

end Follows

/-! ## In a store -/

namespace NodeStore

variable (store : NodeStore σ ε K) (state : σ)

/-- What the store reads are these nodes. -/
def ReadsAs (node : ItemId → Option (PersistedNode K)) : Prop :=
  ∀ id found, store.getNode state id = .ok found → found = node id

/-- Some node cannot be read. -/
def Faulty : Prop :=
  ∃ id error, store.getNode state id = .error error

end NodeStore

/-- How far a node is, where one that is missing is as far as can be. -/
def storedDist (arithmetic : Arithmetic K) (node : ItemId → Option (PersistedNode K))
    (query : Embedding K) (id : ItemId) : K :=
  ((node id).map fun node => NodeStore.dist arithmetic node.vector query).getD arithmetic.two

/-- The list of a node at a layer; none where there is no such layer. -/
def storedLinks (node : ItemId → Option (PersistedNode K)) (layer : ℕ) (id : ItemId) :
    List ItemId :=
  ((node id).bind fun node => node.neighbours[layer]?).getD []

/-- Whether an id was listed; from now on it is. -/
def listed (visited : List ItemId) (id : ItemId) : Bool × List ItemId :=
  (Decidable.decide (id ∈ visited), id :: visited)

/-- A search of a layer from one id. -/
def storedStart (arithmetic : Arithmetic K) (dist : ItemId → K) (start : ItemId) :
    StoreLayerState K :=
  BestFirst.enter arithmetic.ranking dist listed
    { visited := [], candidates := [], result := [] } start

namespace NodeStore

variable {store : NodeStore σ ε K} {state : σ} {node : ItemId → Option (PersistedNode K)}

theorem read_follows (hreads : store.ReadsAs state node) (id : ItemId) :
    Follows (store.Faulty state) (store.read state id) (some (node id)) := by
  unfold read
  cases hget : store.getNode state id with
  | error error => exact Or.inr ⟨⟨id, error, hget⟩, error, rfl⟩
  | ok found =>
      rw [← hreads id found hget]
      exact .ok _ found

theorem distOf_follows (hreads : store.ReadsAs state node) (query : Embedding K) (id : ItemId) :
    Follows (store.Faulty state) (store.distOf arithmetic state query id)
      (some (storedDist arithmetic node query id)) :=
  (read_follows hreads id).bind_some (.ok _ _)

theorem closer_follows (hreads : store.ReadsAs state node) (query : Embedding K)
    (best : ItemId × K × Bool) (n : ItemId) :
    Follows (store.Faulty state) (store.closer arithmetic state query best n)
      (some (BestFirst.hop arithmetic.ranking (storedDist arithmetic node query) best n)) := by
  obtain ⟨current, currentDist, improved⟩ := best
  refine (distOf_follows hreads query n).bind_some ?_
  unfold BestFirst.hop
  dsimp only
  change Follows _ (if arithmetic.lt (storedDist arithmetic node query n) currentDist = true then _
    else _) (some (if arithmetic.lt (storedDist arithmetic node query n) currentDist = true then _
    else _))
  split
  · exact .ok _ _
  · exact .ok _ _

theorem greedyLoop_follows (hreads : store.ReadsAs state node) (query : Embedding K)
    (layer fuel : ℕ) (current : ItemId) (currentDist : K) :
    Follows (store.Faulty state)
      (store.greedyLoop arithmetic state query layer fuel current currentDist)
      (BestFirst.greedy arithmetic.ranking (storedDist arithmetic node query)
        (storedLinks node layer) fuel current currentDist) := by
  induction fuel generalizing current currentDist with
  | zero => exact Or.inl rfl
  | succ fuel ih =>
      unfold greedyLoop BestFirst.greedy
      refine (read_follows hreads current).bind_some ?_
      unfold storedLinks
      cases (node current).bind fun node => node.neighbours[layer]? with
      | none => exact .ok _ _
      | some neighbours =>
          refine (Follows.foldlM (closer_follows hreads query) _).bind_some ?_
          dsimp only [Option.getD_some]
          split
          · exact ih _ _
          · exact .ok _ _

theorem greedyClosest_follows (arithmetic : Arithmetic K) (hreads : store.ReadsAs state node)
    (query : Embedding K) (fuel : ℕ) (start : ItemId) (layer : ℕ) :
    Follows (store.Faulty state) (store.greedyClosest arithmetic state fuel query start layer)
      (BestFirst.greedy arithmetic.ranking (storedDist arithmetic node query)
        (storedLinks node layer) fuel start (storedDist arithmetic node query start)) :=
  (distOf_follows hreads query start).bind_some (greedyLoop_follows hreads query layer fuel start _)

theorem enter_follows (hreads : store.ReadsAs state node) (query : Embedding K)
    (layerState : StoreLayerState K) (e : ItemId) :
    Follows (store.Faulty state) (store.enter arithmetic state query layerState e)
      (some (BestFirst.enter arithmetic.ranking (storedDist arithmetic node query) listed layerState
        e)) :=
  (distOf_follows hreads query e).bind_some (.ok _ _)

theorem visit_follows (hreads : store.ReadsAs state node) (query : Embedding K) (ef : ℕ)
    (layerState : StoreLayerState K) (n : ItemId) :
    Follows (store.Faulty state) (store.visit arithmetic state query ef layerState n)
      (some (BestFirst.visit arithmetic.ranking (storedDist arithmetic node query) listed ef
        layerState n)) := by
  unfold visit BestFirst.visit listed
  by_cases hmem : n ∈ layerState.visited
  · simp only [hmem, if_true, decide_true]
    exact .ok _ _
  · simp only [hmem, if_false, decide_false]
    refine (distOf_follows hreads query n).bind_some ?_
    by_cases hclose : (arithmetic.lt (storedDist arithmetic node query n)
        (BestFirst.worst arithmetic.ranking layerState.result) ||
          Decidable.decide (layerState.result.length < ef)) = true
    · exact Or.inl ((if_pos hclose).trans (congrArg Except.ok (if_pos hclose).symm))
    · exact Or.inl ((if_neg hclose).trans (congrArg Except.ok (if_neg hclose).symm))

theorem exhausted_eq (ef : ℕ) (d : K) (result : List (ItemId × K)) :
    exhausted arithmetic ef d result = BestFirst.exhausted arithmetic.ranking ef d result := by
  unfold exhausted BestFirst.exhausted
  cases result.head? with
  | none => rfl
  | some worst => rfl

theorem layerLoop_follows (hreads : store.ReadsAs state node) (query : Embedding K)
    (ef layer fuel : ℕ) (layerState : StoreLayerState K) :
    Follows (store.Faulty state)
      (store.layerLoop arithmetic state query ef layer fuel layerState)
      (BestFirst.explore arithmetic.ranking (storedDist arithmetic node query)
        (storedLinks node layer) listed ef fuel layerState) := by
  induction fuel generalizing layerState with
  | zero => exact Or.inl rfl
  | succ fuel ih =>
      unfold layerLoop BestFirst.explore
      have hclosest : (arithmetic.ranking.closest : ItemId × K → ItemId × K → Bool) =
          arithmetic.closest := rfl
      rw [hclosest]
      cases BinaryHeap.pop arithmetic.closest layerState.candidates with
      | none => exact .ok _ _
      | some popped =>
          obtain ⟨⟨n, d⟩, rest⟩ := popped
          dsimp only
          rw [exhausted_eq]
          split
          · exact .ok _ _
          · refine (read_follows hreads n).bind_some ?_
            unfold storedLinks
            cases (node n).bind fun node => node.neighbours[layer]? with
            | none => exact ih _
            | some neighbours =>
                exact (Follows.foldlM (visit_follows hreads query ef) _).bind_some (ih _)

theorem searchLayer_follows (arithmetic : Arithmetic K) (hreads : store.ReadsAs state node)
    (query : Embedding K) (fuel ef layer : ℕ) (start : ItemId) :
    Follows (store.Faulty state)
      (store.searchLayer arithmetic state fuel query [start] ef layer)
      ((BestFirst.explore arithmetic.ranking (storedDist arithmetic node query)
        (storedLinks node layer) listed ef fuel
        (storedStart arithmetic (storedDist arithmetic node query) start)).map fun layerState =>
          arithmetic.sortByDistance layerState.result) := by
  have hstart : Follows (store.Faulty state)
      ([start].foldlM (store.enter arithmetic state query)
        { visited := [], candidates := [], result := [] })
      (some (storedStart arithmetic (storedDist arithmetic node query) start)) :=
    Follows.foldlM (enter_follows hreads query) _
  refine hstart.bind_some ?_
  rw [Option.map_eq_bind]
  exact (layerLoop_follows hreads query ef layer fuel _).bind fun layerState => .ok _ _

end NodeStore

end LoomDB
