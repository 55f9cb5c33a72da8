import LoomDB.Ann.Shape
import LoomDB.Foundations.InRange

/-!
# Indexing in range

The graph in memory once more, with each place looked up where the code indexes. On a graph of the
right shape every place is there: what the searches, the links and the pruning give is what they
give without looking.
-/

namespace LoomDB

open InRange (Stop Gives item item_eq foldlM_eq_ok mapM_eq_ok_map anyM_eq_ok)

variable {K : Type}

namespace Hnsw

namespace Checked

section Functions

variable (arithmetic : Arithmetic K) (graph : Hnsw K)

def dist (a : ℕ) (query : Embedding K) : Except Stop K := do
  let node ← item graph.nodes a
  return arithmetic.sub arithmetic.one
    ((node.vector.dot arithmetic query).getD arithmetic.negOne)

def closer (query : Embedding K) : ℕ × K × Bool → ℕ → Except Stop (ℕ × K × Bool)
  | (current, currentDist, improved), n => do
      let d ← dist arithmetic graph n query
      return if arithmetic.lt d currentDist then (n, d, true) else (current, currentDist, improved)

def greedyLoop (query : Embedding K) (layer : ℕ) : ℕ → ℕ → K → Except Stop ℕ
  | 0, _, _ => .error .unfinished
  | fuel + 1, current, currentDist => do
      let node ← item graph.nodes current
      let (current, currentDist, improved) ←
        match node.neighbours[layer]? with
        | some neighbours =>
            neighbours.foldlM (closer arithmetic graph query) (current, currentDist, false)
        | none => .ok (current, currentDist, false)
      if improved then greedyLoop query layer fuel current currentDist else .ok current

def greedyClosest (query : Embedding K) (start layer : ℕ) : Except Stop ℕ := do
  let startDist ← dist arithmetic graph start query
  greedyLoop arithmetic graph query layer (graph.nodes.length + 1) start startDist

def seen (epoch : U32) (visited : List U32) (n : ℕ) : Except Stop (Bool × List U32) := do
  let mark ← item visited n
  return if mark = epoch then (true, visited) else (false, visited.set n epoch)

def enter (query : Embedding K) (epoch : U32) (state : LayerState K) (e : ℕ) :
    Except Stop (LayerState K) := do
  let d ← dist arithmetic graph e query
  let (_, visited) ← seen epoch state.visited e
  return {
    visited := visited
    candidates := BinaryHeap.push arithmetic.closest state.candidates (e, d)
    result := BinaryHeap.push arithmetic.farthest state.result (e, d) }

def visit (query : Embedding K) (ef : ℕ) (epoch : U32) (state : LayerState K) (n : ℕ) :
    Except Stop (LayerState K) := do
  let looked ← seen epoch state.visited n
  match looked with
  | (true, _) => return state
  | (false, visited) => do
      let d ← dist arithmetic graph n query
      let worst := (state.result.head?.map Prod.snd).getD arithmetic.infinity
      return if arithmetic.lt d worst || state.result.length < ef then
        let result := BinaryHeap.push arithmetic.farthest state.result (n, d)
        { visited := visited
          candidates := BinaryHeap.push arithmetic.closest state.candidates (n, d)
          result :=
            if result.length > ef then
              ((BinaryHeap.pop arithmetic.farthest result).map Prod.snd).getD result
            else result }
      else { state with visited := visited }

def layerLoop (query : Embedding K) (ef : ℕ) (layer : ℕ) (epoch : U32) :
    ℕ → LayerState K → Except Stop (LayerState K)
  | 0, _ => .error .unfinished
  | fuel + 1, state =>
      match BinaryHeap.pop arithmetic.closest state.candidates with
      | none => .ok state
      | some ((idx, d), candidates) => do
          let state := { state with candidates := candidates }
          if exhausted arithmetic ef d state.result then .ok state
          else do
            let node ← item graph.nodes idx
            match node.neighbours[layer]? with
            | some neighbours => do
                let state ← neighbours.foldlM (visit arithmetic graph query ef epoch) state
                layerLoop query ef layer epoch fuel state
            | none => layerLoop query ef layer epoch fuel state

def searchLayer (query : Embedding K) (entries : List ℕ) (ef layer : ℕ) :
    Except Stop (List (ℕ × K) × Hnsw K) := do
  let visited := graph.visited ++ List.replicate (graph.nodes.length - graph.visited.length) 0
  let epoch := graph.epoch + 1
  let start ← entries.foldlM (enter arithmetic graph query epoch)
    { visited := visited, candidates := [], result := [] }
  let state ← layerLoop arithmetic graph query ef layer epoch (graph.nodes.length + 1) start
  return (arithmetic.sortByDistance state.result,
    { graph with visited := state.visited, epoch := epoch })

def descend (query : Embedding K) (layers : List ℕ) (start : ℕ) : Except Stop ℕ :=
  layers.foldlM (fun current layer => greedyClosest arithmetic graph query current layer) start

def search (query : Embedding K) (k ef : ℕ) : Except Stop (List (ItemId × K) × Hnsw K) :=
  match graph.entry with
  | none => .ok ([], graph)
  | some entry =>
      if graph.dim ≠ some query.length ∨ k = 0 then .ok ([], graph)
      else
        match query.normalized arithmetic with
        | none => .ok ([], graph)
        | some query => do
            let current ← descend arithmetic graph query
              (List.range' 1 graph.maxLevel).reverse entry
            let (found, graph) ← searchLayer arithmetic graph query [current] (max ef k) 0
            let out ← found.mapM fun (idx, dist) => do
              let id ← item graph.ids idx
              return (id, arithmetic.sub arithmetic.one dist)
            return ((arithmetic.sortBySimilarity out).take k, graph)

def selectHeuristic (candidates : List (ℕ × K)) (m : ℕ) : Except Stop (List ℕ) :=
  candidates.foldlM (fun kept (e, distance) =>
    if kept.length ≥ m then .ok kept
    else do
      let redundant ← kept.anyM fun r => do
        let other ← item graph.nodes r
        let d ← dist arithmetic graph e other.vector
        return arithmetic.lt d distance
      return if redundant then kept else kept ++ [e]) []

def backLink (idx layer mMax : ℕ) (graph : Hnsw K) (n : ℕ) : Except Stop (Hnsw K) := do
  let node ← item graph.nodes n
  if node.neighbours[layer]?.any fun links => idx ∈ links then return graph
  else do
    let graph := match node.neighbours[layer]? with
      | some links => graph.setLinks layer n (links ++ [idx])
      | none => graph
    let node ← item graph.nodes n
    let links ← item node.neighbours layer
    if links.length > mMax then do
      let ranked ← links.mapM fun m => do
        let d ← dist arithmetic graph m node.vector
        return (m, d)
      let selected ← selectHeuristic arithmetic graph (arithmetic.sortByDistance ranked) mMax
      return graph.setLinks layer n selected
    else return graph

def linkLayer (idx : ℕ) (query : Embedding K) :
    Hnsw K × ℕ → ℕ → Except Stop (Hnsw K × ℕ)
  | (graph, current), layer => do
      let (found, graph) ← searchLayer arithmetic graph query [current] EF_CONSTRUCTION layer
      let found := found.filter fun entry => entry.1 ≠ idx
      let selected ← selectHeuristic arithmetic graph found M
      let mMax := if layer = 0 then M_MAX0 else M
      let node ← item graph.nodes idx
      let _ ← item node.neighbours layer
      let graph ← selected.foldlM (backLink arithmetic idx layer mMax)
        (graph.setLinks layer idx selected)
      return (graph, (found.head?.map Prod.fst).getD current)

def relink (idx : ℕ) : Except Stop (Hnsw K) :=
  match graph.entry with
  | none => .ok graph
  | some entry => do
      let node ← item graph.nodes idx
      -- Without a layer the level would be one less than none.
      let _ ← item node.neighbours 0
      let nodeLevel := node.neighbours.length - 1
      let current ← descend arithmetic graph node.vector
        (List.range' (nodeLevel + 1) (graph.maxLevel - nodeLevel)).reverse entry
      let (graph, _) ← (List.range (min nodeLevel graph.maxLevel + 1)).reverse.foldlM
        (linkLayer arithmetic idx node.vector) (graph, current)
      return graph

def insert (levelOf : ItemId → ℕ) (id : ItemId) (vector : Embedding K) :
    Except Stop (Bool × Hnsw K) :=
  match vector.normalized arithmetic with
  | none => .ok (false, graph)
  | some vector =>
      if graph.dim.any fun dim => dim ≠ vector.length then .ok (false, graph)
      else
        let graph := { graph with dim := some vector.length }
        match graph.idToIndex[id]? with
        | some idx => do
            let _ ← item graph.nodes idx
            let graph : Hnsw K :=
              { graph with nodes := graph.nodes.modify idx (HnswNode.cleared vector) }
            let graph ← relink arithmetic graph idx
            return (true, graph)
        | none =>
            let level := levelOf id
            let idx := graph.nodes.length
            let graph :=
              { graph with
                nodes := graph.nodes ++ [HnswNode.fresh vector level]
                ids := graph.ids ++ [id]
                idToIndex := graph.idToIndex.insert id idx }
            if graph.entry = none then
              .ok (true, { graph with entry := some idx, maxLevel := level })
            else do
              let graph ← relink arithmetic graph idx
              if level > graph.maxLevel then
                return (true, { graph with maxLevel := level, entry := some idx })
              else return (true, graph)

end Functions

variable {arithmetic : Arithmetic K} {graph : Hnsw K}

/-! ## Searching -/

theorem item_nodes {n : ℕ} (hn : graph.Has n) :
    ∃ node, item graph.nodes n = .ok node ∧ graph.vector n = node.vector ∧
      ∀ layer, graph.links? layer n = node.neighbours[layer]? := by
  have hlength : n < graph.nodes.length := hn
  have hnode : graph.nodes[n]? = some graph.nodes[n] := List.getElem?_eq_getElem hlength
  refine ⟨_, item_eq hnode, ?_, fun layer => ?_⟩
  · rw [vector, hnode]
    rfl
  · rw [links?, hnode]
    rfl

theorem dist_eq {a : ℕ} (ha : graph.Has a) (query : Embedding K) :
    dist arithmetic graph a query = .ok (graph.dist arithmetic a query) := by
  obtain ⟨node, hnode, hvector, -⟩ := item_nodes ha
  rw [dist, hnode, Hnsw.dist, hvector]
  rfl

theorem closer_eq {n : ℕ} (hn : graph.Has n) (query : Embedding K) (best : ℕ × K × Bool) :
    closer arithmetic graph query best n = .ok (graph.closer arithmetic query best n) := by
  obtain ⟨current, currentDist, improved⟩ := best
  rw [closer, dist_eq hn]
  rfl

section Searching

variable (hlinks : graph.LinksIn graph.Has)

include hlinks

theorem greedyLoop_gives (query : Embedding K) (layer fuel : ℕ) {current : ℕ}
    (hcurrent : graph.Has current) (currentDist : K) :
    Gives (greedyLoop arithmetic graph query layer fuel current currentDist)
      (graph.greedyLoop arithmetic query layer fuel current currentDist) := by
  induction fuel generalizing current currentDist with
  | zero => rfl
  | succ fuel ih =>
      obtain ⟨node, hnode, -, hnodeLinks⟩ := item_nodes hcurrent
      unfold greedyLoop Hnsw.greedyLoop
      refine .bind_ok hnode ?_
      rw [hnodeLinks layer]
      cases hlayer : node.neighbours[layer]? with
      | none => exact .ok current
      | some neighbours =>
          have hneighbours : ∀ n ∈ neighbours, graph.Has n := by
            intro n hn
            refine hlinks layer current n ?_
            rw [links, hnodeLinks layer, hlayer]
            exact hn
          have hstep : ∀ best : ℕ × K × Bool, graph.Has best.1 → ∀ n ∈ neighbours,
              closer arithmetic graph query best n = .ok (graph.closer arithmetic query best n) ∧
                graph.Has (graph.closer arithmetic query best n).1 := by
            intro best hbest n hn
            refine ⟨closer_eq (hneighbours n hn) query best, ?_⟩
            rw [Hnsw.closer_eq]
            exact BestFirst.hop_stays hbest (hneighbours n hn)
          have hstart : graph.Has ((current, currentDist, false) : ℕ × K × Bool).1 := hcurrent
          obtain ⟨hfold, hbest⟩ := foldlM_eq_ok _ hstep hstart
          refine .bind_ok hfold ?_
          dsimp only
          split
          · exact ih hbest _
          · exact .ok _

theorem descend_gives (query : Embedding K) (layers : List ℕ) {start : ℕ}
    (hstart : graph.Has start) :
    Gives (descend arithmetic graph query layers start)
      (graph.descend arithmetic query layers start) := by
  unfold descend Hnsw.descend
  induction layers generalizing start with
  | nil => exact .ok start
  | cons layer layers ih =>
      rw [List.foldlM_cons, List.foldlM_cons]
      have hgives : Gives (greedyClosest arithmetic graph query start layer)
          (graph.greedyClosest arithmetic query start layer) :=
        .bind_ok (dist_eq hstart query) (greedyLoop_gives hlinks query layer _ hstart _)
      refine hgives.bind fun next hnext => ih ?_
      rw [Hnsw.greedyClosest, greedyLoop_eq] at hnext
      exact BestFirst.greedy_stays (fun n _ => hlinks layer n) hstart hnext

end Searching

/-- There is a mark for each node, and only nodes are to be explored. -/
structure Ready (graph : Hnsw K) (state : LayerState K) : Prop where
  marks : graph.nodes.length ≤ state.visited.length
  within : state.Within graph.Has

theorem seen_eq {visited : List U32} {n : ℕ} (hn : n < visited.length) (epoch : U32) :
    seen epoch visited n = .ok (LoomDB.seen epoch visited n) := by
  have hmark : visited[n]? = some visited[n] := List.getElem?_eq_getElem hn
  rw [seen, item_eq hmark, LoomDB.seen]
  by_cases hseen : visited[n] = epoch
  · rw [if_pos (hmark.trans (congrArg some hseen))]
    exact congrArg Except.ok (if_pos hseen)
  · rw [if_neg fun hsame => hseen (Option.some.inj (hmark.symm.trans hsame))]
    exact congrArg Except.ok (if_neg hseen)

theorem enter_eq {state : LayerState K} (hready : Ready graph state) {e : ℕ} (he : graph.Has e)
    (query : Embedding K) (epoch : U32) :
    enter arithmetic graph query epoch state e =
        .ok (graph.enter arithmetic query epoch state e) ∧
      Ready graph (graph.enter arithmetic query epoch state e) := by
  refine ⟨?_, ?_, ?_⟩
  · rw [enter, dist_eq he]
    change (seen epoch state.visited e >>= fun looked => _) = _
    rw [seen_eq (Nat.lt_of_lt_of_le he hready.marks)]
    rfl
  · exact (seen_visited epoch state.visited e).1.symm ▸ hready.marks
  · have hsame : graph.enter arithmetic query epoch state e =
        BestFirst.enter arithmetic.ranking (graph.dist arithmetic · query) (LoomDB.seen epoch)
          state e := rfl
    rw [hsame]
    exact hready.within.enter he

theorem visit_eq {state : LayerState K} (hready : Ready graph state) {n : ℕ} (hn : graph.Has n)
    (query : Embedding K) (ef : ℕ) (epoch : U32) :
    visit arithmetic graph query ef epoch state n =
        .ok (graph.visit arithmetic query ef epoch state n) ∧
      Ready graph (graph.visit arithmetic query ef epoch state n) := by
  have hlength := (seen_visited epoch state.visited n).1
  refine ⟨?_, ?_, ?_⟩
  · rw [visit, seen_eq (Nat.lt_of_lt_of_le hn hready.marks), Hnsw.visit]
    change (match LoomDB.seen epoch state.visited n with
      | (true, _) => _
      | (false, visited) => _ : Except Stop (LayerState K)) = _
    cases LoomDB.seen epoch state.visited n with
    | mk already visited =>
        cases already with
        | true => rfl
        | false =>
            dsimp only
            rw [dist_eq hn]
            rfl
  · unfold Hnsw.visit
    generalize LoomDB.seen epoch state.visited n = looked at hlength ⊢
    split
    · exact hready.marks
    · dsimp only
      split
      · exact hlength.symm ▸ hready.marks
      · exact hlength.symm ▸ hready.marks
  · rw [Hnsw.visit_eq]
    exact hready.within.visit hn

section Exploring

variable (hlinks : graph.LinksIn graph.Has)

include hlinks

theorem layerLoop_gives (query : Embedding K) (ef layer : ℕ) (epoch : U32) (fuel : ℕ)
    {state : LayerState K} (hready : Ready graph state) :
    Gives (layerLoop arithmetic graph query ef layer epoch fuel state)
      (graph.layerLoop arithmetic query ef layer epoch fuel state) := by
  induction fuel generalizing state with
  | zero => rfl
  | succ fuel ih =>
      unfold layerLoop Hnsw.layerLoop
      cases hpop : BinaryHeap.pop arithmetic.closest state.candidates with
      | none => exact .ok state
      | some popped =>
          obtain ⟨⟨idx, d⟩, rest⟩ := popped
          have hpop : BinaryHeap.pop arithmetic.ranking.closest state.candidates =
            some ((idx, d), rest) := hpop
          obtain ⟨hidx, hwithin⟩ := hready.within.popped hpop
          have hready : Ready graph { state with candidates := rest } := ⟨hready.marks, hwithin⟩
          dsimp only
          split
          · exact .ok _
          · obtain ⟨node, hnode, -, hnodeLinks⟩ := item_nodes hidx
            refine .bind_ok hnode ?_
            rw [hnodeLinks layer]
            cases hlayer : node.neighbours[layer]? with
            | none => exact ih hready
            | some neighbours =>
                have hneighbours : ∀ n ∈ neighbours, graph.Has n := by
                  intro n hn
                  refine hlinks layer idx n ?_
                  rw [links, hnodeLinks layer, hlayer]
                  exact hn
                obtain ⟨hfold, hvisited⟩ := foldlM_eq_ok (Ready graph)
                  (fun state hready n hn => visit_eq hready (hneighbours n hn) query ef epoch) hready
                exact .bind_ok hfold (ih hvisited)

theorem searchLayer_gives (query : Embedding K) {entries : List ℕ}
    (hentries : ∀ e ∈ entries, graph.Has e) (ef layer : ℕ) :
    Gives (searchLayer arithmetic graph query entries ef layer)
      (graph.searchLayer arithmetic query entries ef layer) := by
  have hnothing : Ready graph
      { visited := graph.marks, candidates := [], result := [] } := by
    refine ⟨?_, fun entry hentry => absurd hentry List.not_mem_nil,
      fun entry hentry => absurd hentry List.not_mem_nil⟩
    simp only [marks, List.length_append, List.length_replicate]
    omega
  obtain ⟨hfold, hready⟩ := foldlM_eq_ok (Ready graph)
    (fun state hready e he => enter_eq hready (hentries e he) query (graph.epoch + 1)) hnothing
  refine .bind_ok hfold ?_
  exact (layerLoop_gives hlinks query ef layer _ _ hready).bind fun state _ => .ok _

end Exploring

theorem selectHeuristic_eq {candidates : List (ℕ × K)}
    (hcandidates : ∀ entry ∈ candidates, graph.Has entry.1) (m : ℕ) :
    selectHeuristic arithmetic graph candidates m =
      .ok (graph.selectHeuristic arithmetic candidates m) := by
  have hstep : ∀ kept : List ℕ, (∀ r ∈ kept, graph.Has r) → ∀ entry ∈ candidates,
      (if kept.length ≥ m then .ok kept
        else do
          let redundant ← kept.anyM fun r => do
            let other ← item graph.nodes r
            let d ← dist arithmetic graph entry.1 other.vector
            return arithmetic.lt d entry.2
          return if redundant then kept else kept ++ [entry.1] : Except Stop (List ℕ)) =
        .ok (if kept.length ≥ m then kept
          else if kept.any fun r =>
            arithmetic.lt (graph.dist arithmetic entry.1 (graph.vector r)) entry.2 then kept
          else kept ++ [entry.1]) ∧
      ∀ r ∈ (if kept.length ≥ m then kept
          else if kept.any fun r =>
            arithmetic.lt (graph.dist arithmetic entry.1 (graph.vector r)) entry.2 then kept
          else kept ++ [entry.1]), graph.Has r := by
    intro kept hkept entry hentry
    split
    · exact ⟨rfl, hkept⟩
    · constructor
      · rw [anyM_eq_ok fun r hr => ?_]
        · rfl
        · obtain ⟨other, hother, hvector, -⟩ := item_nodes (hkept r hr)
          rw [hother]
          change (dist arithmetic graph entry.1 other.vector >>= fun d => _) = _
          rw [dist_eq (hcandidates entry hentry), hvector]
          rfl
      · split
        · exact hkept
        · intro r hr
          rcases List.mem_append.mp hr with hr | hr
          · exact hkept r hr
          · exact List.mem_singleton.mp hr ▸ hcandidates entry hentry
  exact (foldlM_eq_ok (fun kept => ∀ r ∈ kept, graph.Has r) hstep
    fun r hr => absurd hr List.not_mem_nil).1

/-! ## Linking -/

theorem links?_setLinks {layer n : ℕ} (hn : graph.HasLayer layer n) (list : List ℕ) :
    (graph.setLinks layer n list).links? layer n = some list := by
  obtain ⟨node, hnode, hlayer⟩ := hasLayer_iff.mp hn
  simp [links?, setLinks, hnode, hlayer]

theorem item_links {layer n : ℕ} {list : List ℕ} (hlist : graph.links? layer n = some list) :
    ∃ node, item graph.nodes n = .ok node ∧ graph.vector n = node.vector ∧
      node.neighbours[layer]? = some list := by
  obtain ⟨node, hnode, hlayer⟩ := Option.bind_eq_some_iff.mp hlist
  refine ⟨node, item_eq hnode, ?_, hlayer⟩
  rw [vector, hnode]
  rfl

theorem backLink_eq {idx layer mMax n : ℕ} (hlinked : graph.Linked) (hidx : graph.HasLayer layer idx)
    (hn : graph.HasLayer layer n) :
    backLink arithmetic idx layer mMax graph n =
      .ok (Hnsw.backLink arithmetic idx layer mMax graph n) := by
  obtain ⟨list, hlist⟩ : ∃ list, graph.links? layer n = some list := by
    obtain ⟨node, hnode, hlayer⟩ := hasLayer_iff.mp hn
    exact ⟨node.neighbours[layer], by rw [links?, hnode]; exact List.getElem?_eq_getElem hlayer⟩
  have hlinks : graph.links layer n = list := by rw [links, hlist]; rfl
  obtain ⟨node, hnode, -, hneighbours⟩ := item_links hlist
  obtain ⟨longer, hlonger, hvector, hmore⟩ := item_links (links?_setLinks hn (list ++ [idx]))
  unfold backLink Hnsw.backLink
  rw [hnode]
  change (if (node.neighbours[layer]?.any fun links => Decidable.decide (idx ∈ links)) = true then _
    else _ : Except Stop (Hnsw K)) = _
  rw [hneighbours, hlist]
  dsimp only [Option.any_some, Option.getD_some]
  by_cases hmem : idx ∈ list
  · rw [if_pos (decide_eq_true hmem), if_pos hmem]
    rfl
  · rw [if_neg fun htrue => hmem (of_decide_eq_true htrue), if_neg hmem, hlonger]
    change (item longer.neighbours layer >>= fun links => _) = _
    rw [item_eq hmore]
    change (if (list ++ [idx]).length > mMax then _ else _ : Except Stop (Hnsw K)) = _
    split
    · have hhas := (setLinks_rewires graph layer n (list ++ [idx])).has
      have hmembers : ∀ m ∈ list ++ [idx], (graph.setLinks layer n (list ++ [idx])).Has m := by
        intro m hm
        rw [hhas]
        rcases List.mem_append.mp hm with hm | hm
        · exact ((hlinked layer n).layered m (hlinks ▸ hm)).has
        · exact List.mem_singleton.mp hm ▸ hidx.has
      have hranked : (list ++ [idx]).mapM (fun m => do
            let d ← dist arithmetic (graph.setLinks layer n (list ++ [idx])) m longer.vector
            return (m, d)) =
          .ok ((list ++ [idx]).map fun m => (m,
            (graph.setLinks layer n (list ++ [idx])).dist arithmetic m longer.vector)) := by
        refine mapM_eq_ok_map fun m hm => ?_
        rw [dist_eq (hmembers m hm)]
        rfl
      rw [hranked, hvector]
      change (selectHeuristic arithmetic (graph.setLinks layer n (list ++ [idx])) _ mMax >>=
        fun selected => _) = _
      rw [selectHeuristic_eq fun entry hentry => ?_]
      · rfl
      · obtain ⟨m, hm, rfl⟩ := List.mem_map.mp
          ((Comparison.perm_insertionSort _ _).mem_iff.mp hentry)
        exact hmembers m hm
    · rfl

theorem foldl_backLink_eq {idx layer : ℕ} {selected : List ℕ} {middle : Hnsw K}
    (hkeeps : KeepsShape graph middle) (hidx : graph.HasLayer layer idx)
    (hselected : ∀ n ∈ selected, graph.HasLayer layer n ∧ idx ≠ n) :
    selected.foldlM (backLink arithmetic idx layer (maxDegree layer)) middle =
      .ok (selected.foldl (Hnsw.backLink arithmetic idx layer (maxDegree layer)) middle) := by
  refine (foldlM_eq_ok (KeepsShape graph) (fun middle hkeeps n hn => ?_) hkeeps).1
  obtain ⟨hlayer, hother⟩ := hselected n hn
  refine ⟨backLink_eq hkeeps.linked ?_ ?_, backLink_keepsShape arithmetic hkeeps hidx hother⟩
  · rw [hkeeps.hasLayer]
    exact hidx
  · rw [hkeeps.hasLayer]
    exact hlayer

theorem linkLayer_gives {idx layer current : ℕ} (query : Embedding K) (hlinked : graph.Linked)
    (hidx : graph.HasLayer layer idx) (hcurrent : graph.HasLayer layer current) :
    Gives (linkLayer arithmetic idx query (graph, current) layer)
      (Hnsw.linkLayer arithmetic idx query (graph, current) layer) := by
  have hlinks : graph.LinksIn graph.Has := fun _ _ m hm => (hlinked.links_stay m hm).has
  unfold linkLayer Hnsw.linkLayer
  refine (searchLayer_gives hlinks query (List.forall_mem_singleton.mpr hcurrent.has) _ _).bind
    fun result hresult => ?_
  obtain ⟨found, searched⟩ := result
  obtain ⟨hothers, hselected, hkeeps⟩ := selected_keepsShape hlinked hcurrent hresult
  have hsearched := linked_congr (searchLayer_nodes hresult).1 hlinked
  have hselect : selectHeuristic arithmetic searched (found.filter fun entry => entry.1 ≠ idx) M =
      .ok (searched.selectHeuristic arithmetic (found.filter fun entry => entry.1 ≠ idx) M) := by
    refine selectHeuristic_eq (fun entry hentry => ?_) M
    have hlayer := (hothers entry hentry).1
    rw [← hsearched.hasLayer] at hlayer
    exact hlayer.has
  refine .bind_ok hselect ?_
  have hown : searched.HasLayer layer idx := hsearched.hasLayer ▸ hidx
  obtain ⟨node, hnode, hlayer⟩ := hasLayer_iff.mp hown
  refine .bind_ok (item_eq hnode) (.bind_ok (item_eq (List.getElem?_eq_getElem hlayer)) ?_)
  exact .bind_ok (foldl_backLink_eq hkeeps hidx hselected) (.ok _)

theorem linkLayers_gives {idx : ℕ} (query : Embedding K) {layers : List ℕ}
    (hdown : layers.Pairwise fun upper lower => lower ≤ upper) {current : ℕ}
    (hlinked : graph.Linked) (hidx : ∀ layer ∈ layers, graph.HasLayer layer idx)
    (hcurrent : ∀ layer ∈ layers, graph.HasLayer layer current) :
    Gives (layers.foldlM (linkLayer arithmetic idx query) (graph, current))
      (layers.foldlM (Hnsw.linkLayer arithmetic idx query) (graph, current)) := by
  induction layers generalizing graph current with
  | nil => exact .ok _
  | cons layer layers ih =>
      obtain ⟨hlower, hdown⟩ := List.pairwise_cons.mp hdown
      obtain ⟨hlayer, hidx⟩ := List.forall_mem_cons.mp hidx
      have htop := hcurrent layer List.mem_cons_self
      rw [List.foldlM_cons, List.foldlM_cons]
      refine (linkLayer_gives query hlinked hlayer htop).bind fun linked hstep => ?_
      obtain ⟨hkeeps, hreached⟩ := linkLayer_keepsShape hlinked hlayer htop hstep
      rw [← hkeeps.hasLayer] at hreached
      exact ih hdown hkeeps.linked (fun lower hmem => hkeeps.hasLayer ▸ hidx lower hmem)
        fun lower hmem => hreached.mono (hlower lower hmem)

theorem relink_gives {idx : ℕ} (hlinkable : graph.Linkable idx) :
    Gives (relink arithmetic graph idx) (graph.relink arithmetic idx) := by
  obtain ⟨hplaced, hidx, entry, hentry, htop⟩ := hlinkable
  have hown := hplaced.hasLayer_levelAt hidx
  obtain ⟨node, hnode, hlayers⟩ := hasLayer_iff.mp hown
  have hlevel : (graph.nodes[idx]?.map fun node => node.neighbours.length).getD 0 =
      node.neighbours.length := by
    rw [hnode]
    rfl
  have hvector : graph.vector idx = node.vector := by
    rw [vector, hnode]
    rfl
  rw [levelAt, hlevel] at hown
  have hpositive : 0 < node.neighbours.length := by omega
  have hlowest : node.neighbours[0]? = some node.neighbours[0] :=
    List.getElem?_eq_getElem hpositive
  unfold relink Hnsw.relink
  rw [hentry]
  refine .bind_ok (item_eq hnode) (.bind_ok (item_eq hlowest) ?_)
  dsimp only
  rw [hlevel, hvector]
  refine (descend_gives hplaced.linksIn node.vector _ htop.has).bind fun current hcurrent => ?_
  refine (linkLayers_gives node.vector (pairwise_reverse_range _) hplaced.linked
    (fun layer hmem => hown.mono (mem_reverse_range hmem).1)
    (descend_reaches hplaced.linked htop hcurrent)).bind fun linked _ => ?_
  exact .ok _

theorem search_gives (hformed : graph.Formed) (query : Embedding K) (k ef : ℕ) :
    Gives (search arithmetic graph query k ef) (graph.search arithmetic query k ef) := by
  unfold search Hnsw.search
  cases hentry : graph.entry with
  | none => exact .ok _
  | some entry =>
      dsimp only
      split
      · exact .ok _
      · cases query.normalized arithmetic with
        | none => exact .ok _
        | some unit =>
            have hhas := (hformed.entry entry hentry).has
            refine (descend_gives hformed.linksIn unit _ hhas).bind fun current hcurrent => ?_
            have hreached := descend_stays (fun layer n _ => hformed.linksIn layer n) hhas hcurrent
            refine (searchLayer_gives hformed.linksIn unit
              (List.forall_mem_singleton.mpr hreached) _ _).bind fun result hresult => ?_
            obtain ⟨found, searched⟩ := result
            obtain ⟨hstays, -⟩ :=
              searchLayer_stays (fun n _ => hformed.linksIn 0 n) hreached hresult
            have hids := (searchLayer_nodes hresult).2
            have hout : (found.mapM fun (idx, dist) => do
                  let id ← item searched.ids idx
                  return (id, arithmetic.sub arithmetic.one dist)) =
                .ok (found.map fun (idx, dist) =>
                  ((searched.ids[idx]?).getD [], arithmetic.sub arithmetic.one dist)) := by
              refine mapM_eq_ok_map fun entry hentry => ?_
              have hid : entry.1 < searched.ids.length := by
                rw [hids, hformed.ids]
                exact hstays entry hentry
              have hitem := List.getElem?_eq_getElem hid
              dsimp only
              rw [item_eq hitem, hitem]
              rfl
            exact .bind_ok hout (.ok _)

theorem insert_gives (hformed : graph.Formed) (levelOf : ItemId → ℕ) (id : ItemId)
    (vector : Embedding K) :
    Gives (insert arithmetic graph levelOf id vector)
      (graph.insert arithmetic levelOf id vector) := by
  unfold insert Hnsw.insert
  cases vector.normalized arithmetic with
  | none => exact .ok _
  | some unit =>
      dsimp only
      split
      · exact .ok _
      · cases hindex : graph.idToIndex[id]? with
        | some idx =>
            obtain ⟨node, hnode, -⟩ := item_nodes (hformed.known id idx hindex)
            have hgives : Gives (relink arithmetic (graph.replaced idx unit) idx)
                ((graph.replaced idx unit).relink arithmetic idx) :=
              relink_gives (hformed.replaced hindex unit)
            refine .bind_ok hnode ?_
            exact hgives.bind fun linked _ => .ok _
        | none =>
            dsimp only
            split
            · exact .ok _
            next hnonempty =>
              obtain ⟨entry, hentry⟩ := Option.ne_none_iff_exists'.mp hnonempty
              have hgives : Gives
                  (relink arithmetic (graph.withItem id unit (levelOf id)) graph.nodes.length)
                  ((graph.withItem id unit (levelOf id)).relink arithmetic graph.nodes.length) :=
                relink_gives (hformed.withItem hentry id unit (levelOf id))
              refine hgives.bind fun linked _ => ?_
              split
              · exact .ok _
              · exact .ok _

end Checked

/-- After every run of inserts, each link leads to another node that has its layer, no list is too
long, and the entry is on the highest level. So no insert and no search that follows asks for a place
that is not there; and if closer is a strict order, both return. -/
theorem Ran.in_range {K : Type} {arithmetic : Arithmetic K} {levelOf : ItemId → ℕ} {searches : ℕ}
    {graph : Hnsw K} (hran : Ran arithmetic levelOf searches graph) :
    (∀ layer n, ∀ m ∈ graph.links layer n, graph.Has m ∧ layer ≤ graph.levelAt m) ∧
    (∀ entry, graph.entry = some entry → graph.Has entry ∧
      graph.levelAt entry = graph.maxLevel ∧ ∀ n, graph.Has n → graph.levelAt n ≤ graph.maxLevel) ∧
    (∀ layer n, n ∉ graph.links layer n) ∧
    (∀ layer n, (graph.links layer n).length ≤ maxDegree layer) ∧
    (∀ id vector, Checked.insert arithmetic graph levelOf id vector ≠ .error .outOfRange ∧
      Gives (Checked.insert arithmetic graph levelOf id vector)
        (graph.insert arithmetic levelOf id vector)) ∧
    (∀ query k ef, Checked.search arithmetic graph query k ef ≠ .error .outOfRange ∧
      Gives (Checked.search arithmetic graph query k ef) (graph.search arithmetic query k ef)) ∧
    (arithmetic.ranking.Strict → (∀ id vector,
      (graph.insert arithmetic levelOf id vector).isSome = true) ∧
      ∀ query k ef, (graph.search arithmetic query k ef).isSome = true) := by
  obtain ⟨hformed, hmarked⟩ := hran.formed
  refine ⟨fun layer n m hm => ?_, fun entry hentry => ?_, fun layer n => (hformed.linked layer n).others,
    fun layer n => (hformed.linked layer n).few, fun id vector => ?_, fun query k ef => ?_,
    fun hstrict => ⟨fun id vector => ?_, fun query k ef => ?_⟩⟩
  · have hlayer := (hformed.linked layer n).layered m hm
    exact ⟨hlayer.has, hlayer.le_levelAt⟩
  · have htop := hformed.entry entry hentry
    have hbelow : ∀ n, graph.Has n → graph.levelAt n ≤ graph.maxLevel :=
      fun n hn => hformed.levelAt_le hn
    exact ⟨htop.has, Nat.le_antisymm (hbelow entry htop.has) htop.le_levelAt, hbelow⟩
  · have hgives : Gives _ (graph.insert arithmetic levelOf id vector) :=
      Checked.insert_gives hformed levelOf id vector
    exact ⟨hgives.ne_outOfRange, hgives⟩
  · have hgives : Gives _ (graph.search arithmetic query k ef) :=
      Checked.search_gives hformed query k ef
    exact ⟨hgives.ne_outOfRange, hgives⟩
  · exact hformed.insert_isSome hstrict hmarked levelOf id vector
  · exact hformed.search_isSome hstrict hmarked query k ef

/-- Two items, of which the second is inserted again, are linked to each other. -/
theorem Ran.in_range_again :
    ∃ graph : Hnsw ℤ, graph.links 0 0 = [1] ∧ graph.links 0 1 = [0] ∧
      (∀ m ∈ graph.links 0 1, graph.Has m ∧ 0 ≤ graph.levelAt m) ∧
      Checked.search signs graph [1] 2 2 ≠ .error .outOfRange := by
  have hrun : ((Hnsw.empty : Hnsw ℤ).insertAll signs (fun _ => 0)
      [([97], [1]), ([98], [-1]), ([98], [-1])]).map
        (fun graph => (graph.links 0 0, graph.links 0 1)) = some ([1], [0]) := by
    decide +kernel
  obtain ⟨graph, hinserts, hlinks⟩ := Option.map_eq_some_iff.mp hrun
  obtain ⟨hfirst, hsecond⟩ := Prod.mk.inj hlinks
  obtain ⟨searches, hran⟩ := Ran.empty.insertAll hinserts
  obtain ⟨hlinked, -, -, -, -, hsearch, -⟩ := Ran.in_range hran
  exact ⟨graph, hfirst, hsecond, hlinked 0 1, (hsearch [1] 2 2).1⟩

end Hnsw

end LoomDB
