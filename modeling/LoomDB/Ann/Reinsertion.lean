import LoomDB.Ann.Searches
import LoomDB.Foundations.LayeredGraph
import LoomDB.Foundations.StateExcept

/-!
# Inserting an item again

An item that is there already loses its links and gets new ones from a search. The other nodes keep
theirs, and at most gain one to it or lose some to the bound. So what could be found without passing
the node can still be found. But the search for the new links starts at the entry and goes through
the node without links; what was linked through the node alone, it does not find again. The entry
itself finds nothing but itself.
-/

namespace LoomDB

open LayeredGraph (Relinks Admits)
open StateExcept (Ensures except_mapError_eq_ok)

variable {σ ε K : Type} {arithmetic : Arithmetic K}

/-- What each successful step of a fold keeps, the fold keeps. -/
theorem foldlM_keeps {α β : Type} {step : β → α → Option β} (inv : β → Prop)
    (hstep : ∀ value item next, inv value → step value item = some next → inv next)
    {items : List α} {start final : β} (hstart : inv start)
    (hfinal : items.foldlM step start = some final) : inv final := by
  induction items generalizing start with
  | nil =>
      cases hfinal
      exact hstart
  | cons item items ih =>
      rw [List.foldlM_cons] at hfinal
      obtain ⟨next, hnext, hrest⟩ := Option.bind_eq_some_iff.mp hfinal
      exact ih (hstep start item next hstart hnext) hrest

/-! ## In memory -/

namespace Hnsw

variable {graph : Hnsw K} {full idx layer mMax : ℕ} {before : LayeredGraph ℕ}

def layered (graph : Hnsw K) : LayeredGraph ℕ where
  entry := graph.entry
  links := graph.links

theorem links_setLinks (graph : Hnsw K) (layer n : ℕ) (list : List ℕ) (l a : ℕ) :
    (graph.setLinks layer n list).links l a = graph.links l a ∨
      l = layer ∧ a = n ∧ (graph.setLinks layer n list).links l a = list := by
  simp only [links, links?, setLinks, List.getElem?_modify]
  cases graph.nodes[a]? with
  | none => exact Or.inl rfl
  | some node =>
      by_cases ha : n = a
      · by_cases hl : layer = l
        · subst ha hl
          rw [Option.map_eq_map, Option.map_some, if_pos rfl, Option.bind_some, Option.bind_some,
            List.getElem?_set]
          by_cases hlayer : layer < node.neighbours.length
          · exact Or.inr ⟨rfl, rfl, by simp [hlayer]⟩
          · exact Or.inl (by simp [hlayer])
        · exact Or.inl (by simp [ha, List.getElem?_set_ne hl])
      · exact Or.inl (by simp [ha])

theorem mem_selectHeuristic {candidates : List (ℕ × K)} {m n : ℕ}
    (hn : n ∈ graph.selectHeuristic arithmetic candidates m) : n ∈ candidates.map Prod.fst := by
  have hfold : ∀ (entries : List (ℕ × K)) (kept : List ℕ),
      kept ⊆ candidates.map Prod.fst → entries ⊆ candidates →
      entries.foldl (fun kept entry =>
        if kept.length ≥ m then kept
        else
          let redundant := kept.any fun r =>
            arithmetic.lt (graph.dist arithmetic entry.1 (graph.vector r)) entry.2
          if redundant then kept else kept ++ [entry.1]) kept ⊆ candidates.map Prod.fst := by
    intro entries
    induction entries with
    | nil => exact fun kept hkept _ => hkept
    | cons entry entries ih =>
        intro kept hkept hentries
        obtain ⟨hentry, hrest⟩ := List.cons_subset.mp hentries
        refine ih _ ?_ hrest
        dsimp only
        split
        · exact hkept
        · split
          · exact hkept
          · exact List.append_subset.mpr
              ⟨hkept, List.cons_subset.mpr ⟨List.mem_map_of_mem hentry, List.nil_subset _⟩⟩
  exact hfold candidates [] (List.nil_subset _) (List.Subset.refl _) hn

/-- A node whose list is replaced by one it may have. -/
theorem setLinks_relinks (hrelinks : Relinks full idx before graph.layered) {n : ℕ}
    {list : List ℕ} (hlist : Admits full idx before layer n list) :
    Relinks full idx before (graph.setLinks layer n list).layered := by
  refine hrelinks.replace rfl fun l a => ?_
  rcases graph.links_setLinks layer n list l a with hsame | ⟨rfl, rfl, hset⟩
  · exact Or.inl hsame
  · refine Or.inr ?_
    change Admits full idx before l a ((graph.setLinks l a list).links l a)
    rw [hset]
    exact hlist

theorem backLink_relinks (hmMax : layer = 0 → mMax = full)
    (hrelinks : Relinks full idx before graph.layered) (n : ℕ) :
    Relinks full idx before (backLink arithmetic idx layer mMax graph n).layered := by
  unfold backLink
  change Relinks full idx before (if idx ∈ graph.links layer n then graph else _).layered
  split
  · exact hrelinks
  next hnew =>
    dsimp only
    have happend := setLinks_relinks hrelinks (hrelinks.admits_append hnew)
    split
    next hlonger =>
      refine setLinks_relinks happend (hrelinks.admits_pruned hnew ?_ fun m hm => ?_)
      · exact fun hlayer => hmMax hlayer ▸ hlonger
      · obtain ⟨entry, hentry, rfl⟩ := List.mem_map.mp (mem_selectHeuristic hm)
        have hranked := (Comparison.perm_insertionSort _ _).mem_iff.mp hentry
        obtain ⟨link, hlink, rfl⟩ := List.mem_map.mp hranked
        exact hlink
    next => exact happend

theorem foldl_backLink_relinks (hmMax : layer = 0 → mMax = full) {selected : List ℕ}
    (hrelinks : Relinks full idx before graph.layered) :
    Relinks full idx before
      (selected.foldl (backLink arithmetic idx layer mMax) graph).layered := by
  induction selected generalizing graph with
  | nil => exact hrelinks
  | cons n selected ih => exact ih (backLink_relinks hmMax hrelinks n)

/-- What a search of a layer finds the links of the layer do not leave. -/
theorem searchLayer_stays {P : ℕ → Prop} (hlinks : ∀ n, P n → ∀ m ∈ graph.links layer n, P m)
    {query : Embedding K} {start ef : ℕ} (hstart : P start) {found : List (ℕ × K)}
    {after : Hnsw K}
    (hfound : graph.searchLayer arithmetic query [start] ef layer = some (found, after)) :
    (∀ entry ∈ found, P entry.1) ∧ after.layered = graph.layered := by
  rw [searchLayer_eq] at hfound
  obtain ⟨final, hfinal, heq⟩ := Option.map_eq_some_iff.mp hfound
  cases heq
  have hnothing : BestFirst.State.Within P
      ({ visited := graph.marks, candidates := [], result := [] } : LayerState K) :=
    ⟨fun entry hentry => absurd hentry List.not_mem_nil,
      fun entry hentry => absurd hentry List.not_mem_nil⟩
  have hwithin := BestFirst.explore_stays hlinks (hnothing.enter hstart) hfinal
  refine ⟨fun entry hentry => hwithin.result entry ?_, rfl⟩
  exact (Comparison.perm_insertionSort _ _).mem_iff.mp hentry

theorem descend_stays {P : ℕ → Prop}
    (hlinks : ∀ layer n, P n → ∀ m ∈ graph.links layer n, P m) {query : Embedding K}
    {layers : List ℕ} {start found : ℕ} (hstart : P start)
    (hfound : graph.descend arithmetic query layers start = some found) : P found := by
  refine foldlM_keeps P (fun current layer next hcurrent hnext => ?_) hstart hfound
  rw [greedyClosest, greedyLoop_eq] at hnext
  exact BestFirst.greedy_stays (hlinks layer) hcurrent hnext

theorem linkLayer_relinks (hrelinks : Relinks M_MAX0 idx before graph.layered)
    {query : Embedding K} {current next layer : ℕ} {after : Hnsw K}
    (hcurrent : current = idx ∨ before.LinkedAround idx current)
    (hlinked : linkLayer arithmetic idx query (graph, current) layer = some (after, next)) :
    Relinks M_MAX0 idx before after.layered ∧ (next = idx ∨ before.LinkedAround idx next) := by
  unfold linkLayer at hlinked
  obtain ⟨⟨found, searched⟩, hfound, hlinked⟩ := Option.bind_eq_some_iff.mp hlinked
  obtain ⟨hstays, hsame⟩ := searchLayer_stays
    (fun n hn => hrelinks.links_stay layer hn) hcurrent hfound
  have hkept : ∀ entry ∈ found.filter fun entry => entry.1 ≠ idx,
      entry.1 = idx ∨ before.LinkedAround idx entry.1 :=
    fun entry hentry => hstays entry (List.mem_filter.mp hentry).1
  cases hlinked
  constructor
  · refine foldl_backLink_relinks (fun hlayer => if_pos hlayer) ?_
    refine setLinks_relinks (hsame ▸ hrelinks) (Relinks.admits_own layer fun n hn => ?_)
    obtain ⟨entry, hentry, rfl⟩ := List.mem_map.mp (mem_selectHeuristic hn)
    exact hkept entry hentry
  · cases hhead : (found.filter fun entry => entry.1 ≠ idx).head? with
    | none =>
        rw [Option.map_none, Option.getD_none]
        exact hcurrent
    | some entry =>
        rw [Option.map_some, Option.getD_some]
        exact hkept entry (List.mem_of_mem_head? hhead)

theorem relink_relinks (hrelinks : Relinks M_MAX0 idx before graph.layered) {after : Hnsw K}
    (hlinked : graph.relink arithmetic idx = some after) :
    Relinks M_MAX0 idx before after.layered := by
  unfold relink at hlinked
  cases hentry : graph.entry with
  | none =>
      rw [hentry] at hlinked
      cases hlinked
      exact hrelinks
  | some entry =>
      rw [hentry] at hlinked
      obtain ⟨current, hcurrent, hlinked⟩ := Option.bind_eq_some_iff.mp hlinked
      obtain ⟨⟨linked, next⟩, hloop, heq⟩ := Option.bind_eq_some_iff.mp hlinked
      cases heq
      have hstart : entry = idx ∨ before.LinkedAround idx entry :=
        Or.inr (LayeredGraph.linkedAround_entry idx (hrelinks.entry.symm.trans hentry))
      have hdescent := descend_stays (fun layer n hn => hrelinks.links_stay layer hn) hstart hcurrent
      have hkeeps := foldlM_keeps
        (fun linked : Hnsw K × ℕ => Relinks M_MAX0 idx before linked.1.layered ∧
          (linked.2 = idx ∨ before.LinkedAround idx linked.2))
        (fun linked layer next hlinked hnext => linkLayer_relinks hlinked.1 hlinked.2 hnext)
        ⟨hrelinks, hdescent⟩ hloop
      exact hkeeps.1

/-- Clearing the lists of a node. -/
theorem cleared_relinks (full idx : ℕ) (vector : Embedding K) (dim : Option ℕ) :
    Relinks full idx graph.layered
      ({ graph with dim := dim, nodes := graph.nodes.modify idx (HnswNode.cleared vector) } :
        Hnsw K).layered := by
  refine Relinks.cleared rfl (fun layer => ?_) fun layer a ha => ?_
  · change Option.getD (((graph.nodes.modify idx (HnswNode.cleared vector))[idx]?).bind
      fun node => node.neighbours[layer]?) [] = []
    rw [List.getElem?_modify]
    cases graph.nodes[idx]? with
    | none => rfl
    | some node =>
        by_cases hlayer : layer < node.neighbours.length
        · simp [HnswNode.cleared, hlayer]
        · simp [HnswNode.cleared, hlayer]
  · change Option.getD (((graph.nodes.modify idx (HnswNode.cleared vector))[a]?).bind
      fun node => node.neighbours[layer]?) [] = graph.links layer a
    rw [List.getElem?_modify, links, links?]
    cases graph.nodes[a]? with
    | none => rfl
    | some node => simp [Ne.symm ha]

/-- An item that is inserted again is relinked, unless its vector is refused. -/
theorem reinsert_relinks {levelOf : ItemId → ℕ} {id : ItemId} {vector : Embedding K}
    (hpresent : graph.idToIndex[id]? = some idx) {accepted : Bool} {after : Hnsw K}
    (hinsert : graph.insert arithmetic levelOf id vector = some (accepted, after)) :
    accepted = false ∧ after = graph ∨
      accepted = true ∧ Relinks M_MAX0 idx graph.layered after.layered := by
  unfold insert at hinsert
  split at hinsert
  · cases hinsert
    exact Or.inl ⟨rfl, rfl⟩
  next unit hunit =>
    split at hinsert
    · cases hinsert
      exact Or.inl ⟨rfl, rfl⟩
    · dsimp only at hinsert
      rw [hpresent] at hinsert
      obtain ⟨linked, hlinked, heq⟩ := Option.bind_eq_some_iff.mp hinsert
      cases heq
      exact Or.inr ⟨rfl, relink_relinks (cleared_relinks M_MAX0 idx unit _) hlinked⟩

end Hnsw

/-! ## In a store -/

/-- A store where any call may fail; a node that it reads is the one written last. -/
structure GraphStore (σ ε K : Type) extends NodeStore σ ε K where
  node : σ → ItemId → Option (PersistedNode K)
  info : σ → HnswMeta
  reads : ∀ state, toNodeStore.ReadsAs state (node state)
  getMeta_eq : ∀ state found, getMeta state = .ok found → found = info state
  node_putNode : ∀ state id written state', putNode state id written = .ok state' →
    node state' = Function.update (node state) id (some written)
  info_putNode : ∀ state id written state', putNode state id written = .ok state' →
    info state' = info state
  node_putMeta : ∀ state written state', putMeta state written = .ok state' →
    node state' = node state
  info_putMeta : ∀ state written state', putMeta state written = .ok state' →
    info state' = written

namespace NodeStore

theorem searchLayer_stays {store : NodeStore σ ε K} {state : σ}
    {node : ItemId → Option (PersistedNode K)} (hreads : store.ReadsAs state node)
    {P : ItemId → Prop} {layer : ℕ} (hlinks : ∀ id, P id → ∀ m ∈ storedLinks node layer id, P m)
    {fuel ef : ℕ} {query : Embedding K} {start : ItemId} (hstart : P start)
    {found : List (ItemId × K)}
    (hfound : store.searchLayer arithmetic state fuel query [start] ef layer = .ok found) :
    ∀ entry ∈ found, P entry.1 := by
  have hanswer := (searchLayer_follows arithmetic hreads query fuel ef layer start).answer_eq hfound
  obtain ⟨final, hfinal, rfl⟩ := Option.map_eq_some_iff.mp hanswer
  have hnothing : BestFirst.State.Within P
      ({ visited := [], candidates := [], result := [] } : StoreLayerState K) :=
    ⟨fun entry hentry => absurd hentry List.not_mem_nil,
      fun entry hentry => absurd hentry List.not_mem_nil⟩
  have hwithin := BestFirst.explore_stays hlinks (hnothing.enter hstart) hfinal
  exact fun entry hentry =>
    hwithin.result entry ((Comparison.perm_insertionSort _ _).mem_iff.mp hentry)

theorem descend_stays {store : NodeStore σ ε K} {state : σ}
    {node : ItemId → Option (PersistedNode K)} (hreads : store.ReadsAs state node)
    {P : ItemId → Prop} (hlinks : ∀ layer id, P id → ∀ m ∈ storedLinks node layer id, P m)
    {fuel : ℕ} {query : Embedding K} {layers : List ℕ} {start found : ItemId} (hstart : P start)
    (hfound : store.descend arithmetic state fuel query layers start = .ok found) : P found := by
  unfold descend at hfound
  induction layers generalizing start with
  | nil =>
      cases hfound
      exact hstart
  | cons layer layers ih =>
      rw [List.foldlM_cons] at hfound
      obtain ⟨next, hnext, hrest⟩ := StateExcept.except_bind_eq_ok.mp hfound
      refine ih ?_ hrest
      have hanswer := (greedyClosest_follows arithmetic hreads query fuel start layer).answer_eq hnext
      exact BestFirst.greedy_stays (hlinks layer) hstart hanswer

theorem prune_subset {store : NodeStore σ ε K} {state : σ} {nvec : Embedding K}
    {links kept : List ItemId} (hkept : store.prune arithmetic nvec links state = .ok kept) :
    kept ⊆ links := by
  unfold prune at hkept
  obtain ⟨ranked, hranked, heq⟩ := StateExcept.except_bind_eq_ok.mp hkept
  cases heq
  have hfirst : ∀ (links : List ItemId) (ranked : List (ItemId × K)),
      (links.mapM fun m => do
        let d ← store.distOf arithmetic state nvec m
        return (m, d)) = .ok ranked → ranked.map Prod.fst = links := by
    intro links
    induction links with
    | nil =>
        intro ranked hranked
        cases hranked
        rfl
    | cons link links ih =>
        intro ranked hranked
        rw [List.mapM_cons] at hranked
        obtain ⟨entry, hentry, hranked⟩ := StateExcept.except_bind_eq_ok.mp hranked
        obtain ⟨rest, hrest, heq⟩ := StateExcept.except_bind_eq_ok.mp hranked
        obtain ⟨d, -, hd⟩ := StateExcept.except_bind_eq_ok.mp hentry
        cases heq
        cases hd
        rw [List.map_cons, ih rest hrest]
  intro link hlink
  rw [← hfirst links ranked hranked]
  obtain ⟨entry, hentry, rfl⟩ := List.mem_map.mp hlink
  exact List.mem_map_of_mem
    ((Comparison.perm_insertionSort _ _).mem_iff.mp (List.mem_of_mem_take hentry))

end NodeStore

namespace GraphStore

variable (store : GraphStore σ ε K)

def layered (state : σ) : LayeredGraph ItemId where
  entry := (store.info state).entry
  links := storedLinks (store.node state)

/-- No node has a layer above the highest one of the graph. -/
def Levelled (state : σ) : Prop :=
  ∀ id node, store.node state id = some node →
    node.neighbours.length ≤ (store.info state).maxLevel + 1

/-- An item is being linked anew, and the meta is as it was. -/
def Linking (before : LayeredGraph ItemId) (info : HnswMeta) (id : ItemId) (state : σ) : Prop :=
  Relinks M id before (store.layered state) ∧ store.info state = info

variable {store} {before : LayeredGraph ItemId} {info : HnswMeta} {id : ItemId}

theorem eq_of_reading {α : Type} {call : σ → Except (Halt ε) α} {state state' : σ} {value : α}
    (hrun : (NodeStore.reading call : NodeStore.StoreM σ ε α) state = .ok (value, state')) :
    call state = .ok value ∧ state' = state := by
  cases hvalue : call state with
  | error error =>
      rw [NodeStore.reading, hvalue] at hrun
      cases hrun
  | ok found =>
      rw [NodeStore.reading, hvalue] at hrun
      cases hrun
      exact ⟨rfl, rfl⟩

theorem eq_putNode {nid : ItemId} {written : PersistedNode K} {state state' : σ} {done : Unit}
    (hrun : store.write nid written state = .ok (done, state')) :
    store.putNode state nid written = .ok state' := by
  cases hput : store.putNode state nid written with
  | error error =>
      rw [NodeStore.write, hput] at hrun
      cases hrun
  | ok after =>
      rw [NodeStore.write, hput] at hrun
      cases hrun
      rfl

theorem eq_putMeta {written : HnswMeta} {state state' : σ} {done : Unit}
    (hrun : store.writeMeta written state = .ok (done, state')) :
    store.putMeta state written = .ok state' := by
  cases hput : store.putMeta state written with
  | error error =>
      rw [NodeStore.writeMeta, hput] at hrun
      cases hrun
  | ok after =>
      rw [NodeStore.writeMeta, hput] at hrun
      cases hrun
      rfl

theorem ensures_reading {α : Type} {pre : σ → Prop} {call : σ → Except (Halt ε) α}
    {post : α → σ → Prop}
    (hcall : ∀ state, pre state → ∀ value, call state = .ok value → post value state) :
    Ensures pre (NodeStore.reading call) post := by
  intro state hpre value state' hrun
  obtain ⟨hvalue, rfl⟩ := eq_of_reading hrun
  exact hcall state' hpre value hvalue

theorem ensures_write {pre : σ → Prop} {nid : ItemId} {written : PersistedNode K}
    {post : Unit → σ → Prop}
    (hwrite : ∀ state, pre state → ∀ state', store.putNode state nid written = .ok state' →
      post () state') :
    Ensures pre (store.write nid written) post :=
  fun state hpre _ state' hrun => hwrite state hpre state' (eq_putNode hrun)

/-- The links of the nodes after a node was written. -/
theorem links_putNode {state state' : σ} {nid : ItemId} {written : PersistedNode K}
    (hput : store.putNode state nid written = .ok state') (layer : ℕ) (a : ItemId) :
    (store.layered state').links layer a =
      if a = nid then (written.neighbours[layer]?).getD []
      else (store.layered state).links layer a := by
  change storedLinks (store.node state') layer a = _
  rw [store.node_putNode state nid written state' hput, storedLinks, Function.update_apply]
  split
  · rfl
  · rfl

/-- Writing a node whose lists are the ones it had, or ones it may have. -/
theorem Linking.write {nid : ItemId} {written : PersistedNode K} {state state' : σ}
    (hlinking : store.Linking before info id state)
    (hwritten : ∀ layer, (written.neighbours[layer]?).getD [] = (store.layered state).links layer nid ∨
      Admits M id before layer nid ((written.neighbours[layer]?).getD []))
    (hput : store.putNode state nid written = .ok state') :
    store.Linking before info id state' := by
  obtain ⟨hrelinks, hinfo⟩ := hlinking
  have hsame := store.info_putNode state nid written state' hput
  refine ⟨hrelinks.replace (congrArg HnswMeta.entry hsame) fun layer a => ?_, hsame.trans hinfo⟩
  rw [links_putNode hput]
  split
  next ha => exact ha ▸ hwritten layer
  next => exact Or.inl rfl

/-- A neighbour gains a link back, and keeps what it had unless it was full. -/
theorem ensures_backLink (layer : ℕ) (nid : ItemId) :
    Ensures (store.Linking before info id) (store.backLink arithmetic id layer nid)
      fun _ => store.Linking before info id := by
  unfold NodeStore.backLink
  refine Ensures.bind (fun found state =>
    store.Linking before info id state ∧ found = store.node state nid) ?_ fun found => ?_
  · refine ensures_reading fun state hlinking found hfound => ⟨hlinking, ?_⟩
    exact Option.some.inj ((NodeStore.read_follows (store.reads state) nid).answer_eq hfound).symm
  cases found with
  | none => exact .pure fun _ hmiddle => hmiddle.1
  | some neighbour =>
      dsimp only
      cases hlist : neighbour.neighbours[layer]? with
      | none => exact .pure fun _ hmiddle => hmiddle.1
      | some links =>
          dsimp only
          split
          · exact .pure fun _ hmiddle => hmiddle.1
          next hnew =>
            have hlinks : ∀ state, some neighbour = store.node state nid → ∀ l,
                (store.layered state).links l nid = (neighbour.neighbours[l]?).getD [] := by
              intro state hnode l
              change storedLinks (store.node state) l nid = _
              rw [storedLinks, ← hnode]
              rfl
            -- What is written differs from what was read in the one list only.
            have hput : ∀ kept, Ensures
                (fun state => (store.Linking before info id state ∧
                  some neighbour = store.node state nid) ∧ Admits M id before layer nid kept)
                (store.write nid { neighbour with neighbours := neighbour.neighbours.set layer kept })
                fun _ => store.Linking before info id := by
              intro kept
              refine ensures_write fun state hstate state' hput => ?_
              obtain ⟨⟨hlinking, hnode⟩, hadmits⟩ := hstate
              refine hlinking.write (fun l => ?_) hput
              by_cases hl : layer = l
              · subst hl
                have hlayer := (List.getElem?_eq_some_iff.mp hlist).1
                rw [List.getElem?_set_self hlayer]
                exact Or.inr hadmits
              · rw [List.getElem?_set_ne hl]
                exact Or.inl (hlinks state hnode l).symm
            have hgains : ∀ state, store.Linking before info id state →
                some neighbour = store.node state nid →
                (store.layered state).links layer nid = links := by
              intro state _ hnode
              rw [hlinks state hnode layer, hlist]
              rfl
            split
            next hfull =>
              refine Ensures.bind _ (ensures_reading fun state hstate kept hkept =>
                ⟨hstate, ?_⟩) hput
              have hsame := hgains state hstate.1 hstate.2
              refine hstate.1.1.admits_pruned (hsame ▸ hnew) (fun _ => hsame ▸ hfull) ?_
              exact hsame ▸ NodeStore.prune_subset hkept
            next hroom =>
              refine Ensures.bind _ (.pure fun state hstate => ⟨hstate, ?_⟩) hput
              have hsame := hgains state hstate.1 hstate.2
              exact hsame ▸ hstate.1.1.admits_append (hsame ▸ hnew)

/-- The new node and the place of the search lead to nothing that is not linked around the item. -/
def Gathered (before : LayeredGraph ItemId) (id : ItemId) (linked : PersistedNode K × ItemId) :
    Prop :=
  (∀ (layer : ℕ), ∀ b ∈ (linked.1.neighbours[layer]?).getD [], b = id ∨ before.LinkedAround id b) ∧
    (linked.2 = id ∨ before.LinkedAround id linked.2)

theorem ensures_linkLayer (fuel : ℕ) (query : Embedding K) (linked : PersistedNode K × ItemId)
    (layer : ℕ) :
    Ensures (fun state => store.Linking before info id state ∧ Gathered before id linked)
      (store.linkLayer arithmetic fuel id query linked layer)
      fun next state => store.Linking before info id state ∧ Gathered before id next := by
  obtain ⟨node, current⟩ := linked
  unfold NodeStore.linkLayer
  refine Ensures.bind (fun found state =>
    (store.Linking before info id state ∧ Gathered before id (node, current)) ∧
      ∀ entry ∈ found, entry.1 = id ∨ before.LinkedAround id entry.1) ?_ fun found => ?_
  · refine ensures_reading fun state hstate found hfound => ⟨hstate, ?_⟩
    exact NodeStore.searchLayer_stays (store.reads state)
      (fun n hn => hstate.1.1.links_stay layer hn) hstate.2.2 hfound
  dsimp only
  have hloop : Ensures (fun state =>
      (store.Linking before info id state ∧ Gathered before id (node, current)) ∧
        ∀ entry ∈ found, entry.1 = id ∨ before.LinkedAround id entry.1)
      ((((found.filter fun entry => entry.1 ≠ id).take M).map Prod.fst).forM
        (store.backLink arithmetic id layer))
      (fun _ state => (store.Linking before info id state ∧ Gathered before id (node, current)) ∧
        ∀ entry ∈ found, entry.1 = id ∨ before.LinkedAround id entry.1) :=
    .forM _ fun nid _ state hstate _ state' hrun =>
      ⟨⟨ensures_backLink layer nid state hstate.1.1 _ state' hrun, hstate.1.2⟩, hstate.2⟩
  refine Ensures.bind _ hloop fun _ => .pure fun state hstate => ⟨hstate.1.1, ?_, ?_⟩
  · intro l b hb
    by_cases hl : layer = l
    · subst hl
      rw [List.getElem?_set, if_pos rfl] at hb
      split at hb
      · rw [Option.getD_some] at hb
        obtain ⟨entry, hentry, rfl⟩ := List.mem_map.mp hb
        exact hstate.2 entry (List.mem_filter.mp (List.mem_of_mem_take hentry)).1
      · exact absurd hb List.not_mem_nil
    · rw [List.getElem?_set_ne hl] at hb
      exact hstate.1.2.1 l b hb
  · cases hhead : found.head? with
    | none => exact hstate.1.2.2
    | some entry => exact hstate.2 entry (List.mem_of_mem_head? hhead)

/-- Writing the node without links. -/
theorem cleared_relinks {state state' : σ} {vector : Embedding K} {level : ℕ}
    (hput : store.putNode state id
      { vector := vector, neighbours := List.replicate level [] } = .ok state') :
    Relinks M id (store.layered state) (store.layered state') := by
  have hsame := store.info_putNode state id _ state' hput
  refine Relinks.cleared (congrArg HnswMeta.entry hsame) (fun layer => ?_) fun layer a ha => ?_
  · rw [links_putNode hput, if_pos rfl]
    by_cases hlayer : layer < level
    · simp [hlayer]
    · simp [hlayer]
  · rw [links_putNode hput, if_neg ha]

/-- An item that is inserted again is relinked, unless its vector is refused or no item is the
entry. -/
theorem reinsert_relinks {levelOf : ItemId → ℕ} {fuel : ℕ} {vector : Embedding K} {state : σ}
    {node : PersistedNode K} (hpresent : store.node state id = some node)
    (hlevelled : store.Levelled state) {accepted : Bool} {after : σ}
    (hinsert : store.insert arithmetic levelOf fuel id vector state = .ok (accepted, after)) :
    accepted = false ∧ after = state ∨
      accepted = true ∧ ((store.info state).entry = none ∨
        Relinks M id (store.layered state) (store.layered after)) := by
  unfold NodeStore.insert at hinsert
  obtain ⟨info, middle, hinfo, hinsert⟩ := StateExcept.bind_eq_ok.mp hinsert
  obtain ⟨hinfo, rfl⟩ := eq_of_reading hinfo
  obtain rfl := store.getMeta_eq _ _ (except_mapError_eq_ok.mp hinfo)
  split at hinsert
  · cases hinsert
    exact Or.inl ⟨rfl, rfl⟩
  split at hinsert
  · cases hinsert
    exact Or.inl ⟨rfl, rfl⟩
  obtain ⟨existing, between, hexisting, hinsert⟩ := StateExcept.bind_eq_ok.mp hinsert
  obtain ⟨hexisting, rfl⟩ := eq_of_reading hexisting
  obtain rfl : existing = some node :=
    (store.reads _ id existing (except_mapError_eq_ok.mp hexisting)).trans hpresent
  have hlevel : node.neighbours.length - 1 ≤ (store.info between).maxLevel := by
    have := hlevelled id node hpresent
    omega
  dsimp only [Option.map_some, Option.getD_some] at hinsert
  cases hentry : (store.info between).entry with
  | none =>
      simp only [hentry] at hinsert
      obtain ⟨_, _, _, hinsert⟩ := StateExcept.bind_eq_ok.mp hinsert
      obtain ⟨_, _, _, hinsert⟩ := StateExcept.bind_eq_ok.mp hinsert
      cases hinsert
      exact Or.inr ⟨rfl, Or.inl rfl⟩
  | some entry =>
      simp only [hentry] at hinsert
      obtain ⟨_, _, hwritten, hdescending⟩ := StateExcept.bind_eq_ok.mp hinsert
      obtain ⟨current, written, hcurrent, hlinking⟩ := StateExcept.bind_eq_ok.mp hdescending
      obtain ⟨hcurrent, rfl⟩ := eq_of_reading hcurrent
      obtain ⟨linked, looped, hloop, hwriting⟩ := StateExcept.bind_eq_ok.mp hlinking
      obtain ⟨_, final, hfinal, hclosing⟩ := StateExcept.bind_eq_ok.mp hwriting
      have hwritten := eq_putNode hwritten
      have hfinal := eq_putNode hfinal
      rw [if_neg (Nat.not_lt.mpr hlevel)] at hclosing
      obtain ⟨_, closed, hmeta, hclosing⟩ := StateExcept.bind_eq_ok.mp hclosing
      cases hclosing
      have hmeta := eq_putMeta hmeta
      refine Or.inr ⟨rfl, Or.inr ?_⟩
      -- From the cleared node on the links stay in what is linked around it.
      have hcleared : store.Linking (store.layered between) (store.info between) id written :=
        ⟨cleared_relinks hwritten, store.info_putNode _ _ _ _ hwritten⟩
      have hstart : current = id ∨ (store.layered between).LinkedAround id current :=
        NodeStore.descend_stays (store.reads written)
          (fun layer n hn => hcleared.1.links_stay layer hn)
          (Or.inr (LayeredGraph.linkedAround_entry id hentry)) hcurrent
      have hgathered : Gathered (store.layered between) id
          ({ vector := vector
             neighbours := List.replicate (node.neighbours.length - 1 + 1) [] }, current) := by
        refine ⟨fun layer b hb => ?_, hstart⟩
        by_cases hlayer : layer < node.neighbours.length - 1 + 1
        · simp [hlayer] at hb
        · simp [hlayer] at hb
      have hlinked := Ensures.foldlM _ (fun linked layer _ => ensures_linkLayer fuel vector linked layer)
        _ written ⟨hcleared, hgathered⟩ linked looped hloop
      have hfinished := hlinked.1.write
        (fun layer => Or.inr (Relinks.admits_own layer (hlinked.2.1 layer))) hfinal
      refine hfinished.1.replace ?_ fun layer a => Or.inl ?_
      · change (store.info after).entry = (store.info final).entry
        rw [store.info_putMeta _ _ _ hmeta, hfinished.2, hentry]
      · change storedLinks (store.node after) layer a = storedLinks (store.node final) layer a
        rw [store.node_putMeta _ _ _ hmeta]

/-! ### The layers of the nodes -/

/-- No node has more layers. -/
def Within (store : GraphStore σ ε K) (bound : ℕ) (state : σ) : Prop :=
  ∀ id node, store.node state id = some node → node.neighbours.length ≤ bound

theorem Within.putNode {bound : ℕ} {nid : ItemId} {written : PersistedNode K} {state state' : σ}
    (hwithin : store.Within bound state) (hwritten : written.neighbours.length ≤ bound)
    (hput : store.putNode state nid written = .ok state') : store.Within bound state' := by
  intro id node hnode
  rw [store.node_putNode state nid written state' hput, Function.update_apply] at hnode
  split at hnode
  · exact Option.some.inj hnode ▸ hwritten
  · exact hwithin id node hnode

theorem ensures_backLink_within {bound : ℕ} (layer : ℕ) (nid : ItemId) :
    Ensures (store.Within bound) (store.backLink arithmetic id layer nid)
      fun _ => store.Within bound := by
  unfold NodeStore.backLink
  refine Ensures.bind (fun found state =>
    store.Within bound state ∧ found = store.node state nid) ?_ fun found => ?_
  · refine ensures_reading fun state hwithin found hfound => ⟨hwithin, ?_⟩
    exact Option.some.inj ((NodeStore.read_follows (store.reads state) nid).answer_eq hfound).symm
  cases found with
  | none => exact .pure fun _ hmiddle => hmiddle.1
  | some neighbour =>
      dsimp only
      cases neighbour.neighbours[layer]? with
      | none => exact .pure fun _ hmiddle => hmiddle.1
      | some links =>
          dsimp only
          -- A list is replaced, and none is added.
          have hput : ∀ kept, Ensures
              (fun state => store.Within bound state ∧ some neighbour = store.node state nid)
              (store.write nid { neighbour with neighbours := neighbour.neighbours.set layer kept })
              fun _ => store.Within bound := by
            intro kept
            refine ensures_write fun state hstate state' hput => hstate.1.putNode ?_ hput
            rw [List.length_set]
            exact hstate.1 nid neighbour hstate.2.symm
          split
          · exact .pure fun _ hmiddle => hmiddle.1
          split
          · exact Ensures.bind _ (ensures_reading fun state hstate kept _ => hstate) hput
          · exact Ensures.bind _ (.pure fun state hstate => hstate) hput

theorem ensures_linkLayer_within {bound : ℕ} (fuel : ℕ) (query : Embedding K)
    (linked : PersistedNode K × ItemId) (layer : ℕ) :
    Ensures (fun state => store.Within bound state ∧ linked.1.neighbours.length ≤ bound)
      (store.linkLayer arithmetic fuel id query linked layer)
      fun next state => store.Within bound state ∧ next.1.neighbours.length ≤ bound := by
  obtain ⟨node, current⟩ := linked
  unfold NodeStore.linkLayer
  refine Ensures.bind _ (ensures_reading fun state hstate _ _ => hstate) fun found => ?_
  dsimp only
  have hloop : Ensures
      (fun state => store.Within bound state ∧ node.neighbours.length ≤ bound)
      ((((found.filter fun entry => entry.1 ≠ id).take M).map Prod.fst).forM
        (store.backLink arithmetic id layer))
      (fun _ state => store.Within bound state ∧ node.neighbours.length ≤ bound) :=
    .forM _ fun nid _ state hstate _ state' hrun =>
      ⟨ensures_backLink_within layer nid state hstate.1 _ state' hrun, hstate.2⟩
  refine Ensures.bind _ hloop fun _ => .pure fun state hstate => ⟨hstate.1, ?_⟩
  rw [List.length_set]
  exact hstate.2

/-- The nodes have the layers of the graph at most, and without an entry there is none. -/
structure Stocked (store : GraphStore σ ε K) (state : σ) : Prop where
  levelled : store.Levelled state
  entered : (store.info state).entry = none → ∀ id, store.node state id = none

/-- An insert leaves a stocked store. -/
theorem ensures_insert_stocked (levelOf : ItemId → ℕ) (fuel : ℕ) (vector : Embedding K) :
    Ensures store.Stocked (store.insert arithmetic levelOf fuel id vector)
      fun _ => store.Stocked := by
  intro state hstocked accepted after hinsert
  unfold NodeStore.insert at hinsert
  obtain ⟨info, middle, hinfo, hinsert⟩ := StateExcept.bind_eq_ok.mp hinsert
  obtain ⟨hinfo, rfl⟩ := eq_of_reading hinfo
  obtain rfl := store.getMeta_eq _ _ (except_mapError_eq_ok.mp hinfo)
  split at hinsert
  · cases hinsert
    exact hstocked
  split at hinsert
  · cases hinsert
    exact hstocked
  obtain ⟨existing, between, hexisting, hinsert⟩ := StateExcept.bind_eq_ok.mp hinsert
  obtain ⟨-, rfl⟩ := eq_of_reading hexisting
  generalize (existing.map fun node => node.neighbours.length - 1).getD (levelOf id) = level
    at hinsert
  -- The node is written with its layers, above those of the graph or not.
  have hbound : ∀ written : PersistedNode K, written.neighbours.length = level + 1 →
      written.neighbours.length ≤ max level (store.info between).maxLevel + 1 := fun written hlength =>
    hlength ▸ Nat.succ_le_succ (le_max_left _ _)
  have hcleared : (List.replicate (level + 1) ([] : List ItemId)).length = level + 1 :=
    List.length_replicate
  cases hentry : (store.info between).entry with
  | none =>
      simp only [hentry] at hinsert
      obtain ⟨_, written, hwritten, hinsert⟩ := StateExcept.bind_eq_ok.mp hinsert
      obtain ⟨_, closed, hmeta, hinsert⟩ := StateExcept.bind_eq_ok.mp hinsert
      cases hinsert
      have hwritten := eq_putNode hwritten
      have hmeta := eq_putMeta hmeta
      have hinfo := store.info_putMeta _ _ _ hmeta
      refine ⟨fun other node hnode => ?_, fun hnone => ?_⟩
      · rw [store.node_putMeta _ _ _ hmeta, store.node_putNode _ _ _ _ hwritten,
          Function.update_apply] at hnode
        split at hnode
        · rw [hinfo, ← Option.some.inj hnode]
          exact hcleared.le
        · rw [hstocked.entered hentry other] at hnode
          cases hnode
      · rw [hinfo] at hnone
        cases hnone
  | some entry =>
      simp only [hentry] at hinsert
      obtain ⟨_, written, hwritten, hdescending⟩ := StateExcept.bind_eq_ok.mp hinsert
      obtain ⟨current, same, hcurrent, hlinking⟩ := StateExcept.bind_eq_ok.mp hdescending
      obtain ⟨-, rfl⟩ := eq_of_reading hcurrent
      obtain ⟨linked, looped, hloop, hwriting⟩ := StateExcept.bind_eq_ok.mp hlinking
      obtain ⟨_, final, hfinal, hclosing⟩ := StateExcept.bind_eq_ok.mp hwriting
      have hstart : store.Within (max level (store.info between).maxLevel + 1) between :=
        fun other node hnode => (hstocked.levelled other node hnode).trans
          (Nat.succ_le_succ (le_max_right _ _))
      have hwithin := hstart.putNode (hbound _ hcleared) (eq_putNode hwritten)
      have hlinked := Ensures.foldlM _
        (fun linked layer _ => ensures_linkLayer_within fuel vector linked layer) _ same
        ⟨hwithin, hbound _ hcleared⟩ linked looped hloop
      have hfinished := hlinked.1.putNode hlinked.2 (eq_putNode hfinal)
      have hclosed : ∀ written, store.writeMeta written final = .ok ((), after) →
          written.entry ≠ none → max level (store.info between).maxLevel ≤ written.maxLevel →
          store.Stocked after := by
        intro written hmeta hsome hmax
        have hmeta := eq_putMeta hmeta
        have hinfo := store.info_putMeta _ _ _ hmeta
        refine ⟨fun other node hnode => ?_, fun hnone => absurd (hinfo ▸ hnone) hsome⟩
        rw [store.node_putMeta _ _ _ hmeta] at hnode
        rw [hinfo]
        exact (hfinished other node hnode).trans (Nat.succ_le_succ hmax)
      split at hclosing
      next habove =>
        obtain ⟨_, _, hmeta, hdone⟩ := StateExcept.bind_eq_ok.mp hclosing
        cases hdone
        exact hclosed _ hmeta (Option.some_ne_none _) (max_le le_rfl habove.le)
      next hbelow =>
        obtain ⟨_, _, hmeta, hdone⟩ := StateExcept.bind_eq_ok.mp hclosing
        cases hdone
        exact hclosed _ hmeta (hentry ▸ Option.some_ne_none _)
          (max_le (Nat.le_of_not_lt hbelow) le_rfl)

/-- A store that inserts have filled has no node above the highest layer of the graph. -/
theorem levelled_of_inserts {levelOf : ItemId → ℕ} {fuel : ℕ}
    {items : List (ItemId × Embedding K)} {state after : σ}
    (hempty : ∀ id, store.node state id = none)
    (hrun : (items.forM fun item => do
      let _ ← store.insert arithmetic levelOf fuel item.1 item.2
      return ()) state = .ok ((), after)) : store.Levelled after := by
  have hstart : store.Stocked state :=
    ⟨fun id node hnode => absurd hnode (by rw [hempty id]; exact nofun), fun _ => hempty⟩
  have hstep : ∀ item ∈ items, Ensures store.Stocked
      (do
        let _ ← store.insert arithmetic levelOf fuel item.1 item.2
        return ())
      fun _ => store.Stocked := fun item _ =>
    .bind _ (ensures_insert_stocked levelOf fuel item.2) fun _ => .pure fun _ hstocked => hstocked
  exact (Ensures.forM _ hstep state hstart () after hrun).levelled

end GraphStore

/-! ## What stays in reach -/

/-- Inserting an item again keeps the others in reach if none of them is reached through it alone,
and only if none of them is linked through it alone. -/
structure KeepsPast {ι : Type} (full : ℕ) (node : ι) (before after : LayeredGraph ι)
    (accepted : Bool) : Prop where
  sufficient : accepted = false ∨ before.Bypasses node → before.KeepsReach full node after
  necessary : before.KeepsReach full node after → accepted = false ∨ before.LinksPast node
  entry : before.entry = some node →
    (before.KeepsReach full node after ↔ accepted = false ∨ before.Bypasses node)

namespace KeepsPast

variable {ι : Type} {full : ℕ} {node : ι} {before after : LayeredGraph ι} {accepted : Bool}

theorem of_two (hkeeps : accepted = false ∨ before.Bypasses node →
      before.KeepsReach full node after)
    (honly : before.KeepsReach full node after → accepted = false ∨ before.LinksPast node) :
    KeepsPast full node before after accepted :=
  ⟨hkeeps, honly, fun hentry =>
    ⟨fun hreach => (honly hreach).imp_right (LayeredGraph.linksPast_iff_of_entry hentry).mp,
      hkeeps⟩⟩

theorem refused (full : ℕ) (node : ι) (before : LayeredGraph ι) :
    KeepsPast full node before before false :=
  .of_two (fun _ => LayeredGraph.keepsReach_self full node before) fun _ => Or.inl rfl

theorem of_relinks (hrelinks : Relinks full node before after) :
    KeepsPast full node before after true :=
  .of_two (fun hbypasses => hrelinks.keepsReach (hbypasses.resolve_left nofun))
    fun hreach => Or.inr (hrelinks.linksPast hreach)

/-- Where no node is the entry, nothing is reached. -/
theorem of_no_entry (hentry : before.entry = none) : KeepsPast full node before after true := by
  refine .of_two (fun _ goal _ hreaches => ?_) fun _ => Or.inr fun goal _ hreaches => ?_
  · obtain ⟨start, hstart, -⟩ := hreaches
    exact absurd (hentry.symm.trans hstart) nofun
  · obtain ⟨start, hstart, -⟩ := hreaches
    exact absurd (hentry.symm.trans hstart) nofun

end KeepsPast

/-- In memory and in a store an item that is inserted again keeps in reach what is not reached
through it alone; and if it is the entry, nothing else. -/
theorem reinsert_keepsPast (σ ε : Type) (arithmetic : Arithmetic K) (levelOf : ItemId → ℕ)
    (id : ItemId) (vector : Embedding K) :
    (∀ (graph : Hnsw K) (idx : ℕ) (accepted : Bool) (after : Hnsw K),
      graph.idToIndex[id]? = some idx →
      graph.insert arithmetic levelOf id vector = some (accepted, after) →
      KeepsPast M_MAX0 idx graph.layered after.layered accepted) ∧
    ∀ (store : GraphStore σ ε K) (fuel : ℕ) (state : σ) (node : PersistedNode K)
      (accepted : Bool) (after : σ),
      store.node state id = some node → store.Levelled state →
      store.insert arithmetic levelOf fuel id vector state = .ok (accepted, after) →
      KeepsPast M id (store.layered state) (store.layered after) accepted := by
  constructor
  · intro graph idx accepted after hpresent hinsert
    rcases Hnsw.reinsert_relinks hpresent hinsert with ⟨rfl, rfl⟩ | ⟨rfl, hrelinks⟩
    · exact .refused M_MAX0 idx after.layered
    · exact .of_relinks hrelinks
  · intro store fuel state node accepted after hpresent hlevelled hinsert
    rcases GraphStore.reinsert_relinks hpresent hlevelled hinsert with
      ⟨rfl, rfl⟩ | ⟨rfl, hentry | hrelinks⟩
    · exact .refused M id (store.layered after)
    · exact .of_no_entry hentry
    · exact .of_relinks hrelinks

/-! ### Two items -/

/-- Exact where the vectors have one coordinate, which is one or minus one. -/
def signs : Arithmetic ℤ where
  zero := 0
  one := 1
  two := 2
  negOne := -1
  infinity := 3
  add := (· + ·)
  sub := (· - ·)
  mul := (· * ·)
  div := (· / ·)
  sqrt := id
  isZero := fun value => value == 0
  lt := fun left right => Decidable.decide (left < right)
  partialCmp := fun left right => some (compare left right)

/-- A map of nodes beside a meta. -/
def mapStore (K : Type) :
    GraphStore ((ItemId → Option (PersistedNode K)) × HnswMeta) Empty K where
  getNode := fun state id => .ok (state.1 id)
  putNode := fun state id node => .ok (Function.update state.1 id (some node), state.2)
  getMeta := fun state => .ok state.2
  putMeta := fun state info => .ok (state.1, info)
  node := Prod.fst
  info := Prod.snd
  reads := fun _ _ _ hget => (Except.ok.inj hget).symm
  getMeta_eq := fun _ _ hget => (Except.ok.inj hget).symm
  node_putNode := by
    rintro _ _ _ _ ⟨⟩
    rfl
  info_putNode := by
    rintro _ _ _ _ ⟨⟩
    rfl
  node_putMeta := by
    rintro _ _ _ ⟨⟩
    rfl
  info_putMeta := by
    rintro _ _ _ ⟨⟩
    rfl

/-- The items "a" and "b" with opposite vectors. -/
def Hnsw.pair : Hnsw ℤ :=
  (do
    let (_, graph) ← Hnsw.empty.insert signs (fun _ => 0) [97] [1]
    let (_, graph) ← graph.insert signs (fun _ => 0) [98] [-1]
    return graph).getD Hnsw.empty

/-- The same two items in a store. -/
def storedPair : (ItemId → Option (PersistedNode ℤ)) × HnswMeta :=
  (fun id =>
      if id = [97] then some { vector := [1], neighbours := [[[98]]] }
      else if id = [98] then some { vector := [-1], neighbours := [[[97]]] }
      else none,
    { entry := some [97], maxLevel := 0, dim := some 1 })

/-- The entry that is inserted again loses its link to the other item. -/
theorem not_keepsReach_pair :
    (∃ after, Hnsw.pair.insert signs (fun _ => 0) [97] [1] = some (true, after) ∧
      ¬ Hnsw.pair.layered.KeepsReach M_MAX0 0 after.layered) ∧
    ∃ after, (mapStore ℤ).insert signs (fun _ => 0) 9 [97] [1] storedPair = .ok (true, after) ∧
      ¬ ((mapStore ℤ).layered storedPair).KeepsReach M [97] ((mapStore ℤ).layered after) := by
  constructor
  · have hrun : (Hnsw.pair.insert signs (fun _ => 0) [97] [1]).map
        (fun run => (run.1, run.2.entry, run.2.links 0 0)) = some (true, some 0, []) := by
      decide +kernel
    obtain ⟨⟨accepted, after⟩, hinsert, heq⟩ := Option.map_eq_some_iff.mp hrun
    simp only [Prod.mk.injEq] at heq
    obtain ⟨rfl, hentry, hlinks⟩ := heq
    have hbefore : Hnsw.pair.entry = some 0 := by decide +kernel
    have hgoal : 1 ∈ Hnsw.pair.links 0 0 := by decide +kernel
    exact ⟨after, hinsert,
      LayeredGraph.not_keepsReach_of_entry hbefore hgoal (by decide) hentry hlinks⟩
  · have hrun : ((mapStore ℤ).insert signs (fun _ => 0) 9 [97] [1] storedPair).toOption.map
        (fun run => (run.1, run.2.2.entry, storedLinks run.2.1 0 [97])) =
          some (true, some [97], []) := by
      decide +kernel
    obtain ⟨⟨accepted, after⟩, hinsert, heq⟩ := Option.map_eq_some_iff.mp hrun
    simp only [Prod.mk.injEq] at heq
    obtain ⟨rfl, hentry, hlinks⟩ := heq
    have hgoal : [98] ∈ storedLinks storedPair.1 0 [97] := by decide +kernel
    exact ⟨after, StateExcept.toOption_eq_some.mp hinsert,
      LayeredGraph.not_keepsReach_of_entry rfl hgoal (by decide) hentry hlinks⟩

/-- The other item is inserted again; and so is the entry of the store, which leads to it. -/
theorem reinsert_keepsPast_pair :
    (∃ after, Hnsw.pair.insert signs (fun _ => 0) [98] [-1] = some (true, after) ∧
      Hnsw.pair.layered.KeepsReach M_MAX0 1 after.layered) ∧
    ∃ after, (mapStore ℤ).insert signs (fun _ => 0) 9 [97] [1] storedPair = .ok (true, after) ∧
      KeepsPast M [97] ((mapStore ℤ).layered storedPair) ((mapStore ℤ).layered after) true := by
  constructor
  · have hrun : (Hnsw.pair.insert signs (fun _ => 0) [98] [-1]).map Prod.fst = some true := by
      decide +kernel
    obtain ⟨⟨accepted, after⟩, hinsert, rfl⟩ := Option.map_eq_some_iff.mp hrun
    have hkeeps := (reinsert_keepsPast Unit Empty signs (fun _ => 0) [98] [-1]).1
      Hnsw.pair 1 true after (by decide +kernel) hinsert
    refine ⟨after, hinsert, hkeeps.sufficient (Or.inr fun goal hgoal hreaches => ?_)⟩
    have hentry : Hnsw.pair.entry = some 0 := by decide +kernel
    have hlinks : Hnsw.pair.links 0 0 = [1] ∧ Hnsw.pair.links 0 1 = [0] := by decide +kernel
    obtain ⟨start, hstart, hpath⟩ := hreaches
    obtain rfl := Option.some.inj (hstart.symm.trans hentry)
    have hpair : goal = 0 ∨ goal = 1 := by
      clear hgoal
      induction hpath with
      | refl => exact Or.inl rfl
      | tail _ hlink ih =>
          rcases ih with rfl | rfl
          · exact Or.inr (List.mem_singleton.mp (hlinks.1 ▸ hlink))
          · exact Or.inl (List.mem_singleton.mp (hlinks.2 ▸ hlink))
    obtain rfl := hpair.resolve_right hgoal
    exact ⟨0, hentry, .refl⟩
  · have hrun : ((mapStore ℤ).insert signs (fun _ => 0) 9 [97] [1] storedPair).toOption.map
        Prod.fst = some true := by
      decide +kernel
    obtain ⟨⟨accepted, after⟩, hinsert, rfl⟩ := Option.map_eq_some_iff.mp hrun
    have hinsert := StateExcept.toOption_eq_some.mp hinsert
    have hlevelled : (mapStore ℤ).Levelled storedPair := by
      intro id node hnode
      change (if id = [97] then _ else if id = [98] then _ else _) = _ at hnode
      split at hnode
      · cases hnode
        exact le_rfl
      · split at hnode
        · cases hnode
          exact le_rfl
        · cases hnode
    exact ⟨after, hinsert, (reinsert_keepsPast _ _ signs (fun _ => 0) [97] [1]).2 (mapStore ℤ)
      9 storedPair _ true after rfl hlevelled hinsert⟩

end LoomDB
