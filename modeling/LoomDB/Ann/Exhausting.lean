import LoomDB.Ann.Epochs
import LoomDB.Foundations.Exhaustive

/-!
# Searches of all there is

A search of the graph in memory keeps `ef` nodes at a time. Where that is room for every node, it
finds each item that links of the lowest layer lead to from where it starts, and ranks them by their
true distances.
-/

namespace LoomDB

open BestFirst (Leads Room Tracks)

variable {K : Type} {arithmetic : Arithmetic K}

namespace Hnsw

variable {graph : Hnsw K} {query : Embedding K} {start ef layer : ℕ}

/-- The marks with the epoch of a search are those of the nodes that it has seen. -/
theorem seen_tracks (graph : Hnsw K) (epoch : U32) :
    Tracks graph.Has (seen epoch) (fun visited => visited.length = graph.nodes.length)
      fun visited n => visited[n]? = some epoch where
  told := fun visited n _ _ => by
    rw [← not_iff_not, Bool.not_eq_true, seen_eq_false]
  adds := fun visited n m hlength hn _ => by
    have hn : n < visited.length := hlength ▸ hn
    unfold seen
    split
    next hseen =>
      constructor
      · exact Or.inr
      · rintro (rfl | hm)
        · exact hseen
        · exact hm
    next hnew =>
      by_cases hm : m = n
      · subst hm
        exact iff_of_true (List.getElem?_set_self hn) (Or.inl rfl)
      · rw [List.getElem?_set_ne (Ne.symm hm), or_iff_right hm]
  stays := fun visited n hlength _ => (seen_visited epoch visited n).1.trans hlength

/-- A search that may keep as many nodes as the graph has drops none. -/
theorem room_of_length_le (hlinks : graph.LinksIn graph.Has) (hstart : graph.Has start)
    (hef : graph.nodes.length ≤ ef) (layer : ℕ) : Room (graph.links layer) start ef := by
  intro nodes hnodup hreached
  have hsubset : nodes ⊆ List.range graph.nodes.length := fun n hn =>
    List.mem_range.mpr ((hreached n hn).stays (fun m _ => hlinks layer m) hstart)
  calc nodes.length
      ≤ (List.range graph.nodes.length).length := (List.subperm_of_subset hnodup hsubset).length_le
    _ = graph.nodes.length := List.length_range
    _ ≤ ef := hef

/-- The search of a layer finds what its links lead to, each node once and with its distance. -/
theorem searchLayer_exhausts (arithmetic : Arithmetic K) (query : Embedding K) (layer : ℕ)
    {searches : ℕ} (hlinks : graph.LinksIn graph.Has) (hmarked : graph.MarkedBelow searches)
    (hshort : searches + 1 < 256 ^ 4) (hstart : graph.Has start)
    (hef : graph.nodes.length ≤ ef) :
    ∃ (nodes : List ℕ) (after : Hnsw K), nodes.Nodup ∧
      (∀ n, n ∈ nodes ↔ Leads (graph.links layer) start n) ∧
      graph.searchLayer arithmetic query [start] ef layer =
        some (nodes.map fun n => (n, graph.dist arithmetic n query), after) := by
  obtain ⟨final, hfinal⟩ := Option.isSome_iff_exists.mp
    (explore_isSome hlinks arithmetic (graph.dist arithmetic · query) layer ef hmarked.length hstart)
  obtain ⟨hnodup, hreached, hdists⟩ := BestFirst.explore_all (seen_tracks graph (graph.epoch + 1))
    (fun n _ => hlinks layer n) hstart (room_of_length_le hlinks hstart hef layer)
    (length_marks hmarked.length) (fun n _ => hmarked.fresh hshort n) hfinal
  have hperm : (arithmetic.sortByDistance final.result).Perm final.result :=
    Comparison.perm_insertionSort _ _
  have hkept : ((arithmetic.sortByDistance final.result).map Prod.fst).Perm final.kept :=
    hperm.map Prod.fst
  refine ⟨(arithmetic.sortByDistance final.result).map Prod.fst,
    { graph with visited := final.visited, epoch := graph.epoch + 1 },
    hkept.nodup_iff.mpr hnodup, fun n => hkept.mem_iff.trans (hreached n), ?_⟩
  rw [searchLayer_eq, hfinal, Option.map_some, List.map_map]
  have hsame : (arithmetic.sortByDistance final.result).map
      ((fun n => (n, graph.dist arithmetic n query)) ∘ Prod.fst) =
        arithmetic.sortByDistance final.result := by
    calc (arithmetic.sortByDistance final.result).map
          ((fun n => (n, graph.dist arithmetic n query)) ∘ Prod.fst)
        = (arithmetic.sortByDistance final.result).map id := by
          apply List.map_congr_left
          intro entry hentry
          exact Prod.ext rfl (hdists entry (hperm.mem_iff.mp hentry)).symm
      _ = arithmetic.sortByDistance final.result := List.map_id _
  rw [hsame]

/-- The items of some nodes, with their similarities. -/
def scored (arithmetic : Arithmetic K) (graph : Hnsw K) (query : Embedding K) (nodes : List ℕ) :
    List (ItemId × K) :=
  nodes.map fun n =>
    ((graph.ids[n]?).getD [], arithmetic.sub arithmetic.one (graph.dist arithmetic n query))

/-- After any run of inserts and searches, a query with room for all nodes is answered with the best
of the items that links lead to from the node at which it comes to the lowest layer. -/
theorem Ran.search_exhausts {levelOf : ItemId → ℕ} {searches k entry : ℕ} {unit : Embedding K}
    (hran : Ran arithmetic levelOf searches graph) (hstrict : arithmetic.ranking.Strict)
    (hshort : searches + 1 < 256 ^ 4) (hentry : graph.entry = some entry)
    (hdim : graph.dim = some query.length) (hunit : query.normalized arithmetic = some unit)
    (hk : k ≠ 0) (hroom : graph.nodes.length ≤ max ef k) :
    ∃ (start : ℕ) (nodes : List ℕ) (after : Hnsw K),
      graph.descend arithmetic unit (List.range' 1 graph.maxLevel).reverse entry = some start ∧
      nodes.Nodup ∧ (∀ n, n ∈ nodes ↔ Leads (graph.links 0) start n) ∧
      graph.search arithmetic query k ef =
        some ((arithmetic.sortBySimilarity (graph.scored arithmetic unit nodes)).take k, after) := by
  obtain ⟨hformed, hmarked⟩ := hran.formed
  have hhas := (hformed.entry entry hentry).has
  obtain ⟨start, hstart⟩ := Option.isSome_iff_exists.mp
    (descend_isSome hstrict hformed.linksIn unit (List.range' 1 graph.maxLevel).reverse hhas)
  obtain ⟨nodes, after, hnodup, hreached, hfound⟩ := searchLayer_exhausts arithmetic unit 0
    hformed.linksIn hmarked hshort
    (descend_stays (fun layer n _ => hformed.linksIn layer n) hhas hstart) hroom
  refine ⟨start, nodes, after, hstart, hnodup, hreached, ?_⟩
  have hasked : ¬(graph.dim ≠ some query.length ∨ k = 0) := fun hother =>
    hother.elim (fun hne => hne hdim) hk
  have hids : after.ids = graph.ids := (searchLayer_changes hmarked hfound).1.ids
  unfold Hnsw.search
  rw [hentry]
  dsimp only
  rw [if_neg hasked, hunit]
  dsimp only
  rw [hstart, Option.bind_eq_bind, Option.bind_some, hfound]
  simp only [Option.bind_eq_bind, Option.bind_some, List.map_map, hids]
  rfl

theorem signs_strict : signs.ranking.Strict :=
  BestFirst.Ranking.strict_of_lt fun _ _ => rfl

/-- Two items that point away from each other: a query for two is answered with both, although the
one is as far as can be. -/
theorem Ran.search_exhausts_pair : ∃ (graph : Hnsw ℤ) (start : ℕ) (nodes : List ℕ) (after : Hnsw ℤ),
    Ran signs (fun _ => 0) 1 graph ∧
      graph.descend signs [1] (List.range' 1 graph.maxLevel).reverse 0 = some start ∧
      nodes.Nodup ∧ (∀ n, n ∈ nodes ↔ Leads (graph.links 0) start n) ∧
      graph.search signs [1] 2 1 =
        some ((signs.sortBySimilarity (graph.scored signs [1] nodes)).take 2, after) ∧
      (graph.search signs [1] 2 1).map (fun found => found.1.map Prod.fst) = some [[97], [98]] := by
  have hrun : ((solitary [] 0).insert signs (fun _ => 0) [98] [-1]).map (fun inserted =>
      (inserted.1, inserted.2.entry, inserted.2.dim, inserted.2.nodes.length,
        (solitary [] 0).insertSearches ((solitary [] 0).insertLevel (fun _ => 0) [98])
          inserted.1)) = some (true, some 0, some 1, 2, 1) := by
    decide +kernel
  have hfound : ((solitary [] 0).insert signs (fun _ => 0) [98] [-1]).bind (fun inserted =>
      (inserted.2.search signs [1] 2 1).map fun found => found.1.map Prod.fst) =
        some [[97], [98]] := by
    decide +kernel
  obtain ⟨⟨accepted, graph⟩, hinsert, heq⟩ := Option.map_eq_some_iff.mp hrun
  simp only [Prod.mk.injEq] at heq
  obtain ⟨rfl, hentry, hdim, hlength, hcount⟩ := heq
  rw [hinsert, Option.bind_some] at hfound
  have hran : Ran signs (fun _ => 0) 1 graph := by
    have hran := ran_solitary.insert hinsert
    rwa [hcount] at hran
  have hdim : graph.dim = some ([1] : Embedding ℤ).length := hdim
  have hunit : Embedding.normalized signs [1] = some [1] := by decide +kernel
  obtain ⟨start, nodes, after, hstart, hnodup, hreached, hsearch⟩ :=
    hran.search_exhausts signs_strict (by decide) hentry hdim hunit (show 2 ≠ 0 by decide)
      (show graph.nodes.length ≤ max 1 2 from hlength.le)
  exact ⟨graph, start, nodes, after, hran, hstart, hnodup, hreached, hsearch, hfound⟩

end Hnsw

end LoomDB
