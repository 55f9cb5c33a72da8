import LoomDB.Ann.Shape
import Mathlib.Data.Nat.ModEq

/-!
# The epochs of the searches

A search of a layer marks what it sees with an epoch of its own, so that no marks have to be taken
away before the next. The epochs are numbers of 32 bits and come round: a search takes for seen what
the search of the same epoch before it has marked last, and where the epoch is nought, what no search
has marked yet. Unless there is such a node, a search finds what it finds without any marks.
-/

namespace LoomDB

open BestFirst (Alike Renames renameEntry)

variable {K : Type} {arithmetic : Arithmetic K}

/-- Two lists of marks, each with an epoch of its own, show the same nodes as seen. -/
def ShowSame (epoch epoch' : U32) (visited visited' : List U32) : Prop :=
  visited'.length = visited.length ∧
    ∀ n : ℕ, visited'[n]? = some epoch' ↔ visited[n]? = some epoch

theorem ShowSame.seen {epoch epoch' : U32} {visited visited' : List U32}
    (hsame : ShowSame epoch epoch' visited visited') (n : ℕ) :
    (seen epoch' visited' n).1 = (seen epoch visited n).1 ∧
      ShowSame epoch epoch' (seen epoch visited n).2 (seen epoch' visited' n).2 := by
  obtain ⟨hlength, hmarks⟩ := hsame
  by_cases hseen : visited[n]? = some epoch
  · rw [LoomDB.seen, LoomDB.seen, if_pos hseen, if_pos ((hmarks n).mpr hseen)]
    exact ⟨rfl, hlength, hmarks⟩
  · rw [LoomDB.seen, LoomDB.seen, if_neg hseen, if_neg fun hmark => hseen ((hmarks n).mp hmark)]
    refine ⟨rfl, ?_, fun m => ?_⟩
    · rw [List.length_set, List.length_set, hlength]
    · by_cases hm : n = m
      · subst hm
        by_cases hn : n < visited.length
        · rw [List.getElem?_set_self hn, List.getElem?_set_self (hlength.symm ▸ hn)]
          exact iff_of_true rfl rfl
        · rw [List.getElem?_eq_none (by rw [List.length_set]; omega),
            List.getElem?_eq_none (by rw [List.length_set]; omega)]
          exact iff_of_false nofun nofun
      · rw [List.getElem?_set_ne hm, List.getElem?_set_ne hm]
        exact hmarks m

namespace Hnsw

variable {graph after : Hnsw K}

/-- A copy that no search has marked. -/
def unmarked (graph : Hnsw K) : Hnsw K :=
  { graph with visited := [], epoch := 0 }

/-! ## A search without old marks -/

/-- If nothing counts as seen, a search finds what it finds in the unmarked copy. -/
theorem searchLayer_unmarked (hfresh : ∀ n, (seen (graph.epoch + 1) graph.marks n).1 = false)
    (hlength : graph.marks.length = graph.nodes.length) (query : Embedding K) (start ef layer : ℕ) :
    (graph.searchLayer arithmetic query [start] ef layer).map Prod.fst =
      (graph.unmarked.searchLayer arithmetic query [start] ef layer).map Prod.fst := by
  have hrenames : Renames id (fun _ => True) (ShowSame (graph.epoch + 1) (0 + 1))
      (graph.dist arithmetic · query) (graph.links layer) (seen (graph.epoch + 1))
      (graph.dist arithmetic · query) (graph.links layer) (seen (0 + 1)) :=
    { dist_eq := fun _ _ => rfl
      links_eq := fun n _ => (List.map_id _).symm
      stays := fun _ _ _ _ => trivial
      seen_eq := fun _ _ n hsame _ => (hsame.seen n).1
      seen_same := fun _ _ n hsame _ _ => (hsame.seen n).2 }
  have hmarks : ShowSame (graph.epoch + 1) (0 + 1) graph.marks graph.unmarked.marks := by
    have hunmarked : graph.unmarked.marks = List.replicate graph.nodes.length 0 := rfl
    rw [hunmarked]
    refine ⟨by rw [List.length_replicate, hlength], fun n => ?_⟩
    refine iff_of_false (fun hmark => ?_) (seen_eq_false.mp (hfresh n))
    exact absurd (List.eq_of_mem_replicate (List.mem_of_getElem? hmark)) (by decide)
  have hnothing : Alike id (ShowSame (graph.epoch + 1) (0 + 1))
      ({ visited := graph.marks, candidates := [], result := [] } : LayerState K)
      ({ visited := graph.unmarked.marks, candidates := [], result := [] } : LayerState K) :=
    ⟨hmarks, rfl, rfl⟩
  have hwithin : (graph.startAt arithmetic (graph.dist arithmetic · query) start).Within
      fun _ => True := ⟨fun _ _ => trivial, fun _ _ => trivial⟩
  have hexplore := BestFirst.explore_rename hrenames arithmetic.ranking ef (graph.nodes.length + 1)
    (hnothing.enter hrenames trivial (hfresh start)) hwithin
  have hsame : (fun final : LayerState K => final.result.map (renameEntry id)) =
      BestFirst.State.result := funext fun final => List.map_id final.result
  rw [hsame] at hexplore
  rw [searchLayer_eq, searchLayer_eq, Option.map_map, Option.map_map]
  calc (BestFirst.explore arithmetic.ranking (graph.dist arithmetic · query) (graph.links layer)
          (seen (graph.epoch + 1)) ef (graph.nodes.length + 1)
          (graph.startAt arithmetic (graph.dist arithmetic · query) start)).map
            (arithmetic.sortByDistance ∘ BestFirst.State.result)
      = ((BestFirst.explore arithmetic.ranking (graph.dist arithmetic · query) (graph.links layer)
          (seen (0 + 1)) ef (graph.nodes.length + 1)
          (graph.unmarked.startAt arithmetic (graph.dist arithmetic · query) start)).map
            BestFirst.State.result).map arithmetic.sortByDistance := by
        rw [← Option.map_map]
        exact congrArg _ hexplore.symm
    _ = _ := Option.map_map ..

/-! ## Which search marked a node -/

/-- The search that marked each node last, after a search more. -/
def markedLast (graph after : Hnsw K) (search : ℕ) (last : ℕ → ℕ) (n : ℕ) : ℕ :=
  if after.visited[n]? = graph.marks[n]? then last n else search

/-- A graph after some searches of layers, with changes in between that leave the marks alone and
take no node away; and which of the searches marked each node last. A node that none has marked was
marked by search nought, before the first. -/
inductive Worked (arithmetic : Arithmetic K) : ℕ → (ℕ → ℕ) → Hnsw K → Prop
  | new : Worked arithmetic 0 (fun _ => 0) Hnsw.empty
  | change {searches : ℕ} {last : ℕ → ℕ} {graph after : Hnsw K} :
      Worked arithmetic searches last graph → SameMarks graph after →
      graph.nodes.length ≤ after.nodes.length → Worked arithmetic searches last after
  | search {searches : ℕ} {last : ℕ → ℕ} {graph after : Hnsw K} {query : Embedding K}
      {start ef layer : ℕ} {found : List (ℕ × K)} : Worked arithmetic searches last graph →
      graph.searchLayer arithmetic query [start] ef layer = some (found, after) →
      Worked arithmetic (searches + 1) (markedLast graph after (searches + 1) last) after

/-- The epoch counts the searches, and a mark tells the search, as far as 32 bits go. -/
structure Dated (graph : Hnsw K) (searches : ℕ) (last : ℕ → ℕ) : Prop where
  length : graph.visited.length ≤ graph.nodes.length
  epoch : graph.epoch.val = searches % 256 ^ 4
  marked : ∀ (n : ℕ) (mark : U32), graph.visited[n]? = some mark → mark.val = last n % 256 ^ 4
  unmarked : ∀ n, graph.visited.length ≤ n → last n = 0
  past : ∀ n, last n ≤ searches

namespace Dated

variable {searches : ℕ} {last : ℕ → ℕ}

theorem marks (hdated : graph.Dated searches last) {n : ℕ} {mark : U32}
    (hmark : graph.marks[n]? = some mark) : mark.val = last n % 256 ^ 4 := by
  rw [Hnsw.marks] at hmark
  by_cases hn : n < graph.visited.length
  · rw [List.getElem?_append_left hn] at hmark
    exact hdated.marked n mark hmark
  · have hn := Nat.le_of_not_lt hn
    rw [List.getElem?_append_right hn] at hmark
    rw [List.eq_of_mem_replicate (List.mem_of_getElem? hmark), hdated.unmarked n hn]
    rfl

theorem epoch_succ (hdated : graph.Dated searches last) :
    (graph.epoch + 1).val = (searches + 1) % 256 ^ 4 := by
  rw [Fin.val_add, hdated.epoch]
  exact Nat.mod_add_mod searches (256 ^ 4) 1

/-- A node counts as seen if it was marked a multiple of all epochs before. -/
theorem seen_iff (hdated : graph.Dated searches last) (n : ℕ) :
    (seen (graph.epoch + 1) graph.marks n).1 = false ↔
      (graph.Has n → ¬ 256 ^ 4 ∣ searches + 1 - last n) := by
  rw [seen_eq_false]
  by_cases hn : graph.Has n
  · have hlength : n < graph.marks.length := (length_marks hdated.length).symm ▸ hn
    have hmark : graph.marks[n]? = some graph.marks[n] := List.getElem?_eq_getElem hlength
    have hval := hdated.marks hmark
    have hpast : last n ≤ searches + 1 := (hdated.past n).trans (Nat.le_succ searches)
    rw [hmark, ne_eq, Option.some.injEq, Fin.ext_iff, hval, hdated.epoch_succ,
      ← Nat.modEq_iff_dvd' hpast, Nat.ModEq]
    exact ⟨fun hother _ => hother, fun hother => hother hn⟩
  · have hnone : graph.marks[n]? = none := by
      rw [List.getElem?_eq_none]
      rw [length_marks hdated.length]
      exact Nat.le_of_not_lt hn
    rw [hnone]
    exact iff_of_true nofun fun hhas => absurd hhas hn

theorem new : (Hnsw.empty : Hnsw K).Dated 0 fun _ => 0 where
  length := Nat.le_refl _
  epoch := rfl
  marked := fun _ _ hmark => nomatch hmark
  unmarked := fun _ _ => rfl
  past := fun _ => Nat.le_refl _

theorem change (hdated : graph.Dated searches last) (hsame : SameMarks graph after)
    (hnodes : graph.nodes.length ≤ after.nodes.length) : after.Dated searches last := by
  obtain ⟨hvisited, hepoch⟩ := hsame
  refine ⟨?_, hepoch ▸ hdated.epoch, hvisited ▸ hdated.marked, hvisited ▸ hdated.unmarked,
    hdated.past⟩
  rw [hvisited]
  exact hdated.length.trans hnodes

/-- A search leaves each mark or sets its own. -/
theorem search (hdated : graph.Dated searches last) {query : Embedding K} {start ef layer : ℕ}
    {found : List (ℕ × K)}
    (hfound : graph.searchLayer arithmetic query [start] ef layer = some (found, after)) :
    after.Dated (searches + 1) (markedLast graph after (searches + 1) last) := by
  rw [searchLayer_eq] at hfound
  obtain ⟨final, hfinal, heq⟩ := Option.map_eq_some_iff.mp hfound
  cases heq
  have hlook : ∀ (visited : List U32) (n : ℕ),
      (visited.length = graph.nodes.length ∧ ∀ m : ℕ, visited[m]? = graph.marks[m]? ∨
        visited[m]? = some (graph.epoch + 1)) →
      (seen (graph.epoch + 1) visited n).2.length = graph.nodes.length ∧
        ∀ m : ℕ, (seen (graph.epoch + 1) visited n).2[m]? = graph.marks[m]? ∨
          (seen (graph.epoch + 1) visited n).2[m]? = some (graph.epoch + 1) := by
    intro visited n hvisited
    refine ⟨(seen_visited (graph.epoch + 1) visited n).1.trans hvisited.1, fun m => ?_⟩
    unfold seen
    split
    · exact hvisited.2 m
    · by_cases hm : n = m
      · subst hm
        by_cases hn : n < visited.length
        · exact Or.inr (List.getElem?_set_self hn)
        · rw [List.set_eq_of_length_le (Nat.le_of_not_lt hn)]
          exact hvisited.2 n
      · rw [List.getElem?_set_ne hm]
        exact hvisited.2 m
  obtain ⟨hlength, hmarks⟩ := BestFirst.explore_visited hlook
    (hlook graph.marks start ⟨length_marks hdated.length, fun m => Or.inl rfl⟩) hfinal
  refine ⟨hlength.le, hdated.epoch_succ, fun n mark hmark => ?_, fun n hn => ?_, fun n => ?_⟩
  · have hmark : final.visited[n]? = some mark := hmark
    unfold markedLast
    dsimp only
    split
    next hsame => exact hdated.marks (hsame.symm.trans hmark)
    next hother =>
      have hnew := (hmarks n).resolve_left hother
      rw [Option.some.inj (hmark.symm.trans hnew)]
      exact hdated.epoch_succ
  · have hn : graph.nodes.length ≤ n := hlength.symm ▸ hn
    have hnone : final.visited[n]? = graph.marks[n]? := by
      rw [List.getElem?_eq_none (hlength.trans_le hn),
        List.getElem?_eq_none ((length_marks hdated.length).trans_le hn)]
    unfold markedLast
    rw [if_pos hnone]
    exact hdated.unmarked n (hdated.length.trans hn)
  · unfold markedLast
    split
    · exact (hdated.past n).trans (Nat.le_succ searches)
    · exact Nat.le_refl _

end Dated

theorem Worked.dated {searches : ℕ} {last : ℕ → ℕ} (hworked : Worked arithmetic searches last graph) :
    graph.Dated searches last := by
  induction hworked with
  | new => exact .new
  | change _ hsame hnodes ih => exact ih.change hsame hnodes
  | search _ hfound ih => exact ih.search hfound

/-- The epochs have not come round yet. -/
theorem Worked.apart_of_short {searches : ℕ} {last : ℕ → ℕ}
    (hworked : Worked arithmetic searches last graph) (hshort : searches + 1 < 256 ^ 4) (n : ℕ) :
    ¬ 256 ^ 4 ∣ searches + 1 - last n := by
  intro hdvd
  have hpast := hworked.dated.past n
  have hle := Nat.le_of_dvd (by omega) hdvd
  omega

/-- After any run of searches and changes: nothing counts as seen at the start of a search, and it
finds what it finds in the unmarked copy, exactly if no node was marked last a multiple of all the
epochs before. -/
theorem Worked.search_forgets_iff {searches : ℕ} {last : ℕ → ℕ}
    (hworked : Worked arithmetic searches last graph) :
    ((∀ n, (seen (graph.epoch + 1) graph.marks n).1 = false) ∧
      ∀ query start ef layer, (graph.searchLayer arithmetic query [start] ef layer).map Prod.fst =
        (graph.unmarked.searchLayer arithmetic query [start] ef layer).map Prod.fst) ↔
    ∀ n, graph.Has n → ¬ 256 ^ 4 ∣ searches + 1 - last n := by
  have hdated := hworked.dated
  constructor
  · intro hforgets n
    exact (hdated.seen_iff n).mp (hforgets.1 n)
  · intro hapart
    have hfresh : ∀ n, (seen (graph.epoch + 1) graph.marks n).1 = false :=
      fun n => (hdated.seen_iff n).mpr (hapart n)
    exact ⟨hfresh, searchLayer_unmarked hfresh (length_marks hdated.length)⟩

/-! ## Runs of inserts and searches -/

namespace Worked

variable {searches : ℕ} {last : ℕ → ℕ}

theorem linkLayer (hworked : Worked arithmetic searches last graph) {idx current next layer : ℕ}
    {query : Embedding K}
    (hlinked : linkLayer arithmetic idx query (graph, current) layer = some (after, next)) :
    ∃ last, Worked arithmetic (searches + 1) last after := by
  unfold Hnsw.linkLayer at hlinked
  obtain ⟨⟨found, searched⟩, hfound, hlinked⟩ := Option.bind_eq_some_iff.mp hlinked
  cases hlinked
  have hanything : searched.LinksIn fun _ => True := fun _ _ _ _ => trivial
  have hdiffers : ∀ selected : List ℕ, DiffersInLinks (fun _ => True) searched
      (selected.foldl (backLink arithmetic idx layer (if layer = 0 then M_MAX0 else M))
        (searched.setLinks layer idx selected)) := by
    intro selected
    refine foldl_backLink_differs arithmetic ?_ trivial layer _ selected
    exact setLinks_differs ⟨.refl searched, ⟨rfl, rfl⟩, hanything⟩ layer idx fun _ _ => trivial
  exact ⟨_, (hworked.search hfound).change (hdiffers _).marks (hdiffers _).rewires.length.ge⟩

theorem linkLayers {idx current next : ℕ} {query : Embedding K} {layers : List ℕ}
    (hworked : Worked arithmetic searches last graph)
    (hlinked : layers.foldlM (Hnsw.linkLayer arithmetic idx query) (graph, current) =
      some (after, next)) :
    ∃ last, Worked arithmetic (searches + layers.length) last after := by
  induction layers generalizing graph current searches last with
  | nil =>
      cases hlinked
      exact ⟨last, hworked⟩
  | cons layer layers ih =>
      rw [List.foldlM_cons] at hlinked
      obtain ⟨⟨linked, reached⟩, hstep, hrest⟩ := Option.bind_eq_some_iff.mp hlinked
      obtain ⟨last, hworked⟩ := hworked.linkLayer hstep
      have hrun := ih hworked hrest
      rw [List.length_cons, Nat.add_comm layers.length 1, ← Nat.add_assoc]
      exact hrun

theorem relink (hworked : Worked arithmetic searches last graph) {idx : ℕ}
    (hentry : graph.entry ≠ none) (hrelink : graph.relink arithmetic idx = some after) :
    ∃ last, Worked arithmetic (searches + (min (graph.levelAt idx) graph.maxLevel + 1)) last
      after := by
  obtain ⟨entry, hentry⟩ := Option.ne_none_iff_exists'.mp hentry
  unfold Hnsw.relink at hrelink
  rw [hentry] at hrelink
  obtain ⟨current, -, hrelink⟩ := Option.bind_eq_some_iff.mp hrelink
  obtain ⟨⟨linked, next⟩, hloop, heq⟩ := Option.bind_eq_some_iff.mp hrelink
  cases heq
  have hrun := hworked.linkLayers hloop
  rw [List.length_reverse, List.length_range] at hrun
  exact hrun

end Worked

/-- Every run of inserts and searches is such work, with as many searches. -/
theorem Ran.worked {levelOf : ItemId → ℕ} {searches : ℕ}
    (hran : Ran arithmetic levelOf searches graph) :
    ∃ last, Worked arithmetic searches last graph := by
  induction hran with
  | empty => exact ⟨_, .new⟩
  | @insert searches graph after id vector accepted hran hinsert ih =>
      obtain ⟨last, hworked⟩ := ih
      have hformed := hran.formed.1
      have hcases := insert_inserts arithmetic levelOf graph id vector
      rw [hinsert] at hcases
      generalize hresult : some (accepted, after) = result at hcases
      cases hcases with
      | refused =>
          cases hresult
          exact ⟨last, hworked⟩
      | @known unit idx hknown =>
          obtain ⟨linked, hrelink, heq⟩ := Option.map_eq_some_iff.mp hresult.symm
          cases heq
          obtain ⟨entry, hentry, -⟩ := (hformed.replaced hknown unit).top
          have hcleared : Worked arithmetic searches last (graph.replaced idx unit) :=
            hworked.change ⟨rfl, rfl⟩ (List.length_modify ..).ge
          have hrun := hcleared.relink (Option.ne_none_iff_exists'.mpr ⟨entry, hentry⟩) hrelink
          have hentry : graph.entry = some entry := hentry
          rw [insertSearches, insertLevel, hknown, hentry, Option.map_some, Option.getD_some]
          rw [levelAt_eq, heights_replaced, ← levelAt_eq] at hrun
          exact hrun
      | @first unit hnew hentry =>
          cases hresult
          rw [insertSearches, hentry]
          exact ⟨last, hworked.change ⟨rfl, rfl⟩ (length_withItem graph id unit (levelOf id))⟩
      | @linked unit entry hnew hentry =>
          obtain ⟨linked, hrelink, heq⟩ := Option.map_eq_some_iff.mp hresult.symm
          cases heq
          have hwith : Worked arithmetic searches last (graph.withItem id unit (levelOf id)) :=
            hworked.change ⟨rfl, rfl⟩ (length_withItem graph id unit (levelOf id))
          obtain ⟨last, hrun⟩ :=
            hwith.relink (Option.ne_none_iff_exists'.mpr ⟨entry, hentry⟩) hrelink
          rw [levelAt_last] at hrun
          have hafter : Worked arithmetic (searches + (min (levelOf id) graph.maxLevel + 1)) last
              (if levelOf id > linked.maxLevel then
                linked.entered graph.nodes.length (levelOf id) else linked) := by
            split
            · exact hrun.change ⟨rfl, rfl⟩ (Nat.le_refl linked.nodes.length)
            · exact hrun
          rw [insertSearches, insertLevel, hnew, hentry, Option.map_none, Option.getD_none]
          exact ⟨last, hafter⟩
  | search hran hsearch ih =>
      obtain ⟨last, hworked⟩ := ih
      rcases search_cases hsearch with
        ⟨hcount, rfl⟩ | ⟨hcount, unit, entry, current, nearest, -, -, hnearest⟩
      · rw [hcount]
        exact ⟨last, hworked⟩
      · rw [hcount]
        exact ⟨_, hworked.search hnearest⟩

/-! ## When the epochs come round -/

/-- The graph of one item, with the marks of its searches. -/
def solitary (visited : List U32) (epoch : U32) : Hnsw ℤ where
  nodes := [{ vector := [1], neighbours := [[]] }]
  ids := [[97]]
  idToIndex := (∅ : Std.ExtTreeMap ItemId ℕ).insert [97] 0
  entry := some 0
  maxLevel := 0
  dim := some 1
  visited := visited
  epoch := epoch

theorem ran_solitary : Ran signs (fun _ => 0) 0 (solitary [] 0) := by
  have hinsert : (Hnsw.empty : Hnsw ℤ).insert signs (fun _ => 0) [97] [1] =
      some (true, solitary [] 0) := rfl
  exact Ran.empty.insert hinsert

/-- A search sees the one item. -/
theorem search_solitary {visited : List U32} {epoch mark : U32}
    (hmarks : (solitary visited epoch).marks = [mark]) :
    ∃ found, (solitary visited epoch).search signs [1] 1 1 =
      some (found, solitary [epoch + 1] (epoch + 1)) := by
  have hseen : (seen (epoch + 1) [mark] 0).2 = [epoch + 1] := by
    unfold seen
    split
    next hmark => exact congrArg (fun mark => [mark]) (Option.some.inj hmark)
    next => rfl
  have hsearch : (solitary visited epoch).search signs [1] 1 1 =
      some ([([97], 1)], solitary (seen (epoch + 1) (solitary visited epoch).marks 0).2
        (epoch + 1)) := rfl
  rw [hmarks, hseen] at hsearch
  exact ⟨_, hsearch⟩

theorem ran_searches (searches : ℕ) :
    Ran signs (fun _ => 0) (searches + 1) (solitary [Fin.ofNat (256 ^ 4) (searches + 1)]
      (Fin.ofNat (256 ^ 4) (searches + 1))) := by
  induction searches with
  | zero =>
      have hmarks : (solitary [] 0).marks = [0] := rfl
      obtain ⟨found, hsearch⟩ := search_solitary hmarks
      exact ran_solitary.search hsearch
  | succ searches ih =>
      have hmarks : (solitary [Fin.ofNat (256 ^ 4) (searches + 1)]
        (Fin.ofNat (256 ^ 4) (searches + 1))).marks = [Fin.ofNat (256 ^ 4) (searches + 1)] := rfl
      obtain ⟨found, hsearch⟩ := search_solitary hmarks
      have hsucc : Fin.ofNat (256 ^ 4) (searches + 1) + 1 = Fin.ofNat (256 ^ 4) (searches + 1 + 1) :=
        Fin.ext (Nat.mod_add_mod (searches + 1) (256 ^ 4) 1)
      rw [hsucc] at hsearch
      exact ih.search hsearch

/-- An item, as many searches as there are epochs but two, and an item more: the next search takes
the new item for seen, and finds the first one only. -/
theorem not_search_forgets :
    ∃ searches graph, Ran signs (fun _ => 0) searches graph ∧
      (seen (graph.epoch + 1) graph.marks 1).1 = true ∧
      (graph.searchLayer signs [1] [0] 2 0).map Prod.fst ≠
        (graph.unmarked.searchLayer signs [1] [0] 2 0).map Prod.fst := by
  have hrun : ((solitary [4294967294] 4294967294).insert signs (fun _ => 0) [98] [-1]).map
      (fun run => ((seen (run.2.epoch + 1) run.2.marks 1).1,
        [(run.2.searchLayer signs [1] [0] 2 0).map Prod.fst,
          (run.2.unmarked.searchLayer signs [1] [0] 2 0).map Prod.fst])) =
      some (true, [some [(0, 0)], some [(0, 0), (1, 2)]]) := by
    decide +kernel
  obtain ⟨⟨accepted, after⟩, hinsert, heq⟩ := Option.map_eq_some_iff.mp hrun
  obtain ⟨hseen, hfound⟩ := Prod.mk.inj heq
  obtain ⟨hmissed, hrest⟩ := List.cons.inj hfound
  obtain ⟨hunmarked, -⟩ := List.cons.inj hrest
  refine ⟨_, after, (ran_searches 4294967293).insert hinsert, hseen, ?_⟩
  rw [hmissed, hunmarked]
  decide

/-- A second item is linked with the first, and a search finds them both: no node counts as seen
in the next one. -/
theorem Worked.search_forgets_iff_pair :
    ∃ graph : Hnsw ℤ, Ran signs (fun _ => 0) 2 graph ∧
      graph.nodes.map HnswNode.neighbours = [[[1]], [[0]]] ∧ graph.visited = [2, 2] ∧
      (∀ n, (seen (graph.epoch + 1) graph.marks n).1 = false) ∧
      ∀ query start ef layer,
        (graph.searchLayer signs query [start] ef layer).map Prod.fst =
          (graph.unmarked.searchLayer signs query [start] ef layer).map Prod.fst := by
  have hrun : ((solitary [] 0).insert signs (fun _ => 0) [98] [-1]).bind (fun inserted =>
      (inserted.2.search signs [1] 2 2).map fun searched =>
        (inserted.1, inserted.2.querySearches signs [1] 2,
          searched.2.nodes.map HnswNode.neighbours, searched.2.visited)) =
      some (true, 1, [[[1]], [[0]]], [2, 2]) := by
    decide +kernel
  obtain ⟨⟨accepted, linked⟩, hinsert, hrest⟩ := Option.bind_eq_some_iff.mp hrun
  obtain ⟨⟨found, graph⟩, hsearch, heq⟩ := Option.map_eq_some_iff.mp hrest
  simp only [Prod.mk.injEq] at heq
  obtain ⟨rfl, hqueries, hlinks, hvisited⟩ := heq
  have hran : Ran signs (fun _ => 0) 2 graph := by
    have hran := (ran_solitary.insert hinsert).search hsearch
    rw [hqueries] at hran
    exact hran
  obtain ⟨last, hworked⟩ := hran.worked
  exact ⟨graph, hran, hlinks, hvisited,
    hworked.search_forgets_iff.mpr fun n _ => hworked.apart_of_short (by decide) n⟩

end Hnsw

end LoomDB
