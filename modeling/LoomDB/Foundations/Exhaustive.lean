import LoomDB.Foundations.BestFirst
import Mathlib.Data.List.Nodup
import Mathlib.Logic.Relation

/-!
# Searches with room for all

A best-first search that may keep as many nodes as there are to come to drops none of them, and it
does not stop before it has come to all. It then keeps exactly the nodes that a path leads to from
its start, each once and with its distance.
-/

namespace LoomDB

namespace BestFirst

open Relation (ReflTransGen)

variable {ι V K : Type*}

/-- A path of links leads from one node to the other. -/
def Leads (links : ι → List ι) : ι → ι → Prop :=
  ReflTransGen fun n m => m ∈ links n

theorem Leads.stays {links : ι → List ι} {P : ι → Prop} (hlinks : ∀ n, P n → ∀ m ∈ links n, P m)
    {start goal : ι} (hstart : P start) (hleads : Leads links start goal) : P goal := by
  induction hleads with
  | refl => exact hstart
  | tail _ hlink ih => exact hlinks _ ih _ hlink

/-- A set of what was seen tells what it holds, and a look adds the node. -/
structure Tracks (P : ι → Prop) (seen : V → ι → Bool × V) (good : V → Prop)
    (holds : V → ι → Prop) : Prop where
  told : ∀ v n, good v → P n → ((seen v n).1 = true ↔ holds v n)
  adds : ∀ v n m, good v → P n → P m → (holds (seen v n).2 m ↔ m = n ∨ holds v m)
  stays : ∀ v n, good v → P n → good (seen v n).2

/-- The nodes that are kept. -/
def State.kept (state : State V ι K) : List ι :=
  state.result.map Prod.fst

/-- The nodes that are still to be explored. -/
def State.pending (state : State V ι K) : List ι :=
  state.candidates.map Prod.fst

variable {ranking : Ranking K} {dist : ι → K} {links : ι → List ι} {seen : V → ι → Bool × V}
  {ef : ℕ} {P : ι → Prop} {good : V → Prop} {holds : V → ι → Prop} {start : ι}

/-- All that was seen is kept, once and with its distance. -/
structure State.Complete (dist : ι → K) (links : ι → List ι) (good : V → Prop)
    (holds : V → ι → Prop) (start : ι) (state : State V ι K) : Prop where
  good : good state.visited
  seen : ∀ n, Leads links start n → (n ∈ state.kept ↔ holds state.visited n)
  reached : ∀ n ∈ state.kept, Leads links start n
  nodup : state.kept.Nodup
  dists : ∀ entry ∈ state.result, entry.2 = dist entry.1
  pending : ∀ n ∈ state.pending, n ∈ state.kept

/-- No node is lost, and what is new is still to be explored. -/
structure State.Grows (before after : State V ι K) : Prop where
  kept : ∀ n ∈ before.kept, n ∈ after.kept
  pending : ∀ n ∈ before.pending, n ∈ after.pending
  fresh : ∀ n ∈ after.kept, n ∈ before.kept ∨ n ∈ after.pending

theorem State.Grows.refl (state : State V ι K) : state.Grows state :=
  ⟨fun _ => id, fun _ => id, fun _ => Or.inl⟩

theorem State.Grows.trans {before middle after : State V ι K} (hfirst : before.Grows middle)
    (hsecond : middle.Grows after) : before.Grows after where
  kept := fun n hn => hsecond.kept n (hfirst.kept n hn)
  pending := fun n hn => hsecond.pending n (hfirst.pending n hn)
  fresh := fun n hn => by
    rcases hsecond.fresh n hn with hmiddle | hpending
    · exact (hfirst.fresh n hmiddle).imp_right (hsecond.pending n)
    · exact Or.inr hpending

/-- A search may keep every node that a path leads to. -/
def Room (links : ι → List ι) (start : ι) (ef : ℕ) : Prop :=
  ∀ nodes : List ι, nodes.Nodup → (∀ n ∈ nodes, Leads links start n) → nodes.length ≤ ef

theorem keep_of_room {result : List (ι × K)} (hroom : result.length < ef) (entry : ι × K) :
    keep ranking ef result entry = BinaryHeap.push ranking.farthest result entry := by
  have hlength := (BinaryHeap.perm_push ranking.farthest result entry).length_eq
  rw [List.length_cons] at hlength
  unfold keep
  dsimp only
  rw [if_neg (by omega)]

/-- The state after a node is added to what is kept and what is to be explored. -/
def State.add (ranking : Ranking K) (dist : ι → K) (visited : V) (n : ι) (state : State V ι K) :
    State V ι K where
  visited := visited
  candidates := BinaryHeap.push ranking.closest state.candidates (n, dist n)
  result := BinaryHeap.push ranking.farthest state.result (n, dist n)

theorem State.perm_kept_add (ranking : Ranking K) (dist : ι → K) (visited : V) (n : ι)
    (state : State V ι K) :
    (state.add ranking dist visited n).kept.Perm (n :: state.kept) :=
  (BinaryHeap.perm_push ranking.farthest state.result (n, dist n)).map Prod.fst

theorem State.perm_pending_add (ranking : Ranking K) (dist : ι → K) (visited : V) (n : ι)
    (state : State V ι K) :
    (state.add ranking dist visited n).pending.Perm (n :: state.pending) :=
  (BinaryHeap.perm_push ranking.closest state.candidates (n, dist n)).map Prod.fst

theorem State.add_grows (visited : V) (n : ι) (state : State V ι K) :
    state.Grows (state.add ranking dist visited n) where
  kept := fun _ hm => (state.perm_kept_add ranking dist visited n).mem_iff.mpr (List.mem_cons_of_mem n hm)
  pending := fun _ hm => (state.perm_pending_add ranking dist visited n).mem_iff.mpr (List.mem_cons_of_mem n hm)
  fresh := fun m hm => by
    rcases List.mem_cons.mp ((state.perm_kept_add ranking dist visited n).mem_iff.mp hm) with rfl | hold
    · exact Or.inr ((state.perm_pending_add ranking dist visited m).mem_iff.mpr List.mem_cons_self)
    · exact Or.inl hold

section Exploring

variable (htracks : Tracks P seen good holds) (hlinks : ∀ n, P n → ∀ m ∈ links n, P m)
  (hstart : P start)

include htracks hlinks hstart

/-- A node that was not seen is added. -/
theorem State.Complete.add {state : State V ι K}
    (hcomplete : state.Complete dist links good holds start) {n : ι}
    (hn : Leads links start n) (hnew : n ∉ state.kept) :
    (state.add ranking dist (seen state.visited n).2 n).Complete dist links good holds start := by
  have hkept : ∀ m, m ∈ (state.add ranking dist (seen state.visited n).2 n).kept ↔
      m = n ∨ m ∈ state.kept := fun m =>
    (state.perm_kept_add ranking dist _ n).mem_iff.trans List.mem_cons
  have hP : P n := hn.stays hlinks hstart
  refine ⟨htracks.stays _ n hcomplete.good hP, fun m hm => ?_, fun m hm => ?_, ?_,
    fun entry hentry => ?_, fun m hm => ?_⟩
  · calc m ∈ (state.add ranking dist (seen state.visited n).2 n).kept
        ↔ m = n ∨ m ∈ state.kept := hkept m
      _ ↔ m = n ∨ holds state.visited m := or_congr_right (hcomplete.seen m hm)
      _ ↔ holds (seen state.visited n).2 m :=
          (htracks.adds _ n m hcomplete.good hP (hm.stays hlinks hstart)).symm
  · rcases (hkept m).mp hm with rfl | hold
    · exact hn
    · exact hcomplete.reached m hold
  · exact (state.perm_kept_add ranking dist _ n).nodup_iff.mpr (List.nodup_cons.mpr ⟨hnew, hcomplete.nodup⟩)
  · rcases List.mem_cons.mp ((BinaryHeap.perm_push _ _ _).mem_iff.mp hentry) with rfl | hold
    · rfl
    · exact hcomplete.dists entry hold
  · rcases List.mem_cons.mp ((state.perm_pending_add ranking dist _ n).mem_iff.mp hm) with rfl | hold
    · exact (hkept m).mpr (Or.inl rfl)
    · exact (hkept m).mpr (Or.inr (hcomplete.pending m hold))

variable (hroom : Room links start ef)

include hroom

/-- A neighbour is kept if it was not yet; nothing is dropped for it. -/
theorem State.Complete.visit {state : State V ι K}
    (hcomplete : state.Complete dist links good holds start) {n : ι}
    (hn : Leads links start n) :
    (visit ranking dist seen ef state n).Complete dist links good holds start ∧
      state.Grows (visit ranking dist seen ef state n) ∧
      n ∈ (visit ranking dist seen ef state n).kept := by
  have htold := htracks.told state.visited n hcomplete.good (hn.stays hlinks hstart)
  unfold BestFirst.visit
  split
  next hseen =>
    rw [hseen, ← hcomplete.seen n hn] at htold
    exact ⟨hcomplete, .refl state, htold.mp rfl⟩
  next visited hseen =>
    have hnew : n ∉ state.kept := by
      rw [hcomplete.seen n hn, ← htold, hseen]
      exact Bool.false_ne_true
    have hmore : (n :: state.kept).length ≤ ef :=
      hroom _ (List.nodup_cons.mpr ⟨hnew, hcomplete.nodup⟩)
        (List.forall_mem_cons.mpr ⟨hn, hcomplete.reached⟩)
    rw [List.length_cons, State.kept, List.length_map] at hmore
    have hadd : (state.add ranking dist visited n).Complete dist links good holds start := by
      have hadded : (state.add ranking dist (seen state.visited n).2 n).Complete dist links good
          holds start := hcomplete.add htracks hlinks hstart hn hnew
      rwa [hseen] at hadded
    rw [if_pos (by simp only [Bool.or_eq_true, decide_eq_true_eq]; omega), keep_of_room (by omega)]
    refine ⟨hadd, state.add_grows visited n, ?_⟩
    exact (state.perm_kept_add ranking dist visited n).mem_iff.mpr List.mem_cons_self

theorem State.Complete.foldl_visit {state : State V ι K}
    (hcomplete : state.Complete dist links good holds start) {neighbours : List ι}
    (hneighbours : ∀ n ∈ neighbours, Leads links start n) :
    (neighbours.foldl (BestFirst.visit ranking dist seen ef) state).Complete dist links good holds
        start ∧
      state.Grows (neighbours.foldl (BestFirst.visit ranking dist seen ef) state) ∧
      ∀ n ∈ neighbours, n ∈ (neighbours.foldl (BestFirst.visit ranking dist seen ef) state).kept := by
  induction neighbours generalizing state with
  | nil => exact ⟨hcomplete, .refl state, fun n hn => absurd hn List.not_mem_nil⟩
  | cons n neighbours ih =>
      obtain ⟨hn, hrest⟩ := List.forall_mem_cons.mp hneighbours
      obtain ⟨hvisited, hgrows, hkept⟩ := hcomplete.visit htracks hlinks hstart hroom hn
      obtain ⟨hfinal, hmore, hothers⟩ := ih hvisited hrest
      exact ⟨hfinal, hgrows.trans hmore,
        List.forall_mem_cons.mpr ⟨hmore.kept n hkept, hothers⟩⟩

/-- What is kept was explored, or is still to be. -/
def State.Explored (links : ι → List ι) (state : State V ι K) : Prop :=
  ∀ n ∈ state.kept, n ∈ state.pending ∨ ∀ m ∈ links n, m ∈ state.kept

omit htracks hlinks hstart hroom in
theorem kept_of_explored {state : State V ι K} (hexplored : state.Explored links)
    (hdone : state.pending = []) (hstart : start ∈ state.kept) {n : ι}
    (hn : Leads links start n) : n ∈ state.kept := by
  induction hn with
  | refl => exact hstart
  | tail _ hlink ih =>
      rcases hexplored _ ih with hpending | hclosed
      · rw [hdone] at hpending
        exact absurd hpending List.not_mem_nil
      · exact hclosed _ hlink

/-- The search ends with all that a path leads to. -/
theorem explore_complete {fuel : ℕ} {state final : State V ι K}
    (hcomplete : state.Complete dist links good holds start) (hexplored : state.Explored links)
    (hkept : start ∈ state.kept)
    (hfinal : explore ranking dist links seen ef fuel state = some final) :
    final.Complete dist links good holds start ∧ ∀ n, Leads links start n → n ∈ final.kept := by
  induction fuel generalizing state with
  | zero => cases hfinal
  | succ fuel ih =>
      unfold explore at hfinal
      split at hfinal
      next hpop =>
        cases hfinal
        have hdone : final.pending = [] := by
          rw [State.pending, BinaryHeap.pop_eq_none.mp hpop, List.map_nil]
        exact ⟨hcomplete, fun n => kept_of_explored hexplored hdone hkept⟩
      next n d rest hpop =>
        have hperm : state.pending.Perm (n :: rest.map Prod.fst) :=
          (BinaryHeap.perm_of_pop hpop).map Prod.fst
        have hn : n ∈ state.kept :=
          hcomplete.pending n (hperm.mem_iff.mpr List.mem_cons_self)
        have hpopped : ({ state with candidates := rest } : State V ι K).Complete dist links good
            holds start :=
          ⟨hcomplete.good, hcomplete.seen, hcomplete.reached, hcomplete.nodup, hcomplete.dists,
            fun m hm => hcomplete.pending m (hperm.mem_iff.mpr (List.mem_cons_of_mem n hm))⟩
        dsimp only at hfinal
        split at hfinal
        next hexhausted =>
          -- As many are kept as there is room for, so none is missing.
          cases hfinal
          refine ⟨hpopped, fun m hm => ?_⟩
          by_contra hmissing
          have hmore := hroom (m :: state.kept)
            (List.nodup_cons.mpr ⟨hmissing, hcomplete.nodup⟩)
            (List.forall_mem_cons.mpr ⟨hm, hcomplete.reached⟩)
          have hfull : ef ≤ state.result.length := by
            unfold exhausted at hexhausted
            split at hexhausted
            · exact of_decide_eq_true (Bool.and_eq_true_iff.mp hexhausted).2
            · cases hexhausted
          rw [List.length_cons, State.kept, List.length_map] at hmore
          omega
        next =>
          have hneighbours : ∀ m ∈ links n, Leads links start m := fun m hm =>
            (hcomplete.reached n hn).tail hm
          obtain ⟨hvisited, hgrows, hclosed⟩ :
              ((links n).foldl (BestFirst.visit ranking dist seen ef)
                  { state with candidates := rest }).Complete dist links good holds start ∧
                ({ state with candidates := rest } : State V ι K).Grows
                  ((links n).foldl (BestFirst.visit ranking dist seen ef)
                    { state with candidates := rest }) ∧
                ∀ m ∈ links n, m ∈ ((links n).foldl (BestFirst.visit ranking dist seen ef)
                  { state with candidates := rest }).kept :=
            hpopped.foldl_visit htracks hlinks hstart hroom hneighbours
          refine ih hvisited (fun m hm => ?_) (hgrows.kept start hkept) hfinal
          rcases hgrows.fresh m hm with hold | hpending
          · rcases hexplored m hold with hpending | hlinked
            · rcases List.mem_cons.mp (hperm.mem_iff.mp hpending) with rfl | hrest
              · exact Or.inr hclosed
              · exact Or.inl (hgrows.pending m hrest)
            · exact Or.inr fun other hother => hgrows.kept other (hlinked other hother)
          · exact Or.inl hpending

/-- A search from one node keeps exactly what a path leads to from there. -/
theorem explore_all {visited : V} (hgood : good visited) (hnothing : ∀ n, P n → ¬holds visited n)
    {fuel : ℕ} {final : State V ι K}
    (hfinal : explore ranking dist links seen ef fuel
      (enter ranking dist seen { visited := visited, candidates := [], result := [] } start) =
        some final) :
    final.kept.Nodup ∧ (∀ n, n ∈ final.kept ↔ Leads links start n) ∧
      ∀ entry ∈ final.result, entry.2 = dist entry.1 := by
  have hempty : ({ visited := visited, candidates := [], result := [] } : State V ι K).Complete
      dist links good holds start :=
    ⟨hgood, fun n hn => iff_of_false List.not_mem_nil (hnothing n (hn.stays hlinks hstart)),
      fun n hn => absurd hn List.not_mem_nil, List.nodup_nil,
      fun entry hentry => absurd hentry List.not_mem_nil, fun n hn => absurd hn List.not_mem_nil⟩
  have hentered : (enter ranking dist seen
      { visited := visited, candidates := [], result := [] } start).Complete dist links good holds
        start := hempty.add htracks hlinks hstart .refl List.not_mem_nil
  have hone : ∀ n, n ∈ (enter ranking dist seen
      { visited := visited, candidates := [], result := [] } start).kept → n = start := by
    intro n hn
    have hmem := (State.perm_kept_add ranking dist _ start
      { visited := visited, candidates := [], result := [] }).mem_iff.mp hn
    exact List.mem_singleton.mp hmem
  obtain ⟨hcomplete, hall⟩ := explore_complete htracks hlinks hstart hroom hentered
    (fun n hn => by
      obtain rfl := hone n hn
      exact Or.inl ((State.perm_pending_add ranking dist _ n _).mem_iff.mpr List.mem_cons_self))
    ((State.perm_kept_add ranking dist _ start _).mem_iff.mpr List.mem_cons_self) hfinal
  exact ⟨hcomplete.nodup, fun n => ⟨hcomplete.reached n, hall n⟩, hcomplete.dists⟩

end Exploring

end BestFirst

end LoomDB
