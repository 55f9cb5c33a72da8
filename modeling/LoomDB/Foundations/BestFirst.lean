import LoomDB.Foundations.BinaryHeap
import LoomDB.Foundations.Comparison
import Mathlib.Data.List.Count
import Mathlib.Order.Basic

/-!
# Greedy and best-first search

Two searches of a graph for what is near: a greedy one that hops to a closer neighbour while there
is one, and one that explores the closest node first and keeps a bounded number of the nearest. The
distances, the links and the set of the nodes that were seen are parameters.

A search stays among nodes that the links do not leave. It ends if there is fuel for each node that
it can still come to. And it takes the same way through two graphs of which one renames the nodes of
the other.
-/

namespace LoomDB

namespace BestFirst

variable {ι ι' V V' K : Type*}

/-- How distances compare; and one that stands for nothing found. -/
structure Ranking (K : Type*) where
  lt : K → K → Bool
  compare : K → K → Ordering
  infinity : K

/-- What a search has seen, what it is still to explore, and what it keeps. -/
structure State (V ι K : Type*) where
  visited : V
  candidates : List (ι × K)
  result : List (ι × K)

namespace Ranking

variable (ranking : Ranking K)

/-- The order of what is to be explored: the closest is the greatest. -/
def closest (entry other : ι × K) : Bool :=
  (ranking.compare other.2 entry.2).isLE

/-- The order of what is kept: the farthest is the greatest. -/
def farthest (entry other : ι × K) : Bool :=
  (ranking.compare entry.2 other.2).isLE

end Ranking

variable (ranking : Ranking K) (dist : ι → K) (links : ι → List ι) (seen : V → ι → Bool × V)
  (ef : ℕ)

/-! ## The searches -/

/-- The closer one of the node so far and a neighbour, and whether there was a closer one. -/
def hop : ι × K × Bool → ι → ι × K × Bool
  | (current, currentDist, improved), n =>
      if ranking.lt (dist n) currentDist then (n, dist n, true)
      else (current, currentDist, improved)

def greedy : ℕ → ι → K → Option ι
  | 0, _, _ => none
  | fuel + 1, current, currentDist =>
      let (current, currentDist, improved) :=
        (links current).foldl (hop ranking dist) (current, currentDist, false)
      if improved then greedy fuel current currentDist else some current

def enter (state : State V ι K) (n : ι) : State V ι K where
  visited := (seen state.visited n).2
  candidates := BinaryHeap.push ranking.closest state.candidates (n, dist n)
  result := BinaryHeap.push ranking.farthest state.result (n, dist n)

/-- Keep a node as well, and drop the farthest if there are too many. -/
def keep (result : List (ι × K)) (entry : ι × K) : List (ι × K) :=
  let result := BinaryHeap.push ranking.farthest result entry
  if result.length > ef then ((BinaryHeap.pop ranking.farthest result).map Prod.snd).getD result
  else result

def worst (result : List (ι × K)) : K :=
  (result.head?.map Prod.snd).getD ranking.infinity

def visit (state : State V ι K) (n : ι) : State V ι K :=
  match seen state.visited n with
  | (true, _) => state
  | (false, visited) =>
      if ranking.lt (dist n) (worst ranking state.result) || state.result.length < ef then
        { visited := visited
          candidates := BinaryHeap.push ranking.closest state.candidates (n, dist n)
          result := keep ranking ef state.result (n, dist n) }
      else { state with visited := visited }

/-- What is to be explored next is beyond the farthest that is kept. -/
def exhausted (d : K) (result : List (ι × K)) : Bool :=
  match result.head? with
  | some worst => ranking.lt worst.2 d && result.length ≥ ef
  | none => false

def explore : ℕ → State V ι K → Option (State V ι K)
  | 0, _ => none
  | fuel + 1, state =>
      match BinaryHeap.pop ranking.closest state.candidates with
      | none => some state
      | some ((n, d), candidates) =>
          let state := { state with candidates := candidates }
          if exhausted ranking ef d state.result then some state
          else explore fuel ((links n).foldl (visit ranking dist seen ef) state)

variable {ranking dist links seen ef}

/-! ## Where a search stays -/

section Staying

variable {P : ι → Prop}

/-- What is to be explored and what is kept are of some nodes only. -/
structure State.Within (P : ι → Prop) (state : State V ι K) : Prop where
  candidates : ∀ entry ∈ state.candidates, P entry.1
  result : ∀ entry ∈ state.result, P entry.1

theorem hop_stays {best : ι × K × Bool} {n : ι} (hbest : P best.1) (hn : P n) :
    P (hop ranking dist best n).1 := by
  unfold hop
  dsimp only
  split
  · exact hn
  · exact hbest

theorem foldl_hop_stays {neighbours : List ι} (hneighbours : ∀ n ∈ neighbours, P n)
    {best : ι × K × Bool} (hbest : P best.1) :
    P (neighbours.foldl (hop ranking dist) best).1 := by
  induction neighbours generalizing best with
  | nil => exact hbest
  | cons n neighbours ih =>
      obtain ⟨hn, hrest⟩ := List.forall_mem_cons.mp hneighbours
      exact ih hrest (hop_stays hbest hn)

theorem greedy_stays (hlinks : ∀ n, P n → ∀ m ∈ links n, P m) {fuel : ℕ} {start found : ι}
    {startDist : K} (hstart : P start)
    (hfound : greedy ranking dist links fuel start startDist = some found) : P found := by
  induction fuel generalizing start startDist with
  | zero => cases hfound
  | succ fuel ih =>
      have hhop : P ((links start).foldl (hop ranking dist) (start, startDist, false)).1 :=
        foldl_hop_stays (hlinks start hstart) hstart
      unfold greedy at hfound
      dsimp only at hfound
      split at hfound
      · exact ih hhop hfound
      · cases hfound
        exact hhop

theorem mem_keep {result : List (ι × K)} {entry other : ι × K}
    (hother : other ∈ keep ranking ef result entry) : other = entry ∨ other ∈ result := by
  have hpush := BinaryHeap.perm_push ranking.farthest result entry
  unfold keep at hother
  dsimp only at hother
  split at hother
  · cases hpop : BinaryHeap.pop ranking.farthest
      (BinaryHeap.push ranking.farthest result entry) with
    | none =>
        rw [hpop] at hother
        exact List.mem_cons.mp (hpush.mem_iff.mp hother)
    | some popped =>
        rw [hpop] at hother
        have hrest := (BinaryHeap.perm_of_pop hpop).mem_iff.mpr (List.mem_cons_of_mem _ hother)
        exact List.mem_cons.mp (hpush.mem_iff.mp hrest)
  · exact List.mem_cons.mp (hpush.mem_iff.mp hother)

theorem State.Within.enter {state : State V ι K} (hwithin : state.Within P) {n : ι} (hn : P n) :
    (enter ranking dist seen state n).Within P := by
  refine ⟨fun entry hentry => ?_, fun entry hentry => ?_⟩
  · rcases List.mem_cons.mp ((BinaryHeap.perm_push _ _ _).mem_iff.mp hentry) with rfl | hentry
    · exact hn
    · exact hwithin.candidates entry hentry
  · rcases List.mem_cons.mp ((BinaryHeap.perm_push _ _ _).mem_iff.mp hentry) with rfl | hentry
    · exact hn
    · exact hwithin.result entry hentry

theorem State.Within.visit {state : State V ι K} (hwithin : state.Within P) {n : ι} (hn : P n) :
    (visit ranking dist seen ef state n).Within P := by
  unfold BestFirst.visit
  split
  · exact hwithin
  · split
    · refine ⟨fun entry hentry => ?_, fun entry hentry => ?_⟩
      · rcases List.mem_cons.mp ((BinaryHeap.perm_push _ _ _).mem_iff.mp hentry) with
          rfl | hentry
        · exact hn
        · exact hwithin.candidates entry hentry
      · rcases mem_keep hentry with rfl | hentry
        · exact hn
        · exact hwithin.result entry hentry
    · exact ⟨hwithin.candidates, hwithin.result⟩

theorem State.Within.foldl_visit {state : State V ι K} (hwithin : state.Within P)
    {neighbours : List ι} (hneighbours : ∀ n ∈ neighbours, P n) :
    (neighbours.foldl (BestFirst.visit ranking dist seen ef) state).Within P := by
  induction neighbours generalizing state with
  | nil => exact hwithin
  | cons n neighbours ih =>
      obtain ⟨hn, hrest⟩ := List.forall_mem_cons.mp hneighbours
      exact ih (hwithin.visit hn) hrest

theorem State.Within.popped {state : State V ι K} (hwithin : state.Within P) {entry : ι × K}
    {rest : List (ι × K)}
    (hpop : BinaryHeap.pop ranking.closest state.candidates = some (entry, rest)) :
    P entry.1 ∧ ({ state with candidates := rest } : State V ι K).Within P := by
  have hperm := BinaryHeap.perm_of_pop hpop
  refine ⟨hwithin.candidates entry (hperm.mem_iff.mpr List.mem_cons_self),
    fun other hother => ?_, hwithin.result⟩
  exact hwithin.candidates other (hperm.mem_iff.mpr (List.mem_cons_of_mem entry hother))

theorem explore_stays (hlinks : ∀ n, P n → ∀ m ∈ links n, P m) {fuel : ℕ}
    {state final : State V ι K} (hwithin : state.Within P)
    (hfinal : explore ranking dist links seen ef fuel state = some final) : final.Within P := by
  induction fuel generalizing state with
  | zero => cases hfinal
  | succ fuel ih =>
      unfold explore at hfinal
      split at hfinal
      · cases hfinal
        exact hwithin
      · rename_i n d rest hpop
        obtain ⟨hn, hrest⟩ := hwithin.popped hpop
        dsimp only at hfinal
        split at hfinal
        · cases hfinal
          exact hrest
        · exact ih (hrest.foldl_visit (hlinks n hn)) hfinal

/-- What each look keeps of the set of what was seen, a search keeps. -/
theorem explore_visited {inv : V → Prop} (hseen : ∀ v n, inv v → inv (seen v n).2) {fuel : ℕ}
    {state final : State V ι K} (hinv : inv state.visited)
    (hfinal : explore ranking dist links seen ef fuel state = some final) :
    inv final.visited := by
  have hvisit : ∀ (neighbours : List ι) (state : State V ι K), inv state.visited →
      inv (neighbours.foldl (visit ranking dist seen ef) state).visited := by
    intro neighbours
    induction neighbours with
    | nil => exact fun state hinv => hinv
    | cons n neighbours ih =>
        refine fun state hinv => ih _ ?_
        have hlook := hseen state.visited n hinv
        unfold visit
        split
        · exact hinv
        next visited hnew =>
          rw [hnew] at hlook
          split
          · exact hlook
          · exact hlook
  induction fuel generalizing state with
  | zero => cases hfinal
  | succ fuel ih =>
      unfold explore at hfinal
      split at hfinal
      · cases hfinal
        exact hinv
      · dsimp only at hfinal
        split at hfinal
        · cases hfinal
          exact hinv
        · refine ih ?_ hfinal
          exact hvisit _ _ hinv

end Staying

/-! ## When a search ends -/

section Ending

/-- Closer is a strict order. -/
structure Ranking.Strict (ranking : Ranking K) : Prop where
  irrefl : ∀ d, ranking.lt d d = false
  trans : ∀ first second third, ranking.lt first second = true → ranking.lt second third = true →
    ranking.lt first third = true

/-- So it is where it is the order of the distances. -/
theorem Ranking.strict_of_lt {ranking : Ranking K} [Preorder K] [DecidableLT K]
    (hlt : ∀ left right, ranking.lt left right = Decidable.decide (left < right)) :
    ranking.Strict where
  irrefl := fun d => by
    rw [hlt]
    exact decide_eq_false (lt_irrefl d)
  trans := fun first second third hfirst hsecond => by
    rw [hlt, decide_eq_true_iff] at hfirst hsecond ⊢
    exact hfirst.trans hsecond

/-- The best of some hops is where they started or closer. -/
def Improves (ranking : Ranking K) (dist : ι → K) (start : ι) (best : ι × K × Bool) : Prop :=
  best.2.1 = dist best.1 ∧
    (best.2.2 = true ∧ ranking.lt (dist best.1) (dist start) = true ∨
      best.2.2 = false ∧ best.1 = start)

theorem Improves.hop (hstrict : ranking.Strict) {start n : ι} {best : ι × K × Bool}
    (hbest : Improves ranking dist start best) :
    Improves ranking dist start (hop ranking dist best n) := by
  obtain ⟨current, currentDist, improved⟩ := best
  obtain ⟨hdist, hcloser⟩ := hbest
  obtain rfl : currentDist = dist current := hdist
  unfold BestFirst.hop
  dsimp only
  split
  next hlt =>
    refine ⟨rfl, Or.inl ⟨rfl, ?_⟩⟩
    rcases hcloser with ⟨-, hcurrent⟩ | ⟨-, rfl⟩
    · exact hstrict.trans _ _ _ hlt hcurrent
    · exact hlt
  next => exact ⟨rfl, hcloser⟩

theorem Improves.foldl_hop (hstrict : ranking.Strict) {start : ι} {neighbours : List ι}
    {best : ι × K × Bool} (hbest : Improves ranking dist start best) :
    Improves ranking dist start (neighbours.foldl (BestFirst.hop ranking dist) best) := by
  induction neighbours generalizing best with
  | nil => exact hbest
  | cons n neighbours ih => exact ih (hbest.hop hstrict)

/-- Each hop leaves fewer nodes that are closer. -/
theorem greedy_isSome (hstrict : ranking.Strict) (nodes : List ι)
    (hlinks : ∀ n ∈ nodes, ∀ m ∈ links n, m ∈ nodes) {fuel : ℕ} {start : ι}
    (hstart : start ∈ nodes)
    (hfuel : nodes.countP (fun n => ranking.lt (dist n) (dist start)) < fuel) :
    (greedy ranking dist links fuel start (dist start)).isSome = true := by
  induction fuel generalizing start with
  | zero => exact absurd hfuel (Nat.not_lt_zero _)
  | succ fuel ih =>
      have hbest : Improves ranking dist start
          ((links start).foldl (hop ranking dist) (start, dist start, false)) :=
        Improves.foldl_hop hstrict ⟨rfl, Or.inr ⟨rfl, rfl⟩⟩
      have hstays : ((links start).foldl (hop ranking dist) (start, dist start, false)).1 ∈ nodes :=
        foldl_hop_stays (hlinks start hstart) hstart
      unfold greedy
      generalize (links start).foldl (hop ranking dist) (start, dist start, false) = best at *
      obtain ⟨current, currentDist, improved⟩ := best
      obtain ⟨hdist, hcloser⟩ := hbest
      obtain rfl : currentDist = dist current := hdist
      dsimp only
      rcases hcloser with ⟨himproved, hlt⟩ | ⟨himproved, -⟩
      · obtain rfl : improved = true := himproved
        rw [if_pos rfl]
        refine ih hstays (Nat.lt_of_lt_of_le ?_ (Nat.le_of_lt_succ hfuel))
        have hfewer : nodes.countP (fun n => ranking.lt (dist n) (dist current)) ≤
            (nodes.filter fun n => ranking.lt (dist n) (dist start)).countP
              (fun n => ranking.lt (dist n) (dist current)) := by
          rw [List.countP_filter]
          refine List.countP_mono_left fun n _ hn => ?_
          rw [Bool.and_eq_true]
          exact ⟨hn, hstrict.trans _ _ _ hn hlt⟩
        refine Nat.lt_of_le_of_lt hfewer ?_
        conv_rhs => rw [List.countP_eq_length_filter]
        refine Nat.lt_of_le_of_ne List.countP_le_length fun hall => ?_
        have hcurrent := List.countP_eq_length.mp hall current
          (List.mem_filter.mpr ⟨hstays, hlt⟩)
        rw [hstrict.irrefl] at hcurrent
        cases hcurrent
      · obtain rfl : improved = false := himproved
        rfl

/-- A set of what was seen counts what was not: each new node is one less. -/
structure Counts (P : ι → Prop) (seen : V → ι → Bool × V) (good : V → Prop) (unseen : V → ℕ) :
    Prop where
  stays : ∀ v n, good v → P n → (seen v n).1 = false → good (seen v n).2
  fewer : ∀ v n, good v → P n → (seen v n).1 = false → unseen (seen v n).2 < unseen v

/-- What a search may still explore. -/
def State.weight (unseen : V → ℕ) (state : State V ι K) : ℕ :=
  state.candidates.length + unseen state.visited

variable {P : ι → Prop} {good : V → Prop} {unseen : V → ℕ}

theorem weight_visit (hcounts : Counts P seen good unseen) {state : State V ι K}
    (hgood : good state.visited) {n : ι} (hn : P n) :
    good (visit ranking dist seen ef state n).visited ∧
      (visit ranking dist seen ef state n).weight unseen ≤ state.weight unseen := by
  unfold visit
  split
  · exact ⟨hgood, Nat.le_refl _⟩
  next visited hseen =>
    have hnew : (seen state.visited n).1 = false := congrArg Prod.fst hseen
    have hgood' := hcounts.stays _ _ hgood hn hnew
    have hfewer := hcounts.fewer _ _ hgood hn hnew
    rw [hseen] at hgood' hfewer
    split
    · refine ⟨hgood', ?_⟩
      have hpush := (BinaryHeap.perm_push ranking.closest state.candidates (n, dist n)).length_eq
      rw [List.length_cons] at hpush
      unfold State.weight
      dsimp only at *
      omega
    · refine ⟨hgood', ?_⟩
      unfold State.weight
      dsimp only at *
      omega

theorem weight_foldl_visit (hcounts : Counts P seen good unseen) {neighbours : List ι}
    (hneighbours : ∀ n ∈ neighbours, P n) {state : State V ι K} (hgood : good state.visited) :
    good (neighbours.foldl (visit ranking dist seen ef) state).visited ∧
      (neighbours.foldl (visit ranking dist seen ef) state).weight unseen ≤
        state.weight unseen := by
  induction neighbours generalizing state with
  | nil => exact ⟨hgood, Nat.le_refl _⟩
  | cons n neighbours ih =>
      obtain ⟨hn, hrest⟩ := List.forall_mem_cons.mp hneighbours
      have hvisit : good (visit ranking dist seen ef state n).visited ∧
          (visit ranking dist seen ef state n).weight unseen ≤ state.weight unseen :=
        weight_visit hcounts hgood hn
      have hrest := ih hrest hvisit.1
      exact ⟨hrest.1, Nat.le_trans hrest.2 hvisit.2⟩

theorem explore_isSome (hcounts : Counts P seen good unseen)
    (hlinks : ∀ n, P n → ∀ m ∈ links n, P m) {fuel : ℕ} {state : State V ι K}
    (hwithin : state.Within P) (hgood : good state.visited) (hfuel : state.weight unseen < fuel) :
    (explore ranking dist links seen ef fuel state).isSome = true := by
  induction fuel generalizing state with
  | zero => exact absurd hfuel (Nat.not_lt_zero _)
  | succ fuel ih =>
      unfold explore
      split
      · rfl
      next n d rest hpop =>
        obtain ⟨hn, hrest⟩ := hwithin.popped hpop
        dsimp only
        split
        · rfl
        · have hpopped := (BinaryHeap.perm_of_pop hpop).length_eq
          have hvisits : good ((links n).foldl (visit ranking dist seen ef)
                { state with candidates := rest }).visited ∧
              ((links n).foldl (visit ranking dist seen ef)
                { state with candidates := rest }).weight unseen ≤
                  ({ state with candidates := rest } : State V ι K).weight unseen :=
            weight_foldl_visit hcounts (hlinks n hn) hgood
          refine ih (hrest.foldl_visit (hlinks n hn)) hvisits.1
            (Nat.lt_of_le_of_lt hvisits.2 ?_)
          rw [List.length_cons] at hpopped
          unfold State.weight at *
          dsimp only
          omega

end Ending

/-! ## More fuel -/

theorem greedy_of_le {fuel more : ℕ} (hmore : fuel ≤ more) {start found : ι} {startDist : K}
    (hfound : greedy ranking dist links fuel start startDist = some found) :
    greedy ranking dist links more start startDist = some found := by
  induction fuel generalizing more start startDist with
  | zero => cases hfound
  | succ fuel ih =>
      obtain ⟨more, rfl⟩ := Nat.exists_eq_add_of_le' (Nat.lt_of_lt_of_le (Nat.succ_pos fuel) hmore)
      unfold greedy at hfound ⊢
      dsimp only at hfound ⊢
      split at hfound
      next himproved =>
        rw [if_pos himproved]
        exact ih (Nat.le_of_succ_le_succ hmore) hfound
      next himproved =>
        rw [if_neg himproved]
        exact hfound

theorem explore_of_le {fuel more : ℕ} (hmore : fuel ≤ more) {state final : State V ι K}
    (hfinal : explore ranking dist links seen ef fuel state = some final) :
    explore ranking dist links seen ef more state = some final := by
  induction fuel generalizing more state with
  | zero => cases hfinal
  | succ fuel ih =>
      obtain ⟨more, rfl⟩ := Nat.exists_eq_add_of_le' (Nat.lt_of_lt_of_le (Nat.succ_pos fuel) hmore)
      unfold explore at hfinal ⊢
      split at hfinal
      · exact hfinal
      next n d rest hpop =>
        dsimp only at hfinal ⊢
        split at hfinal
        next hexhausted =>
          rw [if_pos hexhausted]
          exact hfinal
        next hexhausted =>
          rw [if_neg hexhausted]
          exact ih (Nat.le_of_succ_le_succ hmore) hfinal

/-! ## What is kept -/

theorem keep_ne_nil (hef : 0 < ef) (result : List (ι × K)) (entry : ι × K) :
    keep ranking ef result entry ≠ [] := by
  have hpush := (BinaryHeap.perm_push ranking.farthest result entry).length_eq
  rw [List.length_cons] at hpush
  unfold keep
  dsimp only
  refine List.ne_nil_of_length_pos ?_
  split
  next hmany =>
    cases hpop : BinaryHeap.pop ranking.farthest (BinaryHeap.push ranking.farthest result entry) with
    | none =>
        rw [Option.map_none, Option.getD_none]
        omega
    | some popped =>
        have hpopped := (BinaryHeap.perm_of_pop hpop).length_eq
        rw [List.length_cons] at hpopped
        rw [Option.map_some, Option.getD_some]
        omega
  next => omega

/-- A search that keeps one node always keeps one. -/
theorem explore_ne_nil (hef : 0 < ef) {fuel : ℕ} {state final : State V ι K}
    (hresult : state.result ≠ [])
    (hfinal : explore ranking dist links seen ef fuel state = some final) :
    final.result ≠ [] := by
  have hvisit : ∀ (neighbours : List ι) (state : State V ι K), state.result ≠ [] →
      (neighbours.foldl (visit ranking dist seen ef) state).result ≠ [] := by
    intro neighbours
    induction neighbours with
    | nil => exact fun state hresult => hresult
    | cons n neighbours ih =>
        refine fun state hresult => ih _ ?_
        unfold visit
        split
        · exact hresult
        · split
          · exact keep_ne_nil hef _ _
          · exact hresult
  induction fuel generalizing state with
  | zero => cases hfinal
  | succ fuel ih =>
      unfold explore at hfinal
      split at hfinal
      · cases hfinal
        exact hresult
      · dsimp only at hfinal
        split at hfinal
        · cases hfinal
          exact hresult
        · refine ih ?_ hfinal
          exact hvisit _ _ hresult

/-! ## Renamed nodes -/

section Renaming

variable {rename : ι → ι'} {dist' : ι' → K} {links' : ι' → List ι'} {seen' : V' → ι' → Bool × V'}
  {P : ι → Prop} {same : V → V' → Prop}

/-- Another graph has these nodes under other names, at the same distances and with the same links;
and it has seen the same ones of them. -/
structure Renames (rename : ι → ι') (P : ι → Prop) (same : V → V' → Prop) (dist : ι → K)
    (links : ι → List ι) (seen : V → ι → Bool × V) (dist' : ι' → K) (links' : ι' → List ι')
    (seen' : V' → ι' → Bool × V') : Prop where
  dist_eq : ∀ n, P n → dist' (rename n) = dist n
  links_eq : ∀ n, P n → links' (rename n) = (links n).map rename
  stays : ∀ n, P n → ∀ m ∈ links n, P m
  seen_eq : ∀ v v' n, same v v' → P n → (seen' v' (rename n)).1 = (seen v n).1
  seen_same : ∀ v v' n, same v v' → P n → (seen v n).1 = false →
    same (seen v n).2 (seen' v' (rename n)).2

def renameEntry (rename : ι → ι') (entry : ι × K) : ι' × K :=
  (rename entry.1, entry.2)

section Hopping

variable (hrenames : Renames rename P same dist links seen dist' links' seen')

include hrenames

theorem hop_rename {best : ι × K × Bool} {n : ι} (hn : P n) :
    hop ranking dist' (rename best.1, best.2) (rename n) =
      (rename (hop ranking dist best n).1, (hop ranking dist best n).2) := by
  obtain ⟨current, currentDist, improved⟩ := best
  unfold hop
  dsimp only
  rw [hrenames.dist_eq n hn]
  split
  · rfl
  · rfl

theorem foldl_hop_rename {neighbours : List ι} (hneighbours : ∀ n ∈ neighbours, P n)
    (best : ι × K × Bool) :
    (neighbours.map rename).foldl (hop ranking dist') (rename best.1, best.2) =
      (rename (neighbours.foldl (hop ranking dist) best).1,
        (neighbours.foldl (hop ranking dist) best).2) := by
  induction neighbours generalizing best with
  | nil => rfl
  | cons n neighbours ih =>
      obtain ⟨hn, hrest⟩ := List.forall_mem_cons.mp hneighbours
      rw [List.map_cons, List.foldl_cons, hop_rename hrenames hn]
      exact ih hrest _

theorem greedy_rename (fuel : ℕ) {start : ι} (hstart : P start) (startDist : K) :
    greedy ranking dist' links' fuel (rename start) startDist =
      (greedy ranking dist links fuel start startDist).map rename := by
  induction fuel generalizing start startDist with
  | zero => rfl
  | succ fuel ih =>
      have hneighbours := hrenames.stays start hstart
      have hhops : ((links start).map rename).foldl (hop ranking dist')
            (rename start, startDist, false) =
          (rename ((links start).foldl (hop ranking dist) (start, startDist, false)).1,
            ((links start).foldl (hop ranking dist) (start, startDist, false)).2) :=
        foldl_hop_rename hrenames hneighbours (start, startDist, false)
      have hstays : P ((links start).foldl (hop ranking dist) (start, startDist, false)).1 :=
        foldl_hop_stays hneighbours hstart
      unfold greedy
      rw [hrenames.links_eq start hstart, hhops]
      dsimp only
      split
      · exact ih hstays _
      · rfl

end Hopping

/-- Two searches have come equally far. -/
structure Alike (rename : ι → ι') (same : V → V' → Prop) (state : State V ι K)
    (state' : State V' ι' K) : Prop where
  visited : same state.visited state'.visited
  candidates : state'.candidates = state.candidates.map (renameEntry rename)
  result : state'.result = state.result.map (renameEntry rename)

theorem keep_rename (ranking : Ranking K) (ef : ℕ) (rename : ι → ι') (result : List (ι × K))
    (entry : ι × K) :
    keep ranking ef (result.map (renameEntry rename)) (renameEntry rename entry) =
      (keep ranking ef result entry).map (renameEntry rename) := by
  have hpush : BinaryHeap.push ranking.farthest (result.map (renameEntry rename))
      (renameEntry rename entry) =
        (BinaryHeap.push ranking.farthest result entry).map (renameEntry rename) :=
    BinaryHeap.map_push (fun _ _ => rfl) result entry
  have hpop : ∀ entries : List (ι × K),
      BinaryHeap.pop ranking.farthest (entries.map (renameEntry rename)) =
        (BinaryHeap.pop ranking.farthest entries).map fun popped =>
          (renameEntry rename popped.1, popped.2.map (renameEntry rename)) :=
    BinaryHeap.map_pop fun _ _ => rfl
  unfold keep
  dsimp only
  rw [hpush, List.length_map, hpop]
  split
  · cases BinaryHeap.pop ranking.farthest (BinaryHeap.push ranking.farthest result entry) with
    | none => rfl
    | some popped => rfl
  · rfl

theorem worst_rename (ranking : Ranking K) (rename : ι → ι') (result : List (ι × K)) :
    worst ranking (result.map (renameEntry rename)) = worst ranking result := by
  cases result with
  | nil => rfl
  | cons entry result => rfl

theorem exhausted_rename (ranking : Ranking K) (ef : ℕ) (d : K) (rename : ι → ι')
    (result : List (ι × K)) :
    exhausted ranking ef d (result.map (renameEntry rename)) = exhausted ranking ef d result := by
  cases result with
  | nil => rfl
  | cons entry result =>
      unfold exhausted
      rw [List.length_map]
      rfl

section Searching

variable (hrenames : Renames rename P same dist links seen dist' links' seen')

include hrenames

theorem Alike.enter {state : State V ι K} {state' : State V' ι' K}
    (halike : Alike rename same state state') {n : ι} (hn : P n)
    (hnew : (seen state.visited n).1 = false) :
    Alike rename same (enter ranking dist seen state n)
      (enter ranking dist' seen' state' (rename n)) := by
  refine ⟨hrenames.seen_same _ _ n halike.visited hn hnew, ?_, ?_⟩
  · unfold BestFirst.enter
    dsimp only
    rw [halike.candidates, hrenames.dist_eq n hn]
    exact BinaryHeap.map_push (fun _ _ => rfl) state.candidates (n, dist n)
  · unfold BestFirst.enter
    dsimp only
    rw [halike.result, hrenames.dist_eq n hn]
    exact BinaryHeap.map_push (fun _ _ => rfl) state.result (n, dist n)

theorem Alike.visit {state : State V ι K} {state' : State V' ι' K}
    (halike : Alike rename same state state') {n : ι} (hn : P n) :
    Alike rename same (visit ranking dist seen ef state n)
      (visit ranking dist' seen' ef state' (rename n)) := by
  have hseen := hrenames.seen_eq _ _ n halike.visited hn
  have hsame := hrenames.seen_same _ _ n halike.visited hn
  unfold BestFirst.visit
  rcases hold : seen state.visited n with ⟨_ | _, visited⟩
  · rcases hold' : seen' state'.visited (rename n) with ⟨_ | _, visited'⟩
    · rw [hold, hold'] at hsame
      dsimp only
      rw [halike.result, worst_rename, hrenames.dist_eq n hn, List.length_map]
      split
      · refine ⟨hsame rfl, ?_, keep_rename ranking ef rename state.result (n, dist n)⟩
        dsimp only
        rw [halike.candidates]
        exact BinaryHeap.map_push (fun _ _ => rfl) state.candidates (n, dist n)
      · exact ⟨hsame rfl, halike.candidates, rfl⟩
    · rw [hold, hold'] at hseen
      cases hseen
  · rcases hold' : seen' state'.visited (rename n) with ⟨_ | _, visited'⟩
    · rw [hold, hold'] at hseen
      cases hseen
    · exact halike

theorem Alike.foldl_visit {neighbours : List ι} (hneighbours : ∀ n ∈ neighbours, P n)
    {state : State V ι K} {state' : State V' ι' K} (halike : Alike rename same state state') :
    Alike rename same (neighbours.foldl (BestFirst.visit ranking dist seen ef) state)
      ((neighbours.map rename).foldl (BestFirst.visit ranking dist' seen' ef) state') := by
  induction neighbours generalizing state state' with
  | nil => exact halike
  | cons n neighbours ih =>
      obtain ⟨hn, hrest⟩ := List.forall_mem_cons.mp hneighbours
      exact ih hrest (halike.visit hrenames hn)

theorem explore_rename (ranking : Ranking K) (ef fuel : ℕ) {state : State V ι K} {state' : State V' ι' K}
    (halike : Alike rename same state state') (hwithin : state.Within P) :
    (explore ranking dist' links' seen' ef fuel state').map State.result =
      (explore ranking dist links seen ef fuel state).map fun final =>
        final.result.map (renameEntry rename) := by
  induction fuel generalizing state state' with
  | zero => rfl
  | succ fuel ih =>
      have hpop : BinaryHeap.pop ranking.closest state'.candidates =
          (BinaryHeap.pop ranking.closest state.candidates).map fun popped =>
            (renameEntry rename popped.1, popped.2.map (renameEntry rename)) := by
        rw [halike.candidates]
        exact BinaryHeap.map_pop (fun _ _ => rfl) state.candidates
      unfold explore
      rw [hpop]
      cases hpopped : BinaryHeap.pop ranking.closest state.candidates with
      | none => exact congrArg some halike.result
      | some popped =>
          obtain ⟨⟨n, d⟩, rest⟩ := popped
          obtain ⟨hn, hrest⟩ := hwithin.popped hpopped
          dsimp only [Option.map_some, renameEntry]
          rw [halike.result, exhausted_rename]
          split
          · rfl
          · rw [hrenames.links_eq n hn]
            refine ih (Alike.foldl_visit hrenames (hrenames.stays n hn) ?_)
              (hrest.foldl_visit (hrenames.stays n hn))
            exact ⟨halike.visited, rfl, rfl⟩

end Searching

end Renaming

end BestFirst

end LoomDB
