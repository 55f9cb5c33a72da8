import Mathlib.Data.List.Basic
import Mathlib.Logic.Relation

/-!
# Graphs in layers

The nodes of a layered graph have a list of links for each layer, and one node is the entry. What
can be found is what the links of the lowest layer reach from the entry.

A node is relinked: its own links are replaced, and every other list gains at most a link to it, or
loses some if it was full. Then whatever the links reached without passing the node they still
reach; and what they reach afterwards was linked, in some layer, without passing it.
-/

namespace LoomDB

structure LayeredGraph (ι : Type*) where
  entry : Option ι
  links : ℕ → ι → List ι

namespace LayeredGraph

variable {ι : Type*} (graph : LayeredGraph ι)

/-- The lowest layer leads from the entry to a node. -/
def Reaches (goal : ι) : Prop :=
  ∃ start, graph.entry = some start ∧
    Relation.ReflTransGen (fun a b => b ∈ graph.links 0 a) start goal

/-- The lowest layer leads from the entry to a node, and not through another one. -/
def ReachesAround (avoided goal : ι) : Prop :=
  ∃ start, graph.entry = some start ∧
    Relation.ReflTransGen (fun a b => a ≠ avoided ∧ b ∈ graph.links 0 a) start goal

/-- Some layers lead from the entry to a node, and not through another one. -/
def LinkedAround (avoided goal : ι) : Prop :=
  ∃ start, graph.entry = some start ∧
    Relation.ReflTransGen (fun a b => a ≠ avoided ∧ ∃ layer, b ∈ graph.links layer a) start goal

/-- A node is reached after a change, where the links that a full list has lost still count. -/
def StillReaches (full : ℕ) (changed : ι) (after : LayeredGraph ι) (goal : ι) : Prop :=
  ∃ start, after.entry = some start ∧
    Relation.ReflTransGen (fun a b => b ∈ after.links 0 a ∨
      a ≠ changed ∧ full ≤ (graph.links 0 a).length ∧ b ∈ graph.links 0 a) start goal

/-- A change of one node keeps every other one in reach. -/
def KeepsReach (full : ℕ) (changed : ι) (after : LayeredGraph ι) : Prop :=
  ∀ goal, goal ≠ changed → graph.Reaches goal → graph.StillReaches full changed after goal

/-- No other node is reached through this one alone. -/
def Bypasses (node : ι) : Prop :=
  ∀ goal, goal ≠ node → graph.Reaches goal → graph.ReachesAround node goal

/-- No other node that is reached is linked through this one alone. -/
def LinksPast (node : ι) : Prop :=
  ∀ goal, goal ≠ node → graph.Reaches goal → graph.LinkedAround node goal

variable {graph}

theorem ReachesAround.linkedAround {avoided goal : ι} (hreaches : graph.ReachesAround avoided goal) :
    graph.LinkedAround avoided goal := by
  obtain ⟨start, hentry, hpath⟩ := hreaches
  exact ⟨start, hentry, Relation.ReflTransGen.mono (fun _ _ hlink => ⟨hlink.1, 0, hlink.2⟩) _ _ hpath⟩

theorem LinkedAround.step {avoided node next : ι} (hlinked : graph.LinkedAround avoided node)
    (hnode : node ≠ avoided) {layer : ℕ} (hnext : next ∈ graph.links layer node) :
    graph.LinkedAround avoided next := by
  obtain ⟨start, hentry, hpath⟩ := hlinked
  exact ⟨start, hentry, hpath.tail ⟨hnode, layer, hnext⟩⟩

theorem linkedAround_entry (avoided : ι) {start : ι} (hentry : graph.entry = some start) :
    graph.LinkedAround avoided start :=
  ⟨start, hentry, .refl⟩

/-- Nothing but the entry itself is linked around the entry. -/
theorem LinkedAround.eq_of_entry {node goal : ι} (hlinked : graph.LinkedAround node goal)
    (hentry : graph.entry = some node) : goal = node := by
  obtain ⟨start, hstart, hpath⟩ := hlinked
  obtain rfl := Option.some.inj (hstart.symm.trans hentry)
  induction hpath with
  | refl => rfl
  | tail _ hlink ih => exact absurd ih hlink.1

/-- A list that a node may have once another node was relinked. -/
structure Admits (full : ℕ) (node : ι) (before : LayeredGraph ι) (layer : ℕ) (a : ι)
    (list : List ι) : Prop where
  gains : a ≠ node → ∀ b ∈ list, b = node ∨ b ∈ before.links layer a
  keeps : a ≠ node → layer = 0 → (before.links 0 a).length < full →
    list = before.links 0 a ∨ list = before.links 0 a ++ [node]
  own : a = node → ∀ b ∈ list, b = node ∨ before.LinkedAround node b

/-- One node is relinked: the entry stays, and every list is one that it may be. -/
structure Relinks (full : ℕ) (node : ι) (before after : LayeredGraph ι) : Prop where
  entry : after.entry = before.entry
  lists : ∀ layer a, Admits full node before layer a (after.links layer a)

namespace Relinks

variable {full : ℕ} {node : ι} {before after : LayeredGraph ι}

/-- The links do not leave what is linked around the node, and the node itself. -/
theorem links_stay (hrelinks : Relinks full node before after) (layer : ℕ) {a : ι}
    (ha : a = node ∨ before.LinkedAround node a) :
    ∀ b ∈ after.links layer a, b = node ∨ before.LinkedAround node b := by
  intro b hb
  by_cases hnode : a = node
  · exact (hrelinks.lists layer a).own hnode b hb
  · have haround := ha.resolve_left hnode
    exact ((hrelinks.lists layer a).gains hnode b hb).imp_right (haround.step hnode)

/-- The links to one node are forgotten. -/
theorem cleared (hentry : after.entry = before.entry)
    (hown : ∀ layer, after.links layer node = [])
    (hothers : ∀ layer a, a ≠ node → after.links layer a = before.links layer a) :
    Relinks full node before after := by
  refine ⟨hentry, fun layer a => ⟨fun ha b hb => ?_, fun ha hlayer _ => ?_, fun ha b hb => ?_⟩⟩
  · exact Or.inr (hothers layer a ha ▸ hb)
  · exact Or.inl (hlayer ▸ hothers layer a ha)
  · rw [ha, hown layer] at hb
    exact absurd hb List.not_mem_nil

/-- Some lists are replaced by ones that they may be. -/
theorem replace (hrelinks : Relinks full node before after) {changed : LayeredGraph ι}
    (hentry : changed.entry = after.entry)
    (hlists : ∀ layer a, changed.links layer a = after.links layer a ∨
      Admits full node before layer a (changed.links layer a)) :
    Relinks full node before changed := by
  refine ⟨hentry.trans hrelinks.entry, fun layer a => ?_⟩
  rcases hlists layer a with hsame | hadmits
  · exact hsame ▸ hrelinks.lists layer a
  · exact hadmits

/-- A list that does not link to the node yet may gain a link to it. -/
theorem admits_append (hrelinks : Relinks full node before after) {layer : ℕ} {a : ι}
    (hnew : node ∉ after.links layer a) :
    Admits full node before layer a (after.links layer a ++ [node]) := by
  have hlist := hrelinks.lists layer a
  refine ⟨fun ha b hb => ?_, fun ha hlayer hroom => ?_, fun ha b hb => ?_⟩
  · rcases List.mem_append.mp hb with hb | hb
    · exact hlist.gains ha b hb
    · exact Or.inl (List.mem_singleton.mp hb)
  · rcases hlist.keeps ha hlayer hroom with hsame | hgained
    · exact Or.inr (congrArg (· ++ [node]) hsame)
    · exact absurd (hgained ▸ List.mem_append_right _ (List.mem_singleton.mpr rfl)) hnew
  · rcases List.mem_append.mp hb with hb | hb
    · exact hlist.own ha b hb
    · exact Or.inl (List.mem_singleton.mp hb)

/-- And if it was full before it may lose any of its links. -/
theorem admits_pruned (hrelinks : Relinks full node before after) {layer : ℕ} {a : ι}
    (hnew : node ∉ after.links layer a)
    (hfull : layer = 0 → full < (after.links layer a ++ [node]).length) {list : List ι}
    (hlist : list ⊆ after.links layer a ++ [node]) :
    Admits full node before layer a list := by
  have happend := hrelinks.admits_append hnew
  refine ⟨fun ha b hb => happend.gains ha b (hlist hb), fun ha hlayer hroom => ?_,
    fun ha b hb => happend.own ha b (hlist hb)⟩
  have hlonger := hfull hlayer
  rcases happend.keeps ha hlayer hroom with hsame | hgained
  · rw [hsame] at hlonger
    omega
  · rw [hgained, List.length_append, List.length_singleton] at hlonger
    omega

/-- The new links of the node lead to what is linked around it. -/
theorem admits_own (layer : ℕ) {list : List ι}
    (hlist : ∀ b ∈ list, b = node ∨ before.LinkedAround node b) :
    Admits full node before layer node list :=
  ⟨fun hne => absurd rfl hne, fun hne => absurd rfl hne, fun _ => hlist⟩

theorem keepsReach (hrelinks : Relinks full node before after) (hbypasses : before.Bypasses node) :
    before.KeepsReach full node after := by
  intro goal hgoal hreaches
  obtain ⟨start, hentry, hpath⟩ := hbypasses goal hgoal hreaches
  refine ⟨start, hrelinks.entry.trans hentry, Relation.ReflTransGen.mono ?_ _ _ hpath⟩
  rintro a b ⟨ha, hb⟩
  by_cases hfull : (before.links 0 a).length < full
  · rcases (hrelinks.lists 0 a).keeps ha rfl hfull with hsame | hgained
    · exact Or.inl (hsame ▸ hb)
    · exact Or.inl (hgained ▸ List.mem_append_left _ hb)
  · exact Or.inr ⟨ha, Nat.le_of_not_lt hfull, hb⟩

theorem linksPast (hrelinks : Relinks full node before after)
    (hkeeps : before.KeepsReach full node after) : before.LinksPast node := by
  intro goal hgoal hreaches
  obtain ⟨start, hentry, hpath⟩ := hkeeps goal hgoal hreaches
  have hbefore : before.entry = some start := hrelinks.entry.symm.trans hentry
  have hlinked : goal = node ∨ before.LinkedAround node goal := by
    clear hgoal hreaches
    induction hpath with
    | refl => exact Or.inr (linkedAround_entry node hbefore)
    | @tail a b _ hlink ih =>
        rcases hlink with hlink | ⟨ha, -, hlink⟩
        · exact hrelinks.links_stay 0 ih b hlink
        · exact Or.inr ((ih.resolve_left ha).step ha hlink)
  exact hlinked.resolve_left hgoal

end Relinks

/-- What changes nothing keeps everything in reach. -/
theorem keepsReach_self (full : ℕ) (node : ι) (graph : LayeredGraph ι) :
    graph.KeepsReach full node graph := by
  rintro goal - ⟨start, hentry, hpath⟩
  exact ⟨start, hentry, Relation.ReflTransGen.mono (fun _ _ => Or.inl) _ _ hpath⟩

/-- An entry without links keeps nothing in reach. -/
theorem not_keepsReach_of_entry {after : LayeredGraph ι} {node goal : ι} {full : ℕ}
    (hentry : graph.entry = some node) (hgoal : goal ∈ graph.links 0 node) (hother : goal ≠ node)
    (hafter : after.entry = some node) (hlinks : after.links 0 node = []) :
    ¬ graph.KeepsReach full node after := by
  intro hkeeps
  obtain ⟨start, hstart, hpath⟩ := hkeeps goal hother ⟨node, hentry, .single hgoal⟩
  obtain rfl := Option.some.inj (hstart.symm.trans hafter)
  rcases Relation.ReflTransGen.cases_head hpath with heq | ⟨next, hnext | ⟨hself, -⟩, -⟩
  · exact hother heq.symm
  · rw [hlinks] at hnext
    exact absurd hnext List.not_mem_nil
  · exact hself rfl

/-- Past the entry the layers above lead nowhere either. -/
theorem linksPast_iff_of_entry {node : ι} (hentry : graph.entry = some node) :
    graph.LinksPast node ↔ graph.Bypasses node := by
  constructor
  · intro hpast goal hgoal hreaches
    exact absurd ((hpast goal hgoal hreaches).eq_of_entry hentry) hgoal
  · exact fun hbypasses goal hgoal hreaches => (hbypasses goal hgoal hreaches).linkedAround

end LayeredGraph

end LoomDB
