import LoomDB.Branch.NodeSizes
import LoomDB.Branch.TreeSpec
import Mathlib.Algebra.Order.BigOperators.Group.List

/-!
# What an insertion does to the nodes it passes

The nodes between the root and the leaf of a key, and what becomes of each of them: kept, grown by an
entry or a separator, or cut in two when it has outgrown the fill limit. The cut is made at the
middle of the entries, whatever their sizes. The running size estimate is never seen: it is at least
the size of the leaf wherever it decides that a leaf fits.
-/

namespace LoomDB

open Codec (encodeLength lengthEscape)
open SearchTree

/-- The smallest page of a page store. -/
def MIN_PAGE_SIZE : ℕ := 4096

theorem fillLimit_le (pageSize : ℕ) : 4 * fillLimit pageSize ≤ 3 * pageSize := by
  unfold fillLimit
  dsimp only
  generalize hproduct : 6305039478318694 * pageSize = product
  generalize hshift : Nat.log2 product + 1 - 53 = shift
  have hquotient : product / 2 ^ shift * 2 ^ shift ≤ product := Nat.div_mul_le_self _ _
  -- Rounding up adds at most one unit in the last of fifty-three places.
  have hrounded : (if 2 * (product % 2 ^ shift) > 2 ^ shift ∨
      (2 * (product % 2 ^ shift) = 2 ^ shift ∧ product / 2 ^ shift % 2 = 1) then
        product / 2 ^ shift + 1 else product / 2 ^ shift) * 2 ^ shift * 2 ^ 52 ≤
      product * 2 ^ 52 + product := by
    split
    next hup =>
      have hpos : shift ≠ 0 := by
        rintro rfl
        simp [Nat.mod_one] at hup
      have hne : product ≠ 0 := by
        rintro rfl
        simp at hup
      have hunit : 2 ^ shift * 2 ^ 52 ≤ product := by
        rw [← Nat.pow_add]
        calc 2 ^ (shift + 52) = 2 ^ Nat.log2 product := by
              congr 1
              omega
          _ ≤ product := Nat.log2_self_le hne
      calc (product / 2 ^ shift + 1) * 2 ^ shift * 2 ^ 52
          = product / 2 ^ shift * 2 ^ shift * 2 ^ 52 + 2 ^ shift * 2 ^ 52 := by ring
        _ ≤ product * 2 ^ 52 + product :=
            Nat.add_le_add (Nat.mul_le_mul_right _ hquotient) hunit
    next => exact (Nat.mul_le_mul_right _ hquotient).trans (Nat.le_add_right _ _)
  omega

theorem fillLimit_le_pageSize (pageSize : ℕ) : fillLimit pageSize ≤ pageSize := by
  have hlimit := fillLimit_le pageSize
  omega

namespace Node

/-! ## One node -/

/-- The key between the two halves of a node. -/
def separator : Node → Option Key
  | .leaf entries => (entries.drop (entries.length / 2)).head?.map Prod.fst
  | .internal keys _ => keys[keys.length / 2]?

/-- A node cut in two by its number of entries. -/
def halves : Node → List Node
  | .leaf entries =>
      [.leaf (entries.take (entries.length / 2)), .leaf (entries.drop (entries.length / 2))]
  | .internal keys children =>
      [.internal (keys.take (keys.length / 2)) (children.take (keys.length / 2 + 1)),
        .internal (keys.drop (keys.length / 2 + 1)) (children.drop (keys.length / 2 + 1))]

/-- The node with what an insertion puts into it: the entry, or the separator that a child hands up
and a page of no account for the upper half of that child. -/
def grow (key : Key) (record : Record) : Node → Option Key → Option Node
  | .leaf entries, _ => some (.leaf (insertEntry key record entries))
  | .internal keys children, some separator =>
      some (.internal (keys.insertIdx (childIndex keys key) separator)
        (children.insertIdx (childIndex keys key + 1) META_PAGE))
  | .internal _ _, none => none

/-- The two nodes differ in the pages of their children only. -/
def Renumbered : Node → Node → Prop
  | .leaf entries, .leaf entries' => entries = entries'
  | .internal keys children, .internal keys' children' =>
      keys = keys' ∧ children.length = children'.length
  | _, _ => False

namespace Renumbered

theorem refl (node : Node) : Renumbered node node := by
  cases node with
  | leaf entries => exact rfl
  | internal keys children => exact ⟨rfl, rfl⟩

theorem length_encode {node node' : Node} (hnodes : Renumbered node node') :
    node'.encode.length = node.encode.length := by
  cases node with
  | leaf entries =>
      cases node' with
      | leaf entries' => rw [show entries = entries' from hnodes]
      | internal keys children => exact hnodes.elim
  | internal keys children =>
      cases node' with
      | leaf entries => exact hnodes.elim
      | internal keys' children' =>
          obtain ⟨rfl, hlength⟩ := hnodes
          rw [length_encode_internal, length_encode_internal, hlength]

end Renumbered

end Node

/-- What an insertion leaves in a leaf was there, or is the entry. -/
theorem eq_or_mem_of_mem_insertEntry {key : Key} {record : Record} {entry : Key × Record}
    {entries : List (Key × Record)} (hentry : entry ∈ insertEntry key record entries) :
    entry = (key, record) ∨ entry ∈ entries := by
  induction entries with
  | nil => exact Or.inl (List.mem_singleton.mp hentry)
  | cons first entries ih =>
      unfold insertEntry at hentry
      split at hentry
      · rcases List.mem_cons.mp hentry with rfl | hentry
        · exact Or.inr List.mem_cons_self
        · exact (ih hentry).imp_right (List.mem_cons_of_mem _)
      · split at hentry
        · exact (List.mem_cons.mp hentry).imp_right (List.mem_cons_of_mem _)
        · exact List.mem_cons.mp hentry

/-! ## What becomes of the nodes on the way down -/

/-- What becomes of a node. -/
inductive Fate where
  | kept (node : Node)
  | grown (node : Node)
  | cut (node : Node)

/-- What is stored in its place. -/
def Fate.nodes : Fate → List Node
  | .kept node => [node]
  | .grown node => [node]
  | .cut node => node.halves

/-- The halves, where the node is cut. -/
def Fate.halves : Fate → List Node
  | .cut node => node.halves
  | _ => []

/-- What becomes of the nodes on the way down, and the separator that the topmost hands up. -/
def fates (limit : ℕ) (key : Key) (record : Record) : List Node → List Fate × Option Key
  | [] => ([], none)
  | node :: below =>
      let above := fates limit key record below
      match node.grow key record above.2 with
      | none => (.kept node :: above.1, none)
      | some whole =>
          if limit < whole.encode.length then (.cut whole :: above.1, whole.separator)
          else (.grown whole :: above.1, none)

namespace Tree

/-- What an insertion would do to the nodes it passes. -/
def fatesOf (key : Key) (record : Record) (tree : Tree) : List Fate :=
  (fates (fillLimit tree.store.pageSize) key record ((tree.passedBy key).map Prod.snd)).1

end Tree

/-- Nodes that were as they should be are so again, if those within the limit and the halves of those
over it are. -/
theorem fates_rule (rule : Node → Prop) {limit : ℕ} {key : Key} {record : Record}
    {nodes : List Node} (hsmall : ∀ node : Node, node.encode.length ≤ limit → rule node)
    (hnodes : ∀ node ∈ nodes, rule node)
    (hhalves : ∀ fate ∈ (fates limit key record nodes).1, ∀ half ∈ fate.halves, rule half) :
    ∀ fate ∈ (fates limit key record nodes).1, ∀ node ∈ fate.nodes, rule node := by
  induction nodes with
  | nil => simp [fates]
  | cons first below ih =>
      obtain ⟨hfirst, hbelow⟩ := List.forall_mem_cons.mp hnodes
      simp only [fates] at hhalves ⊢
      cases hgrow : first.grow key record (fates limit key record below).2 with
      | none =>
          simp only [hgrow, List.forall_mem_cons] at hhalves ⊢
          exact ⟨by simpa [Fate.nodes] using hfirst, ih hbelow hhalves.2⟩
      | some whole =>
          simp only [hgrow] at hhalves ⊢
          split at hhalves
          next hlarge =>
            rw [if_pos hlarge]
            obtain ⟨hcut, hrest⟩ := List.forall_mem_cons.mp hhalves
            exact List.forall_mem_cons.mpr ⟨hcut, ih hbelow hrest⟩
          next hfits =>
            rw [if_neg hfits]
            obtain ⟨-, hrest⟩ := List.forall_mem_cons.mp hhalves
            refine List.forall_mem_cons.mpr ⟨?_, ih hbelow hrest⟩
            simpa [Fate.nodes] using hsmall whole (not_lt.mp hfits)

/-! ## Size estimates -/

theorem entrySize_add_le (entry : Key × Record) (hkey : entry.1.length < lengthEscape) :
    entrySize entry + 16 = entryCost entry.1 entry.2 := by
  unfold entrySize entryCost keySize
  rw [Codec.length_encodeLength hkey, SLACK]
  omega

theorem le_sum_entrySize (entries : List (Key × Record)) :
    8 * entries.length ≤ (entries.map entrySize).sum := by
  induction entries with
  | nil => exact le_rfl
  | cons entry entries ih =>
      have hentry : 8 ≤ entrySize entry :=
        (le_length_encodeLength _).trans (Nat.le_add_right _ _ |>.trans (Nat.le_add_right _ _))
      rw [List.map_cons, List.sum_cons, List.length_cons]
      omega

/-- A leaf that is not too long to be counted. -/
theorem length_encode_leaf_of_lt {entries : List (Key × Record)}
    (hentries : entries.length < lengthEscape) :
    (Node.encode (.leaf entries)).length = 12 + (entries.map entrySize).sum := by
  rw [Node.length_encode_leaf, Codec.length_encodeLength hentries]

theorem le_length_encode_leaf (entries : List (Key × Record)) :
    12 + (entries.map entrySize).sum ≤ (Node.encode (.leaf entries)).length := by
  rw [Node.length_encode_leaf]
  have hlength := le_length_encodeLength entries.length
  omega

theorem length_encodeLength_mono {count more : ℕ} (hle : count ≤ more) :
    (encodeLength count).length ≤ (encodeLength more).length := by
  by_cases hmore : more < lengthEscape
  · rw [Codec.length_encodeLength hmore, Codec.length_encodeLength (hle.trans_lt hmore)]
  · by_cases hcount : count < lengthEscape
    · rw [Codec.length_encodeLength hcount]
      exact le_length_encodeLength more
    · simp only [encodeLength, if_neg hmore, if_neg hcount, List.length_append,
        List.length_replicate]
      omega

/-- A leaf without some of its entries is no longer. -/
theorem length_encode_leaf_mono {entries more : List (Key × Record)}
    (hsublist : entries.Sublist more) :
    (Node.encode (.leaf entries)).length ≤ (Node.encode (.leaf more)).length := by
  have hcount := length_encodeLength_mono hsublist.length_le
  have hsum : (entries.map entrySize).sum ≤ (more.map entrySize).sum :=
    List.Sublist.sum_le_sum (hsublist.map entrySize) fun _ _ => Nat.zero_le _
  rw [Node.length_encode_leaf, Node.length_encode_leaf]
  omega

namespace Tree

/-- An entry is charged for more than it takes. -/
theorem updateLeaf_estimate {entries updated : List (Key × Record)} {key : Key} {record : Record}
    {size estimate : ℕ} {tree tree' : Tree}
    (hupdate : updateLeaf entries key record size tree = .ok ((updated, estimate), tree'))
    (hsize : (Node.encode (.leaf entries)).length ≤ size) (hestimate : estimate < lengthEscape) :
    (Node.encode (.leaf updated)).length ≤ estimate := by
  have hreal := le_length_encode_leaf entries
  unfold updateLeaf at hupdate
  cases hsearch : searchEntries entries key with
  | ok position =>
      cases hget : entries[position]? with
      | none => simp [hsearch, hget] at hupdate
      | some entry =>
          obtain ⟨found, old⟩ := entry
          simp only [hsearch, hget, StateExcept.pure_eq_ok, Prod.mk.injEq] at hupdate
          obtain ⟨⟨rfl, rfl⟩, -⟩ := hupdate
          have hupdated : found = key ∧ entries.set position (found, record) =
              insertEntry key record entries := set_searchEntries hsearch hget
          obtain ⟨rfl, -⟩ := hupdated
          obtain ⟨hposition, hentry⟩ := List.getElem?_eq_some_iff.mp hget
          have hsplit : ∃ left right, entries = left ++ entries[position] :: right ∧
              left.length = position ∧
              entries.set position (found, record) = left ++ (found, record) :: right :=
            List.exists_of_set hposition
          obtain ⟨left, right, hentries, -, hset⟩ := hsplit
          have hcost : found.length ≤ entryCost found record := by
            unfold entryCost
            omega
          have hshort : found.length < lengthEscape := by omega
          have hold : entrySize (found, old) + 16 = entryCost found old :=
            entrySize_add_le _ hshort
          have hnew : entrySize (found, record) + 16 = entryCost found record :=
            entrySize_add_le _ hshort
          rw [hentry] at hentries
          rw [hset]
          clear hset hget hsearch hposition hentry
          subst hentries
          simp only [List.map_append, List.map_cons, List.sum_append, List.sum_cons] at hreal
          have hleft := le_sum_entrySize left
          have hright := le_sum_entrySize right
          have hlength : (left ++ (found, record) :: right).length < lengthEscape := by
            simp only [List.length_append, List.length_cons]
            omega
          rw [length_encode_leaf_of_lt hlength]
          simp only [List.map_append, List.map_cons, List.sum_append, List.sum_cons]
          omega
  | error position =>
      simp only [hsearch, StateExcept.bind_eq_ok, StateExcept.pure_eq_ok,
        Prod.mk.injEq] at hupdate
      obtain ⟨_, counted, -, ⟨rfl, rfl⟩, -⟩ := hupdate
      have hperm : (entries.insertIdx position (key, record)).Perm ((key, record) :: entries) :=
        List.perm_insertIdx _ _ (searchEntries_le hsearch)
      have hcost : key.length ≤ entryCost key record := by
        unfold entryCost
        omega
      have hshort : key.length < lengthEscape := by omega
      have hnew : entrySize (key, record) + 16 = entryCost key record :=
        entrySize_add_le _ hshort
      have hcount := le_sum_entrySize entries
      have hlength : (entries.insertIdx position (key, record)).length < lengthEscape := by
        rw [hperm.length_eq, List.length_cons]
        omega
      rw [length_encode_leaf_of_lt hlength, (hperm.map entrySize).sum_eq, List.map_cons,
        List.sum_cons]
      omega

end Tree

end LoomDB
