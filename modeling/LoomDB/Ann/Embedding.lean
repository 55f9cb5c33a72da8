import LoomDB.Foundations.BinaryHeap
import LoomDB.Foundations.Comparison

/-!
# Embeddings

Vectors are compared by the cosine, or by the dot product if they are unit vectors. The arithmetic
of the numbers comes from outside.
-/

namespace LoomDB

/-- The operations on `f32`. -/
structure Arithmetic (K : Type) where
  zero : K
  one : K
  two : K
  negOne : K
  infinity : K
  add : K → K → K
  sub : K → K → K
  mul : K → K → K
  div : K → K → K
  sqrt : K → K
  isZero : K → Bool
  lt : K → K → Bool
  partialCmp : K → K → Option Ordering

abbrev Embedding (K : Type) := List K

variable {α K : Type} (arithmetic : Arithmetic K)

namespace Arithmetic

def sum (values : List K) : K :=
  values.foldl arithmetic.add arithmetic.zero

/-- What does not compare is equal. -/
def compare (left right : K) : Ordering :=
  (arithmetic.partialCmp left right).getD .eq

/-- The order of the entries to explore: the closest is the greatest. -/
def closest (entry other : α × K) : Bool :=
  (arithmetic.compare other.2 entry.2).isLE

/-- The order of the entries that are kept: the farthest is the greatest. -/
def farthest (entry other : α × K) : Bool :=
  (arithmetic.compare entry.2 other.2).isLE

/-- Best first. -/
def sortByDistance (found : List (α × K)) : List (α × K) :=
  Comparison.insertionSort (fun entry other => arithmetic.compare entry.2 other.2) found

/-- By similarity, the greatest first. -/
def sortBySimilarity (found : List (α × K)) : List (α × K) :=
  Comparison.insertionSort (fun entry other => arithmetic.compare other.2 entry.2) found

end Arithmetic

namespace Embedding

/-- None if the two cannot be compared. -/
def cosine (left right : Embedding K) : Option K :=
  if left.length ≠ right.length ∨ left = [] then none
  else
    let dot := arithmetic.sum (List.zipWith arithmetic.mul left right)
    let na := arithmetic.sum (left.map fun a => arithmetic.mul a a)
    let nb := arithmetic.sum (right.map fun b => arithmetic.mul b b)
    if arithmetic.isZero na || arithmetic.isZero nb then none
    else some (arithmetic.div dot (arithmetic.mul (arithmetic.sqrt na) (arithmetic.sqrt nb)))

def dot (left right : Embedding K) : Option K :=
  if left.length ≠ right.length ∨ left = [] then none
  else some (arithmetic.sum (List.zipWith arithmetic.mul left right))

/-- A copy of length one; none if the vector has no direction. -/
def normalized (vector : Embedding K) : Option (Embedding K) :=
  if vector = [] then none
  else
    let normSq := arithmetic.sum (vector.map fun x => arithmetic.mul x x)
    if arithmetic.isZero normSq then none
    else
      let inv := arithmetic.div arithmetic.one (arithmetic.sqrt normSq)
      some (vector.map fun x => arithmetic.mul x inv)

end Embedding

end LoomDB
