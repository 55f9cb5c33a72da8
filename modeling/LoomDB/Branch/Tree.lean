import LoomDB.Foundations.SearchTree
import LoomDB.Foundations.StateExcept
import LoomDB.Core.Value

/-!
# The record store

A B+tree whose nodes are pages. Within one transaction every node read and
write goes through a cache of dirty nodes, and the cache is flushed at the end.
A node splits when its encoding outgrows a fraction of the page; the size is
estimated and only measured when the estimate says so.

Descents recurse along a path of pages. Each of them is given the number of
pages handed out so far, which no path of a tree exceeds; on pages that form no
tree a descent may go round for ever, and running out is `panicked`.
-/

namespace LoomDB

open Std

/-- The logical page the metadata lives at. -/
def META_PAGE : PageNo := 0

def FORMAT_VERSION : Fin (256 ^ 4) := 1

/-- `u64` addition as compiled: an overflow panics. -/
def U64.next (value : U64) : Except LoomError U64 :=
  if h : value.val + 1 < 256 ^ 8 then .ok ⟨value.val + 1, h⟩ else .error .panicked

/-- `(page_size as f64 * 0.7) as usize`. The literal is `6305039478318694` parts
of `2 ^ 53`; the product is rounded to 53 bits, ties to even, and cut. -/
def fillLimit (pageSize : ℕ) : ℕ :=
  let product := 6305039478318694 * pageSize
  let shift := Nat.log2 product + 1 - 53
  let quotient := product / 2 ^ shift
  let remainder := product % 2 ^ shift
  let up := 2 * remainder > 2 ^ shift ∨ (2 * remainder = 2 ^ shift ∧ quotient % 2 = 1)
  (if up then quotient + 1 else quotient) * 2 ^ shift / 2 ^ 53

/-! ## Pages -/

abbrev Node := TreeNode PageNo Key Record

namespace Node

def codec : Codec Node :=
  (Codec.tagged 4 2 (by decide) (fun
    | 0 => Codec.list (Codec.pair Codec.bytes Record.codec)
    | 1 => Codec.pair (Codec.list Codec.bytes) (Codec.list Codec.u64) :
      (tag : Fin 2) → Codec (match tag with
        | 0 => List (Key × Record)
        | 1 => List Key × List PageNo))).iso
    (fun
      | ⟨0, entries⟩ => .leaf entries
      | ⟨1, keys, children⟩ => .internal keys children)
    (fun
      | .leaf entries => ⟨0, entries⟩
      | .internal keys children => ⟨1, keys, children⟩)
    (by rintro (_ | _) <;> rfl)

def encode (node : Node) : Bytes :=
  codec.serialize node

def decode (bytes : Bytes) (page : PageNo) : Except LoomError Node :=
  match codec.deserialize bytes with
  | some node => .ok node
  | none => .error (.corruptNode page "tree node")

@[simp]
theorem decode_encode (node : Node) (page : PageNo) : decode node.encode page = .ok node := by
  simp [decode, encode]

end Node

/-- The metadata page. -/
structure Meta where
  formatVersion : Fin (256 ^ 4)
  root : PageNo
  nextFree : PageNo
  count : U64
  deriving DecidableEq

namespace Meta

/-- A metadata page and one empty leaf. -/
def empty : Meta :=
  { formatVersion := FORMAT_VERSION, root := 1, nextFree := 2, count := 0 }

def codec : Codec Meta :=
  (Codec.pair (Codec.uint 4) (Codec.pair Codec.u64 (Codec.pair Codec.u64 Codec.u64))).iso
    (fun ⟨formatVersion, root, nextFree, count⟩ => ⟨formatVersion, root, nextFree, count⟩)
    (fun info => (info.formatVersion, info.root, info.nextFree, info.count))
    fun _ => rfl

def encode (info : Meta) : Bytes :=
  codec.serialize info

@[simp]
theorem deserialize_encode (info : Meta) : codec.deserialize info.encode = some info := by
  simp [encode]

end Meta

/-- The pages of one commit, as the page store reads them. -/
structure Snapshot where
  readHead : PageNo → Except PagerError Bytes
  pageSize : ℕ

/-- The working context of one transaction. -/
structure Tree where
  store : Snapshot
  dirty : ExtTreeMap PageNo Node
  sizes : ExtTreeMap PageNo ℕ
  info : Meta
  metaDirty : Bool

abbrev TreeM := StateT Tree (Except LoomError)

/-! ## Keys in a node -/

/-- What one leaf entry costs, over-counted. -/
def SLACK : ℕ := 24

def entryCost (key : Key) (record : Record) : ℕ :=
  key.length + (Record.codec.serialize record).length + SLACK

/-- The child of an internal node a key belongs under: `partition_point`. -/
def childIndex (keys : List Key) (key : Key) : ℕ :=
  (keys.takeWhile (· ≤ key)).length

/-- `binary_search_by` on the keys of a leaf: where the key is, or where it
belongs. -/
def searchEntries (entries : List (Key × Record)) (key : Key) : Except ℕ ℕ :=
  let position := (entries.takeWhile (·.1 < key)).length
  match entries[position]? with
  | some entry => if entry.1 = key then .ok position else .error position
  | none => .error position

/-- The least byte string above every string that starts with the prefix. -/
def prefixUpper (start : Bytes) : Option Bytes :=
  match start.reverse.dropWhile (· = 255) with
  | [] => none
  | last :: rest => some (rest.reverse ++ [last + 1])

namespace Tree

/-- The metadata of a commit; one without a metadata page is fresh. -/
def readMeta (store : Snapshot) : Except LoomError Meta :=
  match store.readHead META_PAGE with
  | .ok page =>
      match Meta.codec.deserialize page with
      | some info => .ok info
      | none => .error (.corruptNode META_PAGE "metadata page will not decode")
  | .error (.pageNotFound _) => .ok Meta.empty
  | .error error => .error (.pager error)

/-- Open the tree of a commit. -/
def openTree (store : Snapshot) : Except LoomError Tree :=
  (readMeta store).map fun info =>
    { store := store, dirty := ∅, sizes := ∅, info := info, metaDirty := false }

/-- How many records the tree holds. -/
def len (tree : Tree) : U64 :=
  tree.info.count

/-- Read a node: from this transaction's writes first, then from the store. A
page that was never written is an empty leaf. -/
def node (page : PageNo) : TreeM Node := do
  let tree ← get
  match tree.dirty[page]? with
  | some node => return node
  | none =>
      match tree.store.readHead page with
      | .ok bytes =>
          modify fun tree => { tree with sizes := tree.sizes.insert page bytes.length }
          match Node.decode bytes page with
          | .ok node => return node
          | .error error => throw error
      | .error (.pageNotFound _) => return .leaf []
      | .error error => throw (.pager error)

/-- Take a node out of the cache; every path that takes one sets one back. -/
def takeNode (page : PageNo) : TreeM Node := do
  let tree ← get
  match tree.dirty[page]? with
  | some node =>
      modify fun tree => { tree with dirty := tree.dirty.erase page }
      return node
  | none => node page

def set (page : PageNo) (node : Node) : TreeM Unit :=
  modify fun tree =>
    { tree with sizes := tree.sizes.erase page, dirty := tree.dirty.insert page node }

def setSized (page : PageNo) (node : Node) (size : ℕ) : TreeM Unit :=
  modify fun tree =>
    { tree with sizes := tree.sizes.insert page size, dirty := tree.dirty.insert page node }

/-- Put a taken node back, without touching its size. -/
def restore (page : PageNo) (node : Node) : TreeM Unit :=
  modify fun tree => { tree with dirty := tree.dirty.insert page node }

def sizeOf (page : PageNo) (node : Node) : TreeM ℕ := do
  let tree ← get
  match tree.sizes[page]? with
  | some size => return size
  | none =>
      let size := node.encode.length
      modify fun tree => { tree with sizes := tree.sizes.insert page size }
      return size

/-- Whether a node has outgrown its page, and the estimate afterwards: the
real size, where the estimate was over the limit. -/
def overflowed (pageSize : ℕ) (node : Node) (estimate : ℕ) : Bool × ℕ :=
  if estimate ≤ fillLimit pageSize then (false, estimate)
  else (fillLimit pageSize < node.encode.length, node.encode.length)

def alloc : TreeM PageNo := do
  let tree ← get
  match tree.info.nextFree.next with
  | .error error => throw error
  | .ok next =>
      modify fun tree => { tree with info := { tree.info with nextFree := next }, metaDirty := true }
      return tree.info.nextFree

/-- One more record. -/
def countUp : TreeM Unit := do
  let tree ← get
  match tree.info.count.next with
  | .error error => throw error
  | .ok count =>
      modify fun tree => { tree with info := { tree.info with count := count }, metaDirty := true }

/-- How many pages a descent may pass. -/
def fuel : TreeM ℕ := do
  let tree ← get
  return tree.info.nextFree.val + 1

/-! ## Lookup -/

def getFrom : ℕ → PageNo → Key → TreeM (Option Record)
  | 0, _, _ => throw .panicked
  | fuel + 1, page, key => do
      match ← node page with
      | .leaf entries =>
          match searchEntries entries key with
          | .ok position => return entries[position]?.map Prod.snd
          | .error _ => return none
      | .internal keys children =>
          match children[childIndex keys key]? with
          | some child => getFrom fuel child key
          | none => throw .panicked

def get (key : Key) : TreeM (Option Record) := do
  let tree ← getThe Tree
  getFrom (← fuel) tree.info.root key

/-! ## Insertion -/

/-- Put the upper half of an overfull leaf on a page of its own. The lower half
stays where it is. -/
def splitLeaf (page : PageNo) (entries : List (Key × Record)) :
    TreeM (Option (Key × PageNo)) := do
  let tree ← getThe Tree
  let mid := entries.length / 2
  match (entries.drop mid).head? with
  | none =>
      throw (.corruptNode page
        s!"a single record does not fit in a {tree.store.pageSize}-byte page")
  | some (separator, _) =>
      let rightPage ← alloc
      let left : Node := .leaf (entries.take mid)
      let right : Node := .leaf (entries.drop mid)
      setSized page left left.encode.length
      setSized rightPage right right.encode.length
      return some (separator, rightPage)

/-- The entries of a leaf with the record in them, and the estimate grown by
what it costs. A replace grows the leaf by the difference and leaves the count
alone. -/
def updateLeaf (entries : List (Key × Record)) (key : Key) (record : Record) (size : ℕ) :
    TreeM (List (Key × Record) × ℕ) :=
  match searchEntries entries key with
  | .ok position =>
      match entries[position]? with
      | some (found, old) =>
          return (entries.set position (found, record),
            size - entryCost found old + entryCost key record)
      | none => throw .panicked
  | .error position => do
      countUp
      return (entries.insertIdx position (key, record), size + entryCost key record)

/-- Store a leaf whose size is estimated, splitting it when it has outgrown its
page. -/
def storeLeaf (page : PageNo) (entries : List (Key × Record)) (estimate : ℕ) :
    TreeM (Option (Key × PageNo)) := do
  let tree ← getThe Tree
  let (overflows, estimate) := overflowed tree.store.pageSize (.leaf entries) estimate
  if overflows then splitLeaf page entries
  else do
    setSized page (.leaf entries) estimate
    return none

def insertLeaf (page : PageNo) (entries : List (Key × Record)) (key : Key) (record : Record) :
    TreeM (Option (Key × PageNo)) := do
  let size ← sizeOf page (.leaf entries)
  let (entries, estimate) ← updateLeaf entries key record size
  storeLeaf page entries estimate

/-- Store an internal node that gained a child, pushing its middle separator up
when it has outgrown its page. -/
def storeInternal (page : PageNo) (keys : List Key) (children : List PageNo) :
    TreeM (Option (Key × PageNo)) := do
  let tree ← getThe Tree
  let whole : Node := .internal keys children
  let (overflows, estimate) := overflowed tree.store.pageSize whole whole.encode.length
  if overflows then do
    let mid := keys.length / 2
    match keys[mid]? with
    | none => throw .panicked
    | some separator =>
        let rightPage ← alloc
        set page (.internal (keys.take mid) (children.take (mid + 1)))
        set rightPage (.internal (keys.drop (mid + 1)) (children.drop (mid + 1)))
        return some (separator, rightPage)
  else do
    setSized page whole estimate
    return none

/-- `Some((separator, right_page))` if this node split. -/
def insertInto : ℕ → PageNo → Key → Record → TreeM (Option (Key × PageNo))
  | 0, _, _, _ => throw .panicked
  | fuel + 1, page, key, record => do
      match ← takeNode page with
      | .leaf entries => insertLeaf page entries key record
      | .internal keys children =>
          let index := childIndex keys key
          match children[index]? with
          | none => throw .panicked
          | some child =>
              match ← insertInto fuel child key record with
              | none => do
                  restore page (.internal keys children)
                  return none
              | some (separator, right) =>
                  storeInternal page (keys.insertIdx index separator)
                    (children.insertIdx (index + 1) right)

/-- Insert or replace. -/
def insert (key : Key) (record : Record) : TreeM Unit := do
  let tree ← getThe Tree
  let root := tree.info.root
  match ← insertInto (← fuel) root key record with
  | none => return ()
  | some (separator, right) => do
      let newRoot ← alloc
      set newRoot (.internal [separator] [root, right])
      modify fun tree => { tree with info := { tree.info with root := newRoot }, metaDirty := true }

/-! ## Removal -/

def removeFrom : ℕ → PageNo → Key → TreeM Bool
  | 0, _, _ => throw .panicked
  | fuel + 1, page, key => do
      match ← node page with
      | .leaf entries =>
          match searchEntries entries key with
          | .error _ => return false
          | .ok position => do
              set page (.leaf (entries.eraseIdx position))
              modify fun tree =>
                { tree with
                  info := { tree.info with
                    count := ⟨tree.info.count.val - 1, by omega⟩ }
                  metaDirty := true }
              return true
      | .internal keys children =>
          match children[childIndex keys key]? with
          | some child => removeFrom fuel child key
          | none => throw .panicked

def remove (key : Key) : TreeM Bool := do
  let tree ← getThe Tree
  removeFrom (← fuel) tree.info.root key

/-! ## Scans -/

def collect : ℕ → PageNo → TreeM (List (Key × Record))
  | 0, _ => throw .panicked
  | fuel + 1, page => do
      match ← node page with
      | .leaf entries => return entries
      | .internal _ children =>
          let parts ← children.mapM (collect fuel)
          return parts.flatten

/-- Every record, in key order. -/
def scan : TreeM (List (Key × Record)) := do
  let tree ← getThe Tree
  collect (← fuel) tree.info.root

/-- The separators on both sides of each child. -/
def childRanges : Option Key → List Key → List PageNo →
    List (Option Key × PageNo × Option Key)
  | _, _, [] => []
  | lower, keys, child :: children =>
      (lower, child, keys.head?) :: childRanges keys.head? keys.tail children

/-- A child may hold keys of the interval from `lo` up to `hi`. -/
def overlaps (lo : Key) (hi lower upper : Option Key) : Bool :=
  (match lower, hi with
    | some lower, some hi => lower < hi
    | _, _ => true) &&
  (match upper with
    | some upper => lo < upper
    | none => true)

def collectRange : ℕ → PageNo → Key → Option Key → TreeM (List (Key × Record))
  | 0, _, _, _ => throw .panicked
  | fuel + 1, page, lo, hi => do
      match ← node page with
      | .leaf entries =>
          return entries.filter fun entry =>
            lo ≤ entry.1 && (match hi with
              | some hi => entry.1 < hi
              | none => true)
      | .internal keys children =>
          let parts ← (childRanges none keys children).mapM fun (lower, child, upper) =>
            if overlaps lo hi lower upper then collectRange fuel child lo hi else pure []
          return parts.flatten

/-- Every record whose key starts with the prefix, in key order. -/
def scanPrefix (start : Key) : TreeM (List (Key × Record)) := do
  let tree ← getThe Tree
  collectRange (← fuel) tree.info.root start (prefixUpper start)

/-- The keys of a page that is a leaf; a page that does not read as a node has
none. -/
def keysInPage (page : PageNo) : TreeM (List Key) := fun tree =>
  match node page tree with
  | .ok (.leaf entries, tree) => .ok (entries.map Prod.fst, tree)
  | .ok (.internal _ _, tree) => .ok ([], tree)
  | .error _ => .ok ([], tree)

/-- Every key in the leaves at the given pages, sorted. -/
def keysInPages (pages : List PageNo) : TreeM (List Key) := do
  let keys ← (pages.filter (· ≠ META_PAGE)).mapM keysInPage
  return (ExtTreeSet.ofList keys.flatten compare).toList

/-- What the transaction stages: the dirty nodes in page order, and the
metadata. -/
def flush (tree : Tree) : List (PageNo × Bytes) :=
  (tree.dirty.toList.map fun (page, node) => (page, node.encode)) ++
    if tree.metaDirty then [(META_PAGE, tree.info.encode)] else []

/-- Write everything the transaction touched. -/
def flushTo (write : PageNo → Bytes → Except LoomError Unit) (tree : Tree) :
    Except LoomError Unit :=
  (flush tree).forM fun (page, bytes) => write page bytes

end Tree

end LoomDB
