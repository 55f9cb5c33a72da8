import LoomDB.Branch.TreeReads
import LoomDB.Foundations.FallibleState

/-!
# Insertions that fail

A caller of `insert` still holds the tree when the call returns an error. The insertion of
`Branch.Tree`, which is the same up to what becomes of the tree then, is repeated here with the
tree it leaves: the nodes on the way down are taken out of the cache, and are put back only on the
way up.
-/

namespace LoomDB

open FallibleState (forget)

abbrev LiveTreeM := ExceptT LoomError (StateM Tree)

namespace LiveTree

def node (page : PageNo) : LiveTreeM Node := do
  let tree ← get
  match tree.dirty[page]? with
  | some node => return node
  | none =>
      match tree.store.readHead page with
      | .ok bytes =>
          modify fun tree => { tree with sizes := tree.sizes.insert page bytes.length }
          match Node.decode bytes page with
          | .ok node => return node
          | .error error => throw error
      | .error (.pageNotFound _) => return .leaf []
      | .error error => throw (.pager error)

def takeNode (page : PageNo) : LiveTreeM Node := do
  let tree ← get
  match tree.dirty[page]? with
  | some node =>
      modify fun tree => { tree with dirty := tree.dirty.erase page }
      return node
  | none => node page

def set (page : PageNo) (node : Node) : LiveTreeM Unit :=
  modify fun tree =>
    { tree with sizes := tree.sizes.erase page, dirty := tree.dirty.insert page node }

def setSized (page : PageNo) (node : Node) (size : ℕ) : LiveTreeM Unit :=
  modify fun tree =>
    { tree with sizes := tree.sizes.insert page size, dirty := tree.dirty.insert page node }

def restore (page : PageNo) (node : Node) : LiveTreeM Unit :=
  modify fun tree => { tree with dirty := tree.dirty.insert page node }

def sizeOf (page : PageNo) (node : Node) : LiveTreeM ℕ := do
  let tree ← get
  match tree.sizes[page]? with
  | some size => return size
  | none =>
      let size := node.encode.length
      modify fun tree => { tree with sizes := tree.sizes.insert page size }
      return size

def alloc : LiveTreeM PageNo := do
  let tree ← get
  match tree.info.nextFree.next with
  | .error error => throw error
  | .ok next =>
      modify fun tree => { tree with info := { tree.info with nextFree := next }, metaDirty := true }
      return tree.info.nextFree

def countUp : LiveTreeM Unit := do
  let tree ← get
  match tree.info.count.next with
  | .error error => throw error
  | .ok count =>
      modify fun tree => { tree with info := { tree.info with count := count }, metaDirty := true }

def fuel : LiveTreeM ℕ := do
  let tree ← get
  return tree.info.nextFree.val + 1

def splitLeaf (page : PageNo) (entries : List (Key × Record)) :
    LiveTreeM (Option (Key × PageNo)) := do
  let tree ← get
  let mid := entries.length / 2
  match (entries.drop mid).head? with
  | none =>
      throw (.corruptNode page
        s!"a single record does not fit in a {tree.store.pageSize}-byte page")
  | some (separator, _) =>
      let rightPage ← alloc
      let left : Node := .leaf (entries.take mid)
      let right : Node := .leaf (entries.drop mid)
      setSized page left left.encode.length
      setSized rightPage right right.encode.length
      return some (separator, rightPage)

def updateLeaf (entries : List (Key × Record)) (key : Key) (record : Record) (size : ℕ) :
    LiveTreeM (List (Key × Record) × ℕ) :=
  match searchEntries entries key with
  | .ok position =>
      match entries[position]? with
      | some (found, old) =>
          return (entries.set position (found, record),
            size - entryCost found old + entryCost key record)
      | none => throw .panicked
  | .error position => do
      countUp
      return (entries.insertIdx position (key, record), size + entryCost key record)

def storeLeaf (page : PageNo) (entries : List (Key × Record)) (estimate : ℕ) :
    LiveTreeM (Option (Key × PageNo)) := do
  let tree ← get
  let (overflows, estimate) := Tree.overflowed tree.store.pageSize (.leaf entries) estimate
  if overflows then splitLeaf page entries
  else do
    setSized page (.leaf entries) estimate
    return none

def insertLeaf (page : PageNo) (entries : List (Key × Record)) (key : Key) (record : Record) :
    LiveTreeM (Option (Key × PageNo)) := do
  let size ← sizeOf page (.leaf entries)
  let (entries, estimate) ← updateLeaf entries key record size
  storeLeaf page entries estimate

def storeInternal (page : PageNo) (keys : List Key) (children : List PageNo) :
    LiveTreeM (Option (Key × PageNo)) := do
  let tree ← get
  let whole : Node := .internal keys children
  let (overflows, estimate) := Tree.overflowed tree.store.pageSize whole whole.encode.length
  if overflows then do
    let mid := keys.length / 2
    match keys[mid]? with
    | none => throw .panicked
    | some separator =>
        let rightPage ← alloc
        set page (.internal (keys.take mid) (children.take (mid + 1)))
        set rightPage (.internal (keys.drop (mid + 1)) (children.drop (mid + 1)))
        return some (separator, rightPage)
  else do
    setSized page whole estimate
    return none

def insertInto : ℕ → PageNo → Key → Record → LiveTreeM (Option (Key × PageNo))
  | 0, _, _, _ => throw .panicked
  | fuel + 1, page, key, record => do
      match ← takeNode page with
      | .leaf entries => insertLeaf page entries key record
      | .internal keys children =>
          let index := childIndex keys key
          match children[index]? with
          | none => throw .panicked
          | some child =>
              match ← insertInto fuel child key record with
              | none => do
                  restore page (.internal keys children)
                  return none
              | some (separator, right) =>
                  storeInternal page (keys.insertIdx index separator)
                    (children.insertIdx (index + 1) right)

def insert (key : Key) (record : Record) : LiveTreeM Unit := do
  let tree ← get
  let root := tree.info.root
  match ← insertInto (← fuel) root key record with
  | none => return ()
  | some (separator, right) => do
      let newRoot ← alloc
      set newRoot (.internal [separator] [root, right])
      modify fun tree => { tree with info := { tree.info with root := newRoot }, metaDirty := true }

/-! ## The same insertion -/

theorem forget_node (page : PageNo) : forget (node page) = Tree.node page := by
  funext tree
  unfold node Tree.node
  simp only [FallibleState.forget_bind, FallibleState.forget_get, StateExcept.get_bind]
  cases tree.dirty[page]? with
  | some node => rfl
  | none =>
      cases tree.store.readHead page with
      | ok bytes =>
          simp only [FallibleState.forget_bind, FallibleState.forget_modify]
          cases Node.decode bytes page with
          | ok node => rfl
          | error error => rfl
      | error error => cases error <;> rfl

theorem forget_takeNode (page : PageNo) : forget (takeNode page) = Tree.takeNode page := by
  funext tree
  unfold takeNode Tree.takeNode
  simp only [FallibleState.forget_bind, FallibleState.forget_get, StateExcept.get_bind]
  cases tree.dirty[page]? with
  | some node => rfl
  | none => exact congrFun (forget_node page) tree

theorem forget_sizeOf (page : PageNo) (node : Node) :
    forget (sizeOf page node) = Tree.sizeOf page node := by
  funext tree
  unfold sizeOf Tree.sizeOf
  simp only [FallibleState.forget_bind, FallibleState.forget_get, StateExcept.get_bind]
  cases tree.sizes[page]? with
  | some size => rfl
  | none => rfl

theorem forget_alloc : forget alloc = Tree.alloc := by
  funext tree
  unfold alloc Tree.alloc
  simp only [FallibleState.forget_bind, FallibleState.forget_get, StateExcept.get_bind]
  cases tree.info.nextFree.next with
  | error error => rfl
  | ok next => rfl

theorem forget_countUp : forget countUp = Tree.countUp := by
  funext tree
  unfold countUp Tree.countUp
  simp only [FallibleState.forget_bind, FallibleState.forget_get, StateExcept.get_bind]
  cases tree.info.count.next with
  | error error => rfl
  | ok count => rfl

theorem forget_splitLeaf (page : PageNo) (entries : List (Key × Record)) :
    forget (splitLeaf page entries) = Tree.splitLeaf page entries := by
  funext tree
  unfold splitLeaf Tree.splitLeaf
  simp only [FallibleState.forget_bind, FallibleState.forget_get, StateExcept.get_bind,
    StateExcept.getThe_bind]
  cases (entries.drop (entries.length / 2)).head? with
  | none => rfl
  | some first =>
      simp only [FallibleState.forget_bind, forget_alloc]
      rfl

theorem forget_updateLeaf (entries : List (Key × Record)) (key : Key) (record : Record)
    (size : ℕ) :
    forget (updateLeaf entries key record size) = Tree.updateLeaf entries key record size := by
  unfold updateLeaf Tree.updateLeaf
  cases searchEntries entries key with
  | ok position =>
      cases hget : entries[position]? with
      | none =>
          simp only [hget]
          rfl
      | some entry =>
          simp only [hget]
          rfl
  | error position =>
      simp only [FallibleState.forget_bind, forget_countUp]
      rfl

theorem forget_storeLeaf (page : PageNo) (entries : List (Key × Record)) (estimate : ℕ) :
    forget (storeLeaf page entries estimate) = Tree.storeLeaf page entries estimate := by
  funext tree
  unfold storeLeaf Tree.storeLeaf
  simp only [FallibleState.forget_bind, FallibleState.forget_get, StateExcept.get_bind,
    StateExcept.getThe_bind]
  split
  · rw [forget_splitLeaf]
  · rfl

theorem forget_insertLeaf (page : PageNo) (entries : List (Key × Record)) (key : Key)
    (record : Record) :
    forget (insertLeaf page entries key record) = Tree.insertLeaf page entries key record := by
  unfold insertLeaf Tree.insertLeaf
  simp only [FallibleState.forget_bind, forget_sizeOf, forget_updateLeaf, forget_storeLeaf]

theorem forget_storeInternal (page : PageNo) (keys : List Key) (children : List PageNo) :
    forget (storeInternal page keys children) = Tree.storeInternal page keys children := by
  funext tree
  unfold storeInternal Tree.storeInternal
  simp only [FallibleState.forget_bind, FallibleState.forget_get, StateExcept.get_bind,
    StateExcept.getThe_bind]
  split
  · cases keys[keys.length / 2]? with
    | none => rfl
    | some separator =>
        simp only [FallibleState.forget_bind, forget_alloc]
        rfl
  · rfl

theorem forget_insertInto (fuel : ℕ) (page : PageNo) (key : Key) (record : Record) :
    forget (insertInto fuel page key record) = Tree.insertInto fuel page key record := by
  induction fuel generalizing page with
  | zero => rfl
  | succ fuel ih =>
      unfold insertInto Tree.insertInto
      simp only [FallibleState.forget_bind, forget_takeNode]
      congr 1
      funext found
      cases found with
      | leaf entries => exact forget_insertLeaf page entries key record
      | internal keys children =>
          cases hchild : children[childIndex keys key]? with
          | none => simp only [hchild, FallibleState.forget_throw]
          | some child =>
              simp only [hchild, FallibleState.forget_bind, ih]
              congr 1
              funext split
              cases split with
              | none => rfl
              | some split => exact forget_storeInternal _ _ _

/-- Up to the tree of a failure, this is the insertion of a transaction. -/
theorem forget_insert (key : Key) (record : Record) :
    forget (insert key record) = Tree.insert key record := by
  funext tree
  unfold insert Tree.insert
  simp only [FallibleState.forget_bind, FallibleState.forget_get, StateExcept.get_bind,
    StateExcept.getThe_bind, forget_insertInto]
  refine congrFun (congrArg (Tree.fuel >>= ·) (funext fun fuel => ?_)) tree
  refine congrArg (Tree.insertInto fuel tree.info.root key record >>= ·) (funext fun split => ?_)
  cases split with
  | none => rfl
  | some split =>
      simp only [FallibleState.forget_bind, forget_alloc]
      rfl

end LiveTree

end LoomDB
