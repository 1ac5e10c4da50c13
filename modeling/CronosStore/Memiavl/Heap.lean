import CronosStore.Foundation.CellHeap
import CronosStore.Memiavl.RoundTrip

/-!
# Nodes on a heap

`memiavl/mem_node.go` and `memiavl/node.go` once more, with nodes in memory as cells that
can be overwritten. A reference is the address of a `MemNode` or a `PersistedNode`, so a
tree may mix them. `mutate` clones a persisted node and a cell whose version is not above
`cowVersion`, and overwrites any other cell; rotations and the recursive operations then
write into what it returns. `none` is a panic.
-/

namespace CronosStore.Memiavl

open Foundation CellHeap

/-- A node in memory or in a snapshot. -/
inductive Ref
  | mem (a : Addr)
  | persisted (p : PersistedNode)
deriving DecidableEq

structure MemNode where
  height : Nat
  size : Nat
  version : Nat
  key : Bytes
  value : Slice
  left : Option Ref
  right : Option Ref
  hash : Slice
deriving DecidableEq

abbrev Heap := List MemNode

namespace Heap

/-! ## The `Node` interface -/

section Reads

variable (h : Heap)

def height : Ref → Option Nat
  | .mem a => h[a]?.map MemNode.height
  | .persisted p => p.height

def isLeaf : Ref → Option Bool
  | .mem a => h[a]?.map fun c => c.height == 0
  | .persisted p => some p.isLeaf

def size : Ref → Option Nat
  | .mem a => h[a]?.map MemNode.size
  | .persisted p => p.size

def version : Ref → Option Nat
  | .mem a => h[a]?.map MemNode.version
  | .persisted p => p.version

def key : Ref → Option Bytes
  | .mem a => h[a]?.map MemNode.key
  | .persisted p => p.key

def value : Ref → Option Slice
  | .mem a => h[a]?.map MemNode.value
  | .persisted p => p.value

def left : Ref → Option Ref
  | .mem a => h[a]?.bind MemNode.left
  | .persisted p => p.left.map .persisted

def right : Ref → Option Ref
  | .mem a => h[a]?.bind MemNode.right
  | .persisted p => p.right.map .persisted

def calcBalance (r : Ref) : Option Int := do
  let lh ← h.height (← h.left r)
  let rh ← h.height (← h.right r)
  pure ((lh : Int) - rh)

end Reads

section

variable (h : Heap)

def setHash (a : Addr) (hash : Bytes) : Option Heap := do
  let c ← h[a]?
  pure (h.set a { c with hash := some hash })

def hash [Sha256] : Nat → Heap → Ref → Option (Bytes × Heap)
  | 0, _, _ => none
  | depth + 1, h, .mem a => do
    let c ← h[a]?
    match c.hash with
    | some hash => pure (hash, h)
    | none =>
      if c.height = 0 then
        let hash := Sha256.sum256 (putVarint c.height ++ putVarint c.size ++ putVarint c.version ++
          Node.encodeBytes c.key ++ Node.encodeBytes (Sha256.sum256 (c.value.getD [])))
        pure (hash, ← h.setHash a hash)
      else
        let (left, h) ← hash depth h (← c.left)
        let (right, h) ← hash depth h (← c.right)
        let hash := Sha256.sum256 (putVarint c.height ++ putVarint c.size ++ putVarint c.version ++
          Node.encodeBytes left ++ Node.encodeBytes right)
        pure (hash, ← h.setHash a hash)
  | _ + 1, h, .persisted p => do pure (← p.hash, h)

def interface [Sha256] : NodeInterface Ref where
  height := h.height
  isLeaf := h.isLeaf
  size := h.size
  version := h.version
  key := h.key
  value := h.value
  left := h.left
  right := h.right
  hash r := do pure (← hash ((← h.height r) + 1) h r).1

def alloc (c : MemNode) : Addr × Heap := (h.length, h ++ [c])

def newLeafNode (key : Bytes) (value : Slice) (version : Nat) : Addr × Heap :=
  h.alloc { height := 0, size := 1, version := version, key := key, value := value,
            left := none, right := none, hash := none }

def cloneOfPersisted (p : PersistedNode) (version : Nat) : Option MemNode :=
  if p.isLeaf then do
    let (key, value) ← p.snapshot.leafKeyValue p.index
    pure { height := 0, size := 1, version := version, key := key, value := some value,
           left := none, right := none, hash := none }
  else do
    let data ← p.branchNode
    pure { height := data.height, size := data.size, version := version, key := ← p.key,
           value := none, left := some (.persisted (← p.left)),
           right := some (.persisted (← p.right)), hash := none }

/-- `Mutate`: clones the node if its version is smaller than or equal to `cowVersion`,
otherwise modifies it in place. -/
def mutate (r : Ref) (version cowVersion : Nat) : Option (Addr × Heap) :=
  match r with
  | .mem a => do
    let c ← h[a]?
    let c' := { c with version := version, hash := none }
    if c.version ≤ cowVersion then pure (h.alloc c') else pure (a, h.set a c')
  | .persisted p => do pure (h.alloc (← cloneOfPersisted p version))

def setLeft (a : Addr) (left : Ref) : Option Heap := do
  let c ← h[a]?
  pure (h.set a { c with left := some left })

def setRight (a : Addr) (right : Ref) : Option Heap := do
  let c ← h[a]?
  pure (h.set a { c with right := some right })

def setKey (a : Addr) (key : Bytes) : Option Heap := do
  let c ← h[a]?
  pure (h.set a { c with key := key })

def setNewKey (a : Addr) : Slice → Option Heap
  | some newKey => h.setKey a newKey
  | none => some h

def setValue (a : Addr) (value : Slice) : Option Heap := do
  let c ← h[a]?
  pure (h.set a { c with value := value })

def updateHeightSize (a : Addr) : Option Heap := do
  let c ← h[a]?
  let left ← c.left
  let right ← c.right
  let height := max (← h.height left) (← h.height right) + 1
  let size := (← h.size left) + (← h.size right)
  pure (h.set a { c with height := height, size := size })

def rotateRight (node : Addr) (version cowVersion : Nat) : Option (Addr × Heap) := do
  let left ← h.left (.mem node)
  let (newSelf, h) ← h.mutate left version cowVersion
  let h ← h.setLeft node (← h.right left)
  let h ← h.setRight newSelf (.mem node)
  let h ← h.updateHeightSize node
  let h ← h.updateHeightSize newSelf
  pure (newSelf, h)

def rotateLeft (node : Addr) (version cowVersion : Nat) : Option (Addr × Heap) := do
  let right ← h.right (.mem node)
  let (newSelf, h) ← h.mutate right version cowVersion
  let h ← h.setRight node (← h.left right)
  let h ← h.setLeft newSelf (.mem node)
  let h ← h.updateHeightSize node
  let h ← h.updateHeightSize newSelf
  pure (newSelf, h)

def reBalance (node : Addr) (version cowVersion : Nat) : Option (Addr × Heap) := do
  let balance ← h.calcBalance (.mem node)
  if balance > 1 then
    let left ← h.left (.mem node)
    if (← h.calcBalance left) ≥ 0 then
      -- left left
      h.rotateRight node version cowVersion
    else
      -- left right
      let (n, h) ← h.mutate left version cowVersion
      let (n, h) ← h.rotateLeft n version cowVersion
      let h ← h.setLeft node (.mem n)
      h.rotateRight node version cowVersion
  else if balance < -1 then
    let right ← h.right (.mem node)
    if (← h.calcBalance right) ≤ 0 then
      -- right right
      h.rotateLeft node version cowVersion
    else
      -- right left
      let (n, h) ← h.mutate right version cowVersion
      let (n, h) ← h.rotateRight n version cowVersion
      let h ← h.setRight node (.mem n)
      h.rotateLeft node version cowVersion
  else pure (node, h)

end

def setRecursive (key : Bytes) (value : Slice) (version cowVersion : Nat) :
    Nat → Heap → Ref → Option ((Addr × Bool) × Heap)
  | 0, _, _ => none
  | depth + 1, h, node => do
    let nodeKey ← h.key node
    if ← h.isLeaf node then
      if key < nodeKey then
        let (leaf, h) := h.newLeafNode key value version
        let (n, h) := h.alloc
          { height := 1, size := 2, version := version, key := nodeKey, value := none,
            left := some (.mem leaf), right := some node, hash := none }
        pure ((n, false), h)
      else if nodeKey < key then
        let (leaf, h) := h.newLeafNode key value version
        let (n, h) := h.alloc
          { height := 1, size := 2, version := version, key := key, value := none,
            left := some node, right := some (.mem leaf), hash := none }
        pure ((n, false), h)
      else
        let (newNode, h) ← h.mutate node version cowVersion
        let h ← h.setValue newNode value
        pure ((newNode, true), h)
    else
      let ((newNode, updated), h) ←
        if key < nodeKey then do
          let ((newChild, updated), h) ←
            setRecursive key value version cowVersion depth h (← h.left node)
          let (newNode, h) ← h.mutate node version cowVersion
          let h ← h.setLeft newNode (.mem newChild)
          pure ((newNode, updated), h)
        else do
          let ((newChild, updated), h) ←
            setRecursive key value version cowVersion depth h (← h.right node)
          let (newNode, h) ← h.mutate node version cowVersion
          let h ← h.setRight newNode (.mem newChild)
          pure ((newNode, updated), h)
      if updated then pure ((newNode, true), h)
      else
        let h ← h.updateHeightSize newNode
        let (newNode, h) ← h.reBalance newNode version cowVersion
        pure ((newNode, false), h)

def removeRecursive (key : Bytes) (version cowVersion : Nat) :
    Nat → Heap → Ref → Option ((Slice × Option Ref × Slice) × Heap)
  | 0, _, _ => none
  | depth + 1, h, node => do
    let nodeKey ← h.key node
    if ← h.isLeaf node then
      if nodeKey = key then pure ((← h.value node, none, none), h)
      else pure ((none, some node, none), h)
    else if key < nodeKey then
      match ← removeRecursive key version cowVersion depth h (← h.left node) with
      | ((none, _, _), h) => pure ((none, some node, none), h)
      | ((some value, none, _), h) =>
        pure ((some value, some (← h.right node), some nodeKey), h)
      | ((some value, some newLeft, newKey), h) =>
        let (newNode, h) ← h.mutate node version cowVersion
        let h ← h.setLeft newNode newLeft
        let h ← h.updateHeightSize newNode
        let (newNode, h) ← h.reBalance newNode version cowVersion
        pure ((some value, some (.mem newNode), newKey), h)
    else
      match ← removeRecursive key version cowVersion depth h (← h.right node) with
      | ((none, _, _), h) => pure ((none, some node, none), h)
      | ((some value, none, _), h) => pure ((some value, some (← h.left node), none), h)
      | ((some value, some newRight, newKey), h) =>
        let (newNode, h) ← h.mutate node version cowVersion
        let h ← h.setRight newNode newRight
        let h ← h.setNewKey newNode newKey
        let h ← h.updateHeightSize newNode
        let (newNode, h) ← h.reBalance newNode version cowVersion
        pure ((some value, some (.mem newNode), none), h)

end Heap

end CronosStore.Memiavl
