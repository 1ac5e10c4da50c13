import CronosStore.Foundation.Bytes

/-!
# Tree nodes

`memiavl/node.go` and `memiavl/mem_node.go`, read as functions on values. A node is what
the `Node` interface shows of it: a leaf with its key and value, or a branch with the
height and size it stores, its separator key and its two children. A node in memory and
a node of a snapshot answer these questions alike, and `Mutate` gives either of them the
new version and nothing else, so both are one type here; `Memiavl.Heap` keeps them apart
and lets `Mutate` write in place.

A byte slice that the code compares with `nil` is a `Slice`. Keys are plain byte strings:
`bytes.Compare` and `bytes.Equal` do not tell a nil key from an empty one, and the one
key that is compared with `nil`, the separator handed up by `removeRecursive`, is never
empty in an ordered tree (`Node.Ordered.key_ne_nil`). Heights and sizes are natural
numbers (`Node.Balanced.two_pow_le_length` keeps heights far below the 256 of `uint8`); versions are
`uint32`, reduced where the code adds to them.
-/

namespace CronosStore.Memiavl

open Foundation

/-- A Go byte slice, `none` being `nil`. -/
abbrev Slice := Option Bytes

/-- `crypto/sha256`: some function to 32 bytes. -/
class Sha256 where
  sum256 : Bytes → Bytes
  length_sum256 : ∀ b, (sum256 b).length = 32

@[reducible] def Sha256.zero : Sha256 where
  sum256 _ := List.replicate 32 0
  length_sum256 _ := List.length_replicate

@[reducible] def Sha256.padded : Sha256 where
  sum256 b := (b ++ List.replicate 32 0).take 32
  length_sum256 b := by rw [List.length_take, List.length_append, List.length_replicate]; omega

inductive Node
  | leaf (version : Nat) (key : Bytes) (value : Slice)
  | branch (height size version : Nat) (key : Bytes) (left right : Node)
deriving DecidableEq

namespace Node

def height : Node → Nat
  | .leaf .. => 0
  | .branch h .. => h

def size : Node → Nat
  | .leaf .. => 1
  | .branch _ s .. => s

def version : Node → Nat
  | .leaf v .. => v
  | .branch _ _ v .. => v

def key : Node → Bytes
  | .leaf _ k _ => k
  | .branch _ _ _ k .. => k

def isLeaf : Node → Bool
  | .leaf .. => true
  | .branch .. => false

section Accessors

variable {h s v : Nat} {k : Bytes} {x : Slice} {l r : Node}

@[simp] theorem height_leaf : (leaf v k x).height = 0 := rfl
@[simp] theorem height_branch : (branch h s v k l r).height = h := rfl
@[simp] theorem size_leaf : (leaf v k x).size = 1 := rfl
@[simp] theorem size_branch : (branch h s v k l r).size = s := rfl
@[simp] theorem version_leaf : (leaf v k x).version = v := rfl
@[simp] theorem version_branch : (branch h s v k l r).version = v := rfl

end Accessors

def toList : Node → List (Bytes × Slice)
  | .leaf _ k x => [(k, x)]
  | .branch _ _ _ _ l r => l.toList ++ r.toList

def newLeafNode (key : Bytes) (value : Slice) (version : Nat) : Node := .leaf version key value

def mutate (version : Nat) : Node → Node
  | .leaf _ k x => .leaf version k x
  | .branch h s _ k l r => .branch h s version k l r

def updateHeightSize : Node → Node
  | .branch _ _ v k l r => .branch (max l.height r.height + 1) (l.size + r.size) v k l r
  | node => node

def calcBalance : Node → Int
  | .branch _ _ _ _ l r => (l.height : Int) - r.height
  | .leaf .. => 0

@[simp] theorem calcBalance_branch {h s v : Nat} {k : Bytes} {l r : Node} :
    calcBalance (.branch h s v k l r) = (l.height : Int) - r.height := rfl

def rotateRight (version : Nat) : Node → Node
  | .branch h s v k (.branch lh ls _ lk ll lr) r =>
    updateHeightSize (.branch lh ls version lk ll (updateHeightSize (.branch h s v k lr r)))
  | node => node

def rotateLeft (version : Nat) : Node → Node
  | .branch h s v k l (.branch rh rs _ rk rl rr) =>
    updateHeightSize (.branch rh rs version rk (updateHeightSize (.branch h s v k l rl)) rr)
  | node => node

def reBalance (version : Nat) : Node → Node
  | .branch h s v k l r =>
    let balance := calcBalance (.branch h s v k l r)
    if balance > 1 then
      if calcBalance l ≥ 0 then
        -- left left
        rotateRight version (.branch h s v k l r)
      else
        -- left right
        rotateRight version (.branch h s v k (rotateLeft version (l.mutate version)) r)
    else if balance < -1 then
      if calcBalance r ≤ 0 then
        -- right right
        rotateLeft version (.branch h s v k l r)
      else
        -- right left
        rotateLeft version (.branch h s v k l (rotateRight version (r.mutate version)))
    else .branch h s v k l r
  | node => node

/-- `setRecursive` below a node. The flag tells an update, which leaves heights and sizes
as they were, from an insertion. -/
def setRecursive (key : Bytes) (value : Slice) (version : Nat) : Node → Node × Bool
  | .leaf v k x =>
    if key < k then
      (.branch 1 2 version k (newLeafNode key value version) (.leaf v k x), false)
    else if k < key then
      (.branch 1 2 version key (.leaf v k x) (newLeafNode key value version), false)
    else (.leaf version k value, true)
  | .branch h s _ k l r =>
    if key < k then
      let (newChild, updated) := setRecursive key value version l
      let newNode := .branch h s version k newChild r
      if updated then (newNode, true)
      else (reBalance version (updateHeightSize newNode), false)
    else
      let (newChild, updated) := setRecursive key value version r
      let newNode := .branch h s version k l newChild
      if updated then (newNode, true)
      else (reBalance version (updateHeightSize newNode), false)

/-- `removeRecursive` below a node:
- `(none, origNode, none)`: nothing changed in the subtree
- `(value, none, newKey)`: the leaf is removed
- `(value, newNode, newKey)`: the subtree changed -/
def removeRecursive (key : Bytes) (version : Nat) : Node → Slice × Option Node × Slice
  | .leaf v k x => if k = key then (x, none, none) else (none, some (.leaf v k x), none)
  | .branch h s v k l r =>
    if key < k then
      match removeRecursive key version l with
      | (none, _, _) => (none, some (.branch h s v k l r), none)
      | (some value, none, _) => (some value, some r, some k)
      | (some value, some newLeft, newKey) =>
        (some value,
          some (reBalance version (updateHeightSize (.branch h s version k newLeft r))), newKey)
    else
      match removeRecursive key version r with
      | (none, _, _) => (none, some (.branch h s v k l r), none)
      | (some value, none, _) => (some value, some l, none)
      | (some value, some newRight, newKey) =>
        (some value,
          some (reBalance version
            (updateHeightSize (.branch h s version (newKey.getD k) l newRight))), none)

def encodeBytes (bz : Bytes) : Bytes := putUvarint bz.length ++ bz

def hashNode [Sha256] : Node → Bytes
  | .leaf v k x =>
    Sha256.sum256 (putVarint 0 ++ putVarint 1 ++ putVarint v ++ encodeBytes k ++
      encodeBytes (Sha256.sum256 (x.getD [])))
  | .branch h s v _ l r =>
    Sha256.sum256 (putVarint h ++ putVarint s ++ putVarint v ++ encodeBytes (hashNode l) ++
      encodeBytes (hashNode r))

theorem length_hashNode [Sha256] (n : Node) : n.hashNode.length = 32 := by
  cases n <;> exact Sha256.length_sum256 _

end Node

def maxUint32 : Nat := 2 ^ 32 - 1

structure KVPair where
  delete : Bool
  key : Bytes
  value : Slice
deriving DecidableEq

abbrev ChangeSet := List KVPair

/-- `Tree`, as far as its value goes: the root of an empty tree is `none`. -/
structure Tree where
  version : Nat
  root : Option Node
deriving DecidableEq

namespace Tree

def setRoot (root : Option Node) (key : Bytes) (value : Slice) (version : Nat) : Node :=
  match root with
  | none => .newLeafNode key value version
  | some node => (node.setRecursive key value version).1

def removeRoot (root : Option Node) (key : Bytes) (version : Nat) : Option Node :=
  match root with
  | none => none
  | some node => (node.removeRecursive key version).2.1

def nextNodeVersion (t : Tree) : Nat := (t.version + 1) % 2 ^ 32

def set (t : Tree) (key : Bytes) (value : Slice) : Tree :=
  -- the value could be nil when replaying changes from the write-ahead-log
  { t with root := some (setRoot t.root key (some (value.getD [])) t.nextNodeVersion) }

def remove (t : Tree) (key : Bytes) : Tree :=
  { t with root := removeRoot t.root key t.nextNodeVersion }

def applyPair (t : Tree) (pair : KVPair) : Tree :=
  if pair.delete then t.remove pair.key else t.set pair.key pair.value

def applyChangeSet (t : Tree) (changeSet : ChangeSet) : Tree := changeSet.foldl applyPair t

def saveVersion (t : Tree) : Option Tree :=
  if t.version = maxUint32 then none else some { t with version := t.version + 1 }

def toList (t : Tree) : List (Bytes × Slice) := (t.root.map Node.toList).getD []

def rootHash [Sha256] (t : Tree) : Bytes :=
  match t.root with
  | none => Sha256.sum256 []
  | some node => node.hashNode

@[simp] theorem set_version (t : Tree) (k : Bytes) (x : Slice) : (t.set k x).version = t.version := rfl

@[simp] theorem remove_version (t : Tree) (k : Bytes) : (t.remove k).version = t.version := rfl

@[simp] theorem applyPair_version (t : Tree) (p : KVPair) :
    (t.applyPair p).version = t.version := by
  unfold applyPair
  split <;> rfl

@[simp] theorem applyChangeSet_version (t : Tree) (cs : ChangeSet) :
    (t.applyChangeSet cs).version = t.version := by
  unfold applyChangeSet
  induction cs generalizing t with
  | nil => rfl
  | cons p cs ih => rw [List.foldl_cons, ih, applyPair_version]

end Tree

end CronosStore.Memiavl
