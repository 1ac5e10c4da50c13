import CronosStore.Memiavl.Interface

/-!
# Snapshot files and their nodes

`memiavl/persisted_node.go`, the little-endian layout and the reading half of
`memiavl/snapshot.go`. A snapshot is four files. The nodes file holds the branches in
post-order and the leaves file the leaves in order, both as records of 48 bytes; keys and
values are in the kvs file, and the metadata file has the magic number, the format and the
version.

No record says where the children of a branch are. They are found from the position of
the branch, its size, the leaf its key points to, and `preTrees`, the number of finished
subtrees that were waiting for a parent when the branch's subtree was begun.

Slices out of range panic in the source; here they have no result.
-/

namespace CronosStore.Memiavl

open Foundation

def sizeNode : Nat := 48
def sizeLeaf : Nat := 48
def sizeMetadata : Nat := 12
def snapshotFileMagic : Nat := 1280721225
def snapshotFormat : Nat := 0

/-- The directory of one tree's snapshot; `none` is a file that is not there. -/
structure SnapshotDir where
  metadata : Option Bytes
  nodes : Option Bytes
  leaves : Option Bytes
  kvs : Option Bytes
deriving DecidableEq

inductive SnapshotFile
  | metadata | nodes | leaves | kvs
deriving DecidableEq

inductive SnapshotError
  | notExist (file : SnapshotFile)
  | wrongMetadataSize (found : Nat)
  | invalidMagic (magic : Nat)
  | unknownFormat (format : Nat)
  | nodesSize (len : Nat)
  | leavesSize (len : Nat)
  | lengthMismatch (nodesLen leavesLen : Nat)
deriving DecidableEq

structure Snapshot where
  nodes : Bytes
  leaves : Bytes
  kvs : Bytes
  version : Nat
  root : Option (Bool × Nat)
deriving DecidableEq

def SnapshotDir.open (dir : SnapshotDir) (file : SnapshotFile) : Except SnapshotError Bytes :=
  let content := match file with
    | .metadata => dir.metadata
    | .nodes => dir.nodes
    | .leaves => dir.leaves
    | .kvs => dir.kvs
  match content with
  | some bz => .ok bz
  | none => .error (.notExist file)

def openSnapshot (dir : SnapshotDir) : Except SnapshotError Snapshot := do
  let bz ← dir.open .metadata
  if bz.length ≠ sizeMetadata then throw (.wrongMetadataSize bz.length)
  let magic := readLE (bz.take 4)
  if magic ≠ snapshotFileMagic then throw (.invalidMagic magic)
  let format := readLE ((bz.drop 4).take 4)
  if format ≠ snapshotFormat then throw (.unknownFormat format)
  let version := readLE ((bz.drop 8).take 4)
  let nodes ← dir.open .nodes
  let leaves ← dir.open .leaves
  let kvs ← dir.open .kvs
  if nodes.length % sizeNode ≠ 0 then throw (.nodesSize nodes.length)
  if leaves.length % sizeLeaf ≠ 0 then throw (.leavesSize leaves.length)
  let nodesLen := nodes.length / sizeNode
  let leavesLen := leaves.length / sizeLeaf
  if (leavesLen > 0 ∧ nodesLen + 1 ≠ leavesLen) ∨ (leavesLen = 0 ∧ nodesLen ≠ 0) then
    throw (.lengthMismatch nodesLen leavesLen)
  let root :=
    if nodesLen > 0 then some (false, (nodesLen - 1) % 2 ^ 32)
    else if leavesLen > 0 then some (true, 0)
    else none
  pure { nodes, leaves, kvs, version, root }

structure NodeLayout where
  data : Bytes

namespace NodeLayout

def height (d : NodeLayout) : Nat := readLE (d.data.take 1)
def preTrees (d : NodeLayout) : Nat := readLE ((d.data.drop 1).take 1)
def version (d : NodeLayout) : Nat := readLE ((d.data.drop 4).take 4)
def size (d : NodeLayout) : Nat := readLE ((d.data.drop 8).take 4)
def keyLeaf (d : NodeLayout) : Nat := readLE ((d.data.drop 12).take 4)
def hash (d : NodeLayout) : Bytes := (d.data.drop 16).take 32

end NodeLayout

structure LeafLayout where
  data : Bytes

namespace LeafLayout

def version (d : LeafLayout) : Nat := readLE (d.data.take 4)
def keyLength (d : LeafLayout) : Nat := readLE ((d.data.drop 4).take 4)
def keyOffset (d : LeafLayout) : Nat := readLE ((d.data.drop 8).take 8)
def hash (d : LeafLayout) : Bytes := (d.data.drop 16).take 32

end LeafLayout

namespace Snapshot

def node (s : Snapshot) (i : Nat) : Option NodeLayout :=
  (slice s.nodes (i * sizeNode) (i * sizeNode + sizeNode)).map NodeLayout.mk

def leaf (s : Snapshot) (i : Nat) : Option LeafLayout :=
  (slice s.leaves (i * sizeLeaf) (i * sizeLeaf + sizeLeaf)).map LeafLayout.mk

def addU64 (a b : Nat) : Nat := (a + b) % 2 ^ 64

def leafKey (s : Snapshot) (index : Nat) : Option Bytes := do
  let leaf ← s.leaf index
  let offset := addU64 leaf.keyOffset 4
  slice s.kvs offset (addU64 offset leaf.keyLength)

def leafKeyValue (s : Snapshot) (index : Nat) : Option (Bytes × Bytes) := do
  let leaf ← s.leaf index
  let offset := addU64 leaf.keyOffset 4
  let length := leaf.keyLength
  let key ← slice s.kvs offset (addU64 offset length)
  let offset := addU64 offset length
  let lenBytes ← slice s.kvs offset (offset + 4)
  let length := readLE lenBytes
  let offset := addU64 offset 4
  let value ← slice s.kvs offset (addU64 offset length)
  pure (key, value)

end Snapshot

/-- The index of the first leaf below a branch, in `uint32`:
`index + 2 - size + preTrees`. -/
def getStartLeaf (index size preTrees : Nat) : Nat :=
  (index + 2 + 2 ^ 32 - size + preTrees) % 2 ^ 32

/-- The index of the last leaf below a branch: `index + preTrees + 1`. -/
def getEndLeaf (index preTrees : Nat) : Nat := (index + preTrees + 1) % 2 ^ 32

/-- The index of the left branch of a branch: `keyLeaf - preTrees - 2`. -/
def getLeftBranch (keyLeaf preTrees : Nat) : Nat :=
  (keyLeaf + 2 * 2 ^ 32 - preTrees - 2) % 2 ^ 32

/-- A node by its place in the files. -/
structure PersistedNode where
  snapshot : Snapshot
  isLeaf : Bool
  index : Nat
deriving DecidableEq

namespace PersistedNode

section

variable (p : PersistedNode)

def branchNode : Option NodeLayout := p.snapshot.node p.index

def leafNode : Option LeafLayout := p.snapshot.leaf p.index

def height (p : PersistedNode) : Option Nat :=
  if p.isLeaf then some 0 else p.branchNode.map NodeLayout.height

def version (p : PersistedNode) : Option Nat :=
  if p.isLeaf then p.leafNode.map LeafLayout.version else p.branchNode.map NodeLayout.version

def size (p : PersistedNode) : Option Nat :=
  if p.isLeaf then some 1 else p.branchNode.map NodeLayout.size

def key : Option Bytes :=
  if p.isLeaf then p.snapshot.leafKey p.index
  else do
    let data ← p.branchNode
    p.snapshot.leafKey data.keyLeaf

def value : Option Slice :=
  if p.isLeaf then (p.snapshot.leafKeyValue p.index).map fun kv => some kv.2 else some none

def left : Option PersistedNode :=
  if p.isLeaf then none
  else do
    let data ← p.branchNode
    let startLeaf := getStartLeaf p.index data.size data.preTrees
    if (startLeaf + 1) % 2 ^ 32 = data.keyLeaf then
      pure { snapshot := p.snapshot, index := startLeaf, isLeaf := true }
    else
      pure { snapshot := p.snapshot, index := getLeftBranch data.keyLeaf data.preTrees,
             isLeaf := false }

def right : Option PersistedNode :=
  if p.isLeaf then none
  else do
    let data ← p.branchNode
    if data.keyLeaf = getEndLeaf p.index data.preTrees then
      pure { snapshot := p.snapshot, index := data.keyLeaf, isLeaf := true }
    else
      pure { snapshot := p.snapshot, index := (p.index + 2 ^ 32 - 1) % 2 ^ 32, isLeaf := false }

end

def hash (p : PersistedNode) : Option Bytes :=
  if p.isLeaf then p.leafNode.map LeafLayout.hash else p.branchNode.map NodeLayout.hash

end PersistedNode

def persistedInterface : NodeInterface PersistedNode where
  height := PersistedNode.height
  isLeaf p := some p.isLeaf
  size := PersistedNode.size
  version := PersistedNode.version
  key := PersistedNode.key
  value := PersistedNode.value
  left := PersistedNode.left
  right := PersistedNode.right
  hash := PersistedNode.hash

def Snapshot.rootNode (s : Snapshot) : Option PersistedNode :=
  s.root.map fun r => { snapshot := s, isLeaf := r.1, index := r.2 }

end CronosStore.Memiavl
