import CronosStore.Memiavl.SnapshotWriter

/-!
# A snapshot is read back as it was written

The reader knows a node only by its index. `Placed` says where a subtree sits when
`leaves` leaves and `branches` branches come before it, and that every index the navigation
computes there is the exact one, nothing having wrapped around. The pending subtrees
`leaves - branches` grow by one on the way into a right child, so on any path they stay
below the height of the tree, which is what a `uint8` can hold.
-/

namespace CronosStore.Memiavl

open Foundation List Option

/-! ## Fields of a record -/

section Fields

variable (r : BranchRecord)

theorem NodeLayout.height_encode : (NodeLayout.mk r.encode).height = r.height % 256 := by
  simp [height, BranchRecord.encode, readLE_putLE]

theorem NodeLayout.preTrees_encode : (NodeLayout.mk r.encode).preTrees = r.preTrees % 256 := by
  simp [preTrees, BranchRecord.encode, readLE_putLE]

theorem NodeLayout.version_encode : (NodeLayout.mk r.encode).version = r.version % 2 ^ 32 := by
  simp [version, BranchRecord.encode, drop_append, readLE_putLE]

theorem NodeLayout.size_encode : (NodeLayout.mk r.encode).size = r.size % 2 ^ 32 := by
  simp [size, BranchRecord.encode, drop_append, readLE_putLE]

theorem NodeLayout.keyLeaf_encode : (NodeLayout.mk r.encode).keyLeaf = r.keyLeaf % 2 ^ 32 := by
  simp [keyLeaf, BranchRecord.encode, drop_append, readLE_putLE]

theorem NodeLayout.hash_encode : (NodeLayout.mk r.encode).hash = r.hash := by
  simp [hash, BranchRecord.encode, drop_append, take_of_length_le r.length_hash.le]

variable (r : LeafRecord)

theorem LeafLayout.version_encode : (LeafLayout.mk r.encode).version = r.version % 2 ^ 32 := by
  simp [version, LeafRecord.encode, readLE_putLE]

theorem LeafLayout.keyLength_encode :
    (LeafLayout.mk r.encode).keyLength = r.key.length % 2 ^ 32 := by
  simp [keyLength, LeafRecord.encode, readLE_putLE]

theorem LeafLayout.keyOffset_encode : (LeafLayout.mk r.encode).keyOffset = r.offset % 2 ^ 64 := by
  simp [keyOffset, LeafRecord.encode, drop_append, readLE_putLE]

theorem LeafLayout.hash_encode : (LeafLayout.mk r.encode).hash = r.hash := by
  simp [hash, LeafRecord.encode, drop_append, take_of_length_le r.length_hash.le]

end Fields

/-! ## Reading records back -/

namespace Node

/-- Versions are `uint32`, and keys and values are shorter than a `uint32` can tell. -/
def Fits : Node → Prop
  | .leaf v k x => v < 2 ^ 32 ∧ k.length < 2 ^ 32 ∧ (x.getD []).length < 2 ^ 32
  | .branch _ _ v _ l r => v < 2 ^ 32 ∧ Fits l ∧ Fits r

variable [Sha256]

theorem offset_leafRecords {n : Node} {offset i : Nat} {rec : LeafRecord}
    (h : (n.leafRecords offset)[i]? = some rec) :
    rec.offset = offset + (((n.leafRecords offset).take i).flatMap LeafRecord.keyValue).length := by
  induction n generalizing offset i with
  | leaf v k x =>
    cases i with
    | zero =>
      cases h
      rfl
    | succ i => simp [leafRecords] at h
  | branch hh s v k l r ihl ihr =>
    simp only [leafRecords] at h ⊢
    by_cases hi : i < (l.leafRecords offset).length
    · rw [getElem?_append_left hi] at h
      rw [take_append_of_le_length hi.le]
      exact ihl h
    · have hge : (l.leafRecords offset).length ≤ i := by omega
      rw [getElem?_append_right hge] at h
      rw [take_append, take_of_length_le hge, flatMap_append, length_append,
        length_flatMap_keyValue, ← Nat.add_assoc]
      exact ihr h

theorem Fits.of_mem_leafRecords {n : Node} (hn : Fits n) {offset : Nat} :
    ∀ rec ∈ n.leafRecords offset,
      rec.version < 2 ^ 32 ∧ rec.key.length < 2 ^ 32 ∧ rec.value.length < 2 ^ 32 := by
  induction n generalizing offset with
  | leaf v k x =>
    intro rec hrec
    rw [mem_singleton.mp hrec]
    exact hn
  | branch h s v k l r ihl ihr =>
    intro rec hrec
    rcases mem_append.mp hrec with hl | hr
    · exact ihl hn.2.1 rec hl
    · exact ihr hn.2.2 rec hr

theorem exists_head_leafRecords (n : Node) (offset : Nat) :
    ∃ rec, (n.leafRecords offset)[0]? = some rec ∧ rec.key = n.minKey := by
  induction n generalizing offset with
  | leaf v k x => exact ⟨_, rfl, rfl⟩
  | branch h s v k l r ihl ihr =>
    obtain ⟨rec, hrec, hkey⟩ := ihl offset
    refine ⟨rec, ?_, hkey⟩
    rw [leafRecords, getElem?_append_left]
    · exact hrec
    · rw [length_leafRecords]
      exact l.length_toList_pos

end Node

structure Snapshot.Holds (s : Snapshot) (L : List LeafRecord) (B : List BranchRecord) : Prop where
  leaves : s.leaves = L.flatMap LeafRecord.encode
  nodes : s.nodes = B.flatMap BranchRecord.encode
  kvs : s.kvs = L.flatMap LeafRecord.keyValue
  offsets : ∀ i rec, L[i]? = some rec →
    rec.offset = ((L.take i).flatMap LeafRecord.keyValue).length
  lengths : ∀ rec ∈ L, rec.key.length < 2 ^ 32 ∧ rec.value.length < 2 ^ 32
  size : (L.flatMap LeafRecord.keyValue).length ≤ maxFileSize

namespace Snapshot.Holds

variable {s : Snapshot} {L : List LeafRecord} {B : List BranchRecord}

variable {i : Nat} {rec : LeafRecord}

section

variable (hs : s.Holds L B)
include hs

theorem leaf_eq (h : L[i]? = some rec) :
    s.leaf i = some ⟨rec.encode⟩ := by
  rw [Snapshot.leaf, hs.leaves, slice_flatMap LeafRecord.length_encode h]
  rfl

theorem node_eq {rec : BranchRecord} (h : B[i]? = some rec) :
    s.node i = some ⟨rec.encode⟩ := by
  rw [Snapshot.node, hs.nodes, slice_flatMap BranchRecord.length_encode h]
  rfl

theorem kvs_split (h : L[i]? = some rec) :
    ∃ a c, s.kvs = a ++ rec.keyValue ++ c ∧ a.length = rec.offset ∧
      rec.offset + (8 + rec.key.length + rec.value.length) ≤ maxFileSize := by
  obtain ⟨hlt, hget⟩ := List.getElem?_eq_some_iff.mp h
  have hsplit : s.kvs = (L.take i).flatMap LeafRecord.keyValue ++ rec.keyValue ++
      (L.drop (i + 1)).flatMap LeafRecord.keyValue := by
    rw [hs.kvs, ← flatMap_singleton LeafRecord.keyValue rec, ← flatMap_append,
      ← flatMap_append, ← hget]
    simp
  have hsize := hs.size
  rw [← hs.kvs, hsplit, length_append, length_append, rec.length_keyValue,
    ← hs.offsets i rec h] at hsize
  exact ⟨_, _, hsplit, (hs.offsets i rec h).symm, by omega⟩

theorem leafKeyValue_eq (h : L[i]? = some rec) :
    s.leafKey i = some rec.key ∧ s.leafKeyValue i = some (rec.key, rec.value) := by
  obtain ⟨a, c, hkvs, ha, hmax⟩ := hs.kvs_split h
  obtain ⟨hk, hv⟩ := hs.lengths rec (mem_of_getElem? h)
  have hlt : rec.offset + (8 + rec.key.length + rec.value.length) < 2 ^ 63 := by
    simp only [maxFileSize] at hmax
    omega
  have hoff : addU64 (LeafLayout.mk rec.encode).keyOffset 4 = rec.offset + 4 := by
    rw [LeafLayout.keyOffset_encode, addU64]
    omega
  have hlen : (LeafLayout.mk rec.encode).keyLength = rec.key.length := by
    rw [LeafLayout.keyLength_encode, Nat.mod_eq_of_lt hk]
  have hend : addU64 (rec.offset + 4) rec.key.length = rec.offset + 4 + rec.key.length := by
    rw [addU64]
    omega
  have hval : addU64 (rec.offset + 4 + rec.key.length) 4 = rec.offset + 8 + rec.key.length := by
    rw [addU64]
    omega
  have hvalEnd : addU64 (rec.offset + 8 + rec.key.length) rec.value.length =
      rec.offset + 8 + rec.key.length + rec.value.length := by
    rw [addU64]
    omega
  have hkey : slice s.kvs (rec.offset + 4) (rec.offset + 4 + rec.key.length) = some rec.key := by
    refine slice_eq_of_split (a := a ++ putLE 4 rec.key.length)
      (c := putLE 4 rec.value.length ++ rec.value ++ c) ?_ ?_ rfl
    · rw [hkvs, LeafRecord.keyValue]
      simp only [append_assoc]
    · rw [length_append, length_putLE, ha]
  have hvlen : slice s.kvs (rec.offset + 4 + rec.key.length)
      (rec.offset + 4 + rec.key.length + 4) = some (putLE 4 rec.value.length) := by
    refine slice_eq_of_split (a := a ++ putLE 4 rec.key.length ++ rec.key) (c := rec.value ++ c)
      ?_ ?_ ?_
    · rw [hkvs, LeafRecord.keyValue]
      simp only [append_assoc]
    · rw [length_append, length_append, length_putLE, ha]
    · rw [length_putLE]
  have hvalue : slice s.kvs (rec.offset + 8 + rec.key.length)
      (rec.offset + 8 + rec.key.length + rec.value.length) = some rec.value := by
    refine slice_eq_of_split
      (a := a ++ putLE 4 rec.key.length ++ rec.key ++ putLE 4 rec.value.length) (c := c) ?_ ?_ rfl
    · rw [hkvs, LeafRecord.keyValue]
      simp only [append_assoc]
    · simp only [length_append, length_putLE, ha]
      omega
  have hread : readLE (putLE 4 rec.value.length) = rec.value.length := by
    rw [readLE_putLE]
    exact Nat.mod_eq_of_lt hv
  constructor
  · simp only [leafKey, hs.leaf_eq h, Results.some_bind, hoff, hlen, hend, hkey]
  · simp only [leafKeyValue, hs.leaf_eq h, Results.some_bind, hoff, hlen, hend,
      hkey, hvlen, hread, hval, hvalEnd, hvalue, Option.pure_def]

end

end Snapshot.Holds

/-- No step of the index arithmetic at a branch leaves the range of `uint32`: the first
leaf and its successor, the last leaf, and the child branches where there are any. -/
structure IndexInRange (p : PersistedNode) (d : NodeLayout) (pl pr : PersistedNode) : Prop where
  startLeaf_add : p.index + 2 < 2 ^ 32
  startLeaf_sub : d.size ≤ p.index + 2
  startLeaf_succ : p.index + 2 - d.size + d.preTrees + 1 < 2 ^ 32
  endLeaf : p.index + d.preTrees + 1 < 2 ^ 32
  leftBranch : pl.isLeaf = false → d.preTrees + 2 ≤ d.keyLeaf
  rightBranch : pr.isLeaf = false → 1 ≤ p.index

/-- The subtree below `p` is placed as `n` is when `leaves` leaves and `branches` branches
come before it, with all index arithmetic in range and `preTrees` not truncated. -/
def Placed : Node → Nat → Nat → PersistedNode → Prop
  | .leaf .., leaves, _, p => p.isLeaf = true ∧ p.index = leaves ∧ leaves < 2 ^ 32
  | .branch _ _ _ _ l r, leaves, branches, p =>
    p.isLeaf = false ∧ p.index + 2 = branches + (l.toList.length + r.toList.length) ∧
      ∃ d pl pr, p.branchNode = some d ∧ p.left = some pl ∧ p.right = some pr ∧
        branches + d.preTrees = leaves ∧ IndexInRange p d pl pr ∧
        Placed l leaves branches pl ∧
        Placed r (leaves + l.toList.length) (branches + l.toList.length - 1) pr

def Snapshot.nodeAt (s : Snapshot) (leaves branches : Nat) (n : Node) : PersistedNode where
  snapshot := s
  isLeaf := n.isLeaf
  index := if n.isLeaf then leaves else branches + n.toList.length - 2

theorem Node.isLeaf_iff_length (n : Node) : n.isLeaf = true ↔ n.toList.length = 1 := by
  cases n with
  | leaf => simp [isLeaf, toList]
  | branch h s v k l r =>
    have hl := l.length_toList_pos
    have hr := r.length_toList_pos
    simp only [isLeaf, toList, length_append, Bool.false_eq_true, false_iff]
    omega

section Arithmetic

variable {leaves branches nl nr : Nat}

variable (hle : branches ≤ leaves) (hroom : leaves + (nl + nr) < 2 ^ 32)

include hle hroom

theorem getStartLeaf_eq (hl : 0 < nl) (hr : 0 < nr) :
    getStartLeaf (branches + (nl + nr) - 2) (nl + nr) (leaves - branches) = leaves := by
  rw [getStartLeaf]
  omega

theorem getEndLeaf_eq (hl : 0 < nl) (hr : 0 < nr) :
    getEndLeaf (branches + (nl + nr) - 2) (leaves - branches) = leaves + (nl + nr) - 1 := by
  rw [getEndLeaf]
  omega

theorem getLeftBranch_eq (hl : 1 < nl) :
    getLeftBranch (leaves + nl) (leaves - branches) = branches + nl - 2 := by
  rw [getLeftBranch]
  omega

theorem rightBranch_eq (hl : 0 < nl) (hr : 1 < nr) :
    (branches + (nl + nr) - 2 + 2 ^ 32 - 1) % 2 ^ 32 = branches + nl - 1 + nr - 2 := by
  omega

end Arithmetic

variable [Sha256] {s : Snapshot} {L : List LeafRecord} {B : List BranchRecord}

section Branch

variable {h sz v leaves branches : Nat} {k : Bytes} {l r : Node}

structure BranchData (d : NodeLayout) (n l r : Node) (leaves branches : Nat) : Prop where
  preTrees : d.preTrees = leaves - branches
  size : d.size = l.toList.length + r.toList.length
  keyLeaf : d.keyLeaf = leaves + l.toList.length
  height : d.height = n.height
  version : d.version = n.version
  hash : d.hash = n.hashNode

theorem branchData_encode (hn : Node.Valid (.branch h sz v k l r)) (hv : v < 2 ^ 32)
    (hpre : leaves - branches + h < 256)
    (hroom : leaves + (l.toList.length + r.toList.length) < 2 ^ 32) :
    BranchData ⟨(Node.branchRecord (.branch h sz v k l r) l leaves branches).encode⟩
      (.branch h sz v k l r) l r leaves branches := by
  have hsize : sz = l.toList.length + r.toList.length := hn.sized.2.2
  refine ⟨?_, ?_, ?_, ?_, ?_, NodeLayout.hash_encode _⟩
  · rw [NodeLayout.preTrees_encode]
    exact Nat.mod_eq_of_lt (Nat.lt_of_le_of_lt (Nat.le_add_right _ _) hpre)
  · rw [NodeLayout.size_encode, ← hsize]
    exact Nat.mod_eq_of_lt (show sz < 2 ^ 32 by omega)
  · rw [NodeLayout.keyLeaf_encode]
    exact Nat.mod_eq_of_lt (show leaves + l.toList.length < 2 ^ 32 by omega)
  · rw [NodeLayout.height_encode]
    exact Nat.mod_eq_of_lt (Nat.lt_of_le_of_lt (Nat.le_add_left _ _) hpre)
  · rw [NodeLayout.version_encode]
    exact Nat.mod_eq_of_lt hv

variable {p : PersistedNode} {d : NodeLayout} {n : Node}

omit [Sha256] in
theorem PersistedNode.left_of_data (hp : p.isLeaf = false) (hd : p.branchNode = some d) :
    p.left = some (if (getStartLeaf p.index d.size d.preTrees + 1) % 2 ^ 32 = d.keyLeaf then
        { snapshot := p.snapshot, index := getStartLeaf p.index d.size d.preTrees, isLeaf := true }
      else
        { snapshot := p.snapshot, index := getLeftBranch d.keyLeaf d.preTrees, isLeaf := false }) := by
  unfold left
  rw [if_neg (by rw [hp]; decide), hd, Results.some_bind]
  exact (apply_ite some _ _ _).symm

omit [Sha256] in
theorem PersistedNode.right_of_data (hp : p.isLeaf = false) (hd : p.branchNode = some d) :
    p.right = some (if d.keyLeaf = getEndLeaf p.index d.preTrees then
        { snapshot := p.snapshot, index := d.keyLeaf, isLeaf := true }
      else
        { snapshot := p.snapshot, index := (p.index + 2 ^ 32 - 1) % 2 ^ 32, isLeaf := false }) := by
  unfold right
  rw [if_neg (by rw [hp]; decide), hd, Results.some_bind]
  exact (apply_ite some _ _ _).symm

variable (hp : p.isLeaf = false)
  (hidx : p.index = branches + (l.toList.length + r.toList.length) - 2) (hd : p.branchNode = some d)
  (hdata : BranchData d n l r leaves branches) (hle : branches ≤ leaves)
  (hroom : leaves + (l.toList.length + r.toList.length) < 2 ^ 32)

include hp hidx hd hdata hle hroom

theorem PersistedNode.left_eq : p.left = some (p.snapshot.nodeAt leaves branches l) := by
  have hlpos := l.length_toList_pos
  have hrpos := r.length_toList_pos
  have hleaf := l.isLeaf_iff_length
  have hstart := getStartLeaf_eq hle hroom hlpos hrpos
  rw [left_of_data hp hd, hdata.size, hdata.preTrees, hdata.keyLeaf, hidx, hstart]
  by_cases h1 : l.toList.length = 1
  · rw [if_pos (by omega)]
    simp [Snapshot.nodeAt, hleaf.mpr h1]
  · have hnl : l.isLeaf = false := Bool.eq_false_iff.mpr fun h => h1 (hleaf.mp h)
    rw [if_neg (by omega), getLeftBranch_eq hle hroom (by omega)]
    simp [Snapshot.nodeAt, hnl]

theorem PersistedNode.right_eq :
    p.right = some (p.snapshot.nodeAt (leaves + l.toList.length)
      (branches + l.toList.length - 1) r) := by
  have hlpos := l.length_toList_pos
  have hrpos := r.length_toList_pos
  have hleaf := r.isLeaf_iff_length
  have hend := getEndLeaf_eq hle hroom hlpos hrpos
  rw [right_of_data hp hd, hdata.preTrees, hdata.keyLeaf, hidx, hend]
  by_cases h1 : r.toList.length = 1
  · rw [if_pos (by omega)]
    simp [Snapshot.nodeAt, hleaf.mpr h1]
  · have hnl : r.isLeaf = false := Bool.eq_false_iff.mpr fun h => h1 (hleaf.mp h)
    rw [if_neg (by omega), rightBranch_eq hle hroom hlpos (by omega)]
    simp [Snapshot.nodeAt, hnl]

end Branch

structure Snapshot.HoldsAt (s : Snapshot) (L : List LeafRecord) (B : List BranchRecord)
    (n : Node) (offset leaves branches : Nat) : Prop where
  holds : s.Holds L B
  leafAt : ∀ i rec, (n.leafRecords offset)[i]? = some rec → L[leaves + i]? = some rec
  branchAt : ∀ i rec, (n.branchRecords leaves branches)[i]? = some rec →
    B[branches + i]? = some rec
  le : branches ≤ leaves
  pre : leaves - branches + n.height < 256
  room : leaves + n.toList.length < 2 ^ 32

namespace Snapshot.HoldsAt

variable {h sz v offset leaves branches : Nat} {k : Bytes} {l r : Node}

section

variable (hs : s.HoldsAt L B (.branch h sz v k l r) offset leaves branches)
include hs

theorem left
    (hb : Node.Balanced (.branch h sz v k l r)) : s.HoldsAt L B l offset leaves branches := by
  obtain ⟨-, -, hh, -, -⟩ := hb
  have hpre := hs.pre
  have hroom := hs.room
  simp only [Node.toList, length_append, Node.height_branch] at hpre hroom
  refine ⟨hs.holds, fun i rec hi => hs.leafAt i rec ?_, fun i rec hi => hs.branchAt i rec ?_, hs.le,
    by omega, by omega⟩
  · rw [Node.leafRecords, List.getElem?_append_left (List.getElem?_eq_some_iff.mp hi).1, hi]
  · have hlt := (List.getElem?_eq_some_iff.mp hi).1
    rw [Node.branchRecords, append_assoc, getElem?_append_left hlt, hi]

theorem right (hb : Node.Balanced (.branch h sz v k l r)) :
    s.HoldsAt L B r (offset + l.kvsSize) (leaves + l.toList.length)
      (branches + l.toList.length - 1) := by
  obtain ⟨-, -, hh, -, -⟩ := hb
  have hle := hs.le
  have hpre := hs.pre
  have hroom := hs.room
  have hlpos := l.length_toList_pos
  have hlen := l.length_branchRecords leaves branches
  simp only [Node.toList, length_append, Node.height_branch] at hpre hroom
  refine ⟨hs.holds, fun i rec hi => ?_, fun i rec hi => ?_, by omega, by omega, by omega⟩
  · rw [Nat.add_assoc]
    apply hs.leafAt
    rw [Node.leafRecords, getElem?_append_right (by rw [l.length_leafRecords]; omega),
      l.length_leafRecords, Nat.add_sub_cancel_left, hi]
  · have hidx : branches + l.toList.length - 1 + i =
        branches + ((l.branchRecords leaves branches).length + i) := by omega
    rw [hidx]
    apply hs.branchAt
    have hlt := (List.getElem?_eq_some_iff.mp hi).1
    rw [Node.branchRecords, append_assoc, getElem?_append_right (by omega),
      Nat.add_sub_cancel_left, getElem?_append_left hlt, hi]

theorem record :
    B[branches + (l.toList.length + r.toList.length) - 2]? =
      some (Node.branchRecord (.branch h sz v k l r) l leaves branches) := by
  have hl := l.length_branchRecords leaves branches
  have hr := r.length_branchRecords (leaves + l.toList.length) (branches + l.toList.length - 1)
  have hidx : branches + (l.toList.length + r.toList.length) - 2 = branches +
      (l.branchRecords leaves branches ++ r.branchRecords (leaves + l.toList.length)
        (branches + l.toList.length - 1)).length := by
    rw [length_append]
    omega
  rw [hidx]
  apply hs.branchAt
  rw [Node.branchRecords, getElem?_append_right le_rfl, Nat.sub_self]
  rfl

theorem keyLeaf
    (hn : Node.Valid (.branch h sz v k l r)) : s.leafKey (leaves + l.toList.length) = some k := by
  obtain ⟨rec, hrec, hkey⟩ := r.exists_head_leafRecords (offset + l.kvsSize)
  have hat := (hs.right hn.balanced).leafAt 0 rec hrec
  rw [Nat.add_zero] at hat
  rw [(hs.holds.leafKeyValue_eq hat).1, hkey, hn.ordered.2.2.2]

theorem branchNode
    (hn : Node.Valid (.branch h sz v k l r)) (hf : Node.Fits (.branch h sz v k l r)) :
    ∃ d, (s.nodeAt leaves branches (.branch h sz v k l r)).branchNode = some d ∧
      BranchData d (.branch h sz v k l r) l r leaves branches := by
  have hroom := hs.room
  simp only [Node.toList, length_append] at hroom
  refine ⟨_, ?_, branchData_encode hn hf.1 hs.pre hroom⟩
  have hnode := hs.holds.node_eq hs.record
  simpa [PersistedNode.branchNode, nodeAt, Node.isLeaf, Node.toList] using hnode

end

omit [Sha256] in
theorem index_nodeAt : (s.nodeAt leaves branches (.branch h sz v k l r)).index =
    branches + (l.toList.length + r.toList.length) - 2 := by
  simp [nodeAt, Node.isLeaf, Node.toList]

theorem denotes {n : Node} (hs : s.HoldsAt L B n offset leaves branches) (hn : n.Valid)
    (hf : n.Fits) : persistedInterface.Denotes (s.nodeAt leaves branches n) n := by
  induction n generalizing offset leaves branches with
  | leaf v k x =>
    obtain ⟨x, rfl⟩ := ne_none_iff_exists'.mp (hn.stored (k, x) (mem_singleton_self _))
    have hat := hs.leafAt 0 _ rfl
    rw [Nat.add_zero] at hat
    obtain ⟨hkey, hkv⟩ := hs.holds.leafKeyValue_eq hat
    have hleaf := hs.holds.leaf_eq hat
    have hver := LeafLayout.version_encode (LeafRecord.mk v k x offset _ (Node.length_hashNode
      (.leaf v k (some x))))
    rw [Nat.mod_eq_of_lt hf.1] at hver
    refine ⟨⟨rfl, rfl, rfl, ?_, hkey, ?_⟩, ?_⟩
    · show Option.map _ (s.leaf leaves) = _
      rw [hleaf]
      exact congrArg some hver
    · show Option.map _ (s.leaf leaves) = _
      rw [hleaf]
      exact congrArg some (LeafLayout.hash_encode _)
    · show Option.map _ (s.leafKeyValue leaves) = _
      rw [hkv]
      rfl
  | branch h sz v k l r ihl ihr =>
    obtain ⟨d, hd, hdata⟩ := hs.branchNode hn hf
    have hroom := hs.room
    simp only [Node.toList, length_append] at hroom
    have hl := PersistedNode.left_eq rfl index_nodeAt hd hdata hs.le hroom
    have hr := PersistedNode.right_eq rfl index_nodeAt hd hdata hs.le hroom
    have hsize : d.size = sz := hdata.size.trans hn.sized.2.2.symm
    have hkey := hs.keyLeaf hn
    rw [← hdata.keyLeaf] at hkey
    have hfield {α : Type} {f : NodeLayout → α} {x : α} (hx : f d = x) :
        Option.map f (s.nodeAt leaves branches (.branch h sz v k l r)).branchNode = some x := by
      rw [hd]
      exact congrArg some hx
    refine ⟨⟨rfl, hfield hdata.height, hfield hsize, hfield hdata.version, ?_, hfield hdata.hash⟩, _, _,
      hl, hr, ihl (hs.left hn.balanced) hn.left hf.2.1, ihr (hs.right hn.balanced) hn.right hf.2.2⟩
    show (PersistedNode.branchNode _ >>= _) = _
    rw [hd]
    exact hkey

theorem placed {n : Node} (hs : s.HoldsAt L B n offset leaves branches) (hn : n.Valid)
    (hf : n.Fits) : Placed n leaves branches (s.nodeAt leaves branches n) := by
  induction n generalizing offset leaves branches with
  | leaf v k x =>
    have hroom := hs.room
    exact ⟨rfl, rfl, by omega⟩
  | branch h sz v k l r ihl ihr =>
    obtain ⟨d, hd, hdata⟩ := hs.branchNode hn hf
    have hroom := hs.room
    simp only [Node.toList, length_append] at hroom
    have hl := PersistedNode.left_eq rfl index_nodeAt hd hdata hs.le hroom
    have hr := PersistedNode.right_eq rfl index_nodeAt hd hdata hs.le hroom
    have hlpos := l.length_toList_pos
    have hrpos := r.length_toList_pos
    have hle := hs.le
    have hlleaf := l.isLeaf_iff_length
    have hrleaf := r.isLeaf_iff_length
    refine ⟨rfl, by rw [index_nodeAt]; omega, d, _, _, hd, hl, hr, by rw [hdata.preTrees]; omega, ?_,
      ihl (hs.left hn.balanced) hn.left hf.2.1, ihr (hs.right hn.balanced) hn.right hf.2.2⟩
    constructor <;> simp only [index_nodeAt, hdata.preTrees, hdata.size, hdata.keyLeaf] <;>
      try omega
    · intro hleaf
      have : l.toList.length ≠ 1 := fun h1 => by
        rw [← hlleaf] at h1
        exact absurd (h1.symm.trans hleaf) (by decide)
      omega
    · intro hleaf
      have : r.toList.length ≠ 1 := fun h1 => by
        rw [← hrleaf] at h1
        exact absurd (h1.symm.trans hleaf) (by decide)
      omega

end Snapshot.HoldsAt

/-! ## Whole snapshots -/

def SnapshotDir.ofRecords (version : Nat) (L : List LeafRecord) (B : List BranchRecord) :
    SnapshotDir where
  metadata := some (metadataBytes version)
  nodes := some (B.flatMap BranchRecord.encode)
  leaves := some (L.flatMap LeafRecord.encode)
  kvs := some (L.flatMap LeafRecord.keyValue)

def Snapshot.ofRecords (version : Nat) (L : List LeafRecord) (B : List BranchRecord) :
    Snapshot where
  nodes := B.flatMap BranchRecord.encode
  leaves := L.flatMap LeafRecord.encode
  kvs := L.flatMap LeafRecord.keyValue
  version := version
  root :=
    if B.length > 0 then some (false, (B.length - 1) % 2 ^ 32)
    else if L.length > 0 then some (true, 0)
    else none

omit [Sha256] in
theorem metadataBytes_fields {version : Nat} (hv : version < 2 ^ 32) :
    (metadataBytes version).length = sizeMetadata ∧
      readLE ((metadataBytes version).take 4) = snapshotFileMagic ∧
      readLE (((metadataBytes version).drop 4).take 4) = snapshotFormat ∧
      readLE (((metadataBytes version).drop 8).take 4) = version := by
  have hv' : version % 4294967296 = version := Nat.mod_eq_of_lt hv
  simp [metadataBytes, sizeMetadata, snapshotFileMagic, snapshotFormat, readLE_putLE,
    drop_append, hv']

omit [Sha256] in
theorem openSnapshot_ofRecords {version : Nat} (hv : version < 2 ^ 32)
    (hlen : B.length + 1 = L.length ∨ B = [] ∧ L = []) :
    openSnapshot (SnapshotDir.ofRecords version L B) = .ok (Snapshot.ofRecords version L B) := by
  obtain ⟨hmeta, hmagic, hformat, hversion⟩ := metadataBytes_fields hv
  have hn := length_flatMap_const BranchRecord.length_encode B
  have hl := length_flatMap_const LeafRecord.length_encode L
  have hnmod : (B.flatMap BranchRecord.encode).length % sizeNode = 0 := by
    rw [hn]
    exact Nat.mul_mod_left _ _
  have hlmod : (L.flatMap LeafRecord.encode).length % sizeLeaf = 0 := by
    rw [hl]
    exact Nat.mul_mod_left _ _
  have hndiv : (B.flatMap BranchRecord.encode).length / sizeNode = B.length := by
    rw [hn]
    exact Nat.mul_div_cancel _ (by decide)
  have hldiv : (L.flatMap LeafRecord.encode).length / sizeLeaf = L.length := by
    rw [hl]
    exact Nat.mul_div_cancel _ (by decide)
  have hmatch : ¬ ((L.length > 0 ∧ B.length + 1 ≠ L.length) ∨ (L.length = 0 ∧ B.length ≠ 0)) := by
    rcases hlen with h | ⟨rfl, rfl⟩
    · omega
    · simp
  simp only [openSnapshot, SnapshotDir.open, SnapshotDir.ofRecords, Results.ok_bind]
  rw [if_neg (not_not.mpr hmeta), hmagic, if_neg (not_not.mpr rfl), hformat,
    if_neg (not_not.mpr rfl), if_neg (not_not.mpr hnmod), if_neg (not_not.mpr hlmod), hndiv, hldiv,
    if_neg hmatch, hversion]
  rfl

omit [Sha256] in
theorem Node.Balanced.height_lt {n : Node} (hb : n.Balanced) (hlen : n.toList.length < 2 ^ 32) :
    n.height < 64 := by
  have hlt := Nat.lt_of_le_of_lt hb.two_pow_le_length hlen
  have := (Nat.pow_lt_pow_iff_right (by decide)).mp hlt
  omega

namespace Tree

def kvsSize (t : Tree) : Nat := (t.root.map Node.kvsSize).getD 0

def leafRecords (t : Tree) : List LeafRecord := (t.root.map fun n => n.leafRecords 0).getD []

def branchRecords (t : Tree) : List BranchRecord := (t.root.map fun n => n.branchRecords 0 0).getD []

def snapshotDir (t : Tree) : SnapshotDir := .ofRecords t.version t.leafRecords t.branchRecords

def snapshot (t : Tree) : Snapshot := .ofRecords t.version t.leafRecords t.branchRecords

/-- The trees a snapshot can hold: valid ones, with less than `2 ^ 32` leaves and with
versions, keys and values that `uint32` can count. -/
structure Persistable (t : Tree) : Prop where
  valid : t.Valid
  version : t.version < 2 ^ 32
  length : t.toList.length < 2 ^ 32
  fits : ∀ n, t.root = some n → n.Fits

variable {t : Tree}

theorem Valid.writeSnapshot_eq (ht : t.Valid) (hlen : t.toList.length < 2 ^ 32) {N : Type}
    {I : NodeInterface N} {done : Nat → Bool} (hdone : ∀ i, done i = false) {root : Option N}
    (hroot : I.RootDenotes root t.root) :
    writeSnapshot I done t.version root =
      if t.kvsSize ≤ maxFileSize then .ok t.snapshotDir else .error (.fileTooLarge .kvs) := by
  obtain ⟨version, troot⟩ := t
  cases troot with
  | none =>
    cases root with
    | some n => exact hroot.elim
    | none => rfl
  | some t =>
    cases root with
    | none => exact hroot.elim
    | some n =>
      have hn := ht t rfl
      have hlen : t.toList.length < 2 ^ 32 := hlen
      have hh := hn.balanced.height_lt hlen
      have hw : newSnapshotWriter.Consistent := ⟨rfl, rfl, rfl, le_rfl⟩
      have hrec := SnapshotWriter.writeRecursive_eq hdone hn.balanced hroot (Nat.lt_succ_self _) hw
        (by simp only [newSnapshotWriter]; omega) (by simp only [newSnapshotWriter]; omega)
      have hpos := t.length_toList_pos
      have hk : Tree.kvsSize ⟨version, some t⟩ = t.kvsSize := rfl
      have hkvs : newSnapshotWriter.kvs.length + t.kvsSize = t.kvsSize := Nat.zero_add _
      rw [hkvs] at hrec
      simp only [writeSnapshot, (NodeInterface.Denotes.shows hroot).height, ask, Results.ok_bind, hrec,
        hk]
      by_cases hfit : t.kvsSize ≤ maxFileSize
      · have hleaf : (newSnapshotWriter.append t).leafCounter > 0 := by
          simp only [SnapshotWriter.append, newSnapshotWriter]
          omega
        rw [if_pos hfit, if_pos hfit, Results.ok_bind, if_pos hleaf]
        rfl
      · rw [if_neg hfit, if_neg hfit]
        rfl

theorem Persistable.writeSnapshot_eq (ht : t.Persistable) {N : Type} {I : NodeInterface N}
    {done : Nat → Bool} (hdone : ∀ i, done i = false) {root : Option N}
    (hroot : I.RootDenotes root t.root) :
    writeSnapshot I done t.version root =
      if t.kvsSize ≤ maxFileSize then .ok t.snapshotDir else .error (.fileTooLarge .kvs) :=
  ht.valid.writeSnapshot_eq ht.length hdone hroot

theorem openSnapshot_snapshotDir (hversion : t.version < 2 ^ 32) :
    openSnapshot t.snapshotDir = .ok t.snapshot := by
  apply openSnapshot_ofRecords hversion
  unfold leafRecords branchRecords
  cases t.root with
  | none => exact .inr ⟨rfl, rfl⟩
  | some n =>
    left
    simp only [map_some, getD_some]
    rw [n.length_branchRecords, n.length_leafRecords]

theorem Persistable.openSnapshot_eq (ht : t.Persistable) :
    openSnapshot t.snapshotDir = .ok t.snapshot := openSnapshot_snapshotDir ht.version

theorem root_snapshot {n : Node} (hr : t.root = some n) (hlen : n.toList.length < 2 ^ 32) :
    t.snapshot.root = some (n.isLeaf, if n.isLeaf then 0 else 0 + n.toList.length - 2) := by
  have hleaves : t.leafRecords = n.leafRecords 0 := by rw [leafRecords, hr]; rfl
  have hbranches : t.branchRecords = n.branchRecords 0 0 := by rw [branchRecords, hr]; rfl
  have hb := n.length_branchRecords 0 0
  have hl := n.length_leafRecords 0
  have hleaf := n.isLeaf_iff_length
  have hpos := n.length_toList_pos
  rw [snapshot, Snapshot.ofRecords, hleaves, hbranches]
  by_cases h1 : n.toList.length = 1
  · rw [hleaf.mpr h1, if_neg (by omega), if_pos (by omega)]
    rfl
  · have hnl : n.isLeaf = false := Bool.eq_false_iff.mpr fun h => h1 (hleaf.mp h)
    have hidx : ((n.branchRecords 0 0).length - 1) % 2 ^ 32 = 0 + n.toList.length - 2 := by omega
    rw [if_pos (by omega), hnl, hidx]
    rfl

theorem Persistable.holdsAt (ht : t.Persistable) (hsize : t.kvsSize ≤ maxFileSize) {n : Node}
    (hr : t.root = some n) :
    t.snapshot.HoldsAt (n.leafRecords 0) (n.branchRecords 0 0) n 0 0 0 ∧
      t.snapshot.rootNode = some (t.snapshot.nodeAt 0 0 n) := by
  obtain ⟨version, troot⟩ := t
  cases hr
  have hn := ht.valid n rfl
  have hlen : n.toList.length < 2 ^ 32 := ht.length
  have hh := hn.balanced.height_lt hlen
  refine ⟨⟨⟨rfl, rfl, rfl, ?_, fun rec hrec => ((ht.fits n rfl).of_mem_leafRecords rec hrec).2, ?_⟩, ?_, ?_, le_rfl, ?_, ?_⟩, ?_⟩
  · intro i rec hi
    rw [Node.offset_leafRecords hi, Nat.zero_add]
  · rw [n.length_flatMap_keyValue]
    exact hsize
  · intro i rec hi
    rw [Nat.zero_add, hi]
  · intro i rec hi
    rw [Nat.zero_add, hi]
  · omega
  · omega
  · rw [Snapshot.rootNode, root_snapshot rfl hlen]
    rfl

end Tree

end CronosStore.Memiavl
