import CronosStore.Foundation.PostOrder
import CronosStore.Memiavl.Import

/-!
# The streams that are imported

`doImport` decides by two stacks and three checks: no version is larger than a `uint32`, a branch finds
two nodes on the stacks, and at most one node is left in the end. So it accepts just the post-order
listings of full binary trees, and the empty stream (`doImport_ok_iff`). On the way it knows how many
leaves come before a node, which it writes into the branches, but as a `uint32`, which nothing guards:
what it writes is right just for less than `2 ^ 32` leaves (`imports_exactly_iff`).
-/

namespace CronosStore.Memiavl

open Foundation List

def ExportNode.isLeaf (n : ExportNode) : Bool := decide (n.height = 0)

def ExportNode.kvsSize (n : ExportNode) : Nat :=
  if n.isLeaf then 8 + n.key.length + (n.value.getD []).length else 0

structure FilesFit (nodes : List ExportNode) : Prop where
  kvs : (nodes.map ExportNode.kvsSize).sum ≤ maxFileSize
  leaves : nodes.countP ExportNode.isLeaf * sizeLeaf ≤ maxFileSize
  branches : (nodes.countP fun n => !n.isLeaf) * sizeNode ≤ maxFileSize

theorem FilesFit.of_append {a b : List ExportNode} (h : FilesFit (a ++ b)) : FilesFit a := by
  obtain ⟨hkvs, hleaves, hbranches⟩ := h
  rw [map_append, sum_append] at hkvs
  rw [countP_append, Nat.add_mul] at hleaves hbranches
  exact ⟨by omega, by omega, by omega⟩

def stream : Option (FullTree ExportNode) → List ExportNode
  | none => []
  | some t => t.postOrder

def PostOrderOf (root : Option (FullTree ExportNode)) (nodes : List ExportNode) : Prop :=
  (∀ t, root = some t → t.Labelled ExportNode.isLeaf) ∧ nodes = stream root

/-- For every branch in post-order the number of leaves of its subtree and the index of the first leaf
of its right subtree, if there are `before` leaves before the tree. -/
def branchFields : FullTree ExportNode → Nat → List (Nat × Nat)
  | .leaf _, _ => []
  | .branch _ l r, before =>
    branchFields l before ++ branchFields r (before + l.numLeaves) ++
      [(l.numLeaves + r.numLeaves, before + l.numLeaves)]

def rootFields (root : Option (FullTree ExportNode)) : List (Nat × Nat) :=
  (root.map fun t => branchFields t 0).getD []

def Snapshot.branchFields (s : Snapshot) : List (Option (Nat × Nat)) :=
  (List.range (s.nodes.length / sizeNode)).map fun i => (s.node i).map fun d => (d.size, d.keyLeaf)

/-! ## Stacks of trees -/

def forestLeaves : List (FullTree ExportNode) → Nat
  | [] => 0
  | t :: stack => forestLeaves stack + t.numLeaves

def forestFields : List (FullTree ExportNode) → List (Nat × Nat)
  | [] => []
  | t :: stack => forestFields stack ++ branchFields t (forestLeaves stack)

def leafCounts : List (FullTree ExportNode) → List Nat
  | [] => []
  | t :: stack => forestLeaves (t :: stack) % 2 ^ 32 :: leafCounts stack

/-! ## Writing a record -/

namespace SnapshotWriter

variable {w w' : SnapshotWriter}

theorem writeLeaf_eq_ok {rec : LeafRecord} (hoffset : rec.offset = w.kvsOffset) :
    w.writeLeaf (fun _ => false) rec.version rec.key rec.value rec.hash = .ok w' ↔
      w.kvs.length + rec.keyValue.length ≤ maxFileSize ∧ w.leaves.length + sizeLeaf ≤ maxFileSize ∧
        w' = { w with
          kvs := w.kvs ++ rec.keyValue
          kvsOffset := (w.kvsOffset + (4 + 4 + rec.key.length + rec.value.length)) % 2 ^ 64
          leaves := w.leaves ++ rec.encode
          leafCounter := (w.leafCounter + 1) % 2 ^ 32 } := by
  have hkv : putLE 4 rec.key.length ++ rec.key ++ putLE 4 rec.value.length ++ rec.value = rec.keyValue := rfl
  have henc : putLE 4 rec.version ++ putLE 4 rec.key.length ++ putLE 8 w.kvsOffset ++ rec.hash = rec.encode := by
    rw [← hoffset]
    rfl
  rw [writeLeaf, if_neg (by simp), writeKeyValue_eq, hkv]
  by_cases hkvs : w.kvs.length + rec.keyValue.length ≤ maxFileSize
  · rw [writeFile_ok .kvs hkvs]
    simp only [Results.ok_bind]
    rw [writeFile_bind, henc]
    by_cases hleaves : w.leaves.length + rec.encode.length ≤ maxFileSize
    · rw [writeFile_ok .leaves hleaves]
      rw [rec.length_encode] at hleaves
      simp [hkvs, hleaves, eq_comm]
    · rw [writeFile_error .leaves hleaves]
      rw [rec.length_encode] at hleaves
      simp [hleaves]
  · rw [writeFile_error .kvs hkvs]
    simp [hkvs]

theorem writeBranch_eq_ok {rec : BranchRecord} :
    w.writeBranch rec.version rec.size rec.height rec.preTrees rec.keyLeaf rec.hash = .ok w' ↔
      w.nodes.length + sizeNode ≤ maxFileSize ∧
        w' = { w with nodes := w.nodes ++ rec.encode, branchCounter := (w.branchCounter + 1) % 2 ^ 32 } := by
  have henc : putLE 1 rec.height ++ putLE 1 rec.preTrees ++ putLE 2 0 ++ putLE 4 rec.version ++
      putLE 4 rec.size ++ putLE 4 rec.keyLeaf ++ rec.hash = rec.encode := rfl
  rw [writeBranch, writeFile_bind, henc]
  by_cases hnodes : w.nodes.length + rec.encode.length ≤ maxFileSize
  · rw [writeFile_ok .nodes hnodes]
    rw [rec.length_encode] at hnodes
    simp [hnodes, eq_comm]
  · rw [writeFile_error .nodes hnodes]
    rw [rec.length_encode] at hnodes
    simp [hnodes]

structure Wrote (w : SnapshotWriter) (L : List LeafRecord) (B : List BranchRecord) : Prop where
  leaves : w.leaves = L.flatMap LeafRecord.encode
  kvs : w.kvs = L.flatMap LeafRecord.keyValue
  nodes : w.nodes = B.flatMap BranchRecord.encode

end SnapshotWriter

section Adding

variable [Sha256]

structure Importer.Reads (i : Importer) (nodes : List ExportNode) (stack : List (FullTree ExportNode)) :
    Prop where
  listing : FullTree.listing stack = nodes
  labelled : ∀ t ∈ stack, t.Labelled ExportNode.isLeaf
  leafCounter : i.writer.leafCounter = forestLeaves stack % 2 ^ 32
  leavesStack : i.leavesStack = leafCounts stack
  nodeStack : i.nodeStack.map MemNode.size = stack.map FullTree.numLeaves
  fits : FilesFit nodes
  files : ∃ L B, i.writer.Wrote L B ∧ L.length = nodes.countP ExportNode.isLeaf ∧
    (L.flatMap LeafRecord.keyValue).length = (nodes.map ExportNode.kvsSize).sum ∧
    B.length = (nodes.countP fun n => !n.isLeaf) ∧
    B.map (fun r => (r.size, r.keyLeaf)) = (forestFields stack).map fun p => (p.1, p.2 % 2 ^ 32)

omit [Sha256] in
theorem Importer.Reads.empty : Importer.Reads ⟨newSnapshotWriter, [], []⟩ [] [] :=
  ⟨rfl, by simp, rfl, rfl, rfl, ⟨Nat.zero_le _, by simp, by simp⟩, [], [], ⟨rfl, rfl, rfl⟩, rfl, rfl, rfl, rfl⟩

variable {i i' : Importer} {nodes : List ExportNode} {stack stack' : List (FullTree ExportNode)} {n : ExportNode}

def ExportNode.leafRecord (n : ExportNode) (offset : Nat) : LeafRecord where
  version := (n.version % 2 ^ 32).toNat
  key := n.key
  value := n.value.getD []
  offset := offset
  hash := Sha256.sum256 (putVarint 0 ++ putVarint 1 ++ putVarint (n.version % 2 ^ 32).toNat ++
    Node.encodeBytes n.key ++ Node.encodeBytes (Sha256.sum256 (n.value.getD [])))
  length_hash := Sha256.length_sum256 _

def ExportNode.branchRecord (n : ExportNode) (left right : MemNode) (preTrees keyLeaf : Nat) : BranchRecord where
  height := (n.height % 256).toNat
  preTrees := preTrees
  version := (n.version % 2 ^ 32).toNat
  size := left.size + right.size
  keyLeaf := keyLeaf
  hash := Sha256.sum256 (putVarint (n.height % 256).toNat ++ putVarint (left.size + right.size) ++
    putVarint (n.version % 2 ^ 32).toNat ++ Node.encodeBytes (left.hash.getD []) ++
    Node.encodeBytes (right.hash.getD []))
  length_hash := Sha256.length_sum256 _

def ExportNode.leafNode (n : ExportNode) : MemNode where
  height := 0
  size := 1
  version := (n.version % 2 ^ 32).toNat
  key := n.key
  value := n.value
  left := none
  right := none
  hash := some (n.leafRecord 0).hash

def ExportNode.branchNode (n : ExportNode) (left right : MemNode) : MemNode where
  height := (n.height % 256).toNat
  size := left.size + right.size
  version := (n.version % 2 ^ 32).toNat
  key := n.key
  value := none
  left := none
  right := none
  hash := some (n.branchRecord left right 0 0).hash

omit [Sha256] in
theorem ofWriter_eq_ok {α : Type} {x : Except WriteError α} {a : α} : ofWriter x = .ok a ↔ x = .ok a := by
  cases x <;> simp [ofWriter]

theorem Importer.add_version (hversion : ¬n.version ≤ maxUint32) :
    i.add n = .error (.versionOverflow n.version) := if_pos (not_le.mp hversion)

theorem Importer.add_leaf_ok (hversion : n.version ≤ maxUint32) (hn : n.isLeaf = true) :
    i.add n = .ok i' ↔
      i.writer.kvs.length + (n.leafRecord i.writer.kvsOffset).keyValue.length ≤ maxFileSize ∧
      i.writer.leaves.length + sizeLeaf ≤ maxFileSize ∧
      i' = { writer := { i.writer with
               kvs := i.writer.kvs ++ (n.leafRecord i.writer.kvsOffset).keyValue
               kvsOffset := (i.writer.kvsOffset + (4 + 4 + n.key.length + (n.value.getD []).length)) % 2 ^ 64
               leaves := i.writer.leaves ++ (n.leafRecord i.writer.kvsOffset).encode
               leafCounter := (i.writer.leafCounter + 1) % 2 ^ 32 }
             leavesStack := (i.writer.leafCounter + 1) % 2 ^ 32 :: i.leavesStack
             nodeStack := n.leafNode :: i.nodeStack } := by
  rw [Importer.add]
  simp only
  rw [if_neg (not_lt.mpr hversion), if_pos (of_decide_eq_true hn), Results.bind_eq_ok]
  simp only [ofWriter_eq_ok, Results.pure_eq_ok, Except.ok.injEq]
  have hwrite := fun w' => @SnapshotWriter.writeLeaf_eq_ok i.writer w' (n.leafRecord i.writer.kvsOffset) rfl
  constructor
  · rintro ⟨w, hw, rfl⟩
    obtain ⟨hkvs, hleaves, rfl⟩ := (hwrite w).mp hw
    exact ⟨hkvs, hleaves, rfl⟩
  · rintro ⟨hkvs, hleaves, rfl⟩
    exact ⟨_, (hwrite _).mpr ⟨hkvs, hleaves, rfl⟩, rfl⟩

theorem Importer.add_branch_ok (hversion : n.version ≤ maxUint32) (hn : n.isLeaf = false) (w : SnapshotWriter)
    (top keyLeaf : Nat) (leaves : List Nat) (left right : MemNode) (nodes : List MemNode) :
    Importer.add ⟨w, top :: keyLeaf :: leaves, right :: left :: nodes⟩ n = .ok i' ↔
      w.nodes.length + sizeNode ≤ maxFileSize ∧
      i' = { writer := { w with
               nodes := w.nodes ++ (n.branchRecord left right (nodes.length % 256) keyLeaf).encode
               branchCounter := (w.branchCounter + 1) % 2 ^ 32 }
             leavesStack := w.leafCounter :: leaves
             nodeStack := n.branchNode left right :: nodes } := by
  rw [Importer.add]
  simp only
  rw [if_neg (not_lt.mpr hversion), if_neg (of_decide_eq_false hn), Results.bind_eq_ok]
  simp only [ofWriter_eq_ok, Results.pure_eq_ok, Except.ok.injEq]
  have hwrite := fun w' => @SnapshotWriter.writeBranch_eq_ok w w'
    (n.branchRecord left right (nodes.length % 256) keyLeaf)
  constructor
  · rintro ⟨w', hw, rfl⟩
    obtain ⟨hnodes, rfl⟩ := (hwrite w').mp hw
    exact ⟨hnodes, rfl⟩
  · rintro ⟨hnodes, rfl⟩
    exact ⟨_, (hwrite _).mpr ⟨hnodes, rfl⟩, rfl⟩

theorem Importer.add_branch_error (hn : n.isLeaf = false) (hstack : i.leavesStack.length < 2) :
    i.add n ≠ .ok i' := by
  rw [Importer.add]
  simp only
  split_ifs with hversion hleaf
  · simp
  · exact absurd hleaf (of_decide_eq_false hn)
  · rcases hl : i.leavesStack with _ | ⟨_, _ | ⟨_, _⟩⟩
    · simp
    · simp
    · rw [hl, length_cons, length_cons] at hstack
      omega

namespace Importer.Reads

theorem add_leaf (h : i.Reads nodes stack) (hversion : n.version ≤ maxUint32) (hn : n.isLeaf = true) :
    (∀ i', i.add n = .ok i' → i'.Reads (nodes ++ [n]) (.leaf n :: stack)) ∧
      (FilesFit (nodes ++ [n]) → ∃ i', i.add n = .ok i') := by
  obtain ⟨L, B, hwrote, hL, hkvs, hB, hfields⟩ := h.files
  have hlength := (n.leafRecord i.writer.kvsOffset).length_keyValue
  have hsize : n.kvsSize = 8 + n.key.length + (n.value.getD []).length := if_pos hn
  have hkey : (n.leafRecord i.writer.kvsOffset).keyValue.length = n.kvsSize := by
    rw [hlength, hsize]
    rfl
  have hleaves := length_flatMap_const LeafRecord.length_encode L
  have hsum : ((nodes ++ [n]).map ExportNode.kvsSize).sum = (nodes.map ExportNode.kvsSize).sum + n.kvsSize := by
    simp
  have hcount : (nodes ++ [n]).countP ExportNode.isLeaf = nodes.countP ExportNode.isLeaf + 1 := by
    simp [countP_append, hn]
  have hcount' : ((nodes ++ [n]).countP fun n => !n.isLeaf) = nodes.countP fun n => !n.isLeaf := by
    simp [countP_append, hn]
  refine ⟨fun i' hadd => ?_, fun hfit => ?_⟩
  · obtain ⟨hroom, hroom', rfl⟩ := (Importer.add_leaf_ok hversion hn).mp hadd
    rw [hwrote.kvs, hkey] at hroom
    rw [hwrote.leaves, hleaves, hL] at hroom'
    refine ⟨?_, forall_mem_cons.mpr ⟨hn, h.labelled⟩, ?_, ?_, ?_, ⟨?_, ?_, ?_⟩,
      L ++ [n.leafRecord i.writer.kvsOffset], B, ⟨?_, ?_, hwrote.nodes⟩, ?_, ?_, ?_, ?_⟩
    · rw [FullTree.listing, h.listing, FullTree.postOrder]
    · simp only [forestLeaves, FullTree.numLeaves, h.leafCounter, Nat.mod_add_mod]
    · simp only [leafCounts, forestLeaves, FullTree.numLeaves, h.leafCounter, h.leavesStack, Nat.mod_add_mod]
    · rw [map_cons, map_cons, h.nodeStack]
      rfl
    · rw [hsum]
      omega
    · rw [hcount, Nat.add_mul]
      omega
    · rw [hcount']
      exact h.fits.branches
    · simp [hwrote.leaves]
    · simp [hwrote.kvs]
    · rw [hcount, length_append, hL, length_singleton]
    · rw [hsum, flatMap_append, length_append, hkvs, flatMap_singleton, hkey]
    · rw [hcount', hB]
    · rw [hfields, forestFields, branchFields, append_nil]
  · refine ⟨_, (Importer.add_leaf_ok hversion hn).mpr ⟨?_, ?_, rfl⟩⟩
    · rw [hwrote.kvs, hkey, hkvs, ← hsum]
      exact hfit.kvs
    · have := hfit.leaves
      rw [hcount, Nat.add_mul] at this
      rw [hwrote.leaves, hleaves, hL]
      omega

omit [Sha256] in
theorem top_two {l r : FullTree ExportNode} (h : i.Reads nodes (r :: l :: stack)) :
    ∃ right left rest, i.nodeStack = right :: left :: rest ∧ right.size = r.numLeaves ∧
      left.size = l.numLeaves ∧ rest.map MemNode.size = stack.map FullTree.numLeaves := by
  have hstack := h.nodeStack
  match hnodes : i.nodeStack with
  | [] => simp [hnodes] at hstack
  | [_] => simp [hnodes] at hstack
  | right :: left :: rest =>
    rw [hnodes] at hstack
    simp only [map_cons, List.cons.injEq] at hstack
    exact ⟨right, left, rest, rfl, hstack⟩

theorem add_branch {l r : FullTree ExportNode} (h : i.Reads nodes (r :: l :: stack))
    (hversion : n.version ≤ maxUint32) (hn : n.isLeaf = false) :
    (∀ i', i.add n = .ok i' → i'.Reads (nodes ++ [n]) (.branch n l r :: stack)) ∧
      (FilesFit (nodes ++ [n]) → ∃ i', i.add n = .ok i') := by
  obtain ⟨L, B, hwrote, hL, hkvs, hB, hfields⟩ := h.files
  obtain ⟨w, leavesStack, nodeStack⟩ := i
  have hnodes := length_flatMap_const BranchRecord.length_encode B
  have hsum : ((nodes ++ [n]).map ExportNode.kvsSize).sum = (nodes.map ExportNode.kvsSize).sum := by
    simp [ExportNode.kvsSize, hn]
  have hcount : (nodes ++ [n]).countP ExportNode.isLeaf = nodes.countP ExportNode.isLeaf := by
    simp [countP_append, hn]
  have hcount' : ((nodes ++ [n]).countP fun n => !n.isLeaf) = (nodes.countP fun n => !n.isLeaf) + 1 := by
    simp [countP_append, hn]
  obtain ⟨right, left, rest, rfl, hright, hleft, hrest⟩ := h.top_two
  have hleavesStack : leavesStack = forestLeaves (r :: l :: stack) % 2 ^ 32 ::
      forestLeaves (l :: stack) % 2 ^ 32 :: leafCounts stack := h.leavesStack
  subst hleavesStack
  obtain ⟨hr, hlabelled⟩ := forall_mem_cons.mp h.labelled
  obtain ⟨hl, hlabelled⟩ := forall_mem_cons.mp hlabelled
  have htotal : forestLeaves (.branch n l r :: stack) = forestLeaves (r :: l :: stack) := by
    simp only [forestLeaves, FullTree.numLeaves, Nat.add_assoc]
  refine ⟨fun i' hadd => ?_, fun hfit => ?_⟩
  · obtain ⟨hroom, rfl⟩ := (Importer.add_branch_ok hversion hn _ _ _ _ _ _ _).mp hadd
    rw [hwrote.nodes, hnodes, hB] at hroom
    refine ⟨?_, forall_mem_cons.mpr ⟨⟨hn, hl, hr⟩, hlabelled⟩, ?_, ?_, ?_, ⟨?_, ?_, ?_⟩, L,
      B ++ [n.branchRecord left right (rest.length % 256) (forestLeaves (l :: stack) % 2 ^ 32)],
      ⟨hwrote.leaves, hwrote.kvs, ?_⟩, ?_, ?_, ?_, ?_⟩
    · rw [← h.listing]
      simp only [FullTree.listing, FullTree.postOrder, append_assoc]
    · rw [htotal]
      exact h.leafCounter
    · rw [leafCounts, htotal]
      exact congrArg (· :: leafCounts stack) h.leafCounter
    · rw [map_cons, map_cons, hrest]
      simp only [ExportNode.branchNode, hleft, hright, FullTree.numLeaves]
    · rw [hsum]
      exact h.fits.kvs
    · rw [hcount]
      exact h.fits.leaves
    · rw [hcount', Nat.add_mul]
      omega
    · rw [flatMap_append, flatMap_singleton, ← hwrote.nodes]
    · rw [hcount, hL]
    · rw [hsum, hkvs]
    · rw [hcount', length_append, hB, length_singleton]
    · rw [map_append, hfields]
      simp only [forestFields, branchFields, map_append, append_assoc, map_cons, map_nil,
        ExportNode.branchRecord, hleft, hright, forestLeaves]
  · refine ⟨_, (Importer.add_branch_ok hversion hn _ _ _ _ _ _ _).mpr ⟨?_, rfl⟩⟩
    have := hfit.branches
    rw [hcount', Nat.add_mul] at this
    rw [hwrote.nodes, hnodes, hB]
    omega

omit [Sha256] in
theorem length_leavesStack (h : i.Reads nodes stack) : i.leavesStack.length = stack.length := by
  rw [h.leavesStack]
  clear h
  induction stack with
  | nil => rfl
  | cons t stack ih => rw [leafCounts, length_cons, length_cons, ih]

theorem add (h : i.Reads nodes stack) (hadd : i.add n = .ok i') :
    n.version ≤ maxUint32 ∧ ∃ stack', FullTree.shift ExportNode.isLeaf stack n = some stack' ∧
      i'.Reads (nodes ++ [n]) stack' := by
  by_cases hversion : n.version ≤ maxUint32
  · refine ⟨hversion, ?_⟩
    by_cases hn : n.isLeaf = true
    · exact ⟨_, if_pos hn, (h.add_leaf hversion hn).1 i' hadd⟩
    · have hn' := Bool.eq_false_iff.mpr hn
      rcases stack with - | ⟨r, - | ⟨l, stack⟩⟩
      · exact absurd hadd (Importer.add_branch_error hn' (by rw [h.length_leavesStack]; decide))
      · exact absurd hadd (Importer.add_branch_error hn' (by rw [h.length_leavesStack]; exact Nat.lt_succ_self 1))
      · exact ⟨_, if_neg hn, (h.add_branch hversion hn').1 i' hadd⟩
  · rw [Importer.add_version hversion] at hadd
    cases hadd

theorem exists_add (h : i.Reads nodes stack) (hversion : n.version ≤ maxUint32)
    (hshift : FullTree.shift ExportNode.isLeaf stack n = some stack') (hfit : FilesFit (nodes ++ [n])) :
    ∃ i', i.add n = .ok i' := by
  by_cases hn : n.isLeaf = true
  · exact (h.add_leaf hversion hn).2 hfit
  · unfold FullTree.shift at hshift
    rw [if_neg hn] at hshift
    match stack, h, hshift with
    | r :: l :: stack, h, _ => exact (h.add_branch hversion (Bool.eq_false_iff.mpr hn)).2 hfit

theorem foldlM {rest : List ExportNode} (h : i.Reads nodes stack)
    (hrun : rest.foldlM Importer.add i = .ok i') :
    (∀ n ∈ rest, n.version ≤ maxUint32) ∧
      ∃ stack', rest.foldlM (FullTree.shift ExportNode.isLeaf) stack = some stack' ∧
        i'.Reads (nodes ++ rest) stack' := by
  induction rest generalizing i nodes stack with
  | nil =>
    cases hrun
    exact ⟨by simp, stack, rfl, by rwa [append_nil]⟩
  | cons n rest ih =>
    rw [foldlM_cons, Results.bind_eq_ok] at hrun
    obtain ⟨i1, hadd, hrun⟩ := hrun
    obtain ⟨hversion, stack1, hshift, h1⟩ := h.add hadd
    obtain ⟨hversions, stack', hshifts, h'⟩ := ih h1 hrun
    refine ⟨forall_mem_cons.mpr ⟨hversion, hversions⟩, stack', ?_, ?_⟩
    · rw [foldlM_cons, hshift]
      exact hshifts
    · rwa [append_assoc, singleton_append] at h'

theorem exists_foldlM {rest : List ExportNode} (h : i.Reads nodes stack)
    (hversions : ∀ n ∈ rest, n.version ≤ maxUint32)
    (hshifts : rest.foldlM (FullTree.shift ExportNode.isLeaf) stack = some stack')
    (hfit : FilesFit (nodes ++ rest)) : ∃ i', rest.foldlM Importer.add i = .ok i' := by
  induction rest generalizing i nodes stack with
  | nil => exact ⟨i, rfl⟩
  | cons n rest ih =>
    rw [foldlM_cons, Option.bind_eq_bind, Option.bind_eq_some_iff] at hshifts
    obtain ⟨stack1, hshift, hshifts⟩ := hshifts
    obtain ⟨hversion, hversions⟩ := forall_mem_cons.mp hversions
    rw [← singleton_append, ← append_assoc] at hfit
    obtain ⟨i1, hadd⟩ := h.exists_add hversion hshift hfit.of_append
    obtain ⟨-, stack2, hshift2, h1⟩ := h.add hadd
    cases hshift.symm.trans hshift2
    obtain ⟨i', hrun⟩ := ih h1 hversions hshifts hfit
    refine ⟨i', ?_⟩
    rw [foldlM_cons, hadd]
    exact hrun

end Importer.Reads

variable {version : Int} {t : FullTree ExportNode}

theorem doImport_eq_ok (hversion : version ≤ maxUint32) {dir : SnapshotDir} :
    doImport version nodes = .ok dir ↔
      ∃ i, nodes.foldlM Importer.add ⟨newSnapshotWriter, [], []⟩ = .ok i ∧ i.leavesStack.length ≤ 1 ∧
        dir = importedFiles version
          (if i.leavesStack.length = 1 ∧ 0 < i.writer.leafCounter then i.writer else newSnapshotWriter) := by
  rw [doImport, if_neg (not_lt.mpr hversion), Results.bind_eq_ok]
  refine exists_congr fun i => and_congr_right fun _ => ?_
  rcases hlength : i.leavesStack.length with - | - | size
  · simp [Importer.finish, hlength, eq_comm]
  · simp [Importer.finish, hlength, eq_comm]
  · simp [Importer.finish, hlength]

/-- The streams that are accepted: listings of a tree, or of none, if the files can be written. -/
theorem doImport_ok_iff (hversion : version ≤ maxUint32) :
    (∃ dir, doImport version nodes = .ok dir) ↔
      ((∀ n ∈ nodes, n.version ≤ maxUint32) ∧ ∃ root, PostOrderOf root nodes) ∧ FilesFit nodes := by
  constructor
  · rintro ⟨dir, h⟩
    obtain ⟨i, hrun, hlength, -⟩ := (doImport_eq_ok hversion).mp h
    obtain ⟨hversions, stack, hshifts, hreads⟩ := Importer.Reads.empty.foldlM hrun
    rw [nil_append] at hreads
    refine ⟨⟨hversions, ?_⟩, hreads.fits⟩
    rw [hreads.length_leavesStack] at hlength
    match stack, hlength, hshifts with
    | [], _, hshifts => exact ⟨none, by simp, FullTree.foldlM_shift_eq_nil.mp hshifts⟩
    | [t], _, hshifts =>
      obtain ⟨ht, hnodes⟩ := FullTree.foldlM_shift_eq_singleton.mp hshifts
      refine ⟨some t, ?_, hnodes⟩
      rintro t' ⟨⟩
      exact ht
  · rintro ⟨⟨hversions, root, hroot, rfl⟩, hfit⟩
    cases root with
    | none => exact ⟨_, (doImport_eq_ok hversion).mpr ⟨_, rfl, Nat.zero_le _, rfl⟩⟩
    | some t =>
      have hshifts := FullTree.foldlM_shift_postOrder (hroot t rfl) []
      obtain ⟨i, hrun⟩ := Importer.Reads.empty.exists_foldlM hversions hshifts hfit
      obtain ⟨-, stack, hshifts', hreads⟩ := Importer.Reads.empty.foldlM hrun
      cases hshifts.symm.trans hshifts'
      refine ⟨_, (doImport_eq_ok hversion).mpr ⟨i, hrun, ?_, rfl⟩⟩
      rw [hreads.length_leavesStack]
      exact le_rfl

/-- Importing a stream does what it should: it is accepted if it is the listing of a tree or of none,
and then the snapshot can be opened and has the fields of the branches of the tree. -/
def ImportsExactly (version : Int) (nodes : List ExportNode) : Prop :=
  ((∃ dir, doImport version nodes = .ok dir) ↔
    (∀ n ∈ nodes, n.version ≤ maxUint32) ∧ ∃ root, PostOrderOf root nodes) ∧
  ∀ dir root, doImport version nodes = .ok dir → PostOrderOf root nodes →
    ∃ s, openSnapshot dir = .ok s ∧ s.branchFields = (rootFields root).map some

omit [Sha256] in
theorem length_branchFields (t : FullTree ExportNode) (before : Nat) :
    (branchFields t before).length + 1 = t.numLeaves := by
  induction t generalizing before with
  | leaf n => rfl
  | branch n l r ihl ihr =>
    have hl := ihl before
    have hr := ihr (before + l.numLeaves)
    simp only [branchFields, length_append, length_singleton, FullTree.numLeaves]
    omega

omit [Sha256] in
theorem branchFields_ofRecords (version : Nat) (L : List LeafRecord) (B : List BranchRecord) :
    (Snapshot.ofRecords version L B).branchFields =
      B.map fun r => some (r.size % 2 ^ 32, r.keyLeaf % 2 ^ 32) := by
  have hlength : (B.flatMap BranchRecord.encode).length / sizeNode = B.length := by
    rw [length_flatMap_const BranchRecord.length_encode]
    exact Nat.mul_div_cancel _ (by decide)
  refine ext_getElem? fun k => ?_
  simp only [Snapshot.branchFields, Snapshot.ofRecords, hlength, getElem?_map]
  rcases Nat.lt_or_ge k B.length with hk | hk
  · have hrec := getElem?_eq_getElem hk
    rw [getElem?_range hk, hrec, Option.map_some, Option.map_some, Snapshot.node,
      slice_flatMap BranchRecord.length_encode hrec]
    simp only [Option.map_some, NodeLayout.size_encode, NodeLayout.keyLeaf_encode]
  · rw [getElem?_eq_none (by rwa [length_range]), getElem?_eq_none hk]
    rfl

/-- The files of a tree, if the count of its leaves is not taken for none. -/
theorem openSnapshot_doImport (hversion : version ≤ maxUint32)
    (ht : t.Labelled ExportNode.isLeaf) {dir : SnapshotDir} (h : doImport version t.postOrder = .ok dir)
    (hcount : t.numLeaves % 2 ^ 32 ≠ 0) :
    ∃ s, openSnapshot dir = .ok s ∧
      s.branchFields = (branchFields t 0).map fun p => some (p.1 % 2 ^ 32, p.2 % 2 ^ 32) := by
  obtain ⟨i, hrun, -, rfl⟩ := (doImport_eq_ok hversion).mp h
  obtain ⟨-, stack, hshifts, hreads⟩ := Importer.Reads.empty.foldlM hrun
  rw [nil_append] at hreads
  cases (FullTree.foldlM_shift_postOrder ht []).symm.trans hshifts
  have hleaves : forestLeaves [t] = t.numLeaves := Nat.zero_add _
  have hcounter := hreads.leafCounter
  rw [hleaves] at hcounter
  obtain ⟨L, B, hwrote, hL, -, -, hfields⟩ := hreads.files
  have hfields' : B.map (fun r => (r.size, r.keyLeaf)) =
      (branchFields t 0).map fun p => (p.1, p.2 % 2 ^ 32) := hfields
  have hB : B.length + 1 = t.numLeaves := by
    rw [← length_branchFields t 0, ← length_map (fun r : BranchRecord => (r.size, r.keyLeaf)), hfields',
      length_map]
  rw [FullTree.countP_postOrder ht] at hL
  have hfiles : importedFiles version
      (if i.leavesStack.length = 1 ∧ 0 < i.writer.leafCounter then i.writer else newSnapshotWriter) =
      SnapshotDir.ofRecords (version % 2 ^ 32).toNat L B := by
    rw [if_pos ⟨hreads.length_leavesStack, by omega⟩, importedFiles, SnapshotDir.ofRecords, hwrote.nodes,
      hwrote.leaves, hwrote.kvs]
  refine ⟨_, hfiles ▸ openSnapshot_ofRecords (by omega) (.inl (hB.trans hL.symm)), ?_⟩
  rw [branchFields_ofRecords]
  have hmap := congrArg (List.map fun p : Nat × Nat => some (p.1 % 2 ^ 32, p.2 % 2 ^ 32)) hfields'
  simpa only [map_map, Function.comp_def, Nat.mod_mod] using hmap

omit [Sha256] in
theorem Snapshot.branchFields_lt {s : Snapshot} {p : Nat × Nat} (h : some p ∈ s.branchFields) :
    p.1 < 2 ^ 32 := by
  obtain ⟨k, -, hp⟩ := mem_map.mp h
  obtain ⟨d, -, rfl⟩ := Option.map_eq_some_iff.mp hp
  exact readLE_take_lt 4 _

omit [Sha256] in
theorem branchFields_le {before : Nat} :
    ∀ p ∈ branchFields t before, p.1 ≤ t.numLeaves ∧ p.2 < before + t.numLeaves := by
  induction t generalizing before with
  | leaf n => exact fun p hp => absurd hp not_mem_nil
  | branch n l r ihl ihr =>
    intro p hp
    have hpos := r.numLeaves_pos
    rw [FullTree.numLeaves]
    simp only [branchFields, mem_append, mem_singleton] at hp
    rcases hp with (hp | hp) | rfl
    · have := ihl p hp
      omega
    · have := ihr p hp
      omega
    · exact ⟨le_rfl, by omega⟩

omit [Sha256] in
theorem exists_mem_branchFields (h : 1 < t.numLeaves) :
    ∃ p ∈ branchFields t 0, p.1 = t.numLeaves := by
  cases t with
  | leaf n => exact absurd h (lt_irrefl 1)
  | branch n l r =>
    refine ⟨(l.numLeaves + r.numLeaves, 0 + l.numLeaves), ?_, rfl⟩
    exact mem_append_right _ (mem_singleton.mpr rfl)

theorem ImportsExactly.count_lt (h : ImportsExactly version nodes)
    (hversions : ∀ n ∈ nodes, n.version ≤ maxUint32) {root : Option (FullTree ExportNode)}
    (hroot : PostOrderOf root nodes) : nodes.countP ExportNode.isLeaf < 2 ^ 32 := by
  obtain ⟨haccept, hfiles⟩ := h
  obtain ⟨dir, hdir⟩ := haccept.mpr ⟨hversions, root, hroot⟩
  obtain ⟨s, -, hfields⟩ := hfiles dir root hdir hroot
  obtain ⟨hlabelled, rfl⟩ := hroot
  cases root with
  | none => exact Nat.two_pow_pos 32
  | some t =>
    rw [stream, FullTree.countP_postOrder (hlabelled t rfl)]
    by_contra hge
    obtain ⟨p, hp, hsize⟩ := exists_mem_branchFields (t := t) (by omega)
    have hmem : some p ∈ s.branchFields := by
      rw [hfields]
      exact mem_map_of_mem hp
    have := Snapshot.branchFields_lt hmem
    omega

/-- The condition: a stream that is to be accepted has files that fit, and its leaves can be counted
in a `uint32`. -/
theorem imports_exactly_iff {version : Int} (hversion : version ≤ maxUint32) (nodes : List ExportNode) :
    ImportsExactly version nodes ↔
      ((∀ n ∈ nodes, n.version ≤ maxUint32) ∧ (∃ root, PostOrderOf root nodes) →
        FilesFit nodes ∧ nodes.countP ExportNode.isLeaf < 2 ^ 32) := by
  constructor
  · rintro h ⟨hversions, root, hroot⟩
    refine ⟨?_, h.count_lt hversions hroot⟩
    exact ((doImport_ok_iff hversion).mp (h.1.mpr ⟨hversions, root, hroot⟩)).2
  · intro h
    refine ⟨?_, fun dir root hdir hroot => ?_⟩
    · rw [doImport_ok_iff hversion]
      exact ⟨And.left, fun hgood => ⟨hgood, (h hgood).1⟩⟩
    · have hcount := (h ((doImport_ok_iff hversion).mp ⟨dir, hdir⟩).1).2
      obtain ⟨hlabelled, rfl⟩ := hroot
      cases root with
      | none =>
        obtain ⟨i, hrun, -, rfl⟩ := (doImport_eq_ok hversion).mp hdir
        cases hrun
        refine ⟨_, openSnapshot_ofRecords (L := []) (B := []) (by omega) (.inr ⟨rfl, rfl⟩), ?_⟩
        exact branchFields_ofRecords _ [] []
      | some t =>
        rw [stream, FullTree.countP_postOrder (hlabelled t rfl)] at hcount
        have hpos := t.numLeaves_pos
        obtain ⟨s, hopen, hfields⟩ := openSnapshot_doImport hversion (hlabelled t rfl) hdir
          (by rw [Nat.mod_eq_of_lt hcount]; omega)
        refine ⟨s, hopen, hfields.trans (map_congr_left fun p hp => ?_)⟩
        obtain ⟨hsize, hkey⟩ := branchFields_le p hp
        rw [Nat.mod_eq_of_lt (by omega), Nat.mod_eq_of_lt (by omega)]

omit [Sha256] in
/-- Two leaves and their parent. -/
theorem imports_exactly_pair : @ImportsExactly Sha256.zero 2
    [⟨[1], some [7], 1, 0⟩, ⟨[2], none, 2, 0⟩, ⟨[2], none, 2, 1⟩] :=
  (@imports_exactly_iff Sha256.zero 2 (by decide) _).mpr fun _ => ⟨⟨by decide, by decide, by decide⟩, by decide⟩

def comb : Nat → FullTree ExportNode
  | 0 => .leaf ⟨[], none, 0, 0⟩
  | n + 1 => .branch ⟨[], none, 0, 1⟩ (comb n) (.leaf ⟨[], none, 0, 0⟩)

omit [Sha256] in
theorem comb_spec (n : Nat) : (comb n).Labelled ExportNode.isLeaf ∧ (comb n).numLeaves = n + 1 ∧
    (∀ x ∈ (comb n).postOrder, x.version = 0) ∧
    ((comb n).postOrder.map ExportNode.kvsSize).sum = 8 * (n + 1) ∧
    ((comb n).postOrder.countP fun x => !x.isLeaf) = n := by
  induction n with
  | zero => exact ⟨rfl, rfl, by simp [comb, FullTree.postOrder], rfl, rfl⟩
  | succ n ih =>
    obtain ⟨hlabelled, hleaves, hversions, hkvs, hbranches⟩ := ih
    refine ⟨⟨rfl, hlabelled, rfl⟩, ?_, ?_, ?_, ?_⟩
    · rw [comb, FullTree.numLeaves, hleaves, FullTree.numLeaves]
    · simp only [comb, FullTree.postOrder, mem_append, mem_singleton]
      rintro x ((hx | rfl) | rfl)
      · exact hversions x hx
      · rfl
      · rfl
    · simp only [comb, FullTree.postOrder, map_append, sum_append, hkvs]
      simp [ExportNode.kvsSize, ExportNode.isLeaf]
      omega
    · simp only [comb, FullTree.postOrder, countP_append, hbranches]
      simp [ExportNode.isLeaf]

omit [Sha256] in
/-- With `2 ^ 32 + 1` leaves the stream of a tree is accepted, and the root has the size 1 and the key of
the first leaf. -/
theorem exists_size_wrapped : ∃ (t : FullTree ExportNode) (dir : SnapshotDir) (s : Snapshot),
    t.Labelled ExportNode.isLeaf ∧ (∀ n ∈ t.postOrder, n.version ≤ maxUint32) ∧ t.numLeaves = 2 ^ 32 + 1 ∧
    @doImport Sha256.zero 1 t.postOrder = .ok dir ∧ openSnapshot dir = .ok s ∧
    s.branchFields.getLast? = some (some (1, 0)) := by
  obtain ⟨n, hn⟩ : ∃ n, n + 2 = 2 ^ 32 + 1 := ⟨2 ^ 32 - 1, by decide⟩
  obtain ⟨hlabelled, hleaves, hversions, hkvs, hbranches⟩ := comb_spec (n + 1)
  have hversions' : ∀ x ∈ (comb (n + 1)).postOrder, x.version ≤ maxUint32 := by
    intro x hx
    rw [hversions x hx]
    exact Int.natCast_nonneg _
  have hfit : FilesFit (comb (n + 1)).postOrder := by
    refine ⟨?_, ?_, ?_⟩
    · rw [hkvs]
      simp only [maxFileSize]
      omega
    · rw [FullTree.countP_postOrder hlabelled, hleaves]
      simp only [maxFileSize, sizeLeaf]
      omega
    · rw [hbranches]
      simp only [maxFileSize, sizeNode]
      omega
  have hroot : PostOrderOf (some (comb (n + 1))) (comb (n + 1)).postOrder := by
    refine ⟨?_, rfl⟩
    rintro t ⟨⟩
    exact hlabelled
  obtain ⟨dir, hdir⟩ := (@doImport_ok_iff Sha256.zero _ 1 (by decide)).mpr ⟨⟨hversions', _, hroot⟩, hfit⟩
  obtain ⟨s, hopen, hfields⟩ := @openSnapshot_doImport Sha256.zero 1 _ (by decide) hlabelled dir hdir (by omega)
  refine ⟨_, dir, s, hlabelled, hversions', by omega, hdir, hopen, ?_⟩
  have hlast : ((2 ^ 32 + 1) % 2 ^ 32, 2 ^ 32 % 2 ^ 32) = (1, 0) := by decide
  have hleft : (comb n).numLeaves = 2 ^ 32 := by
    rw [(comb_spec n).2.1]
    omega
  rw [hfields, comb, branchFields, map_append, map_singleton, getLast?_concat,
    FullTree.numLeaves, hleft, Nat.zero_add]
  exact congrArg (fun p => some (some p)) hlast

end Adding

end CronosStore.Memiavl
