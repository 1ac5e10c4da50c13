import CronosStore.Foundation.Results
import CronosStore.Memiavl.Snapshot

/-!
# Writing a snapshot

The writing half of `memiavl/snapshot.go`. `writeRecursive` walks the tree in post-order through the
`Node` interface and appends to three files, counting what it wrote. It fails when the context is
cancelled, which is looked at every thousand leaves, and when a file would outgrow the offsets of
the file system (`int64`).
-/

namespace CronosStore.Memiavl

open Foundation List Results

def cancelCheckInterval : Nat := 1000

inductive WriteError
  | cancelled
  | fileTooLarge (file : SnapshotFile)
  /-- A call on a node panics, or the walk does not end. -/
  | panic
deriving DecidableEq

structure SnapshotWriter where
  nodes : Bytes
  leaves : Bytes
  kvs : Bytes
  branchCounter : Nat
  leafCounter : Nat
  kvsOffset : Nat
deriving DecidableEq

def newSnapshotWriter : SnapshotWriter where
  nodes := []
  leaves := []
  kvs := []
  branchCounter := 0
  leafCounter := 0
  kvsOffset := 0

def maxFileSize : Nat := 2 ^ 63 - 1

def writeFile (file : SnapshotFile) (content data : Bytes) : Except WriteError Bytes :=
  if content.length + data.length ≤ maxFileSize then .ok (content ++ data)
  else .error (.fileTooLarge file)

def ask {α : Type} : Option α → Except WriteError α
  | some a => .ok a
  | none => .error .panic

namespace SnapshotWriter

def writeKeyValue (w : SnapshotWriter) (key value : Bytes) :
    Except WriteError SnapshotWriter := do
  let kvs ← writeFile .kvs w.kvs (putLE 4 key.length)
  let kvs ← writeFile .kvs kvs key
  let kvs ← writeFile .kvs kvs (putLE 4 value.length)
  let kvs ← writeFile .kvs kvs value
  pure { w with
    kvs := kvs
    kvsOffset := (w.kvsOffset + (4 + 4 + key.length + value.length)) % 2 ^ 64 }

/-- `done n` tells whether the context is cancelled when `n` leaves have been written. -/
def writeLeaf (done : Nat → Bool) (w : SnapshotWriter) (version : Nat)
    (key value hash : Bytes) : Except WriteError SnapshotWriter := do
  if w.leafCounter % cancelCheckInterval = 0 ∧ done w.leafCounter then throw .cancelled
  let buf := putLE 4 version ++ putLE 4 key.length ++ putLE 8 w.kvsOffset
  let w ← w.writeKeyValue key value
  let leaves ← writeFile .leaves w.leaves buf
  let leaves ← writeFile .leaves leaves hash
  pure { w with leaves := leaves, leafCounter := (w.leafCounter + 1) % 2 ^ 32 }

def writeBranch (w : SnapshotWriter) (version size height preTrees keyLeaf : Nat)
    (hash : Bytes) : Except WriteError SnapshotWriter := do
  let buf := putLE 1 height ++ putLE 1 preTrees ++ putLE 2 0 ++ putLE 4 version ++
    putLE 4 size ++ putLE 4 keyLeaf
  let nodes ← writeFile .nodes w.nodes buf
  let nodes ← writeFile .nodes nodes hash
  pure { w with nodes := nodes, branchCounter := (w.branchCounter + 1) % 2 ^ 32 }

/-- The number of pending subtrees before the current one, as the `uint8` that is stored. -/
def preTrees (w : SnapshotWriter) : Nat :=
  (w.leafCounter + 2 ^ 32 - w.branchCounter) % 2 ^ 32 % 256

def writeRecursive {N : Type} (I : NodeInterface N) (done : Nat → Bool) :
    Nat → SnapshotWriter → N → Except WriteError SnapshotWriter
  | 0, _, _ => .error .panic
  | depth + 1, w, node => do
    if ← ask (I.isLeaf node) then
      w.writeLeaf done (← ask (I.version node)) (← ask (I.key node))
        ((← ask (I.value node)).getD []) (← ask (I.hash node))
    else
      let preTrees := w.preTrees
      let w ← writeRecursive I done depth w (← ask (I.left node))
      let keyLeaf := w.leafCounter
      let w ← writeRecursive I done depth w (← ask (I.right node))
      w.writeBranch (← ask (I.version node)) (← ask (I.size node)) (← ask (I.height node))
        preTrees keyLeaf (← ask (I.hash node))

end SnapshotWriter

def metadataBytes (version : Nat) : Bytes :=
  putLE 4 snapshotFileMagic ++ putLE 4 snapshotFormat ++ putLE 4 version

/-- `WriteSnapshotWithContext`: the files it leaves. The three writers are flushed only
when leaves were counted. -/
def writeSnapshot {N : Type} (I : NodeInterface N) (done : Nat → Bool) (version : Nat)
    (root : Option N) : Except WriteError SnapshotDir := do
  let w ← match root with
    | none => pure newSnapshotWriter
    | some node => do
      SnapshotWriter.writeRecursive I done ((← ask (I.height node)) + 1) newSnapshotWriter node
  let files := if w.leafCounter > 0 then w else newSnapshotWriter
  pure { metadata := some (metadataBytes version), nodes := some files.nodes,
         leaves := some files.leaves, kvs := some files.kvs }

structure LeafRecord where
  version : Nat
  key : Bytes
  value : Bytes
  offset : Nat
  hash : Bytes
  length_hash : hash.length = 32

def LeafRecord.encode (r : LeafRecord) : Bytes :=
  putLE 4 r.version ++ putLE 4 r.key.length ++ putLE 8 r.offset ++ r.hash

def LeafRecord.keyValue (r : LeafRecord) : Bytes :=
  putLE 4 r.key.length ++ r.key ++ putLE 4 r.value.length ++ r.value

structure BranchRecord where
  height : Nat
  preTrees : Nat
  version : Nat
  size : Nat
  keyLeaf : Nat
  hash : Bytes
  length_hash : hash.length = 32

def BranchRecord.encode (r : BranchRecord) : Bytes :=
  putLE 1 r.height ++ putLE 1 r.preTrees ++ putLE 2 0 ++ putLE 4 r.version ++ putLE 4 r.size ++
    putLE 4 r.keyLeaf ++ r.hash

theorem LeafRecord.length_encode (r : LeafRecord) : r.encode.length = sizeLeaf := by
  simp [encode, r.length_hash, sizeLeaf]

theorem BranchRecord.length_encode (r : BranchRecord) : r.encode.length = sizeNode := by
  simp [encode, r.length_hash, sizeNode]

theorem LeafRecord.length_keyValue (r : LeafRecord) :
    r.keyValue.length = 8 + r.key.length + r.value.length := by
  simp only [keyValue, length_append, length_putLE]
  omega

namespace Node

def kvsSize : Node → Nat
  | .leaf _ k x => 8 + k.length + (x.getD []).length
  | .branch _ _ _ _ l r => kvsSize l + kvsSize r

variable [Sha256]

def leafRecords : Node → Nat → List LeafRecord
  | .leaf v k x, offset =>
    [{ version := v, key := k, value := x.getD [], offset := offset,
       hash := hashNode (.leaf v k x), length_hash := length_hashNode _ }]
  | .branch _ _ _ _ l r, offset => leafRecords l offset ++ leafRecords r (offset + kvsSize l)

/-- The record of a branch with the left child `l`, where `leaves` leaves and `branches`
branches come before its subtree. -/
def branchRecord (n l : Node) (leaves branches : Nat) : BranchRecord where
  height := n.height
  preTrees := leaves - branches
  version := n.version
  size := n.size
  keyLeaf := leaves + l.toList.length
  hash := n.hashNode
  length_hash := n.length_hashNode

def branchRecords : Node → Nat → Nat → List BranchRecord
  | .leaf .., _, _ => []
  | .branch h s v k l r, leaves, branches =>
    branchRecords l leaves branches ++
      branchRecords r (leaves + l.toList.length) (branches + l.toList.length - 1) ++
      [branchRecord (.branch h s v k l r) l leaves branches]

theorem length_leafRecords (n : Node) (offset : Nat) :
    (leafRecords n offset).length = n.toList.length := by
  induction n generalizing offset with
  | leaf => rfl
  | branch h s v k l r ihl ihr => simp only [leafRecords, toList, length_append, ihl, ihr]

omit [Sha256] in
theorem length_toList_pos (n : Node) : 0 < n.toList.length := by
  obtain ⟨p, hp, -⟩ := exists_minKey_mem n
  exact length_pos_of_mem hp

theorem length_branchRecords (n : Node) (leaves branches : Nat) :
    (branchRecords n leaves branches).length + 1 = n.toList.length := by
  induction n generalizing leaves branches with
  | leaf => rfl
  | branch h s v k l r ihl ihr =>
    have hl := ihl leaves branches
    have hr := ihr (leaves + l.toList.length) (branches + l.toList.length - 1)
    simp only [branchRecords, toList, length_append, length_singleton]
    omega

theorem length_flatMap_keyValue (n : Node) (offset : Nat) :
    ((leafRecords n offset).flatMap LeafRecord.keyValue).length = n.kvsSize := by
  induction n generalizing offset with
  | leaf v k x => simp [leafRecords, kvsSize, LeafRecord.length_keyValue]
  | branch h s v k l r ihl ihr =>
    simp only [leafRecords, kvsSize, flatMap_append, length_append, ihl, ihr]

end Node

/-! ## What the writer does -/

theorem writeFile_ok {content data : Bytes} (file : SnapshotFile)
    (h : content.length + data.length ≤ maxFileSize) :
    writeFile file content data = .ok (content ++ data) := if_pos h

theorem writeFile_error {content data : Bytes} (file : SnapshotFile)
    (h : ¬ content.length + data.length ≤ maxFileSize) :
    writeFile file content data = .error (.fileTooLarge file) := if_neg h

theorem writeFile_bind {α : Type} (file : SnapshotFile) (content a b : Bytes)
    (k : Bytes → Except WriteError α) :
    (writeFile file content a >>= fun c => writeFile file c b >>= k) =
      (writeFile file content (a ++ b) >>= k) := by
  by_cases h : content.length + (a ++ b).length ≤ maxFileSize
  · have hab := h
    rw [length_append] at hab
    have hb : (content ++ a).length + b.length ≤ maxFileSize := by
      rw [length_append]
      omega
    have ha : content.length + a.length ≤ maxFileSize := by omega
    rw [writeFile_ok file h, writeFile_ok file ha]
    simp only [ok_bind, writeFile_ok file hb, append_assoc]
  · rw [writeFile_error file h]
    rw [length_append] at h
    by_cases ha : content.length + a.length ≤ maxFileSize
    · have hb : ¬ (content ++ a).length + b.length ≤ maxFileSize := by
        rw [length_append]
        omega
      rw [writeFile_ok file ha]
      simp only [ok_bind, writeFile_error file hb, error_bind]
    · rw [writeFile_error file ha]
      rfl

namespace SnapshotWriter

theorem writeKeyValue_eq (w : SnapshotWriter) (key value : Bytes) :
    w.writeKeyValue key value =
      writeFile .kvs w.kvs (putLE 4 key.length ++ key ++ putLE 4 value.length ++ value) >>=
        fun kvs => .ok { w with
          kvs := kvs
          kvsOffset := (w.kvsOffset + (4 + 4 + key.length + value.length)) % 2 ^ 64 } := by
  rw [writeKeyValue, writeFile_bind, writeFile_bind, writeFile_bind]
  rfl

structure Consistent (w : SnapshotWriter) : Prop where
  nodes : w.nodes.length = w.branchCounter * sizeNode
  leaves : w.leaves.length = w.leafCounter * sizeLeaf
  kvs : w.kvs.length = w.kvsOffset
  le : w.branchCounter ≤ w.leafCounter

variable [Sha256]

def append (w : SnapshotWriter) (n : Node) : SnapshotWriter where
  nodes := w.nodes ++ (n.branchRecords w.leafCounter w.branchCounter).flatMap BranchRecord.encode
  leaves := w.leaves ++ (n.leafRecords w.kvsOffset).flatMap LeafRecord.encode
  kvs := w.kvs ++ (n.leafRecords w.kvsOffset).flatMap LeafRecord.keyValue
  branchCounter := w.branchCounter + n.toList.length - 1
  leafCounter := w.leafCounter + n.toList.length
  kvsOffset := w.kvsOffset + n.kvsSize

variable {w : SnapshotWriter}

theorem Consistent.append (hw : w.Consistent) (n : Node) :
    (w.append n).Consistent := by
  have hb := n.length_branchRecords w.leafCounter w.branchCounter
  have hn := length_flatMap_const BranchRecord.length_encode
    (n.branchRecords w.leafCounter w.branchCounter)
  have hl := length_flatMap_const LeafRecord.length_encode (n.leafRecords w.kvsOffset)
  rw [n.length_leafRecords] at hl
  have hle := hw.le
  have hb' : (n.branchRecords w.leafCounter w.branchCounter).length = n.toList.length - 1 := by
    omega
  refine ⟨?_, ?_, ?_, ?_⟩
  · simp only [SnapshotWriter.append, length_append]
    rw [hn, hw.nodes, hb', ← Nat.add_mul]
    congr 1
    omega
  · simp only [SnapshotWriter.append, length_append]
    rw [hl, hw.leaves, ← Nat.add_mul]
  · simp only [SnapshotWriter.append, length_append]
    rw [n.length_flatMap_keyValue, hw.kvs]
  · simp only [SnapshotWriter.append]
    omega

theorem writeLeaf_eq {done : Nat → Bool} (hdone : ∀ i, done i = false)
    (hw : w.Consistent) (hroom : w.leafCounter + 1 < 2 ^ 32) (v : Nat) (k : Bytes) (x : Slice) :
    w.writeLeaf done v k (x.getD []) (Node.hashNode (.leaf v k x)) =
      if w.kvs.length + (Node.leaf v k x).kvsSize ≤ maxFileSize then .ok (w.append (.leaf v k x))
      else .error (.fileTooLarge .kvs) := by
  have hlen : w.leaves.length + sizeLeaf ≤ maxFileSize := by
    rw [hw.leaves]
    simp only [sizeLeaf, maxFileSize]
    omega
  have hkvs := hw.kvs
  have hkv : w.kvsOffset ≤ maxFileSize → w.kvs.length + (Node.leaf v k x).kvsSize ≤ maxFileSize →
      (w.kvsOffset + (4 + 4 + k.length + (x.getD []).length)) % 2 ^ 64 =
        w.kvsOffset + (Node.leaf v k x).kvsSize := by
    simp only [Node.kvsSize, maxFileSize]
    omega
  have hdata : (putLE 4 k.length ++ k ++ putLE 4 (x.getD []).length ++ x.getD []).length =
      (Node.leaf v k x).kvsSize := by
    simp only [length_append, length_putLE, Node.kvsSize]
    omega
  have hrec : (putLE 4 v ++ putLE 4 k.length ++ putLE 8 w.kvsOffset ++
      Node.hashNode (.leaf v k x)).length = sizeLeaf := by
    simp [Node.length_hashNode, sizeLeaf]
  rw [writeLeaf, if_neg (by simp [hdone]), writeKeyValue_eq]
  by_cases hfit : w.kvs.length + (Node.leaf v k x).kvsSize ≤ maxFileSize
  · rw [if_pos hfit, writeFile_ok .kvs (hdata ▸ hfit)]
    simp only [ok_bind]
    rw [writeFile_bind, writeFile_ok .leaves (hrec ▸ hlen)]
    simp only [ok_bind, pure_eq_ok, append, Node.leafRecords, Node.branchRecords,
      flatMap_singleton, flatMap_nil, append_nil, LeafRecord.encode,
      LeafRecord.keyValue, Node.toList, length_singleton, Nat.add_sub_cancel,
      Nat.mod_eq_of_lt hroom, hkv (by omega) hfit]
  · rw [if_neg hfit, writeFile_error .kvs (hdata ▸ hfit)]
    rfl

omit [Sha256] in
theorem writeBranch_eq (hw : w.Consistent)
    (hroom : w.branchCounter + 1 < 2 ^ 32) (rec : BranchRecord) :
    w.writeBranch rec.version rec.size rec.height rec.preTrees rec.keyLeaf rec.hash =
      .ok { w with nodes := w.nodes ++ rec.encode, branchCounter := w.branchCounter + 1 } := by
  have hlen : w.nodes.length + sizeNode ≤ maxFileSize := by
    rw [hw.nodes]
    simp only [sizeNode, maxFileSize]
    omega
  have henc : rec.encode = putLE 1 rec.height ++ putLE 1 rec.preTrees ++ putLE 2 0 ++
      putLE 4 rec.version ++ putLE 4 rec.size ++ putLE 4 rec.keyLeaf ++ rec.hash := rfl
  rw [writeBranch, writeFile_bind, ← henc, writeFile_ok .nodes (rec.length_encode ▸ hlen)]
  simp only [ok_bind, pure_eq_ok, Nat.mod_eq_of_lt hroom]

omit [Sha256] in
theorem Consistent.preTrees_eq (hw : w.Consistent) (hpre : w.leafCounter - w.branchCounter < 256) :
    w.preTrees = w.leafCounter - w.branchCounter := by
  have hle := hw.le
  unfold preTrees
  omega

/-- Writing the two subtrees of a branch, and then its record, is writing the branch. -/
theorem append_branch (w : SnapshotWriter) (h s v : Nat) (k : Bytes) (l r : Node) :
    w.append (.branch h s v k l r) =
      { (w.append l).append r with
        nodes := ((w.append l).append r).nodes ++ (Node.branchRecord (.branch h s v k l r) l
          w.leafCounter w.branchCounter).encode
        branchCounter := ((w.append l).append r).branchCounter + 1 } := by
  have hl := l.length_toList_pos
  have hr := r.length_toList_pos
  have hb : w.branchCounter + l.toList.length + r.toList.length - 1 =
      w.branchCounter + l.toList.length - 1 + r.toList.length - 1 + 1 := by omega
  simp only [append, Node.branchRecords, Node.leafRecords, Node.toList, Node.kvsSize,
    flatMap_append, flatMap_singleton, length_append, append_assoc, hb,
    ← Nat.add_assoc]

/-- The writer appends the records of the tree, unless the kvs file outgrows its limit. -/
theorem writeRecursive_eq {N : Type} {I : NodeInterface N} {done : Nat → Bool}
    (hdone : ∀ i, done i = false) {t : Node} (hb : t.Balanced) {n : N} (hd : I.Denotes n t)
    {depth : Nat} (hdepth : t.height < depth) (hw : w.Consistent)
    (hroom : w.leafCounter + t.toList.length < 2 ^ 32)
    (hpre : w.leafCounter - w.branchCounter + t.height < 256) :
    writeRecursive I done depth w n =
      if w.kvs.length + t.kvsSize ≤ maxFileSize then .ok (w.append t)
      else .error (.fileTooLarge .kvs) := by
  induction t generalizing n depth w with
  | leaf v k x =>
    obtain ⟨hs, hx⟩ := hd
    cases depth with
    | zero => omega
    | succ depth =>
      simp only [writeRecursive, hs.isLeaf, hs.version, hs.key, hx, hs.hash, ask, ok_bind,
        Node.isLeaf, if_true]
      exact writeLeaf_eq hdone hw hroom v k x
  | branch h s v k l r ihl ihr =>
    obtain ⟨hs, nl, nr, hnl, hnr, hdl, hdr⟩ := hd
    obtain ⟨hbl, hbr, hh, -, -⟩ := hb
    have hlpos := l.length_toList_pos
    have hrpos := r.length_toList_pos
    rw [Node.toList, length_append] at hroom
    rw [Node.height_branch] at hdepth hpre
    have hle := hw.le
    cases depth with
    | zero => omega
    | succ depth =>
      have hl := ihl hbl hdl (show l.height < depth by omega) hw (by omega) (by omega)
      have hwl := hw.append l
      have hlc : (w.append l).leafCounter = w.leafCounter + l.toList.length := rfl
      have hbc : (w.append l).branchCounter = w.branchCounter + l.toList.length - 1 := rfl
      have hr := ihr hbr hdr (show r.height < depth by omega) hwl (by omega) (by omega)
      have hkl : (w.append l).kvs.length = w.kvs.length + l.kvsSize := by
        rw [hwl.kvs, hw.kvs]
        rfl
      simp only [writeRecursive, hs.isLeaf, hs.version, hs.size, hs.height, hs.hash, hnl, hnr, ask,
        ok_bind, Node.isLeaf, Bool.false_eq_true, if_false, hl]
      rw [hw.preTrees_eq (by omega), Node.kvsSize]
      by_cases hfl : w.kvs.length + l.kvsSize ≤ maxFileSize
      · rw [if_pos hfl]
        simp only [ok_bind]
        rw [hr, hkl, hlc, Nat.add_assoc]
        by_cases hfit : w.kvs.length + (l.kvsSize + r.kvsSize) ≤ maxFileSize
        · rw [if_pos hfit, if_pos hfit, append_branch]
          have hbr' : ((w.append l).append r).branchCounter + 1 < 2 ^ 32 := by
            simp only [append]
            omega
          exact writeBranch_eq (hwl.append r) hbr'
            (Node.branchRecord (.branch h s v k l r) l w.leafCounter w.branchCounter)
        · rw [if_neg hfit, if_neg hfit]
          rfl
      · rw [if_neg hfl, if_neg (by omega)]
        rfl

end SnapshotWriter

end CronosStore.Memiavl
