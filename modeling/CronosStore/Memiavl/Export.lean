import CronosStore.Memiavl.Grown

/-!
# Exporting the nodes of a tree

`Export` of `memiavl/tree.go` and `memiavl/snapshot.go`: the nodes of a tree as a stream for
state sync, in post-order. A tree that is unchanged since its snapshot reads the files of the
snapshot in one pass; any other tree is walked with a stack. The stream of both is
determined by the tree (`Node.Exports`), but for the value of a branch, which nobody reads.

The stream is a list: the channel of `Exporter` hands it over in order, and the consumer
reads it to its end.
-/

namespace CronosStore.Memiavl

open Foundation List Option

structure ExportNode where
  key : Bytes
  value : Slice
  version : Int
  height : Int
deriving DecidableEq

def toInt8 (n : Nat) : Int := if n % 256 < 128 then (n % 256 : Nat) else (n % 256 : Nat) - 256

theorem toInt8_of_lt {n : Nat} (h : n < 128) : toInt8 n = n := by
  rw [toInt8, Nat.mod_eq_of_lt (by omega), if_pos h]

/-! ## The walk with a stack -/

section Scan

variable {N σ : Type} (I : NodeInterface N)

/-- `ScanPostOrder`, from the stack that is there. An entry tells whether its children were
put on the stack. The callback may stop the scan. -/
def scanPostOrder (callback : σ → N → Option (Bool × σ)) :
    Nat → List (N × Bool) → σ → Option σ
  | _, [], acc => some acc
  | 0, _ :: _, _ => none
  | fuel + 1, (node, expanded) :: stack, acc => do
    if (← I.isLeaf node) || expanded then
      let (stop, acc) ← callback acc node
      if stop then pure acc else scanPostOrder callback fuel stack acc
    else
      let right ← I.right node
      let left ← I.left node
      scanPostOrder callback fuel ((left, false) :: (right, false) :: (node, true) :: stack) acc

def exportNode (n : N) : Option ExportNode := do
  pure { key := ← I.key n, value := ← I.value n, version := ← I.version n,
         height := toInt8 (← I.height n) }

def exportTo (callback : σ → ExportNode → Bool × σ) (acc : σ) (n : N) : Option (Bool × σ) := do
  pure (callback acc (← exportNode I n))

end Scan

/-! ## One pass over the files -/

namespace Snapshot

def nodesLen (s : Snapshot) : Nat := s.nodes.length / sizeNode

def leavesLen (s : Snapshot) : Nat := s.leaves.length / sizeLeaf

def keyValue (s : Snapshot) (offset : Nat) : Option (Bytes × Bytes) := do
  let length := readLE (← slice s.kvs offset (offset + 4))
  let offset := addU64 offset 4
  let key ← slice s.kvs offset (addU64 offset length)
  let offset := addU64 offset length
  let length := readLE (← slice s.kvs offset (offset + 4))
  let offset := addU64 offset 4
  let value ← slice s.kvs offset (addU64 offset length)
  pure (key, value)

variable {σ : Type} (callback : σ → ExportNode → Bool × σ)

def exportLeavesTo (s : Snapshot) : Nat → Nat → σ → Option (Bool × σ)
  | 0, _, acc => some (false, acc)
  | count + 1, j, acc => do
    let leaf ← s.leaf j
    let (key, value) ← s.keyValue leaf.keyOffset
    match callback acc ⟨key, some value, leaf.version, 0⟩ with
    | (true, acc) => pure (true, acc)
    | (false, acc) => exportLeavesTo s count ((j + 1) % 2 ^ 32) acc

/-- The next `count` branches, from the branch `i` and the leaf `j` on. Before a branch as
many leaves are added as it lacks pending trees. -/
def exportBranchesTo (s : Snapshot) : Nat → Nat → Nat → Nat → σ → Option (Bool × σ)
  | 0, _, _, _, acc => some (false, acc)
  | count + 1, i, j, pendingTrees, acc => do
    let node ← s.node i
    let missing := node.preTrees + 2 - pendingTrees
    match ← exportLeavesTo callback s missing j acc with
    | (true, acc) => pure (true, acc)
    | (false, acc) =>
      let key ← s.leafKey node.keyLeaf
      match callback acc ⟨key, none, node.version, toInt8 node.height⟩ with
      | (true, acc) => pure (true, acc)
      | (false, acc) =>
        exportBranchesTo s count (i + 1) ((j + missing) % 2 ^ 32) (pendingTrees + missing - 1) acc

def exportTo (s : Snapshot) (acc : σ) : Option σ :=
  if s.leavesLen = 0 then some acc
  else if s.leavesLen = 1 then do
    let leaf : PersistedNode := { snapshot := s, isLeaf := true, index := 0 }
    pure (callback acc ⟨← leaf.key, ← leaf.value, ← leaf.version, 0⟩).2
  else (s.exportBranchesTo callback (s.nodesLen % 2 ^ 32) 0 0 0 acc).map Prod.snd

end Snapshot

def HeapTree.scanTo [Sha256] {σ : Type} (h : Heap) (t : HeapTree) (callback : σ → ExportNode → Bool × σ) (acc : σ) :
    Option σ :=
  match t.root with
  | none => some acc
  | some r => do
    scanPostOrder h.interface (exportTo h.interface callback) (3 * (← h.size r)) [(r, false)] acc

def collectAll (acc : List ExportNode) (e : ExportNode) : Bool × List ExportNode := (false, acc ++ [e])

def HeapTree.export [Sha256] (h : Heap) (t : HeapTree) (snapshot : Option Snapshot) :
    Option (List ExportNode) :=
  match snapshot with
  | some s => if t.version = s.version then s.exportTo collectAll [] else t.scanTo h collectAll []
  | none => t.scanTo h collectAll []

/-! ## The stream of a tree -/

def emit {σ : Type} (callback : σ → ExportNode → Bool × σ) : List ExportNode → σ → Bool × σ
  | [], acc => (false, acc)
  | e :: es, acc =>
    match callback acc e with
    | (true, acc) => (true, acc)
    | (false, acc) => emit callback es acc

theorem emit_append {σ : Type} (callback : σ → ExportNode → Bool × σ) (es es' : List ExportNode) (acc : σ) :
    emit callback (es ++ es') acc =
      match emit callback es acc with
      | (true, acc) => (true, acc)
      | (false, acc) => emit callback es' acc := by
  induction es generalizing acc with
  | nil => rfl
  | cons e es ih =>
    rw [cons_append, emit, emit]
    rcases callback acc e with ⟨_ | _, acc⟩
    · exact ih acc
    · rfl

theorem emit_collect (es acc : List ExportNode) :
    emit collectAll es acc = (false, acc ++ es) := by
  induction es generalizing acc with
  | nil => simp [emit]
  | cons e es ih => simp [emit, collectAll, ih]

/-- What is done with a callback that has not stopped. -/
def goOn {σ : Type} (r : Bool × σ) (next : σ → Option (Bool × σ)) : Option (Bool × σ) :=
  match r with
  | (true, acc) => some (true, acc)
  | (false, acc) => next acc

theorem goOn_emit_append {σ : Type} (callback : σ → ExportNode → Bool × σ) (es es' : List ExportNode)
    (acc : σ) (next : σ → Option (Bool × σ)) :
    goOn (emit callback (es ++ es') acc) next =
      goOn (emit callback es acc) fun acc => goOn (emit callback es' acc) next := by
  rw [emit_append]
  rcases emit callback es acc with ⟨_ | _, acc⟩ <;> rfl

def Node.exported : Node → List ExportNode
  | .leaf v k x => [⟨k, x, v, 0⟩]
  | .branch h _ v k l r => l.exported ++ r.exported ++ [⟨k, none, v, toInt8 h⟩]

def Node.Exports : Node → List ExportNode → Prop
  | .leaf v k x, es => es = [⟨k, x, v, 0⟩]
  | .branch h _ v k l r, es => ∃ el er x, Exports l el ∧ Exports r er ∧
      es = el ++ er ++ [⟨k, x, v, toInt8 h⟩]

variable [Sha256]

section Scan

variable {h : Heap} {r : Ref} {t : Node}

def Heap.BranchesNil (h : Heap) : Prop :=
  ∀ r n, h.interface.Denotes r n → n.isLeaf = false → h.interface.value r = some none

theorem exportNode_eq (hd : h.interface.Denotes r t) : ∃ x, exportNode h.interface r =
    some ⟨t.key, x, t.version, toInt8 t.height⟩ ∧ h.interface.value r = some x ∧
      ∀ v k y, t = .leaf v k y → x = y := by
  have hs := hd.shows
  obtain ⟨x, hx⟩ : ∃ x, h.interface.value r = some x := by
    cases t with
    | leaf v k y => exact ⟨y, hd.2⟩
    | branch ht s v k l r' =>
      cases r with
      | mem a =>
        obtain ⟨c, hc, -⟩ := map_eq_some_iff.mp (show h[a]?.map MemNode.height = _ from hs.height)
        exact ⟨c.value, map_eq_some_iff.mpr ⟨c, hc, rfl⟩⟩
      | persisted p =>
        have hleaf : p.isLeaf = false := Option.some.inj hs.isLeaf
        exact ⟨none, show p.value = _ by rw [PersistedNode.value, hleaf]; rfl⟩
  refine ⟨x, ?_, hx, ?_⟩
  · simp only [exportNode, hs.key, hx, hs.version, hs.height, Results.some_bind,
      Option.pure_def]
  · rintro v k y rfl
    exact Option.some.inj (hx.symm.trans hd.2)

omit [Sha256] in
theorem scanPostOrder_visit {N σ : Type} {I : NodeInterface N} {node : N} {leaf expanded : Bool}
    {e : ExportNode} (hleaf : I.isLeaf node = some leaf) (hvisit : (leaf || expanded) = true)
    (he : exportNode I node = some e) (callback : σ → ExportNode → Bool × σ) (fuel : Nat)
    (stack : List (N × Bool)) (acc : σ) :
    scanPostOrder I (exportTo I callback) (fuel + 1) ((node, expanded) :: stack) acc =
      match emit callback [e] acc with
      | (true, acc) => some acc
      | (false, acc) => scanPostOrder I (exportTo I callback) fuel stack acc := by
  simp only [scanPostOrder, hleaf, exportTo, he, hvisit, emit, Results.some_bind,
    Option.pure_def, if_true]
  generalize callback acc e = c
  obtain ⟨_ | _, acc⟩ := c <;> rfl

theorem scanPostOrder_eq (hd : h.interface.Denotes r t) : ∃ es, t.Exports es ∧
    (h.BranchesNil → es = t.exported) ∧ ∀ {σ : Type} (callback : σ → ExportNode → Bool × σ) fuel stack acc,
      scanPostOrder h.interface (exportTo h.interface callback) (3 * t.toList.length - 2 + fuel)
          ((r, false) :: stack) acc =
        match emit callback es acc with
        | (true, acc) => some acc
        | (false, acc) => scanPostOrder h.interface (exportTo h.interface callback) fuel stack acc := by
  induction t generalizing r with
  | leaf v k x =>
    obtain ⟨y, hy, -, hxy⟩ := exportNode_eq hd
    cases hxy v k x rfl
    refine ⟨[⟨k, x, v, 0⟩], rfl, fun _ => rfl, fun callback fuel stack acc => ?_⟩
    have hleaf : h.interface.isLeaf r = some true := hd.shows.isLeaf
    rw [show 3 * (Node.leaf v k x).toList.length - 2 + fuel = fuel + 1 by simp [Node.toList]; omega]
    exact scanPostOrder_visit hleaf rfl hy callback fuel stack acc
  | branch ht s v k tl tr ihl ihr =>
    obtain ⟨y, hy, hvalue, -⟩ := exportNode_eq hd
    have hnil : h.BranchesNil → y = none := fun hnil =>
      Option.some.inj (hvalue.symm.trans (hnil r _ hd rfl))
    obtain ⟨hs, cl, cr, hleft, hright, hdl, hdr⟩ := hd
    obtain ⟨el, hel, hnill, hscanl⟩ := ihl hdl
    obtain ⟨er, her, hnilr, hscanr⟩ := ihr hdr
    refine ⟨el ++ er ++ [⟨k, y, v, toInt8 ht⟩], ⟨el, er, y, hel, her, rfl⟩,
      fun h => by rw [hnill h, hnilr h, hnil h]; rfl, fun callback fuel stack acc => ?_⟩
    have hleaf : h.interface.isLeaf r = some false := hs.isLeaf
    have hlpos := tl.length_toList_pos
    have hrpos := tr.length_toList_pos
    -- one step to expand, the two subtrees, and one step for the branch itself
    have hfuel : 3 * (Node.branch ht s v k tl tr).toList.length - 2 + fuel =
        3 * tl.toList.length - 2 + (3 * tr.toList.length - 2 + (fuel + 1)) + 1 := by
      rw [Node.toList, length_append]
      omega
    rw [hfuel, scanPostOrder]
    simp only [hleaf, hleft, hright, Results.some_bind, Bool.or_self,
      Bool.false_eq_true, if_false]
    rw [hscanl, emit_append, emit_append]
    rcases emit callback el acc with ⟨_ | _, acc⟩
    · simp only [hscanr]
      rcases emit callback er acc with ⟨_ | _, acc⟩
      · exact scanPostOrder_visit hleaf rfl hy callback fuel stack acc
      · rfl
    · rfl

end Scan

/-! ## The files of a snapshot hold the stream -/

namespace Snapshot

variable {s : Snapshot} {L : List LeafRecord} {B : List BranchRecord}

omit [Sha256] in
theorem Holds.keyValue_eq (hs : s.Holds L B) {i : Nat} {rec : LeafRecord} (h : L[i]? = some rec) :
    s.keyValue (LeafLayout.mk rec.encode).keyOffset = some (rec.key, rec.value) := by
  obtain ⟨a, c, hkvs, ha, hmax⟩ := hs.kvs_split h
  obtain ⟨hk, -⟩ := hs.lengths rec (mem_of_getElem? h)
  have hoff : (LeafLayout.mk rec.encode).keyOffset = rec.offset := by
    rw [LeafLayout.keyOffset_encode]
    simp only [maxFileSize] at hmax
    omega
  have hlen : slice s.kvs rec.offset (rec.offset + 4) = some (putLE 4 rec.key.length) := by
    refine slice_eq_of_split (a := a) (c := rec.key ++ putLE 4 rec.value.length ++ rec.value ++ c)
      ?_ ha.symm ?_
    · rw [hkvs, LeafRecord.keyValue]
      simp only [append_assoc]
    · rw [length_putLE]
  have hread : readLE (putLE 4 rec.key.length) = (LeafLayout.mk rec.encode).keyLength := by
    have hpow : 256 ^ 4 = 2 ^ 32 := rfl
    rw [readLE_putLE, hpow, LeafLayout.keyLength_encode]
  -- from here on the pair is read as `LeafKeyValue` does
  rw [← (hs.leafKeyValue_eq h).2, keyValue, leafKeyValue, hs.leaf_eq h]
  simp only [hoff, hlen, hread, Results.some_bind]

end Snapshot

def LeafRecord.exported (rec : LeafRecord) : ExportNode := ⟨rec.key, some rec.value, rec.version, 0⟩

section Pass

variable {σ : Type} (callback : σ → ExportNode → Bool × σ)

omit [Sha256] in
theorem Snapshot.Holds.exportLeavesTo_eq {s : Snapshot} {L : List LeafRecord} {B : List BranchRecord}
    (hs : s.Holds L B) {R : List LeafRecord} {j : Nat}
    (hR : ∀ i rec, R[i]? = some rec → L[j + i]? = some rec) (hroom : j + R.length < 2 ^ 32)
    (hv : ∀ rec ∈ L, rec.version < 2 ^ 32) (acc : σ) :
    s.exportLeavesTo callback R.length j acc = some (emit callback (R.map LeafRecord.exported) acc) := by
  induction R generalizing j acc with
  | nil => rfl
  | cons rec R ih =>
    have hrec : L[j]? = some rec := hR 0 rec rfl
    rw [length_cons] at hroom
    have hrest := ih (j := j + 1) (fun i rec' hi => by
      rw [Nat.add_assoc, Nat.add_comm 1 i]
      exact hR (i + 1) rec' hi) (by omega)
    have hversion : (LeafLayout.mk rec.encode).version = rec.version := by
      rw [LeafLayout.version_encode, Nat.mod_eq_of_lt (hv rec (mem_of_getElem? hrec))]
    have hj : (j + 1) % 2 ^ 32 = j + 1 := Nat.mod_eq_of_lt (by omega)
    simp only [length_cons, exportLeavesTo, hs.leaf_eq hrec, hs.keyValue_eq hrec, hj, hrest,
      hversion, Results.some_bind, Option.pure_def, map_cons, emit, LeafRecord.exported]
    rcases callback acc ⟨rec.key, some rec.value, rec.version, 0⟩ with ⟨_ | _, acc⟩ <;> rfl

omit [Sha256] in
theorem Node.exports_exported (n : Node) : n.Exports n.exported := by
  induction n with
  | leaf v k x => rfl
  | branch h s v k l r ihl ihr => exact ⟨_, _, none, ihl, ihr, rfl⟩

namespace Snapshot

variable {s : Snapshot} {L : List LeafRecord} {B : List BranchRecord}

theorem HoldsAt.leavesLen_eq {n : Node} (hs : s.HoldsAt (n.leafRecords 0) (n.branchRecords 0 0) n 0 0 0) :
    s.leavesLen = n.toList.length := by
  rw [leavesLen, hs.holds.leaves, length_flatMap_const LeafRecord.length_encode, n.length_leafRecords]
  exact Nat.mul_div_cancel _ (by decide)

theorem HoldsAt.nodesLen_eq {n : Node} (hs : s.HoldsAt (n.leafRecords 0) (n.branchRecords 0 0) n 0 0 0) :
    s.nodesLen = n.toList.length - 1 := by
  have hb := n.length_branchRecords 0 0
  rw [nodesLen, hs.holds.nodes, length_flatMap_const BranchRecord.length_encode, Nat.mul_div_cancel _ (by decide)]
  omega

def EndsAt (L R : List LeafRecord) (j : Nat) : Prop :=
  ∀ i rec, R[i]? = some rec → L[j - R.length + i]? = some rec

theorem HoldsAt.exportBranchesTo_self {h sz v offset leaves branches : Nat} {k : Bytes} {l r : Node}
    (hs : s.HoldsAt L B (.branch h sz v k l r) offset leaves branches)
    (hn : Node.Valid (.branch h sz v k l r)) (hf : Node.Fits (.branch h sz v k l r))
    (hL : ∀ rec ∈ L, rec.version < 2 ^ 32) {R : List LeafRecord}
    (hR : EndsAt L R (leaves + l.toList.length + r.toList.length))
    (hle : R.length ≤ leaves - branches + 2) (count : Nat) :
    s.exportBranchesTo callback (count + 1) (branches + (l.toList.length + r.toList.length) - 2)
        (leaves + l.toList.length + r.toList.length - R.length)
        (leaves - branches + 2 - R.length) = fun acc =>
      goOn (emit callback (R.map LeafRecord.exported ++ [⟨k, none, v, toInt8 h⟩]) acc)
        (s.exportBranchesTo callback count (branches + (l.toList.length + r.toList.length) - 1)
          (leaves + l.toList.length + r.toList.length) (leaves - branches + 1)) := by
  have hroom := hs.room
  have hbl := hs.le
  simp only [Node.toList, length_append] at hroom
  have hlpos := l.length_toList_pos
  have hrpos := r.length_toList_pos
  have hnode := hs.holds.node_eq hs.record
  have hdata := branchData_encode hn hf.1 hs.pre hroom
  have hmissing : leaves - branches + 2 - (leaves - branches + 2 - R.length) = R.length := by omega
  have hleaves := hs.holds.exportLeavesTo_eq callback (j := leaves + l.toList.length + r.toList.length - R.length)
    hR (by omega) hL
  have hi : branches + (l.toList.length + r.toList.length) - 2 + 1 =
      branches + (l.toList.length + r.toList.length) - 1 := by omega
  have hj : (leaves + l.toList.length + r.toList.length - R.length + R.length) % 2 ^ 32 =
      leaves + l.toList.length + r.toList.length := by omega
  have hp : leaves - branches + 2 - R.length + R.length - 1 = leaves - branches + 1 := by omega
  funext acc
  simp only [exportBranchesTo, hnode, Results.some_bind, hdata.preTrees, hdata.keyLeaf, hdata.version,
    hdata.height, hmissing, hleaves, hs.keyLeaf hn, hi, hj, hp, Option.pure_def, Node.version,
    Node.height, goOn_emit_append]
  rcases emit callback (R.map LeafRecord.exported) acc with ⟨_ | _, acc⟩
  · simp only [goOn, emit]
    rcases callback acc ⟨k, none, v, toInt8 h⟩ with ⟨_ | _, acc⟩ <;> rfl
  · rfl

/-- The branches of a subtree, where the leaves of `R` before it are still to come. A leaf is
not exported before the next branch, so some may be left at the end. -/
theorem HoldsAt.exportBranchesTo_eq {n : Node} {offset leaves branches : Nat}
    (hs : s.HoldsAt L B n offset leaves branches) (hn : n.Valid) (hf : n.Fits)
    (hL : ∀ rec ∈ L, rec.version < 2 ^ 32) {R : List LeafRecord} (hR : EndsAt L R leaves)
    (hle : R.length ≤ leaves - branches) :
    ∃ out R', R.map LeafRecord.exported ++ n.exported = out ++ R'.map LeafRecord.exported ∧
      (n.isLeaf = false → R' = []) ∧ EndsAt L R' (leaves + n.toList.length) ∧
      R'.length ≤ leaves - branches + 1 ∧
      ∀ count, s.exportBranchesTo callback (n.toList.length - 1 + count) branches (leaves - R.length)
          (leaves - branches - R.length) = fun acc => goOn (emit callback out acc)
        (s.exportBranchesTo callback count (branches + n.toList.length - 1)
          (leaves + n.toList.length - R'.length) (leaves - branches + 1 - R'.length)) := by
  induction n generalizing offset leaves branches R with
  | leaf v k x =>
    obtain ⟨y, rfl⟩ : ∃ y, x = some y := ne_none_iff_exists'.mp (hn.stored _ mem_cons_self)
    obtain ⟨rec, hrec⟩ : ∃ rec, (Node.leaf v k (some y)).leafRecords offset = [rec] := ⟨_, rfl⟩
    have hexp : (Node.leaf v k (some y)).exported = [rec.exported] := by
      cases hrec
      rfl
    have hat : L[leaves]? = some rec := hs.leafAt 0 rec (by rw [hrec]; rfl)
    have hbl := hs.le
    have hlen : (R ++ [rec]).length = R.length + 1 := length_append
    refine ⟨[], R ++ [rec], ?_, by simp [Node.isLeaf], ?_, by omega, fun count => ?_⟩
    · rw [hexp, map_append]
      rfl
    · intro i rec' hi
      rw [hlen, show leaves + (Node.leaf v k (some y)).toList.length - (R.length + 1) + i =
        leaves - R.length + i by simp only [Node.toList, length_singleton]; omega]
      by_cases hlt : i < R.length
      · rw [getElem?_append_left hlt] at hi
        exact hR i rec' hi
      · have hlt' := (List.getElem?_eq_some_iff.mp hi).1
        obtain rfl : i = R.length := by omega
        rw [getElem?_concat_length] at hi
        rw [show leaves - R.length + R.length = leaves by omega, hat]
        exact hi
    · rw [hlen, show leaves + (Node.leaf v k (some y)).toList.length - (R.length + 1) =
        leaves - R.length by simp only [Node.toList, length_singleton]; omega,
        show leaves - branches + 1 - (R.length + 1) = leaves - branches - R.length by omega]
      simp [Node.toList, emit, goOn]
  | branch h sz v k l r ihl ihr =>
    have hbl := hs.le
    have hlpos := l.length_toList_pos
    have hrpos := r.length_toList_pos
    obtain ⟨out1, R1, heq1, -, hR1, hle1, hl⟩ := ihl (hs.left hn.balanced) hn.left hf.2.1 hR hle
    have hpending : leaves + l.toList.length - (branches + l.toList.length - 1) =
        leaves - branches + 1 := by omega
    obtain ⟨out2, R2, heq2, -, hR2, hle2, hr⟩ := ihr (hs.right hn.balanced) hn.right hf.2.2 hR1
      (hpending ▸ hle1)
    rw [hpending] at hle2 hr
    refine ⟨out1 ++ out2 ++ R2.map LeafRecord.exported ++ [⟨k, none, v, toInt8 h⟩], [], ?_,
      fun _ => rfl, ?_, Nat.zero_le _, fun count => ?_⟩
    · calc R.map LeafRecord.exported ++ (l.exported ++ r.exported ++ [⟨k, none, v, toInt8 h⟩])
          = (R.map LeafRecord.exported ++ l.exported) ++ r.exported ++ [⟨k, none, v, toInt8 h⟩] := by
            simp only [append_assoc]
        _ = out1 ++ (R1.map LeafRecord.exported ++ r.exported) ++ [⟨k, none, v, toInt8 h⟩] := by
            rw [heq1]
            simp only [append_assoc]
        _ = _ := by
            rw [heq2]
            simp only [append_assoc, map_nil, append_nil]
    · rintro i rec ⟨⟩
    · have hcount : (Node.branch h sz v k l r).toList.length - 1 + count =
          l.toList.length - 1 + (r.toList.length - 1 + (count + 1)) := by
        rw [Node.toList, length_append]
        omega
      have hself := hs.exportBranchesTo_self callback hn hf hL hR2 hle2 count
      have hidx : branches + l.toList.length - 1 + r.toList.length - 1 =
          branches + (l.toList.length + r.toList.length) - 2 := by omega
      rw [hcount, hl, hr, hidx, hself]
      simp only [Node.toList, length_append, length_nil, Nat.sub_zero, ← Nat.add_assoc, goOn_emit_append]

end Snapshot

def Tree.Exports (v : Tree) (es : List ExportNode) : Prop :=
  match v.root with
  | none => es = []
  | some n => n.Exports es

def Tree.exported (v : Tree) : List ExportNode := (v.root.map Node.exported).getD []

omit [Sha256] in
theorem Tree.exports_exported (v : Tree) : v.Exports v.exported := by
  unfold Tree.Exports Tree.exported
  cases v.root with
  | none => rfl
  | some n => exact n.exports_exported

theorem Tree.Persistable.exportTo_eq {v : Tree} (hv : v.Persistable) (hsize : v.kvsSize ≤ maxFileSize)
    (acc : σ) : v.snapshot.exportTo callback acc = some (emit callback v.exported acc).2 := by
  rw [Tree.exported]
  cases hroot : v.root with
  | none =>
    have hleaves : v.snapshot.leavesLen = 0 := by
      simp only [Snapshot.leavesLen, Tree.snapshot, Snapshot.ofRecords, Tree.leafRecords, hroot,
        map_none, getD_none, flatMap_nil, length_nil, Nat.zero_div]
    rw [Snapshot.exportTo, if_pos hleaves]
    rfl
  | some n =>
    obtain ⟨hat, -⟩ := hv.holdsAt hsize hroot
    have hn := hv.valid n hroot
    have hf := hv.fits n hroot
    have hpos := n.length_toList_pos
    have hroom := hat.room
    rw [map_some, getD_some, Snapshot.exportTo, hat.leavesLen_eq, if_neg (by omega)]
    cases n with
    | leaf x k y =>
      have hd := hat.denotes hn hf
      have hs := hd.shows
      rw [if_pos (show (Node.leaf x k y).toList.length = 1 from rfl)]
      have hkey : (v.snapshot.nodeAt 0 0 (.leaf x k y)).key = some k := hs.key
      have hversion : (v.snapshot.nodeAt 0 0 (.leaf x k y)).version = some x := hs.version
      have hvalue : (v.snapshot.nodeAt 0 0 (.leaf x k y)).value = some y := hd.2
      rw [Snapshot.nodeAt] at hkey hversion hvalue
      simp only [Node.isLeaf, if_true] at hkey hversion hvalue
      simp only [hkey, hversion, hvalue, Results.some_bind, Option.pure_def, Node.exported, emit]
      rcases callback acc ⟨k, y, x, 0⟩ with ⟨_ | _, acc⟩ <;> rfl
    | branch ht sz x k l r =>
      have hlpos := l.length_toList_pos
      have hrpos := r.length_toList_pos
      obtain ⟨out, R, heq, hR, -, -, hexp⟩ := hat.exportBranchesTo_eq callback hn hf
        (fun rec hrec => (hf.of_mem_leafRecords rec hrec).1) (R := [])
        (fun i rec hi => by cases hi) (Nat.zero_le _)
      cases hR rfl
      have h0 := congrFun (hexp 0) acc
      rw [map_nil, nil_append, append_nil] at heq
      rw [if_neg (by rw [Node.toList, length_append]; omega), hat.nodesLen_eq, Nat.mod_eq_of_lt (by omega),
        heq]
      simp only [length_nil, Nat.sub_zero, Nat.add_zero] at h0
      rw [h0]
      rcases emit callback out acc with ⟨_ | _, acc⟩ <;> rfl

end Pass

end CronosStore.Memiavl
