import CronosStore.Memiavl.Export
import CronosStore.Memiavl.World

/-!
# Importing a stream of nodes

`doImport` and `importer.Add` of `memiavl/import.go`. The importer writes the records of a
snapshot from a post-order stream. Where `writeRecursive` knows from the recursion how many
leaves came before a subtree and how many subtrees are pending, the importer keeps a stack
of each. Step by step it makes the same writes (`foldlM_add_eq`), so that the files are the
same to the byte (`doImport_export`), or both fail on the same write.
-/

namespace CronosStore.Memiavl

open Foundation Option Results

inductive ImportError
  | versionOverflow (version : Int)
  | branchOnStack (leaves nodes : Nat)
  | stackSize (size : Nat)
  | write (e : WriteError)
deriving DecidableEq

def ofWriter {α : Type} : Except WriteError α → Except ImportError α
  | .ok a => .ok a
  | .error e => .error (.write e)

structure Importer where
  writer : SnapshotWriter
  /-- How many leaves were written when a pending node was. -/
  leavesStack : List Nat
  nodeStack : List MemNode

section Definitions

variable [Sha256]

/-- `Add`. The hashes of the children are those they keep. -/
def Importer.add (i : Importer) (n : ExportNode) : Except ImportError Importer :=
  let version : Nat := (n.version % 2 ^ 32).toNat
  if n.version > maxUint32 then .error (.versionOverflow n.version)
  else if n.height = 0 then do
    let hash := Sha256.sum256 (putVarint 0 ++ putVarint 1 ++ putVarint version ++
      Node.encodeBytes n.key ++ Node.encodeBytes (Sha256.sum256 (n.value.getD [])))
    let node : MemNode :=
      { height := 0, size := 1, version := version, key := n.key, value := n.value, left := none,
        right := none, hash := some hash }
    let w ← ofWriter (i.writer.writeLeaf (fun _ => false) version n.key (n.value.getD []) hash)
    pure { writer := w, leavesStack := w.leafCounter :: i.leavesStack, nodeStack := node :: i.nodeStack }
  else
    match i.leavesStack, i.nodeStack with
    | _ :: keyLeaf :: leaves, right :: left :: nodes => do
      let height : Nat := (n.height % 256).toNat
      let size := left.size + right.size
      let hash := Sha256.sum256 (putVarint height ++ putVarint size ++ putVarint version ++
        Node.encodeBytes (left.hash.getD []) ++ Node.encodeBytes (right.hash.getD []))
      -- without the children, which are not needed any more
      let node : MemNode :=
        { height := height, size := size, version := version, key := n.key, value := none,
          left := none, right := none, hash := some hash }
      let preTrees := nodes.length % 256
      let w ← ofWriter (i.writer.writeBranch version size height preTrees keyLeaf hash)
      pure { writer := w, leavesStack := w.leafCounter :: leaves, nodeStack := node :: nodes }
    | leaves, nodes => .error (.branchOnStack leaves.length nodes.length)

def importedFiles (version : Int) (w : SnapshotWriter) : SnapshotDir where
  metadata := some (metadataBytes (version % 2 ^ 32).toNat)
  nodes := some w.nodes
  leaves := some w.leaves
  kvs := some w.kvs

/-- What `doImport` does after the last node. -/
def Importer.finish (i : Importer) (version : Int) : Except ImportError SnapshotDir := do
  let leaves ← match i.leavesStack.length with
    | 0 => pure 0
    | 1 => pure i.writer.leafCounter
    | size => throw (.stackSize size)
  pure (importedFiles version (if leaves > 0 then i.writer else newSnapshotWriter))

def doImport (version : Int) (nodes : List ExportNode) : Except ImportError SnapshotDir :=
  if version > maxUint32 then .error (.versionOverflow version)
  else nodes.foldlM Importer.add ⟨newSnapshotWriter, [], []⟩ >>= fun i => i.finish version

end Definitions

/-! ## The stacks and the counters -/

namespace SnapshotWriter

structure Waiting (w : SnapshotWriter) (k : Nat) : Prop where
  leaf : w.leafCounter < 2 ^ 32
  branch : w.branchCounter < 2 ^ 32
  diff : (w.leafCounter + 2 ^ 32 - w.branchCounter) % 2 ^ 32 = k % 2 ^ 32

variable {w w' : SnapshotWriter} {k : Nat}

theorem Waiting.preTrees_eq (h : w.Waiting k) : w.preTrees = k % 256 := by
  obtain ⟨-, -, hd⟩ := h
  rw [preTrees, hd]
  omega

theorem Waiting.writeLeaf (h : w.Waiting k) {done : Nat → Bool} {version : Nat}
    {key value hash : Bytes} (hw : w.writeLeaf done version key value hash = .ok w') :
    w'.Waiting (k + 1) := by
  obtain ⟨h1, h2, h3⟩ := h
  unfold SnapshotWriter.writeLeaf at hw
  split_ifs at hw
  · cases hw
  · simp only [writeKeyValue_eq, bind_eq_ok, pure_eq_ok, Except.ok.injEq] at hw
    obtain ⟨w1, ⟨kvs, -, rfl⟩, _, -, leaves, -, rfl⟩ := hw
    exact ⟨Nat.mod_lt _ (by decide), h2, by simp only; omega⟩

theorem Waiting.writeBranch (h : w.Waiting (k + 2)) {version size height preTrees keyLeaf : Nat}
    {hash : Bytes} (hw : w.writeBranch version size height preTrees keyLeaf hash = .ok w') :
    w'.Waiting (k + 1) := by
  obtain ⟨h1, h2, h3⟩ := h
  simp only [SnapshotWriter.writeBranch, bind_eq_ok, pure_eq_ok,
    Except.ok.injEq] at hw
  obtain ⟨_, -, nodes, -, rfl⟩ := hw
  exact ⟨h1, Nat.mod_lt _ (by decide), by simp only; omega⟩

end SnapshotWriter

/-! ## Adding a subtree -/

variable [Sha256]

def Node.kept : Node → MemNode
  | .leaf v k x =>
    { height := 0, size := 1, version := v, key := k, value := x, left := none, right := none,
      hash := some (hashNode (.leaf v k x)) }
  | .branch h s v k l r =>
    { height := h, size := s, version := v, key := k, value := none, left := none, right := none,
      hash := some (hashNode (.branch h s v k l r)) }

theorem Node.kept_size (n : Node) : n.kept.size = n.size := by cases n <;> rfl

theorem Node.kept_hash (n : Node) : n.kept.hash = some n.hashNode := by cases n <;> rfl

def Importer.push (i : Importer) (n : Node) (w : SnapshotWriter) : Importer where
  writer := w
  leavesStack := w.leafCounter :: i.leavesStack
  nodeStack := n.kept :: i.nodeStack

omit [Sha256] in
theorem toNat_version {v : Nat} (hv : v ≤ maxUint32) : ((v : Int) % 2 ^ 32).toNat = v := by
  simp only [maxUint32] at hv
  omega

theorem Importer.add_leaf (i : Importer) {v : Nat} (hv : v ≤ maxUint32) (k : Bytes) (x : Slice) :
    i.add ⟨k, x, v, 0⟩ = ofWriter (i.writer.writeLeaf (fun _ => false) v k (x.getD [])
      (Node.hashNode (.leaf v k x))) >>= fun w => .ok (i.push (.leaf v k x) w) := by
  have hle : ¬((v : Int) > (maxUint32 : Nat)) := by omega
  rw [Importer.add]
  simp only [toNat_version hv]
  rw [if_neg hle, if_pos trivial]
  rfl

theorem Importer.add_branch (i : Importer) {ht s v : Nat} (h0 : ht ≠ 0) (hh : ht < 128)
    (hv : v ≤ maxUint32) (k : Bytes) (x : Slice) {l r : Node} (hs : s = l.size + r.size)
    (w1 w2 : SnapshotWriter) :
    ((i.push l w1).push r w2).add ⟨k, x, v, toInt8 ht⟩ =
      ofWriter (w2.writeBranch v s ht (i.nodeStack.length % 256) w1.leafCounter
        (Node.hashNode (.branch ht s v k l r))) >>= fun w => .ok (i.push (.branch ht s v k l r) w) := by
  have hle : ¬((v : Int) > (maxUint32 : Nat)) := by omega
  have hint : toInt8 ht = ht := toInt8_of_lt (by omega)
  have hheight : (((ht : Int)) % 256).toNat = ht := by omega
  rw [Importer.add, hint]
  simp only [toNat_version hv]
  rw [if_neg hle, if_neg (by omega)]
  simp only [Importer.push, hheight, Node.kept_size, Node.kept_hash, ← hs, getD_some]
  rfl

variable {v : Tree} {es : List ExportNode}

/-- The stream of a subtree makes the importer write what `writeRecursive` writes. -/
theorem foldlM_add_eq {N : Type} {I : NodeInterface N} {n : N} {t : Node} (hd : I.Denotes n t)
    (hb : t.Balanced) (hs : t.Sized) (hv : t.VersionsLE maxUint32) (hh : t.height < 128)
    (he : t.Exports es) {i : Importer}
    (hi : i.writer.Waiting i.nodeStack.length) {depth : Nat} (hdepth : t.height < depth) :
    es.foldlM Importer.add i =
        (ofWriter (i.writer.writeRecursive I (fun _ => false) depth n) >>= fun w => .ok (i.push t w)) ∧
      ∀ w, i.writer.writeRecursive I (fun _ => false) depth n = .ok w →
        w.Waiting (i.nodeStack.length + 1) := by
  induction t generalizing n es i depth with
  | leaf v k x =>
    obtain ⟨hsh, hx⟩ := hd
    cases he
    cases depth with
    | zero => omega
    | succ depth =>
      have hrec : i.writer.writeRecursive I (fun _ => false) (depth + 1) n =
          i.writer.writeLeaf (fun _ => false) v k (x.getD []) (Node.hashNode (.leaf v k x)) := by
        simp only [SnapshotWriter.writeRecursive, hsh.isLeaf, hsh.version, hsh.key, hx, hsh.hash, ask,
          ok_bind, Node.isLeaf, if_true, Node.version, Node.key]
      rw [hrec, List.foldlM_cons, i.add_leaf hv]
      refine ⟨?_, fun w hw => hi.writeLeaf hw⟩
      cases i.writer.writeLeaf (fun _ => false) v k (x.getD []) (Node.hashNode (.leaf v k x)) <;> rfl
  | branch ht s v k l r ihl ihr =>
    have h0 := hb.height_ne_zero
    obtain ⟨hsh, nl, nr, hnl, hnr, hdl, hdr⟩ := hd
    obtain ⟨hbl, hbr, hmax, -, -⟩ := hb
    have hsize : s = l.size + r.size := by
      rw [hs.1.size_eq, hs.2.1.size_eq]
      exact hs.2.2
    obtain ⟨el, er, x, hel, her, rfl⟩ := he
    rw [Node.height_branch] at hdepth hh
    cases depth with
    | zero => omega
    | succ depth =>
      obtain ⟨hl, hlw⟩ := ihl hdl hbl hs.1 hv.2.1 (by omega) hel hi (show l.height < depth by omega)
      rw [List.foldlM_append, List.foldlM_append, hl]
      simp only [SnapshotWriter.writeRecursive, hsh.isLeaf, hsh.version, hsh.size, hsh.height, hsh.hash,
        hnl, hnr, ask, ok_bind, Node.isLeaf, Bool.false_eq_true, if_false, Node.version,
        Node.size, Node.height]
      cases hwl : i.writer.writeRecursive I (fun _ => false) depth nl with
      | error e => exact ⟨rfl, fun w hw => by cases hw⟩
      | ok w1 =>
        have hi1 : (i.push l w1).writer.Waiting (i.push l w1).nodeStack.length := hlw w1 hwl
        obtain ⟨hr, hrw⟩ := ihr hdr hbr hs.2.1 hv.2.2 (by omega) her hi1
          (show r.height < depth by omega)
        simp only [ofWriter, ok_bind]
        rw [hr]
        cases hwr : (i.push l w1).writer.writeRecursive I (fun _ => false) depth nr with
        | error e =>
          have hwr' : w1.writeRecursive I (fun _ => false) depth nr = .error e := hwr
          rw [hwr']
          exact ⟨rfl, fun w hw => by cases hw⟩
        | ok w2 =>
          have hwr' : w1.writeRecursive I (fun _ => false) depth nr = .ok w2 := hwr
          have hw2 : w2.Waiting (i.nodeStack.length + 2) := hrw w2 hwr
          rw [hwr', hi.preTrees_eq]
          simp only [ofWriter, ok_bind, List.foldlM_cons, List.foldlM_nil]
          rw [i.add_branch h0 hh hv.1 k x hsize]
          refine ⟨?_, fun w hw => hw2.writeBranch hw⟩
          cases w2.writeBranch v s ht (i.nodeStack.length % 256) w1.leafCounter
            (Node.hashNode (.branch ht s v k l r)) <;> rfl

/-! ## The tree of a snapshot -/

section Fits

omit [Sha256] in
theorem Snapshot.length_leafKey {s : Snapshot} {i : Nat} {k : Bytes} (hk : s.leafKey i = some k) :
    k.length < 2 ^ 32 := by
  simp only [Snapshot.leafKey, bind_eq_bind, bind_eq_some_iff] at hk
  obtain ⟨d, -, hslice⟩ := hk
  have hlen := length_of_slice hslice
  have hlt : d.keyLength < 256 ^ 4 := readLE_take_lt 4 _
  simp only [Snapshot.addU64] at hlen
  omega

omit [Sha256] in
theorem Snapshot.length_leafKeyValue {s : Snapshot} {i : Nat} {k x : Bytes}
    (hkv : s.leafKeyValue i = some (k, x)) : x.length < 2 ^ 32 := by
  simp only [Snapshot.leafKeyValue, bind_eq_bind, bind_eq_some_iff, pure_def,
    Option.some.injEq, Prod.mk.injEq] at hkv
  obtain ⟨d, -, _, -, lenBytes, hlenBytes, _, hslice, -, rfl⟩ := hkv
  have h4 := length_of_slice hlenBytes
  have hlt := readLE_lt lenBytes
  rw [show lenBytes.length = 4 by omega] at hlt
  have hlen := length_of_slice hslice
  simp only [Snapshot.addU64] at hlen h4
  omega

theorem NodeInterface.Denotes.fits {p : PersistedNode} {t : Node}
    (hd : persistedInterface.Denotes p t) (hs : t.Sized) : t.Fits ∧ t.toList.length < 2 ^ 32 := by
  induction t generalizing p with
  | leaf v k x =>
    obtain ⟨hsh, hx⟩ := hd
    have hleaf : p.isLeaf = true := Option.some.inj hsh.isLeaf
    have hversion : p.version = some v := hsh.version
    have hkey : p.key = some k := hsh.key
    have hvalue : p.value = some x := hx
    rw [PersistedNode.version, if_pos hleaf, map_eq_some_iff] at hversion
    rw [PersistedNode.key, if_pos hleaf] at hkey
    rw [PersistedNode.value, if_pos hleaf, map_eq_some_iff] at hvalue
    obtain ⟨d, -, rfl⟩ := hversion
    obtain ⟨⟨k', y⟩, hkv, rfl⟩ := hvalue
    refine ⟨⟨?_, Snapshot.length_leafKey hkey, Snapshot.length_leafKeyValue hkv⟩, by simp [Node.toList]⟩
    exact readLE_take_lt 4 _
  | branch ht s v k l r ihl ihr =>
    obtain ⟨hsh, nl, nr, -, -, hdl, hdr⟩ := hd
    have hleaf : ¬p.isLeaf = true := by
      rw [Option.some.inj hsh.isLeaf]
      exact Bool.false_ne_true
    have hversion : p.version = some v := hsh.version
    have hsize : p.size = some s := hsh.size
    rw [PersistedNode.version, if_neg hleaf, map_eq_some_iff] at hversion
    rw [PersistedNode.size, if_neg hleaf, map_eq_some_iff] at hsize
    obtain ⟨d, -, rfl⟩ := hversion
    obtain ⟨d', -, hd'⟩ := hsize
    refine ⟨⟨readLE_take_lt 4 _, (ihl hdl hs.1).1, (ihr hdr hs.2.1).1⟩, ?_⟩
    have hlt : d'.size < 256 ^ 4 := readLE_take_lt 4 _
    have hlen : s = l.toList.length + r.toList.length := hs.2.2
    rw [Node.toList, List.length_append]
    omega

end Fits

structure Snapshot.IsOf (s : Snapshot) (v : Tree) : Prop where
  valid : v.Valid
  version : v.version ≤ maxUint32
  written : ∃ h t dir, HeapTree.Denotes h t v ∧ t.writeSnapshot h = .ok dir ∧ openSnapshot dir = .ok s
  root : persistedInterface.RootDenotes s.rootNode v.root

theorem Snapshot.IsOf.export_eq {s : Snapshot} (hs : s.IsOf v) :
    s.version = v.version ∧ ∃ es, s.exportTo collectAll [] = some es ∧ v.Exports es := by
  have hfits : v.toList.length < 2 ^ 32 ∧ ∀ n, v.root = some n → n.Fits := by
    have hroot := hs.root
    rw [Tree.toList]
    cases hv : v.root with
    | none => exact ⟨by simp, fun n hn => by cases hn⟩
    | some n =>
      rw [hv] at hroot
      cases hsr : s.rootNode with
      | none =>
        rw [hsr] at hroot
        exact hroot.elim
      | some p =>
        rw [hsr] at hroot
        obtain ⟨hf, hlen⟩ := NodeInterface.Denotes.fits hroot (hs.valid n hv).sized
        exact ⟨hlen, fun n' hn' => by cases hn'; exact hf⟩
  have hver := hs.version
  simp only [maxUint32] at hver
  have hp : v.Persistable := ⟨hs.valid, by omega, hfits.1, hfits.2⟩
  obtain ⟨h, t, dir, hd, hdir, hopen⟩ := hs.written
  obtain ⟨rfl, hsize⟩ := writeSnapshot_eq_ok hd hp hdir
  cases hopen.symm.trans hp.openSnapshot_eq
  refine ⟨rfl, v.exported, ?_, v.exports_exported⟩
  rw [hp.exportTo_eq collectAll hsize, emit_collect]
  rfl

inductive Since (v₀ : Tree) : Tree → Bool → Prop
  | opened : Since v₀ v₀ false
  | set {v : Tree} {changed : Bool} (hs : Since v₀ v changed) (key : Bytes) (value : Slice) :
      Since v₀ (v.set key value) true
  | remove {v : Tree} {changed : Bool} (hs : Since v₀ v changed) (key : Bytes) :
      Since v₀ (v.remove key) true
  | saveVersion {v v' : Tree} {changed : Bool} (hs : Since v₀ v changed)
      (hv : v.saveVersion = some v') : Since v₀ v' false

omit [Sha256] in
/-- A tree without unsaved changes that is still at the version it was opened at is
unchanged. -/
theorem Since.eq_of_version {v₀ : Tree} {changed : Bool} (hs : Since v₀ v changed) :
    v₀.version ≤ v.version ∧ (v.version = v₀.version → changed = false → v = v₀) := by
  induction hs with
  | opened => exact ⟨le_rfl, fun _ _ => rfl⟩
  | set _ _ _ ih => exact ⟨ih.1, fun _ h => by cases h⟩
  | remove _ _ ih => exact ⟨ih.1, fun _ h => by cases h⟩
  | saveVersion _ hv ih =>
    unfold Tree.saveVersion at hv
    split_ifs at hv
    cases hv
    have hle := ih.1
    refine ⟨by simp only; omega, fun h => ?_⟩
    simp only at h
    omega

/-! ## Import after export -/

/-- The import of a stream of `v` writes what `writeSnapshot` writes for any representation
of `v`. -/
theorem doImport_eq_writeSnapshot {N : Type} {I : NodeInterface N} {root : Option N}
    (hroot : I.RootDenotes root v.root) (hv : v.Valid) (hver : v.version ≤ maxUint32)
    (hle : v.VersionsLE maxUint32) (hsize : ∀ n, v.root = some n → n.size < 2 ^ 63) (he : v.Exports es) :
    doImport v.version es = ofWriter (writeSnapshot I (fun _ => false) v.version root) := by
  have hlt : ¬((v.version : Int) > (maxUint32 : Nat)) := by omega
  simp only [doImport, if_neg hlt, Importer.finish, importedFiles, toNat_version hver]
  unfold writeSnapshot
  unfold Tree.Exports at he
  cases hvr : v.root with
  | none =>
    rw [hvr] at he hroot
    cases root with
    | none =>
      cases he
      rfl
    | some r => exact hroot.elim
  | some n =>
    rw [hvr] at he hroot
    cases root with
    | none => exact hroot.elim
    | some r =>
      have hn := hv n hvr
      have hh : n.height < 128 := by
        have hpow := hn.balanced.two_pow_le_length
        rw [← hn.sized.size_eq] at hpow
        have := (Nat.pow_lt_pow_iff_right (by decide)).mp (lt_of_le_of_lt hpow (hsize n hvr))
        omega
      have hi : newSnapshotWriter.Waiting 0 := ⟨by decide, by decide, by decide⟩
      obtain ⟨hadd, -⟩ := foldlM_add_eq (i := ⟨newSnapshotWriter, [], []⟩) hroot hn.balanced hn.sized
        (hle n hvr) hh he hi (Nat.lt_succ_self n.height)
      rw [hadd]
      simp only [(NodeInterface.Denotes.shows hroot).height, ask, ok_bind]
      cases newSnapshotWriter.writeRecursive I (fun _ => false) (n.height + 1) r with
      | error e => rfl
      | ok w => rfl

theorem doImport_eq {h : Heap} {t : HeapTree} (hd : t.Denotes h v) (hv : v.Valid)
    (hver : v.version ≤ maxUint32) (hle : v.VersionsLE v.version)
    (hsize : ∀ n, v.root = some n → n.size < 2 ^ 63) (he : v.Exports es) :
    doImport v.version es = ofWriter (t.writeSnapshot h) := by
  rw [HeapTree.writeSnapshot, hd.1]
  exact doImport_eq_writeSnapshot hd.2 hv hver (fun n hn => (hle n hn).mono hver) hsize he

theorem HeapTree.export_eq {h : Heap} {t : HeapTree} (hd : t.Denotes h v) (hv : v.Valid)
    {snapshot : Option Snapshot}
    (hsnap : ∀ s, snapshot = some s → ∃ v₀, s.IsOf v₀ ∧ Since v₀ v false) :
    ∃ es, t.export h snapshot = some es ∧ v.Exports es := by
  have hscan : ∃ es, t.scanTo h collectAll [] = some es ∧ v.Exports es := by
    obtain ⟨-, hroot⟩ := hd
    unfold HeapTree.scanTo Tree.Exports
    cases hvr : v.root with
    | none =>
      rw [hvr] at hroot
      cases htr : t.root with
      | none => exact ⟨[], rfl, rfl⟩
      | some r =>
        rw [htr] at hroot
        exact hroot.elim
    | some n =>
      rw [hvr] at hroot
      cases htr : t.root with
      | none =>
        rw [htr] at hroot
        exact hroot.elim
      | some r =>
        rw [htr] at hroot
        have hsz : h.size r = some n.toList.length := by
          rw [← (hv n hvr).sized.size_eq]
          exact (NodeInterface.Denotes.shows hroot).size
        have hpos := n.length_toList_pos
        obtain ⟨es, hes, -, heq⟩ := scanPostOrder_eq hroot
        refine ⟨es, ?_, hes⟩
        simp only [hsz, Results.some_bind]
        rw [show 3 * n.toList.length = 3 * n.toList.length - 2 + 2 by omega, heq, emit_collect]
        rfl
  cases snapshot with
  | none => exact hscan
  | some s =>
    obtain ⟨v₀, hs, hsince⟩ := hsnap s rfl
    obtain ⟨hsv, es, hes, hexp⟩ := hs.export_eq
    by_cases hversion : t.version = s.version
    · have hsame : v = v₀ := hsince.eq_of_version.2 (by rw [← hd.1, hversion, hsv]) rfl
      refine ⟨es, ?_, hsame ▸ hexp⟩
      rw [HeapTree.export]
      simp only [if_pos hversion, hes]
    · obtain ⟨es', hes', hexp'⟩ := hscan
      refine ⟨es', ?_, hexp'⟩
      rw [← hes', HeapTree.export]
      simp only [if_neg hversion]

/-- A tree at a version boundary, loaded from a snapshot or not: the import of its export
leaves the files that `WriteSnapshot` leaves, or fails as it does. -/
theorem doImport_export {h : Heap} {t : HeapTree} {v : Tree} (hd : t.Denotes h v) (hv : v.Valid)
    (hver : v.version ≤ maxUint32) (hle : v.VersionsLE v.version)
    (hsize : ∀ n, v.root = some n → n.size < 2 ^ 63) (snapshot : Option Snapshot)
    (hsnap : ∀ s, snapshot = some s → ∃ v₀, s.IsOf v₀ ∧ Since v₀ v false) :
    ∃ es, t.export h snapshot = some es ∧ doImport t.version es = ofWriter (t.writeSnapshot h) := by
  obtain ⟨es, hes, hexp⟩ := HeapTree.export_eq hd hv hsnap
  refine ⟨es, hes, ?_⟩
  rw [hd.1]
  exact doImport_eq hd hv hver hle hsize hexp

omit [Sha256] in
/-- A branch over two leaves in memory, with a snapshot of the same version and without. -/
theorem doImport_export_branch : ∃ s es es' dir,
    @HeapTree.export Sha256.zero .savedBranch ⟨2, 0, some (.mem 2)⟩ (some s) = some es ∧ s.version = 2 ∧
      @doImport Sha256.zero 2 es = .ok dir ∧
    @HeapTree.export Sha256.zero .savedBranch ⟨2, 0, some (.mem 2)⟩ none = some es' ∧
      @doImport Sha256.zero 2 es' = .ok dir := by
  let _ := Sha256.zero
  have hd := savedBranch_denotes
  have hp := savedBranch_persistable
  have hfit : Tree.savedBranch.kvsSize ≤ maxFileSize := by decide
  have hver : Tree.savedBranch.version ≤ maxUint32 := by decide
  have hle : Tree.savedBranch.VersionsLE Tree.savedBranch.version := by
    rintro n ⟨rfl⟩
    simp [Tree.savedBranch, Node.VersionsLE]
  have hsize : ∀ n, Tree.savedBranch.root = some n → n.size < 2 ^ 63 := by
    rintro n ⟨rfl⟩
    decide
  have hwrite : HeapTree.writeSnapshot .savedBranch ⟨2, 0, some (.mem 2)⟩ = .ok Tree.savedBranch.snapshotDir := by
    rw [HeapTree.writeSnapshot, hd.1, hp.writeSnapshot_eq (fun _ => rfl) hd.2, if_pos hfit]
  have hs : Tree.savedBranch.snapshot.IsOf .savedBranch :=
    ⟨hp.valid, hver, ⟨_, _, _, hd, hwrite, hp.openSnapshot_eq⟩, hp.rootDenotes hfit⟩
  obtain ⟨es, hes, himport⟩ := doImport_export hd hp.valid hver hle hsize (some Tree.savedBranch.snapshot)
    fun s hss => ⟨_, Option.some.inj hss ▸ hs, .opened⟩
  obtain ⟨es', hes', himport'⟩ := doImport_export hd hp.valid hver hle hsize none
    fun s hss => by cases hss
  rw [hwrite] at himport himport'
  exact ⟨_, es, es', _, hes, hd.1.symm, himport, hes', himport'⟩

end CronosStore.Memiavl
