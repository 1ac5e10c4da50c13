import CronosStore.Memiavl.Export
import CronosStore.Memiavl.HeapCells

/-!
# The two ways to export emit one stream

`export` of `memiavl/snapshot.go` passes over the files of a snapshot and `ScanPostOrder` of
`memiavl/tree.go` over the tree itself. Each hands the nodes to a callback, which may ask to stop.
What the callback sees is the stream of the tree in both, up to the node where it stops
(`export_eq_scan`): the branches that the code makes in memory have no values, as those of the
files.

The files tell the length of a key in four bytes. A key of 2^32 bytes is empty when it is read back
(`exists_truncated_key`).
-/

namespace CronosStore.Memiavl

open Foundation Option

section Trees

variable [Sha256]

theorem Heap.CellsOk.branchesNil {S : PersistedNode → Prop} {h : Heap} (hok : h.CellsOk S) :
    h.BranchesNil := by
  intro r n hd hn
  have hleaf := hd.shows.isLeaf
  rw [hn] at hleaf
  cases r with
  | mem a =>
    obtain ⟨c, hc, hheight⟩ := map_eq_some_iff.mp (show h[a]?.map _ = _ from hleaf)
    refine map_eq_some_iff.mpr ⟨c, hc, ?_⟩
    cases hok a c hc with
    | leaf => cases hheight
    | branch => rfl
  | persisted p =>
    have hp : p.isLeaf = false := Option.some.inj hleaf
    show p.value = _
    rw [PersistedNode.value, hp]
    rfl

theorem HeapTree.Stands.scanTo_eq {h : Heap} {t : HeapTree} {v : Tree} (hs : t.Stands h v) {σ : Type}
    (callback : σ → ExportNode → Bool × σ) (acc : σ) :
    t.scanTo h callback acc = some (emit callback v.exported acc).2 := by
  obtain ⟨⟨F, hrep⟩, hv, hm⟩ := hs
  have hroot := hrep.rootDenotes hv
  obtain ⟨tv, cow, root⟩ := t
  obtain ⟨vv, vroot⟩ := v
  cases hrep with
  | none => rfl
  | @some r n F hr =>
    have hsize : h.size r = some n.toList.length := by
      rw [← (hv n rfl).sized.size_eq]
      exact (NodeInterface.Denotes.shows hroot).size
    obtain ⟨es, -, hes, hscan⟩ := scanPostOrder_eq hroot
    cases hes hm.cells.branchesNil
    have hpos := n.length_toList_pos
    simp only [HeapTree.scanTo, hsize, Results.some_bind]
    rw [show 3 * n.toList.length = 3 * n.toList.length - 2 + 2 by omega, hscan]
    show _ = some (emit callback n.exported acc).2
    rcases emit callback n.exported acc with ⟨_ | _, acc⟩ <;> rfl

/-- The pass over the files that are written for a tree and the walk over the tree hand the same nodes
to the callback, and stop at the same one. -/
theorem export_eq_scan {h : Heap} {t : HeapTree} {v : Tree} (hs : t.Stands h v)
    (hversion : t.version = v.version) (hv : v.Persistable) {dir : SnapshotDir} {s : Snapshot}
    (hw : t.writeSnapshot h = .ok dir) (ho : openSnapshot dir = .ok s) {σ : Type}
    (callback : σ → ExportNode → Bool × σ) (acc : σ) :
    s.exportTo callback acc = some (emit callback v.exported acc).2 ∧
      t.scanTo h callback acc = some (emit callback v.exported acc).2 := by
  obtain ⟨F, hrep⟩ := hs.rep
  obtain ⟨rfl, hsize⟩ := writeSnapshot_eq_ok ⟨hversion, hrep.rootDenotes hs.valid⟩ hv hw
  cases hv.openSnapshot_eq.symm.trans ho
  exact ⟨hv.exportTo_eq callback hsize acc, hs.scanTo_eq callback acc⟩

end Trees

def collectUntil (count : Nat) (acc : List ExportNode) (e : ExportNode) : Bool × List ExportNode :=
  (decide (acc.length + 1 = count), acc ++ [e])

theorem Heap.twoLeaves_stands [Sha256] : HeapTree.twoLeaves.Stands .twoLeaves .twoLeaves where
  rep := ⟨_, Heap.twoLeaves_repRoot⟩
  valid := Tree.twoLeaves_valid
  made := by
    refine ⟨fun a c hc => ?_, fun r hr => ?_⟩
    · match a with
      | 0 => cases hc; exact .leaf
      | 1 => cases hc; exact .leaf
      | 2 => cases hc; exact .branch (by decide) trivial trivial
      | a + 3 => cases hc
    · cases hr
      trivial

/-- Two of the three nodes of a tree in memory. -/
theorem export_eq_scan_twoLeaves :
    letI := Sha256.zero
    ∃ dir s, HeapTree.twoLeaves.writeSnapshot .twoLeaves = .ok dir ∧ openSnapshot dir = .ok s ∧
      s.exportTo (collectUntil 2) [] = some [⟨[1], some [7], 1, 0⟩, ⟨[2], some [8], 1, 0⟩] ∧
      HeapTree.twoLeaves.scanTo .twoLeaves (collectUntil 2) [] =
        some [⟨[1], some [7], 1, 0⟩, ⟨[2], some [8], 1, 0⟩] := by
  let _ := Sha256.zero
  have hv : Tree.twoLeaves.Persistable :=
    ⟨Tree.twoLeaves_valid, by decide, by decide, by rintro n ⟨⟩; simp [Node.Fits]⟩
  have hw : HeapTree.twoLeaves.writeSnapshot .twoLeaves = .ok Tree.twoLeaves.snapshotDir :=
    (hv.writeSnapshot_eq (fun _ => rfl) (Heap.twoLeaves_repRoot.rootDenotes hv.valid)).trans
      (if_pos (by decide))
  exact ⟨_, _, hw, hv.openSnapshot_eq,
    export_eq_scan Heap.twoLeaves_stands rfl hv hw hv.openSnapshot_eq (collectUntil 2) []⟩

/-! ## Keys that are too long -/

section Long

variable [Sha256]

def Tree.ofKey (key : Bytes) : Tree := (⟨0, none⟩ : Tree).set key (some [])

theorem exists_edited_ofKey (key : Bytes) :
    ∃ h t, Edited h t (.ofKey key) := by
  have he : Edited [] _ ⟨0, none⟩ := Edited.empty rfl
  obtain ⟨hs, hversion⟩ := he.stands
  obtain ⟨F, hrep⟩ := hs.rep
  obtain ⟨t, h, -, hset, -⟩ := set_repRoot hrep hversion hs.valid key (some [])
  exact ⟨h, t, he.set hset⟩

theorem leafKey_ofKey {key : Bytes} (hlen : key.length = 2 ^ 32) :
    (Tree.ofKey key).snapshot.leafKey 0 = some [] := by
  obtain ⟨rec, hrecords, hkey, hoffset⟩ : ∃ rec : LeafRecord, (Tree.ofKey key).leafRecords = [rec] ∧
      rec.key = key ∧ rec.offset = 0 := ⟨_, rfl, rfl, rfl⟩
  have hleaf : (Tree.ofKey key).snapshot.leaf 0 = some ⟨rec.encode⟩ := by
    rw [Snapshot.leaf, Tree.snapshot, Snapshot.ofRecords, hrecords,
      slice_flatMap LeafRecord.length_encode (l := [rec]) (i := 0) rfl]
    rfl
  have hkvs : 4 ≤ (Tree.ofKey key).snapshot.kvs.length := by
    rw [Tree.snapshot, Snapshot.ofRecords, hrecords]
    simp [LeafRecord.keyValue]
  simp only [Snapshot.leafKey, hleaf, bind_eq_bind, bind_some,
    LeafLayout.keyOffset_encode, LeafLayout.keyLength_encode, hkey, hoffset, hlen, Nat.mod_self]
  show slice _ 4 4 = _
  rw [slice, if_pos ⟨le_rfl, hkvs⟩]
  simp

theorem leavesLen_ofKey (key : Bytes) : (Tree.ofKey key).snapshot.leavesLen = 1 := by
  obtain ⟨rec, hrecords⟩ : ∃ rec : LeafRecord, (Tree.ofKey key).leafRecords = [rec] := ⟨_, rfl⟩
  rw [Snapshot.leavesLen, Tree.snapshot, Snapshot.ofRecords, hrecords,
    length_flatMap_const LeafRecord.length_encode]
  exact Nat.mul_div_cancel 1 (by decide)

end Long

/-- A key of `2 ^ 32` bytes is set. The walk over the tree emits it, the pass over the files an empty
key. -/
theorem exists_truncated_key :
    letI := Sha256.zero
    ∃ h t v dir s e, Edited h t v ∧ t.writeSnapshot h = .ok dir ∧ openSnapshot dir = .ok s ∧
      t.scanTo h (collectUntil 0) [] = some [e] ∧ s.exportTo (collectUntil 0) [] ≠ some [e] := by
  let _ := Sha256.zero
  obtain ⟨key, hlen⟩ : ∃ key : Bytes, key.length = 2 ^ 32 := ⟨List.replicate (2 ^ 32) 0, List.length_replicate⟩
  obtain ⟨h, t, he⟩ := exists_edited_ofKey key
  obtain ⟨hs, hversion⟩ := he.stands
  obtain ⟨F, hrep⟩ := hs.rep
  have hsize : (Tree.ofKey key).kvsSize ≤ maxFileSize := by
    show 8 + key.length + 0 ≤ _
    rw [hlen]
    decide
  have hw : t.writeSnapshot h = .ok (Tree.ofKey key).snapshotDir := by
    rw [HeapTree.writeSnapshot, hversion]
    exact (hs.valid.writeSnapshot_eq (show 1 < 2 ^ 32 by decide) (fun _ => rfl)
      (hrep.rootDenotes hs.valid)).trans (if_pos hsize)
  have hscan := hs.scanTo_eq (collectUntil 0) []
  refine ⟨h, t, _, _, _, ⟨key, some [], 1, 0⟩, he, hw, Tree.openSnapshot_snapshotDir (show 0 < 2 ^ 32 by decide),
    hscan, ?_⟩
  rw [Snapshot.exportTo, leavesLen_ofKey, if_neg (by decide), if_pos rfl]
  intro heq
  simp only [PersistedNode.key, if_true, leafKey_ofKey hlen, bind_eq_bind, bind_some,
    bind_eq_some_iff] at heq
  obtain ⟨value, -, version, -, heq⟩ := heq
  have hkey : ([] : Bytes) = key := by
    have hlist := Option.some.inj heq
    simpa [collectUntil] using congrArg (List.map ExportNode.key) hlist
  rw [← hkey] at hlen
  cases hlen

end CronosStore.Memiavl
