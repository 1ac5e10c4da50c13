import CronosStore.Memiavl.Export
import CronosStore.VersionDB.ConvertToSST
import CronosStore.VersionDB.SorterOptions

/-!
# Rebuilding the application database

`oneStore` of `versiondb/client/restore_app_db.go`: the nodes of a snapshot are encoded as they were
stored before, put in the order of their hashes by the external sorter, and written to sst files of
about a given size. The record of the root comes last.

The scan reads the nodes one by one from the two files of the snapshot, while the hashes of children
are found by the arithmetic of their indices. Both come to the nodes of the tree that was written
(`scan_eq`), so what a record refers to is stored (`oneStore_closed`). The sorter refuses items of
more than `2 ^ 32 - 1` bytes, which a leaf of a snapshot can have (`exists_node_refused`).
-/

namespace CronosStore.Memiavl

open Foundation List

def Snapshot.scanNodes {α : Type} (s : Snapshot) (callback : PersistedNode → Option α) : Option (List α) := do
  let leaves ← (range s.leavesLen).mapM fun i => callback ⟨s, true, i % 2 ^ 32⟩
  let branches ← (range s.nodesLen).mapM fun i => callback ⟨s, false, i % 2 ^ 32⟩
  pure (leaves ++ branches)

namespace Node

def leafNodes : Node → List Node
  | .leaf v k x => [.leaf v k x]
  | .branch _ _ _ _ l r => l.leafNodes ++ r.leafNodes

def branchNodes : Node → List Node
  | .leaf .. => []
  | .branch h s v k l r => l.branchNodes ++ r.branchNodes ++ [.branch h s v k l r]

def nodes (n : Node) : List Node := n.leafNodes ++ n.branchNodes

variable {h s v : Nat} {k : Bytes} {l r x n : Node}

theorem mem_nodes_branch :
    x ∈ (branch h s v k l r).nodes ↔ x ∈ l.nodes ∨ x ∈ r.nodes ∨ x = .branch h s v k l r := by
  simp only [nodes, leafNodes, branchNodes, mem_append, mem_singleton]
  tauto

theorem self_mem_nodes (n : Node) : n ∈ n.nodes := by
  cases n with
  | leaf => exact mem_singleton_self _
  | branch => exact mem_nodes_branch.mpr (.inr (.inr rfl))

theorem children_mem_nodes (hx : .branch h s v k l r ∈ n.nodes) : l ∈ n.nodes ∧ r ∈ n.nodes := by
  induction n with
  | leaf => cases mem_singleton.mp hx
  | branch _ _ _ _ nl nr ihl ihr =>
    simp only [mem_nodes_branch] at hx ⊢
    rcases hx with hx | hx | hx
    · exact ⟨.inl (ihl hx).1, .inl (ihl hx).2⟩
    · exact ⟨.inr (.inl (ihr hx).1), .inr (.inl (ihr hx).2)⟩
    · cases hx
      exact ⟨.inl (self_mem_nodes _), .inr (.inl (self_mem_nodes _))⟩

end Node

end CronosStore.Memiavl

namespace CronosStore.VersionDB

open Foundation Memiavl List Node

/-! ## The records -/

def sizeHash : Nat := 32

def encodeNode (node : PersistedNode) : Option Bytes := do
  let height ← node.height
  let size ← node.size
  let version ← node.version
  let key ← node.key
  let header := putVarint height ++ putVarint size ++ putVarint version ++ encodeBytes key
  if height = 0 then
    let value ← node.value
    pure (header ++ encodeBytes (value.getD []))
  else
    let left ← (← node.left).hash
    let right ← (← node.right).hash
    pure (header ++ encodeBytes left ++ encodeBytes right)

def encodeSorterNode (node : PersistedNode) : Option Bytes := do
  let hash ← node.hash
  let bz ← encodeNode node
  pure (hash ++ bz)

def compareSorterNode (a b : Bytes) : Bool := decide (a.take sizeHash < b.take sizeHash)

def nodeKey (store : Name) (hash : Bytes) : Bytes := storePrefix store ++ 110 :: hash

def rootKey (store : Name) (version : Nat) : Bytes := storePrefix store ++ 114 :: (putLE 8 version).reverse

def itemEntry (store : Name) (item : Bytes) : SSTEntry :=
  ⟨nodeKey store (item.take sizeHash), [], some (item.drop sizeHash)⟩

def rootEntry (store : Name) (version : Nat) (hash : Bytes) : SSTEntry := ⟨rootKey store version, [], some hash⟩

/-! ## Writing them -/

def writeNode (size : FileSize) (store : Name) (sstFileSizeTarget : Nat) (writer : SSTWriter) (item : Bytes) :
    Except ConvertError SSTWriter := do
  let writer ← writer.add (itemEntry store item)
  if size.fileSize writer.finished.length writer.current ≥ sstFileSizeTarget then writer.finish else pure writer

def rootRecordHash (snapshot : Snapshot) : Option Bytes :=
  match snapshot.rootNode with
  | none => some []
  | some root => root.hash

def oneStore (g : Goroutines compareSorterNode) (size : FileSize) (store : Name) (snapshot : Snapshot)
    (sstFileSizeTarget sorterChunkSize : Nat) : Except ConvertError (List (List SSTEntry)) :=
  match snapshot.scanNodes encodeSorterNode with
  | none => .error .panic
  | some items =>
    match spawn g ⟨false, toInt64 sorterChunkSize⟩ items with
    | .error e => .error (.sorter e)
    | .ok items =>
      match items.foldlM (writeNode size store sstFileSizeTarget) ⟨[], []⟩ with
      | .error e => .error e
      | .ok writer =>
        match rootRecordHash snapshot with
        | none => .error .panic
        | some rootHash => do
          let writer ← writer.add (rootEntry store snapshot.version rootHash)
          let writer ← writer.finish
          pure writer.finished

/-! ## The items of a snapshot -/

section Scan

variable [Sha256]

def nodeRecord : Node → Bytes
  | .leaf v k x => putVarint 0 ++ putVarint 1 ++ putVarint v ++ encodeBytes k ++ encodeBytes (x.getD [])
  | .branch h s v k l r => putVarint h ++ putVarint s ++ putVarint v ++ encodeBytes k ++
      encodeBytes l.hashNode ++ encodeBytes r.hashNode

def sorterNode (n : Node) : Bytes := n.hashNode ++ nodeRecord n

theorem take_sorterNode (n : Node) : (sorterNode n).take sizeHash = n.hashNode :=
  take_left' n.length_hashNode

def nodeEntry (store : Name) (n : Node) : SSTEntry := ⟨nodeKey store n.hashNode, [], some (nodeRecord n)⟩

theorem itemEntry_sorterNode (store : Name) (n : Node) : itemEntry store (sorterNode n) = nodeEntry store n := by
  have hdrop : (sorterNode n).drop sizeHash = nodeRecord n := drop_left' n.length_hashNode
  rw [itemEntry, take_sorterNode, hdrop, nodeEntry]

theorem encodeNode_eq {p : PersistedNode} {n : Node} (hd : persistedInterface.Denotes p n) (hb : n.Balanced) :
    encodeNode p = some (nodeRecord n) := by
  have hheight : p.height = some n.height := hd.shows.height
  have hsize : p.size = some n.size := hd.shows.size
  have hversion : p.version = some n.version := hd.shows.version
  have hkey : p.key = some n.key := hd.shows.key
  simp only [encodeNode, hheight, hsize, hversion, hkey, Results.some_bind]
  cases n with
  | leaf v k x =>
    have hvalue : p.value = some x := hd.2
    simp only [hvalue, Results.some_bind]
    rfl
  | branch h s v k l r =>
    obtain ⟨-, pl, pr, hl, hr, hdl, hdr⟩ := hd
    have hleft : p.left = some pl := hl
    have hright : p.right = some pr := hr
    have hlhash : pl.hash = some l.hashNode := hdl.shows.hash
    have hrhash : pr.hash = some r.hashNode := hdr.shows.hash
    have hpos : h ≠ 0 := by
      have := hb.2.2.1
      omega
    simp only [hleft, hright, hlhash, hrhash, Results.some_bind]
    exact if_neg hpos

theorem encodeSorterNode_eq {p : PersistedNode} {n : Node} (hd : persistedInterface.Denotes p n)
    (hb : n.Balanced) : encodeSorterNode p = some (sorterNode n) := by
  have hhash : p.hash = some n.hashNode := hd.shows.hash
  simp only [encodeSorterNode, hhash, encodeNode_eq hd hb, Results.some_bind]
  rfl

omit [Sha256] in
/-- The branches below a branch of `a` and `b` leaves, and the branch itself. -/
theorem range'_split {s a b : Nat} (ha : 0 < a) (hb : 0 < b) :
    range' s (a + b - 1) = range' s (a - 1) ++ (range' (s + a - 1) (b - 1) ++ [s + (a + b) - 2]) := by
  have hlen : a + b - 1 = a - 1 + (b - 1 + 1) := by omega
  have hstart : s + (a - 1) = s + a - 1 := by omega
  have hlast : s + a - 1 + (b - 1) = s + (a + b) - 2 := by omega
  rw [hlen, ← range'_append_1, range'_1_concat, hstart, hlast]

theorem scan_eq {s : Snapshot} {L : List LeafRecord} {B : List BranchRecord} {n : Node}
    {offset leaves branches : Nat} (hs : s.HoldsAt L B n offset leaves branches) (hn : n.Valid) (hf : n.Fits) :
    ((range' leaves n.toList.length).mapM fun i => encodeSorterNode ⟨s, true, i % 2 ^ 32⟩) =
        some (n.leafNodes.map sorterNode) ∧
      ((range' branches (n.toList.length - 1)).mapM fun i => encodeSorterNode ⟨s, false, i % 2 ^ 32⟩) =
        some (n.branchNodes.map sorterNode) := by
  induction n generalizing offset leaves branches with
  | leaf v k x =>
    have hroom := hs.room
    have hself : encodeSorterNode ⟨s, true, leaves⟩ = _ := encodeSorterNode_eq (hs.denotes hn hf) hn.balanced
    simp only [Node.toList, length_singleton] at hroom
    simp only [Node.toList, length_singleton, Nat.sub_self, range'_one, range'_zero, mapM_cons, mapM_nil,
      Nat.mod_eq_of_lt (show leaves < 2 ^ 32 by omega), hself]
    exact ⟨rfl, rfl⟩
  | branch h sz v k l r ihl ihr =>
    obtain ⟨hll, hlb⟩ := ihl (hs.left hn.balanced) hn.left hf.2.1
    obtain ⟨hrl, hrb⟩ := ihr (hs.right hn.balanced) hn.right hf.2.2
    have hself := encodeSorterNode_eq (hs.denotes hn hf) hn.balanced
    have hroom := hs.room
    have hle := hs.le
    have hlpos := l.length_toList_pos
    have hrpos := r.length_toList_pos
    simp only [Node.toList, length_append] at hroom ⊢
    constructor
    · rw [← range'_append_1, mapM_append, hll, hrl, leafNodes, map_append]
      rfl
    · have hindex : encodeSorterNode ⟨s, false, (branches + (l.toList.length + r.toList.length) - 2) % 2 ^ 32⟩ =
          some (sorterNode (.branch h sz v k l r)) := by
        rw [Nat.mod_eq_of_lt (by omega), ← hself]
        simp [Snapshot.nodeAt, Node.isLeaf, Node.toList]
      rw [range'_split hlpos hrpos, mapM_append, mapM_append, hlb, hrb, mapM_cons, mapM_nil, hindex,
        branchNodes, map_append, map_append, append_assoc]
      rfl

theorem scanNodes_eq {t : Tree} (ht : t.Persistable) (hsize : t.kvsSize ≤ maxFileSize) {n : Node}
    (hroot : t.root = some n) : t.snapshot.scanNodes encodeSorterNode = some (n.nodes.map sorterNode) := by
  obtain ⟨hat, -⟩ := ht.holdsAt hsize hroot
  obtain ⟨hleaves, hbranches⟩ := scan_eq hat (ht.valid n hroot) (ht.fits n hroot)
  rw [Snapshot.scanNodes, hat.leavesLen_eq, hat.nodesLen_eq, range_eq_range', range_eq_range', hleaves, hbranches,
    nodes, map_append]
  rfl

end Scan

section Files

variable {store : Name} {w : SSTWriter}

theorem strictWeak_compareSorterNode : BinaryHeap.StrictWeak compareSorterNode :=
  .of_lt (take sizeHash) fun _ _ => decide_eq_true_iff

theorem nodeKey_lt {a b : Bytes} (h : a < b) : nodeKey store a < nodeKey store b :=
  append_left_lt (cons_lt_cons_iff.mpr (.inr ⟨rfl, h⟩))

theorem nodeKey_lt_rootKey (hash : Bytes) (version : Nat) : nodeKey store hash < rootKey store version :=
  append_left_lt (cons_lt_cons_iff.mpr (.inl (by decide)))

theorem SSTWriter.add_spec {e : SSTEntry} (hlt : ∀ x ∈ w.written, x.key < e.key) :
    ∃ w', w.add e = .ok w' ∧ w'.written = w.written ++ [e] ∧ w'.finished = w.finished ∧ w'.current ≠ [] := by
  have hadd : w.add e = .ok ⟨w.finished, w.current ++ [e]⟩ := by
    unfold SSTWriter.add
    cases hlast : w.current.getLast? with
    | none =>
      rw [getLast?_eq_none_iff.mp hlast]
      rfl
    | some last =>
      have hkey := hlt last (mem_append_right _ (mem_of_getLast? hlast))
      have hbefore : last.before e = true := by
        rw [SSTEntry.before, if_pos hkey.ne]
        exact decide_eq_true hkey
      simp only [hbefore, if_true]
  refine ⟨_, hadd, ?_, rfl, by simp⟩
  rw [SSTWriter.written, SSTWriter.written, append_assoc]

theorem SSTWriter.finish_spec (hne : w.current ≠ []) (hfull : ∀ f ∈ w.finished, f ≠ []) :
    ∃ files, w.finish = .ok ⟨files, []⟩ ∧ files.flatten = w.written ∧ ∀ f ∈ files, f ≠ [] := by
  refine ⟨w.finished ++ [w.current], if_neg hne, flatten_concat, fun f hf => ?_⟩
  rcases mem_append.mp hf with hf | hf
  · exact hfull f hf
  · rw [mem_singleton.mp hf]
    exact hne

theorem writeNode_spec (size : FileSize) (sstFileSizeTarget : Nat) {item : Bytes}
    (hlt : ∀ x ∈ w.written, x.key < (itemEntry store item).key) (hfull : ∀ f ∈ w.finished, f ≠ []) :
    ∃ w', writeNode size store sstFileSizeTarget w item = .ok w' ∧
      w'.written = w.written ++ [itemEntry store item] ∧ ∀ f ∈ w'.finished, f ≠ [] := by
  obtain ⟨w', hadd, hwritten, hfinished, hne⟩ := SSTWriter.add_spec hlt
  rw [← hfinished] at hfull
  rw [writeNode, hadd, Results.ok_bind]
  split_ifs
  · obtain ⟨files, hfinish, hflat, hfiles⟩ := SSTWriter.finish_spec hne hfull
    refine ⟨_, hfinish, ?_, hfiles⟩
    rw [SSTWriter.written, append_nil, hflat, hwritten]
  · exact ⟨w', rfl, hwritten, hfull⟩

theorem foldlM_writeNode (size : FileSize) (sstFileSizeTarget : Nat) {items : List Bytes}
    (hsorted : (w.written ++ items.map (itemEntry store)).Pairwise fun a b => a.key < b.key)
    (hfull : ∀ f ∈ w.finished, f ≠ []) :
    ∃ w', items.foldlM (writeNode size store sstFileSizeTarget) w = .ok w' ∧
      w'.written = w.written ++ items.map (itemEntry store) ∧ ∀ f ∈ w'.finished, f ≠ [] := by
  induction items generalizing w with
  | nil => exact ⟨w, rfl, (append_nil _).symm, hfull⟩
  | cons item items ih =>
    have hlt := fun x hx => (pairwise_append.mp hsorted).2.2 x hx (itemEntry store item) mem_cons_self
    obtain ⟨w', hstep, hwritten, hfull'⟩ := writeNode_spec size sstFileSizeTarget hlt hfull
    rw [map_cons, append_cons, ← hwritten] at hsorted
    rw [foldlM_cons, hstep, Results.ok_bind, map_cons, append_cons, ← hwritten]
    exact ih hsorted hfull'

end Files

variable [Sha256]

theorem pairwise_key (store : Name) {out : List Bytes} {ns : List Node} (hperm : out.Perm (ns.map sorterNode))
    (hdistinct : (ns.map Node.hashNode).Nodup) (hsorted : out.Pairwise fun a b => compareSorterNode b a = false) :
    (out.map (itemEntry store)).Pairwise fun a b => a.key < b.key := by
  have hmap := hperm.map (take sizeHash)
  simp only [map_map, Function.comp_def, take_sorterNode] at hmap
  have hne : out.Pairwise fun a b => a.take sizeHash ≠ b.take sizeHash :=
    pairwise_map.mp (hmap.nodup_iff.mpr hdistinct)
  refine pairwise_map.mpr ((hsorted.and hne).imp ?_)
  rintro a b ⟨hle, hab⟩
  exact nodeKey_lt (lt_of_le_of_ne (not_lt.mp (of_decide_eq_false hle)) hab)

/-- The files of a snapshot have a record for each node and one for the root, in order, and the hashes in
them are those of records. -/
theorem oneStore_closed {h : Heap} {t : HeapTree} {v : Tree} {n : Node} {dir : SnapshotDir} {s : Snapshot}
    (hd : t.Denotes h v) (hv : v.Persistable) (hroot : v.root = some n) (hdir : t.writeSnapshot h = .ok dir)
    (hs : openSnapshot dir = .ok s) (hdistinct : (n.nodes.map Node.hashNode).Nodup)
    (hlen : ∀ i ∈ n.nodes.map sorterNode, i.length ≤ maxUint32) {sorterChunkSize : Nat}
    (hsize : toInt64 sorterChunkSize ≤ 2 ^ 63 - 2 ^ 32 - 3 ∨ totalSize (n.nodes.map sorterNode) < 2 ^ 63)
    (g : Goroutines compareSorterNode) (size : FileSize) (store : Name) (sstFileSizeTarget : Nat) :
    ∃ files records, oneStore g size store s sstFileSizeTarget sorterChunkSize = .ok files ∧
      files.flatten = records ++ [rootEntry store t.version n.hashNode] ∧
      records.Perm (n.nodes.map (nodeEntry store)) ∧ files.flatten.Pairwise (fun a b => a.key < b.key) ∧
      (∀ f ∈ files, f ≠ []) ∧ nodeKey store n.hashNode ∈ records.map SSTEntry.key ∧
      ∀ ht sz x k l r, .branch ht sz x k l r ∈ n.nodes →
        nodeKey store l.hashNode ∈ records.map SSTEntry.key ∧ nodeKey store r.hashNode ∈ records.map SSTEntry.key := by
  obtain ⟨rfl, hkvs⟩ := writeSnapshot_eq_ok hd hv hdir
  cases hv.openSnapshot_eq.symm.trans hs
  obtain ⟨hat, hrootNode⟩ := hv.holdsAt hkvs hroot
  obtain ⟨out, hspawn, hperm, hsorted⟩ :=
    spawn_spec strictWeak_compareSorterNode g ⟨false, toInt64 sorterChunkSize⟩ hlen hsize
  have hrecords : (out.map (itemEntry store)).Perm (n.nodes.map (nodeEntry store)) := by
    have hmap := hperm.map (itemEntry store)
    simp only [map_map, Function.comp_def, itemEntry_sorterNode] at hmap
    exact hmap
  have hkeys := pairwise_key store hperm hdistinct hsorted
  obtain ⟨w, hw, hwritten, hfull⟩ := foldlM_writeNode (w := ⟨[], []⟩) size sstFileSizeTarget hkeys (by simp)
  have hlast : ∀ x ∈ w.written, x.key < (rootEntry store v.version n.hashNode).key := by
    intro x hx
    rw [hwritten] at hx
    obtain ⟨item, -, rfl⟩ := mem_map.mp hx
    exact nodeKey_lt_rootKey _ _
  obtain ⟨w', hadd, hwritten', hfinished, hne⟩ := SSTWriter.add_spec hlast
  obtain ⟨files, hfinish, hflat, hfiles⟩ := SSTWriter.finish_spec hne (hfinished ▸ hfull)
  have hmem : ∀ x ∈ n.nodes, nodeKey store x.hashNode ∈ (out.map (itemEntry store)).map SSTEntry.key := by
    intro x hx
    exact mem_map.mpr ⟨_, hrecords.mem_iff.mpr (mem_map_of_mem hx), rfl⟩
  refine ⟨files, out.map (itemEntry store), ?_, ?_, hrecords, ?_, hfiles, hmem n n.self_mem_nodes,
    fun _ _ _ _ _ _ hx => ?_⟩
  · have hhash : rootRecordHash v.snapshot = some n.hashNode := by
      rw [rootRecordHash, hrootNode]
      exact (hat.denotes (hv.valid n hroot) (hv.fits n hroot)).shows.hash
    have hadd' : w.add (rootEntry store v.snapshot.version n.hashNode) = _ := hadd
    rw [oneStore, scanNodes_eq hv hkvs hroot]
    simp only [hspawn, hw, hhash, hadd', hfinish, Results.ok_bind]
    rfl
  · rw [hd.1, hflat, hwritten', hwritten]
    rfl
  · rw [hflat, hwritten']
    refine pairwise_append.mpr ⟨hwritten ▸ hkeys, pairwise_singleton _ _, fun x hx y hy => ?_⟩
    rw [mem_singleton.mp hy]
    exact hlast x hx
  · exact ⟨hmem _ (children_mem_nodes hx).1, hmem _ (children_mem_nodes hx).2⟩

omit [Sha256] in
/-- Two leaves and a branch, each in a file of its own, the last one with the root record. -/
theorem oneStore_closed_twoLeaves :
    letI := Sha256.padded
    ∃ dir s files, HeapTree.twoLeaves.writeSnapshot .twoLeaves = .ok dir ∧ openSnapshot dir = .ok s ∧
      oneStore (.inOrder strictWeak_compareSorterNode) ⟨fun _ _ => 0, fun _ => rfl⟩ [98] s 0 6 = .ok files ∧
      (∀ f ∈ files, f ≠ []) ∧ files.flatten.length = 4 := by
  let _ := Sha256.padded
  have hv : Tree.twoLeaves.Persistable :=
    ⟨Tree.twoLeaves_valid, by decide, by decide, by rintro n ⟨⟩; simp [Node.Fits]⟩
  have hd : HeapTree.twoLeaves.Denotes .twoLeaves .twoLeaves :=
    ⟨rfl, Heap.twoLeaves_repRoot.rootDenotes hv.valid⟩
  have hw : HeapTree.twoLeaves.writeSnapshot .twoLeaves = .ok Tree.twoLeaves.snapshotDir :=
    (hv.writeSnapshot_eq (fun _ => rfl) hd.2).trans (if_pos (by decide))
  obtain ⟨files, records, hfiles, hflat, hperm, -, hfull, -⟩ :=
    oneStore_closed hd hv rfl hw hv.openSnapshot_eq (by decide) (by decide)
      (.inl (show toInt64 6 ≤ 2 ^ 63 - 2 ^ 32 - 3 by decide))
      (.inOrder strictWeak_compareSorterNode) ⟨fun _ _ => 0, fun _ => rfl⟩ [98] 0
  refine ⟨_, _, files, hw, hv.openSnapshot_eq, hfiles, hfull, ?_⟩
  rw [hflat, length_append, hperm.length_eq]
  rfl

omit [Sha256] in
/-- A value of `2 ^ 32 - 1` bytes is in the snapshot, and its record is refused by the sorter. -/
theorem exists_node_refused :
    letI := Sha256.padded
    ∃ (h : Heap) (t : HeapTree) (v : Tree) (n : Node) (dir : SnapshotDir) (s : Snapshot), t.Denotes h v ∧
      v.Persistable ∧ v.root = some n ∧ t.writeSnapshot h = .ok dir ∧ openSnapshot dir = .ok s ∧
      (n.nodes.map Node.hashNode).Nodup ∧
      ∀ (g : Goroutines compareSorterNode) (size : FileSize) (store : Name) (sstFileSizeTarget sorterChunkSize : Nat),
        ∃ e, oneStore g size store s sstFileSizeTarget sorterChunkSize = .error (.sorter e) := by
  let _ := Sha256.padded
  obtain ⟨x, hx⟩ : ∃ x : Bytes, x.length = 2 ^ 32 - 1 := ⟨replicate (2 ^ 32 - 1) 0, length_replicate⟩
  have hv : Tree.Persistable ⟨1, some (.leaf 1 [1] (some x))⟩ := by
    refine ⟨?_, show 1 < 2 ^ 32 by decide, show 1 < 2 ^ 32 by decide, ?_⟩ <;> rintro n ⟨⟩
    · exact ⟨by simp [Node.Balanced], by simp [Node.Sized], by simp [Node.Ordered], by simp [Node.Stored, Node.toList]⟩
    · refine ⟨by decide, by decide, ?_⟩
      rw [Option.getD_some]
      omega
  have hd : HeapTree.Denotes [⟨0, 1, 1, [1], some x, none, none, none⟩] ⟨1, 0, some (.mem 0)⟩
      ⟨1, some (.leaf 1 [1] (some x))⟩ := ⟨rfl, ⟨rfl, rfl, rfl, rfl, rfl, rfl⟩, rfl⟩
  have hkvs : Tree.kvsSize ⟨1, some (.leaf 1 [1] (some x))⟩ ≤ maxFileSize := by
    simp only [Tree.kvsSize, Node.kvsSize, Option.map_some, Option.getD_some, maxFileSize, hx, length_singleton]
    omega
  refine ⟨_, _, _, _, _, _, hd, hv, rfl, (hv.writeSnapshot_eq (fun _ => rfl) hd.2).trans (if_pos hkvs),
    hv.openSnapshot_eq, nodup_singleton _, fun g size store sstFileSizeTarget sorterChunkSize => ?_⟩
  have hlong : (sorterNode (.leaf 1 [1] (some x))).length > maxUint32 := by
    simp only [sorterNode, nodeRecord, length_append, Node.length_hashNode, encodeBytes, Option.getD_some, maxUint32]
    omega
  have hscan : Snapshot.scanNodes _ encodeSorterNode = some [sorterNode (.leaf 1 [1] (some x))] :=
    scanNodes_eq hv hkvs rfl
  obtain ⟨e, hspawn⟩ : ∃ e, spawn g ⟨false, toInt64 sorterChunkSize⟩ [sorterNode (.leaf 1 [1] (some x))] =
      .error e := by
    rw [spawn, spawnWith, foldlM_cons, ExtSorter.feedInt64, ExtSorter.feedWith, if_pos hlong]
    exact ⟨_, rfl⟩
  refine ⟨e, ?_⟩
  rw [oneStore, hscan]
  simp only [hspawn]

end CronosStore.VersionDB
