import CronosStore.Memiavl.HeapTree

/-!
# Trees as they grow

A tree grows from an empty one by `set`, `remove` and `SaveVersion`, and by writing it to a snapshot
and going on from the opened files. Whatever its history, it represents a valid value with versions
that do not grow downwards (`Grown.sound`); the ordered map and the representation invariant follow.
-/

namespace CronosStore.Memiavl

open Foundation CellHeap

variable [Sha256]

def HeapTree.Denotes (h : Heap) (t : HeapTree) (v : Tree) : Prop :=
  t.version = v.version ∧ h.interface.RootDenotes t.root v.root

/-! ## The snapshot round trip -/

variable {v : Tree} {h : Heap} {t : HeapTree} {n : Node}

theorem Tree.Persistable.rootDenotes (hv : v.Persistable) (hsize : v.kvsSize ≤ maxFileSize) :
    persistedInterface.RootDenotes v.snapshot.rootNode v.root := by
  cases hr : v.root with
  | none =>
    have hnone : v.snapshot.rootNode = none := by
      simp [Snapshot.rootNode, Tree.snapshot, Snapshot.ofRecords, Tree.leafRecords,
        Tree.branchRecords, hr]
    rw [hnone]
    trivial
  | some n =>
    obtain ⟨hat, hroot⟩ := hv.holdsAt hsize hr
    rw [hroot]
    exact hat.denotes (hv.valid n hr) (hv.fits n hr)

theorem writeSnapshot_eq_ok (hd : t.Denotes h v) (hv : v.Persistable) {dir : SnapshotDir}
    (hdir : t.writeSnapshot h = .ok dir) : dir = v.snapshotDir ∧ v.kvsSize ≤ maxFileSize := by
  obtain ⟨hver, hroot⟩ := hd
  rw [HeapTree.writeSnapshot, hver, hv.writeSnapshot_eq (fun _ => rfl) hroot] at hdir
  by_cases hsize : v.kvsSize ≤ maxFileSize
  · rw [if_pos hsize] at hdir
    exact ⟨(Except.ok.inj hdir).symm, hsize⟩
  · rw [if_neg hsize] at hdir
    cases hdir

/-- What `WriteSnapshot` writes is opened by `OpenSnapshot`, and the opened root is the tree
that was written, node by node and with its hashes, whatever its nodes were: cells, nodes of
an older snapshot, or both. No index wraps around on the way and no `preTrees` is truncated
(`Placed`). Writing can only fail on a kvs file that no offset can reach into. -/
theorem writeSnapshot_roundTrip (h : Heap) (t : HeapTree) (v : Tree) (hd : t.Denotes h v)
    (hv : v.Persistable) :
    (∀ dir, t.writeSnapshot h = .ok dir → ∃ s, openSnapshot dir = .ok s ∧
      s.version = t.version ∧ persistedInterface.RootDenotes s.rootNode v.root ∧
      ∀ n p, v.root = some n → s.rootNode = some p → Placed n 0 0 p) ∧
    (v.kvsSize ≤ maxFileSize → ∃ dir, t.writeSnapshot h = .ok dir) := by
  constructor
  · intro dir hdir
    obtain ⟨rfl, hsize⟩ := writeSnapshot_eq_ok hd hv hdir
    refine ⟨v.snapshot, hv.openSnapshot_eq, hd.1.symm, hv.rootDenotes hsize, fun n p hn hp => ?_⟩
    obtain ⟨hat, hroot⟩ := hv.holdsAt hsize hn
    cases hroot.symm.trans hp
    exact hat.placed (hv.valid n hn) (hv.fits n hn)
  · intro hsize
    refine ⟨v.snapshotDir, ?_⟩
    rw [HeapTree.writeSnapshot, hd.1, hv.writeSnapshot_eq (fun _ => rfl) hd.2, if_pos hsize]

def Heap.savedBranch : Heap :=
  [⟨0, 1, 1, [1], some [7], none, none, none⟩, ⟨0, 1, 2, [2], some [], none, none, none⟩,
    ⟨1, 2, 2, [2], none, some (.mem 0), some (.mem 1), none⟩]

def Tree.savedBranch : Tree :=
  ⟨2, some (.branch 1 2 2 [2] (.leaf 1 [1] (some [7])) (.leaf 2 [2] (some [])))⟩

theorem savedBranch_denotes : HeapTree.Denotes .savedBranch ⟨2, 0, some (.mem 2)⟩ .savedBranch :=
  ⟨rfl, ⟨rfl, rfl, rfl, rfl, rfl, rfl⟩, .mem 0, .mem 1, rfl, rfl,
    ⟨⟨rfl, rfl, rfl, rfl, rfl, rfl⟩, rfl⟩, ⟨⟨rfl, rfl, rfl, rfl, rfl, rfl⟩, rfl⟩⟩

omit [Sha256] in
theorem savedBranch_persistable : Tree.savedBranch.Persistable := by
  refine ⟨?_, by decide, by decide, ?_⟩ <;> rintro n ⟨rfl⟩
  · refine ⟨by simp [Node.Balanced], by simp [Node.Sized, Node.toList], ?_, ?_⟩
    · refine ⟨trivial, trivial, ?_, rfl⟩
      simp only [Node.toList, List.mem_singleton, forall_eq]
      decide
    · simp [Node.Stored, Node.toList]
  · simp [Node.Fits]

omit [Sha256] in
/-- The branch is written and opened again. -/
theorem writeSnapshot_roundTrip_branch :
    ∃ dir s, @HeapTree.writeSnapshot Sha256.zero .savedBranch ⟨2, 0, some (.mem 2)⟩ = .ok dir ∧
      openSnapshot dir = .ok s ∧ s.version = 2 := by
  let _ := Sha256.zero
  obtain ⟨hopen, hwrite⟩ := writeSnapshot_roundTrip _ _ _ savedBranch_denotes savedBranch_persistable
  obtain ⟨dir, hdir⟩ := hwrite (by decide)
  obtain ⟨s, hs, hversion, -⟩ := hopen dir hdir
  exact ⟨dir, s, hdir, hs, hversion⟩

/-- A snapshot of an opened snapshot has the same files, byte for byte, and so has a snapshot of any other
tree with the same value. -/
theorem writeSnapshot_again {h h' : Heap} {t t' : HeapTree} {v : Tree} (hd : t.Denotes h v)
    (hd' : t'.Denotes h' v) (hv : v.Persistable) {dir : SnapshotDir} (hdir : t.writeSnapshot h = .ok dir) :
    t'.writeSnapshot h' = .ok dir ∧ ∃ s, openSnapshot dir = .ok s ∧
      writeSnapshot persistedInterface (fun _ => false) s.version s.rootNode = .ok dir := by
  obtain ⟨rfl, hsize⟩ := writeSnapshot_eq_ok hd hv hdir
  refine ⟨?_, v.snapshot, hv.openSnapshot_eq, ?_⟩
  · rw [HeapTree.writeSnapshot, hd'.1, hv.writeSnapshot_eq (fun _ => rfl) hd'.2, if_pos hsize]
  · exact (hv.writeSnapshot_eq (fun _ => rfl) (hv.rootDenotes hsize)).trans (if_pos hsize)

omit [Sha256] in
/-- The branch is written, opened and written again. -/
theorem writeSnapshot_again_branch :
    ∃ dir s, @HeapTree.writeSnapshot Sha256.zero .savedBranch ⟨2, 0, some (.mem 2)⟩ = .ok dir ∧
      openSnapshot dir = .ok s ∧
      writeSnapshot persistedInterface (fun _ => false) s.version s.rootNode = .ok dir := by
  let _ := Sha256.zero
  have hwrite : HeapTree.writeSnapshot .savedBranch ⟨2, 0, some (.mem 2)⟩ = .ok Tree.savedBranch.snapshotDir :=
    (savedBranch_persistable.writeSnapshot_eq (fun _ => rfl) savedBranch_denotes.2).trans (if_pos (by decide))
  obtain ⟨-, s, hs, hagain⟩ :=
    writeSnapshot_again savedBranch_denotes savedBranch_denotes savedBranch_persistable hwrite
  exact ⟨_, s, hwrite, hs, hagain⟩

/-- The trees reached by changes and by going through snapshots. `SaveVersion` is followed
up to the last version that leaves a version for further changes; a snapshot is only
followed where its indices and lengths can be counted. -/
inductive Grown : Heap → HeapTree → Prop
  | empty {h : Heap} {version : Nat} {t : HeapTree} (ht : HeapTree.newEmptyTree version = some t) :
      Grown h t
  | set {h h' : Heap} {t t' : HeapTree} (hg : Grown h t) {key : Bytes} {value : Slice}
      (hs : t.set h key value = some (t', h')) : Grown h' t'
  | remove {h h' : Heap} {t t' : HeapTree} (hg : Grown h t) {key : Bytes}
      (hs : t.remove h key = some (t', h')) : Grown h' t'
  | saveVersion {h h' : Heap} {t t' : HeapTree} (hg : Grown h t) {updateHash : Bool}
      {res : Option Slice} (hlast : t.version + 1 < maxUint32)
      (hs : t.saveVersion h updateHash = some (res, t', h')) : Grown h' t'
  | reopen {h : Heap} {t : HeapTree} (hg : Grown h t) {v : Tree} (hv : t.Denotes h v)
      (hlen : v.toList.length < 2 ^ 32)
      (hkv : ∀ p ∈ v.toList, p.1.length < 2 ^ 32 ∧ (p.2.getD []).length < 2 ^ 32)
      {dir : SnapshotDir} {s : Snapshot} (hw : t.writeSnapshot h = .ok dir)
      (ho : openSnapshot dir = .ok s) : Grown h (.newFromSnapshot s)

structure Tree.Sound (v : Tree) : Prop where
  valid : v.Valid
  version : v.version < maxUint32
  versions : v.VersionsLE (v.version + 1)
  mono : ∀ n, v.root = some n → n.VersionMono

section

omit [Sha256]

theorem Node.VersionsLE.version_le {b : Nat} (h : n.VersionsLE b) : n.version ≤ b := by
  cases n with
  | leaf => exact h
  | branch => exact h.1

theorem Tree.Sound.nextNodeVersion (hv : v.Sound) : v.nextNodeVersion = v.version + 1 := by
  have hlt := hv.version
  simp only [maxUint32] at hlt
  exact Nat.mod_eq_of_lt (by omega)

theorem Tree.Sound.set (hv : v.Sound) (key : Bytes) (value : Slice) :
    (v.set key value).Sound := by
  have hnext := hv.nextNodeVersion
  refine ⟨hv.valid.set key value, hv.version, hv.versions.set hv.valid key value hnext.le, ?_⟩
  rintro n ⟨rfl⟩
  cases hr : v.root with
  | none => trivial
  | some n =>
    obtain ⟨ho, -⟩ := Node.setRecursive_outcome key (some (value.getD [])) v.nextNodeVersion
      (hv.valid n hr).balanced
    exact (ho.versionMono (hv.mono n hr) (hnext ▸ (hv.versions n hr).version_le)).1

theorem Tree.Sound.remove (hv : v.Sound) (key : Bytes) : (v.remove key).Sound := by
  have hnext := hv.nextNodeVersion
  refine ⟨hv.valid.remove key, hv.version, hv.versions.remove hv.valid key hnext.le, ?_⟩
  intro n' hn'
  cases hr : v.root with
  | none => simp [Tree.remove, Tree.removeRoot, hr] at hn'
  | some n =>
    simp only [Tree.remove, Tree.removeRoot, hr] at hn'
    have hn := hv.valid n hr
    obtain ⟨ho, -, -⟩ := Node.removeRecursive_outcome key v.nextNodeVersion hn.balanced hn.ordered
      hn.stored
    rw [hn'] at ho
    exact (ho.versionMono (hv.mono n hr) (hnext ▸ (hv.versions n hr).version_le)).1

theorem Node.fits_of_versionsLE {b : Nat} (hb : b < 2 ^ 32) (hn : n.VersionsLE b)
    (hkv : ∀ p ∈ n.toList, p.1.length < 2 ^ 32 ∧ (p.2.getD []).length < 2 ^ 32) : n.Fits := by
  induction n with
  | leaf v k x => exact ⟨Nat.lt_of_le_of_lt hn hb, hkv (k, x) (List.mem_singleton_self _)⟩
  | branch h s v k l r ihl ihr =>
    exact ⟨Nat.lt_of_le_of_lt hn.1 hb, ihl hn.2.1 fun p hp => hkv p (List.mem_append_left _ hp),
      ihr hn.2.2 fun p hp => hkv p (List.mem_append_right _ hp)⟩

theorem Tree.Sound.persistable (hv : v.Sound) (hlen : v.toList.length < 2 ^ 32)
    (hkv : ∀ p ∈ v.toList, p.1.length < 2 ^ 32 ∧ (p.2.getD []).length < 2 ^ 32) :
    v.Persistable := by
  have hlt := hv.version
  simp only [maxUint32] at hlt
  refine ⟨hv.valid, by omega, hlen, fun n hn => ?_⟩
  refine Node.fits_of_versionsLE (show v.version + 1 < 2 ^ 32 by omega) (hv.versions n hn) ?_
  simpa only [Tree.toList, hn, Option.map_some, Option.getD_some] using hkv

end

theorem RepRoot.denotes_unique {v' : Tree} {F : Set Addr} (hr : RepRoot h t.root v.root F)
    (hver : t.version = v.version) (hv : v.Valid) (hd : t.Denotes h v') : v' = v := by
  obtain ⟨hver', hroot'⟩ := hd
  have hroot := hr.rootDenotes hv
  have hrr : v'.root = v.root := by
    cases hr' : t.root <;> cases h1 : v.root <;> cases h2 : v'.root <;>
      simp only [hr', h1, h2, NodeInterface.RootDenotes] at hroot hroot' ⊢
    rw [hroot.unique hroot']
  obtain ⟨vv, vr⟩ := v
  obtain ⟨vv', vr'⟩ := v'
  cases hver'.symm.trans hver
  cases hrr
  rfl

theorem Tree.Persistable.repRoot (hv : v.Persistable) (hsize : v.kvsSize ≤ maxFileSize)
    (h : Heap) : RepRoot h (HeapTree.newFromSnapshot v.snapshot).root v.root ∅ := by
  have hroot := hv.rootDenotes hsize
  show RepRoot h (v.snapshot.rootNode.map Ref.persisted) v.root ∅
  cases h1 : v.snapshot.rootNode <;> cases h2 : v.root <;>
    simp only [h1, h2, NodeInterface.RootDenotes] at hroot
  · exact .none
  · exact .some (.persisted hroot)

theorem saveVersion_repRoot {h' : Heap} {t' : HeapTree} {F : Set Addr}
    (hr : RepRoot h t.root v.root F) (hv : v.Valid) {updateHash : Bool} {res : Option Slice}
    (hs : t.saveVersion h updateHash = some (res, t', h')) :
    HashStep h h' ∧ t' = if t.version = maxUint32 then t else { t with version := t.version + 1 } := by
  unfold HeapTree.saveVersion at hs
  split_ifs at hs ⊢
  · cases hs
    exact ⟨.refl h, rfl⟩
  · obtain ⟨h₁, he, hstep⟩ := rootHash_repRoot hr hv
    simp only [he, Results.some_bind, Option.pure_def] at hs
    cases hs
    exact ⟨hstep, rfl⟩
  · cases hs
    exact ⟨.refl h, rfl⟩

theorem Grown.sound (hg : Grown h t) :
    ∃ (v : Tree) (F : Set Addr), RepRoot h t.root v.root F ∧ t.version = v.version ∧ v.Sound := by
  induction hg with
  | @empty h version t ht =>
    unfold HeapTree.newEmptyTree at ht
    split_ifs at ht with hv
    cases ht
    refine ⟨⟨version, none⟩, ∅, .none, rfl, ?_, Nat.not_le.mp hv, ?_, ?_⟩ <;> rintro n ⟨⟩
  | @set h h' t t' _ key value hs ih =>
    obtain ⟨v, F, hr, hver, hv⟩ := ih
    obtain ⟨t1, h₁, F', he, hver', -, hr', -⟩ := set_repRoot hr hver hv.valid key value
    cases he.symm.trans hs
    exact ⟨v.set key value, F', hr', hver'.trans hver, hv.set key value⟩
  | @remove h h' t t' _ key hs ih =>
    obtain ⟨v, F, hr, hver, hv⟩ := ih
    obtain ⟨t1, h₁, F', he, hver', -, hr', -⟩ := remove_repRoot hr hver hv.valid key
    cases he.symm.trans hs
    exact ⟨v.remove key, F', hr', hver'.trans hver, hv.remove key⟩
  | @saveVersion h h' t t' _ updateHash res hlast hs ih =>
    obtain ⟨v, F, hr, hver, hv⟩ := ih
    have hne : t.version ≠ maxUint32 := by omega
    obtain ⟨hstep, ht'⟩ := saveVersion_repRoot hr hv.valid hs
    rw [if_neg hne] at ht'
    subst ht'
    refine ⟨⟨v.version + 1, v.root⟩, F, hr.hashStep hstep, by rw [hver], hv.valid, ?_, ?_, hv.mono⟩
    · rw [← hver]
      exact hlast
    · exact fun n hn => (hv.versions n hn).mono (Nat.le_succ _)
  | @reopen h t _ v hd hlen hkv dir s hw ho ih =>
    obtain ⟨v', F, hr, hver, hv⟩ := ih
    obtain rfl := hr.denotes_unique hver hv.valid hd
    have hp := hv.persistable hlen hkv
    obtain ⟨rfl, hsize⟩ := writeSnapshot_eq_ok hd hp hw
    cases hp.openSnapshot_eq.symm.trans ho
    exact ⟨v, ∅, hp.repRoot hsize h, rfl, hv⟩

/-- What changes do to the value of a grown tree, and that they never panic. -/
theorem Grown.changes (hg : Grown h t) :
    ∃ v : Tree, t.Denotes h v ∧ v.Sound ∧
      (∀ key value, ∃ t' h', t.set h key value = some (t', h') ∧ t'.Denotes h' (v.set key value)) ∧
      (∀ key, ∃ t' h', t.remove h key = some (t', h') ∧ t'.Denotes h' (v.remove key)) ∧
      ∀ key, (∀ p ∈ v.toList, p.1 ≠ key) → t.remove h key = some (t, h) := by
  obtain ⟨v, F, hr, hver, hv⟩ := hg.sound
  refine ⟨v, ⟨hver, hr.rootDenotes hv.valid⟩, hv, fun key value => ?_, fun key => ?_,
    fun key habs => remove_absent_repRoot hr hv.valid habs⟩
  · obtain ⟨t', h', F', he, hver', -, hr', -⟩ := set_repRoot hr hver hv.valid key value
    exact ⟨t', h', he, hver'.trans hver, hr'.rootDenotes (hv.valid.set key value)⟩
  · obtain ⟨t', h', F', he, hver', -, hr', -⟩ := remove_repRoot hr hver hv.valid key
    exact ⟨t', h', he, hver'.trans hver, hr'.rootDenotes (hv.valid.remove key)⟩

/-! ## The ordered map -/

/-- A tree with any history is a sorted association list without duplicates. `set` inserts
or replaces a binding, storing nil as the empty value, `remove` drops one, and removing a
key that is not there leaves the tree and the heap as they are: the same nodes, with their
versions and hashes. -/
theorem grown_orderedMap {h : Heap} {t : HeapTree} (hg : Grown h t) (key : Bytes) (value : Slice) :
    ∃ v : Tree, t.Denotes h v ∧ SortedAssoc.Sorted v.toList ∧
      (∃ t' h' v', t.set h key value = some (t', h') ∧ t'.Denotes h' v' ∧
        v'.toList = SortedAssoc.insert key (some (value.getD [])) v.toList ∧
        SortedAssoc.Sorted v'.toList) ∧
      (∃ t' h' v', t.remove h key = some (t', h') ∧ t'.Denotes h' v' ∧
        v'.toList = SortedAssoc.erase key v.toList ∧ SortedAssoc.Sorted v'.toList) ∧
      ((∀ p ∈ v.toList, p.1 ≠ key) → t.remove h key = some (t, h)) := by
  obtain ⟨v, hd, hv, hset, hremove, habs⟩ := hg.changes
  obtain ⟨t1, h₁, he1, hd1⟩ := hset key value
  obtain ⟨t2, h₂, he2, hd2⟩ := hremove key
  refine ⟨v, hd, hv.valid.sorted, ⟨t1, h₁, _, he1, hd1, hv.valid.toList_set key value, ?_⟩,
    ⟨t2, h₂, _, he2, hd2, hv.valid.toList_remove key, ?_⟩, habs key⟩
  · exact (hv.valid.set key value).sorted
  · exact (hv.valid.remove key).sorted

/-- Three keys in their order. The branch on top leans to the right. -/
def Heap.row : Heap :=
  [⟨0, 1, 4, [1], some [], none, none, none⟩, ⟨0, 1, 4, [2], some [], none, none, none⟩,
    ⟨2, 3, 4, [2], none, some (.mem 0), some (.mem 4), none⟩, ⟨0, 1, 4, [3], some [], none, none, none⟩,
    ⟨1, 2, 4, [3], none, some (.mem 1), some (.mem 3), none⟩]

theorem grown_row : Grown .row ⟨3, 0, some (.mem 2)⟩ :=
  have hleaf := Grown.empty (show HeapTree.newEmptyTree 3 = _ from rfl)
  have hpair := hleaf.set (show HeapTree.set [] ⟨3, 0, none⟩ [1] none = _ from rfl)
  (hpair.set (show HeapTree.set _ _ [2] none = _ from rfl)).set
    (show HeapTree.set _ _ [3] none = some (_, .row) from rfl)

omit [Sha256] in
theorem row_rotates : (HeapTree.set .row ⟨3, 0, some (.mem 2)⟩ [4] none).map (·.1.root) = some (some (.mem 4)) :=
  rfl

omit [Sha256] in
/-- The fourth key turns the tree to the left: the root is the cell of the old right child. -/
theorem grown_orderedMap_rotated : ∃ h t t' h' v', @Grown Sha256.zero h t ∧
    HeapTree.set h t [4] none = some (t', h') ∧ t.root = some (.mem 2) ∧ t'.root = some (.mem 4) ∧
    @HeapTree.Denotes Sha256.zero h' t' v' ∧ SortedAssoc.Sorted v'.toList := by
  let _ := Sha256.zero
  obtain ⟨v, -, -, ⟨t', h', v', he, hd, -, hsorted⟩, -⟩ := grown_orderedMap grown_row [4] none
  have hroot := row_rotates
  rw [he] at hroot
  exact ⟨_, _, t', h', v', grown_row, he, rfl, Option.some.inj hroot, hd, hsorted⟩

/-! ## The representation invariant -/

inductive Node.Subtree (m : Node) : Node → Prop
  | refl : Subtree m m
  | left {h s v : Nat} {k : Bytes} {l r : Node} (hm : Subtree m l) :
      Subtree m (.branch h s v k l r)
  | right {h s v : Nat} {k : Bytes} {l r : Node} (hm : Subtree m r) :
      Subtree m (.branch h s v k l r)

/-- What every branch of a tree satisfies: its height, the balance of its children, its size,
its key as the exact minimum on the right and above everything on the left, and its version
against those of its children. -/
structure Node.BranchOk (h s v : Nat) (k : Bytes) (l r : Node) : Prop where
  height : h = 1 + max l.height r.height
  balance : l.height ≤ r.height + 1 ∧ r.height ≤ l.height + 1
  size : s = l.toList.length + r.toList.length
  key_mem : ∃ p ∈ r.toList, p.1 = k
  key_le : ∀ p ∈ r.toList, k ≤ p.1
  lt_key : ∀ p ∈ l.toList, p.1 < k
  version : l.version ≤ v ∧ r.version ≤ v

def Tree.Invariant (t : Tree) : Prop :=
  ∀ n, t.root = some n → ∀ h s v k l r, Node.Subtree (.branch h s v k l r) n →
    Node.BranchOk h s v k l r

omit [Sha256] in
theorem Node.Valid.branchOk (hn : n.Valid) (hm : n.VersionMono) {h s v : Nat} {k : Bytes}
    {l r : Node} (hsub : Node.Subtree (.branch h s v k l r) n) : Node.BranchOk h s v k l r := by
  induction hsub with
  | refl =>
    obtain ⟨-, -, hh, h1, h2⟩ := hn.balanced
    obtain ⟨p, hp, hpk⟩ := Node.exists_minKey_mem r
    exact ⟨by omega, ⟨h1, h2⟩, hn.sized.2.2, ⟨p, hp, hpk.trans hn.ordered.2.2.2⟩,
      hn.ordered.key_le_right, hn.ordered.2.2.1, hm.2.2⟩
  | left _ ih => exact ih hn.left hm.1
  | right _ ih => exact ih hn.right hm.2.1

omit [Sha256] in
theorem Tree.Sound.invariant (hv : v.Sound) : v.Invariant :=
  fun n hn _ _ _ _ _ _ hsub => (hv.valid n hn).branchOk (hv.mono n hn) hsub

/-- The representation invariant holds of every tree, whatever its history, and `set` and
`remove` take it to trees that satisfy it again. -/
theorem grown_invariant {h : Heap} {t : HeapTree} (hg : Grown h t) :
    ∃ v : Tree, t.Denotes h v ∧ v.Invariant ∧
      (∀ key value, ∃ t' h' v', t.set h key value = some (t', h') ∧ t'.Denotes h' v' ∧
        v'.Invariant) ∧
      ∀ key, ∃ t' h' v', t.remove h key = some (t', h') ∧ t'.Denotes h' v' ∧ v'.Invariant := by
  obtain ⟨v, hd, hv, hset, hremove, -⟩ := hg.changes
  refine ⟨v, hd, hv.invariant, fun key value => ?_, fun key => ?_⟩
  · obtain ⟨t', h', he, hd'⟩ := hset key value
    exact ⟨t', h', _, he, hd', (hv.set key value).invariant⟩
  · obtain ⟨t', h', he, hd'⟩ := hremove key
    exact ⟨t', h', _, he, hd', (hv.remove key).invariant⟩

omit [Sha256] in
/-- The rotated tree is balanced and ordered as before. -/
theorem grown_invariant_rotated : ∃ h t t' h' v', @Grown Sha256.zero h t ∧
    HeapTree.set h t [4] none = some (t', h') ∧ t.root = some (.mem 2) ∧ t'.root = some (.mem 4) ∧
    @HeapTree.Denotes Sha256.zero h' t' v' ∧ v'.Invariant := by
  let _ := Sha256.zero
  obtain ⟨v, -, -, hset, -⟩ := grown_invariant grown_row
  obtain ⟨t', h', v', he, hd, hinv⟩ := hset [4] none
  have hroot := row_rotates
  rw [he] at hroot
  exact ⟨_, _, t', h', v', grown_row, he, rfl, Option.some.inj hroot, hd, hinv⟩
end CronosStore.Memiavl
