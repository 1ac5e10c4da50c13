import CronosStore.Memiavl.HeapHash

/-!
# Trees on the heap

`Tree` of `memiavl/tree.go` over the heap: the version, the threshold `cowVersion` below
which cells are cloned, and the root, which may be a cell or a persisted node. The fields
that only serve reading (`cache`, `zeroCopy`, `snapshot`) are left out.

Each operation is the one of `Memiavl.Tree` on the value it represents; `writable` is what
it may write.
-/

namespace CronosStore.Memiavl

open Foundation CellHeap

structure HeapTree where
  version : Nat
  cowVersion : Nat
  root : Option Ref
deriving DecidableEq

namespace HeapTree

def newEmptyTree (version : Nat) : Option HeapTree :=
  if version ≥ maxUint32 then none else some { version, cowVersion := 0, root := none }

def newFromSnapshot (s : Snapshot) : HeapTree where
  version := s.version
  cowVersion := 0
  root := s.rootNode.map .persisted

def nextNodeVersion (t : HeapTree) : Nat := (t.version + 1) % 2 ^ 32

def set (h : Heap) (t : HeapTree) (key : Bytes) (value : Slice) : Option (HeapTree × Heap) := do
  -- the value could be nil when replaying changes from the write-ahead-log
  let value := some (value.getD [])
  match t.root with
  | none =>
    let (a, h) := h.newLeafNode key value t.nextNodeVersion
    pure ({ t with root := some (.mem a) }, h)
  | some r =>
    let ((a, _), h) ← Heap.setRecursive key value t.nextNodeVersion t.cowVersion
      ((← h.height r) + 1) h r
    pure ({ t with root := some (.mem a) }, h)

def remove (h : Heap) (t : HeapTree) (key : Bytes) : Option (HeapTree × Heap) := do
  match t.root with
  | none => pure (t, h)
  | some r =>
    let ((_, root, _), h) ← Heap.removeRecursive key t.nextNodeVersion t.cowVersion
      ((← h.height r) + 1) h r
    pure ({ t with root := root }, h)

def copy (t : HeapTree) : HeapTree × HeapTree :=
  let t := match t.root with
    -- protect the existing `MemNode`s from getting modified in place
    | some (.mem _) => { t with cowVersion := t.version }
    | _ => t
  (t, t)

variable [Sha256]

def rootHash (h : Heap) (t : HeapTree) : Option (Bytes × Heap) :=
  match t.root with
  | none => some (Sha256.sum256 [], h)
  | some r => do Heap.hash ((← h.height r) + 1) h r

def saveVersion (h : Heap) (t : HeapTree) (updateHash : Bool) :
    Option (Option Slice × HeapTree × Heap) :=
  if t.version = maxUint32 then some (none, t, h)
  else do
    let (hash, h) ← if updateHash then do
        let (hash, h) ← t.rootHash h
        pure (some hash, h)
      else pure (none, h)
    pure (some hash, { t with version := t.version + 1 }, h)

def writeSnapshot (h : Heap) (t : HeapTree) : Except WriteError SnapshotDir :=
  Memiavl.writeSnapshot h.interface (fun _ => false) t.version t.root

end HeapTree

def writable (h : Heap) (cow : Nat) (F : Set Addr) : Set Addr :=
  {a | h.length ≤ a ∨ a ∈ F ∧ ∃ c, h[a]? = some c ∧ cow < c.version}

section Ops

variable [Sha256] {F F' G : Set Addr} {h h' : Heap} {cow : Nat} {root : Option Ref}
  {n : Option Node}

section

variable (hr : RepRoot h root n F)
include hr

theorem RepRoot.lt_length : ∀ a ∈ F, a < h.length := by
  cases hr with
  | none => exact fun a ha => ha.elim
  | some hr => exact hr.lt_length

theorem RepRoot.congr (heq : ∀ a ∈ F, h'[a]? = h[a]?) :
    RepRoot h' root n F := by
  cases hr with
  | none => exact .none
  | some hr => exact .some (hr.congr heq)

theorem RepRoot.hashStep (hs : HashStep h h') : RepRoot h' root n F := by
  cases hr with
  | none => exact .none
  | some hr => exact .some (hs.rep hr)

theorem RepRoot.unique {n' : Option Node} (hr' : RepRoot h root n' F') :
    n = n' := by
  cases hr with
  | none => cases hr' with | none => rfl
  | some hr => cases hr' with | some hr' => rw [hr.unique hr']

theorem RepRoot.guarded (cow : Nat) :
    Guarded (writable h cow F) cow h F := by
  refine ⟨fun a ha => .inl ha, fun a ha hW => ?_⟩
  have hlt := hr.lt_length a ha
  refine ⟨h[a], List.getElem?_eq_getElem hlt, ?_⟩
  by_contra hgt
  exact hW (.inr ⟨ha, h[a], List.getElem?_eq_getElem hlt, by omega⟩)

end

theorem Rep.version_le {r : Ref} {t : Node} {b : Nat} (hr : Rep h r t F) (hb : t.VersionsLE b) :
    ∀ a ∈ F, ∃ c, h[a]? = some c ∧ c.version ≤ b := by
  induction hr with
  | persisted => exact fun a ha => ha.elim
  | leaf hc =>
    rintro a rfl
    exact ⟨_, hc, hb⟩
  | branch hc _ _ _ _ _ _ _ ihl ihr =>
    rintro a (rfl | ha | ha)
    · exact ⟨_, hc, hb.1⟩
    · exact ihl hb.2.1 a ha
    · exact ihr hb.2.2 a ha

variable {t : HeapTree} {v : Tree}

omit [Sha256] in
theorem nextNodeVersion_eq (hver : t.version = v.version) : t.nextNodeVersion = v.nextNodeVersion := by
  rw [HeapTree.nextNodeVersion, Tree.nextNodeVersion, hver]

section

variable (hr : RepRoot h t.root v.root F) (hver : t.version = v.version) (hv : v.Valid)

include hr hver hv

theorem set_repRoot (key : Bytes) (value : Slice) :
    ∃ t' h' F', t.set h key value = some (t', h') ∧ t'.version = t.version ∧
      t'.cowVersion = t.cowVersion ∧ RepRoot h' t'.root (v.set key value).root F' ∧
      Step (writable h t.cowVersion F) h F h' F' := by
  have hnext := nextNodeVersion_eq hver
  obtain ⟨tv, tc, troot⟩ := t
  obtain ⟨vv, vroot⟩ := v
  cases hr with
  | none =>
    have hc : (h ++ [⟨0, 1, HeapTree.nextNodeVersion ⟨tv, tc, none⟩, key, some (value.getD []), none,
        none, none⟩])[h.length]? = some ⟨0, 1, Tree.nextNodeVersion ⟨vv, none⟩, key,
        some (value.getD []), none, none, none⟩ := by
      rw [← hnext]
      exact List.getElem?_concat_length
    exact ⟨_, _, _, rfl, rfl, rfl, .some (.leaf hc (by simp [HashOk])), Step.alloc _ h _⟩
  | @some r n _ hr =>
    have hn := hv n rfl
    obtain ⟨a, h', F', he, hr', hs⟩ := setRecursive_rep hr hn.balanced
      ((RepRoot.some hr).guarded tc) (Nat.lt_succ_self _) key (some (value.getD []))
      (HeapTree.nextNodeVersion ⟨tv, tc, some r⟩)
    refine ⟨⟨tv, tc, some (.mem a)⟩, h', F', ?_, rfl, rfl, .some ?_, hs⟩
    · simp only [HeapTree.set, hr.height_eq, he, Results.some_bind,
        Option.pure_def]
    · rw [← hnext]
      exact hr'

theorem remove_repRoot (key : Bytes) :
    ∃ t' h' F', t.remove h key = some (t', h') ∧ t'.version = t.version ∧
      t'.cowVersion = t.cowVersion ∧ RepRoot h' t'.root (v.remove key).root F' ∧
      Step (writable h t.cowVersion F) h F h' F' := by
  have hnext := nextNodeVersion_eq hver
  obtain ⟨tv, tc, troot⟩ := t
  obtain ⟨vv, vroot⟩ := v
  cases hr with
  | none => exact ⟨_, _, _, rfl, rfl, rfl, .none, Step.refl _ h _⟩
  | @some r n _ hr =>
    have hn := hv n rfl
    obtain ⟨root, h', F', he, hr', hs, -⟩ := removeRecursive_rep hr hn
      ((RepRoot.some hr).guarded tc) (Nat.lt_succ_self _) key
      (HeapTree.nextNodeVersion ⟨tv, tc, some r⟩)
    refine ⟨⟨tv, tc, root⟩, h', F', ?_, rfl, rfl, ?_, hs⟩
    · simp only [HeapTree.remove, hr.height_eq, he, Results.some_bind,
        Option.pure_def]
    · rw [hnext] at hr'
      exact hr'

end

theorem rootHash_repRoot (hr : RepRoot h t.root v.root F) (hv : v.Valid) :
    ∃ h', t.rootHash h = some (v.rootHash, h') ∧ HashStep h h' := by
  obtain ⟨tv, tc, troot⟩ := t
  obtain ⟨vv, vroot⟩ := v
  cases hr with
  | none => exact ⟨h, rfl, HashStep.refl h⟩
  | @some r n _ hr =>
    obtain ⟨h', he, hs⟩ := hash_rep hr (hv n rfl).balanced (Nat.lt_succ_self _)
    refine ⟨h', ?_, hs⟩
    simp only [HeapTree.rootHash, hr.height_eq, he, Results.some_bind]
    rfl

theorem RepRoot.rootDenotes (hr : RepRoot h root v.root F) (hv : v.Valid) :
    h.interface.RootDenotes root v.root := by
  obtain ⟨vv, vroot⟩ := v
  cases hr with
  | none => trivial
  | @some r n _ hr => exact hr.denotes (hv n rfl).balanced

theorem remove_absent_repRoot (hr : RepRoot h t.root v.root F) (hv : v.Valid) {key : Bytes}
    (habs : ∀ p ∈ v.toList, p.1 ≠ key) : t.remove h key = some (t, h) := by
  obtain ⟨tv, tc, troot⟩ := t
  obtain ⟨vv, vroot⟩ := v
  cases hr with
  | none => rfl
  | @some r n _ hr =>
    have hn := hv n rfl
    obtain ⟨ho, -, -⟩ := Node.removeRecursive_outcome key
      (HeapTree.nextNodeVersion ⟨tv, tc, some r⟩) hn.balanced hn.ordered hn.stored
    obtain ⟨root, h', F', he, -, -, hsame⟩ := removeRecursive_rep hr hn
      ((RepRoot.some hr).guarded tc) (Nat.lt_succ_self _) key
      (HeapTree.nextNodeVersion ⟨tv, tc, some r⟩)
    obtain ⟨rfl, rfl⟩ := hsame (ho.eq_self habs).1
    simp only [HeapTree.remove, hr.height_eq, he, Results.some_bind,
      Option.pure_def]

end Ops

/-! ## A small tree in memory -/

def Heap.twoLeaves : Heap :=
  [⟨0, 1, 1, [1], some [7], none, none, none⟩, ⟨0, 1, 1, [2], some [8], none, none, none⟩,
    ⟨1, 2, 1, [2], none, some (.mem 0), some (.mem 1), none⟩]

def HeapTree.twoLeaves : HeapTree := ⟨1, 0, some (.mem 2)⟩

def Tree.twoLeaves : Tree :=
  ⟨1, some (.branch 1 2 1 [2] (.leaf 1 [1] (some [7])) (.leaf 1 [2] (some [8])))⟩

theorem Tree.twoLeaves_valid : Tree.twoLeaves.Valid := by
  rintro n ⟨⟩
  exact ⟨by simp [Node.Balanced], by simp [Node.Sized, Node.toList],
    by simp [Node.Ordered, Node.toList, Node.minKey]; decide, by simp [Node.Stored, Node.toList]⟩

theorem Heap.twoLeaves_repRoot [Sha256] :
    RepRoot .twoLeaves HeapTree.twoLeaves.root Tree.twoLeaves.root {0, 1, 2} := by
  have hash {n : Node} : HashOk none n := fun _ hx => by cases hx
  have hset : ({0, 1, 2} : Set Addr) = {2} ∪ ({0} ∪ {1}) := by
    ext a
    simp only [Set.mem_insert_iff, Set.mem_singleton_iff, Set.mem_union]
    tauto
  rw [hset]
  exact .some (.branch rfl (by decide) (.leaf rfl hash) (.leaf rfl hash) (by simp) (by simp) (by simp) hash)

end CronosStore.Memiavl
