import CronosStore.Foundation.Search
import CronosStore.Memiavl.HeapCells
import CronosStore.Memiavl.Iterator

/-!
# Looking up keys and ranks

`Get` and `GetByIndex` of `memiavl/mem_node.go`, `memiavl/persisted_node.go` and `memiavl/tree.go`.
Nodes in memory descend by separator and by size, a persisted branch reads the range of its leaves:
it is searched for a key and indexed by a rank.

The rank that `Get` returns is exact modulo `2 ^ 32` (`Heap.get_eq`). `GetByIndex` adds the rank to
the start of the leaf range in `uint32`, and checks the bound after that: a rank behind the last
leaf may wrap around to a leaf in front of the range.
-/

namespace CronosStore.Memiavl

open Foundation CellHeap List Option SortedAssoc Node

namespace PersistedNode

def leafRange (p : PersistedNode) : Option (Nat × Nat) :=
  if p.isLeaf then some (p.index, 1)
  else do
    let data ← p.branchNode
    pure (getStartLeaf p.index data.size data.preTrees, data.size)

def get (p : PersistedNode) (key : Bytes) : Option (Slice × Nat) := do
  let (start, count) ← p.leafRange
  let i ← searchM count fun i => do
    let leafKey ← p.snapshot.leafKey ((start + i) % 2 ^ 32)
    pure (key ≤ leafKey)
  let i := i % 2 ^ 32
  let leaf := (i + start) % 2 ^ 32
  if leaf ≥ (start + count) % 2 ^ 32 then
    -- the next index if the key is greater than all keys in the node
    pure (none, i)
  else
    let (nodeKey, value) ← p.snapshot.leafKeyValue leaf
    if nodeKey ≠ key then pure (none, i) else pure (some value, i)

def getByIndex (p : PersistedNode) (leafIndex : Nat) : Option (Slice × Slice) :=
  if p.isLeaf then
    if leafIndex ≠ 0 then some (none, none)
    else do
      let (key, value) ← p.snapshot.leafKeyValue p.index
      pure (some key, some value)
  else do
    let data ← p.branchNode
    let startLeaf := getStartLeaf p.index data.size data.preTrees
    let endLeaf := getEndLeaf p.index data.preTrees
    let i := (startLeaf + leafIndex) % 2 ^ 32
    if i > endLeaf then pure (none, none)
    else
      let (key, value) ← p.snapshot.leafKeyValue i
      pure (some key, some value)

end PersistedNode

namespace Heap

variable (h : Heap)

def get (key : Bytes) : Nat → Ref → Option (Slice × Nat)
  | 0, _ => none
  | depth + 1, .mem a => do
    let c ← h[a]?
    if c.height = 0 then
      if c.key < key then pure (none, 1)
      else if key < c.key then pure (none, 0)
      else pure (c.value, 0)
    else if key < c.key then get key depth (← c.left)
    else
      let right ← c.right
      let (value, index) ← get key depth right
      pure (value, (index + c.size % 2 ^ 32 + 2 ^ 32 - (← h.size right) % 2 ^ 32) % 2 ^ 32)
  | _ + 1, .persisted p => p.get key

def getByIndex : Nat → Ref → Nat → Option (Slice × Slice)
  | 0, _, _ => none
  | depth + 1, .mem a, index => do
    let c ← h[a]?
    if c.height = 0 then
      if index = 0 then pure (some c.key, c.value) else pure (none, none)
    else
      let left ← c.left
      let leftSize := (← h.size left) % 2 ^ 32
      if index < leftSize then getByIndex depth left index
      else getByIndex depth (← c.right) (index - leftSize)
  | _ + 1, .persisted p, index => p.getByIndex index

end Heap

namespace HeapTree

def getWithIndex (h : Heap) (t : HeapTree) (key : Bytes) : Option (Int × Slice) :=
  match t.root with
  | none => some (0, none)
  | some root => do
    let (value, index) ← h.get key ((← h.height root) + 1) root
    pure (index, value)

def getByIndex (h : Heap) (t : HeapTree) (index : Int) : Option (Slice × Slice) :=
  if index > maxUint32 then some (none, none)
  else
    match t.root with
    | none => some (none, none)
    | some root => do h.getByIndex ((← h.height root) + 1) root (index % 2 ^ 32).toNat

end HeapTree

def Heap.lastLeaf (h : Heap) : Nat → Ref → Option Nat
  | 0, _ => none
  | depth + 1, .mem a => do
    let c ← h[a]?
    lastLeaf h depth (← c.right)
  | _ + 1, .persisted p =>
    if p.isLeaf then none
    else do
      let data ← p.branchNode
      pure (getEndLeaf p.index data.preTrees)

def HeapTree.lastLeaf (h : Heap) (t : HeapTree) : Option Nat :=
  match t.root with
  | none => none
  | some root => do h.lastLeaf ((← h.height root) + 1) root

/-! ## What is looked up -/

namespace Node

variable {ht s v : Nat} {k key : Bytes} {l r : Node}

def find (t : Node) (key : Bytes) : Slice := (t.toList.lookup key).getD none

theorem find_of_mem {t : Node} (ho : t.Ordered) {x : Slice} (h : (key, x) ∈ t.toList) :
    t.find key = x := by
  rw [find, (lookup_eq_some_iff ho.sorted).mpr h]
  rfl

theorem find_of_absent {t : Node} (h : ∀ p ∈ t.toList, p.1 ≠ key) : t.find key = none := by
  rw [find, lookup_eq_none_iff.mpr fun p hp => by simpa using (h p hp).symm]
  rfl

theorem Ordered.go_left (ho : (branch ht s v k l r).Ordered) (hk : key < k) :
    SortedAssoc.rank key (branch ht s v k l r).toList = SortedAssoc.rank key l.toList ∧
      (branch ht s v k l r).find key = l.find key := by
  have hlt (p) (hp : p ∈ r.toList) : key < p.1 := lt_of_lt_of_le hk (ho.key_le_right p hp)
  have hnone : r.toList.lookup key = none :=
    lookup_eq_none_iff.mpr fun p hp => by simpa using (hlt p hp).ne
  unfold find
  rw [toList, rank_append, rank_eq_zero fun p hp => (hlt p hp).le,
    lookup_append, hnone, or_none]
  exact ⟨rfl, rfl⟩

theorem Ordered.go_right (ho : (branch ht s v k l r).Ordered) (hk : k ≤ key) :
    SortedAssoc.rank key (branch ht s v k l r).toList =
        l.toList.length + SortedAssoc.rank key r.toList ∧
      (branch ht s v k l r).find key = r.find key := by
  have hlt (p) (hp : p ∈ l.toList) : p.1 < key := lt_of_lt_of_le (ho.2.2.1 p hp) hk
  have hnone : l.toList.lookup key = none :=
    lookup_eq_none_iff.mpr fun p hp => by simpa using (hlt p hp).ne'
  unfold find
  rw [toList, rank_append, rank_eq_length hlt, lookup_append, hnone,
    none_or]
  exact ⟨rfl, rfl⟩

end Node

def pairAt (l : List (Bytes × Slice)) (index : Nat) : Slice × Slice :=
  match l[index]? with
  | some (key, value) => (some key, value)
  | none => (none, none)

theorem pairAt_of_le {l : List (Bytes × Slice)} {index : Nat} (h : l.length ≤ index) :
    pairAt l index = (none, none) := by
  rw [pairAt, getElem?_eq_none h]

/-! ## Persisted nodes -/

section Persisted

variable [Sha256] {p : PersistedNode} {n : Node} {leaves branches : Nat}

theorem Node.leafRecords_pairs (n : Node) (offset : Nat) :
    (n.leafRecords offset).map (fun r => (r.key, r.value)) =
      n.toList.map fun p => (p.1, p.2.getD []) := by
  induction n generalizing offset with
  | leaf v k x => rfl
  | branch ht s v k l r ihl ihr =>
    simp only [Node.leafRecords, Node.toList, map_append, ihl, ihr]

namespace PersistedNode.Sits

section

variable (hp : p.Sits n leaves branches)
include hp

theorem room : leaves + n.toList.length < 2 ^ 32 := by
  obtain ⟨L, B, offset, hs⟩ := hp.holds
  exact hs.room

theorem leafKeyValue {i : Nat} {k : Bytes} {x : Slice}
    (hi : n.toList[i]? = some (k, x)) :
    p.snapshot.leafKey (leaves + i) = some k ∧
      p.snapshot.leafKeyValue (leaves + i) = some (k, x.getD []) := by
  obtain ⟨L, B, offset, hs⟩ := hp.holds
  have hrec := congrArg (fun l => l[i]?) (n.leafRecords_pairs offset)
  simp only [getElem?_map, hi, map_some, map_eq_some_iff, Prod.mk.injEq] at hrec
  obtain ⟨rec, hrec, rfl, hvalue⟩ := hrec
  rw [← hvalue]
  exact hs.holds.leafKeyValue_eq (hs.leafAt i rec hrec)

theorem exists_leafKeyValue {i : Nat} (hi : i < leaves) :
    ∃ k x, p.snapshot.leafKeyValue i = some (k, x) := by
  obtain ⟨L, B, offset, hs⟩ := hp.holds
  obtain ⟨rec, hrec, -⟩ := n.exists_head_leafRecords offset
  have hlt := (List.getElem?_eq_some_iff.mp (hs.leafAt 0 rec hrec)).1
  exact ⟨_, _, (hs.holds.leafKeyValue_eq (getElem?_eq_getElem (show i < L.length by omega))).2⟩

theorem leafRange : p.leafRange = some (leaves, n.toList.length) := by
  unfold PersistedNode.leafRange
  cases n with
  | leaf v k x =>
    rw [if_pos hp.isLeaf_of_leaf, hp.eq]
    rfl
  | branch ht s v k l r =>
    obtain ⟨hleaf, hidx, hle, hroom, d, hd, hdata⟩ := hp.branch
    simp only [hleaf, Bool.false_eq_true, if_false, hd, Results.some_bind,
      hdata.size, hdata.preTrees, hidx,
      getStartLeaf_eq hle hroom l.length_toList_pos r.length_toList_pos, Node.toList,
      length_append, Option.pure_def]

theorem searchM_eq (key : Bytes) :
    searchM n.toList.length (fun i => do
      let leafKey ← p.snapshot.leafKey ((leaves + i) % 2 ^ 32)
      pure (key ≤ leafKey)) = some (SortedAssoc.rank key n.toList) := by
  have hroom := hp.room
  have hanswers : ∀ i < n.toList.length, (do
      let leafKey ← p.snapshot.leafKey ((leaves + i) % 2 ^ 32)
      pure (decide (key ≤ leafKey)) : Option Bool) =
        some (decide (SortedAssoc.rank key n.toList ≤ i)) := by
    intro i hi
    have hq := getElem?_eq_getElem hi
    rw [Nat.mod_eq_of_lt (by omega), (hp.leafKeyValue hq).1]
    simp only [Results.some_bind, Option.pure_def, Option.some.injEq, decide_eq_decide]
    rw [← not_lt, ← not_lt]
    exact not_congr (getElem?_lt_iff hp.valid.ordered.sorted hq)
  rw [Foundation.searchM_eq hanswers]
  obtain ⟨hle, hlow, hhigh⟩ := search_spec (n := n.toList.length)
    (f := fun i => decide (SortedAssoc.rank key n.toList ≤ i)) fun i j hi hij _ => by simp at hi ⊢; omega
  have hrank := rank_le_length key n.toList
  congr 1
  apply le_antisymm
  · by_contra hlt
    have := hlow (SortedAssoc.rank key n.toList) (by omega)
    simp at this
  · by_contra hlt
    have := hhigh _ le_rfl (by omega)
    simp at this
    omega

theorem get_eq (key : Bytes) :
    p.get key = some (n.find key, SortedAssoc.rank key n.toList) := by
  have hsorted := hp.valid.ordered.sorted
  have hroom := hp.room
  have hrank := rank_le_length key n.toList
  have hsearch := hp.searchM_eq key
  simp only [bind_eq_bind] at hsearch
  unfold PersistedNode.get
  simp only [hp.leafRange, bind_eq_bind, bind_some, hsearch]
  generalize hm : SortedAssoc.rank key n.toList = m at hrank
  simp only [Nat.mod_eq_of_lt (show m < 2 ^ 32 by omega),
    Nat.mod_eq_of_lt (show m + leaves < 2 ^ 32 by omega), Nat.mod_eq_of_lt hroom]
  -- a key that is equal can only be at its rank
  have hat {i : Nat} {q : Bytes × Slice} (hq : n.toList[i]? = some q) (he : q.1 = key) : i = m := by
    rw [← hm, ← he, rank_of_getElem? hsorted hq]
  by_cases hend : m + leaves ≥ leaves + n.toList.length
  · rw [if_pos hend, find_of_absent]
    · rfl
    · intro q hq he
      obtain ⟨i, hi⟩ := mem_iff_getElem?.mp hq
      have := hat hi he
      have := (List.getElem?_eq_some_iff.mp hi).1
      omega
  · rw [if_neg hend]
    obtain ⟨⟨k, x⟩, hq⟩ : ∃ q, n.toList[m]? = some q := ⟨_, getElem?_eq_getElem (by omega)⟩
    rw [Nat.add_comm m leaves, (hp.leafKeyValue hq).2]
    simp only [bind_some]
    by_cases hk : k = key
    · subst hk
      have hmem := mem_of_getElem? hq
      rw [if_neg (by simp), find_of_mem hp.valid.ordered hmem]
      obtain ⟨y, hy⟩ := ne_none_iff_exists'.mp (hp.valid.stored _ hmem)
      simp only at hy
      rw [hy]
      rfl
    · rw [if_pos hk, find_of_absent]
      · rfl
      · intro q hq' he
        obtain ⟨i, hi⟩ := mem_iff_getElem?.mp hq'
        cases hat hi he
        cases hq.symm.trans hi
        exact hk he

end

variable {index : Nat}

theorem leafKeyValue_pairAt (hp : p.Sits n leaves branches) (hi : index < n.toList.length) :
    (do let (key, value) ← p.snapshot.leafKeyValue (leaves + index); pure (some key, some value)) =
      some (pairAt n.toList index) := by
  have hq := getElem?_eq_getElem hi
  obtain ⟨y, hy⟩ := ne_none_iff_exists'.mp (hp.valid.stored _ (mem_of_getElem? hq))
  rw [(hp.leafKeyValue hq).2, pairAt, hq]
  simp [hy]

theorem getByIndex_branch {ht s v : Nat} {k : Bytes} {l r : Node}
    (hp : p.Sits (.branch ht s v k l r) leaves branches) (index : Nat) :
    p.getByIndex index =
      if (leaves + index) % 2 ^ 32 > leaves + (l.toList.length + r.toList.length) - 1 then
        some (none, none)
      else (do
        let (key, value) ← p.snapshot.leafKeyValue ((leaves + index) % 2 ^ 32)
        pure (some key, some value)) := by
  obtain ⟨hleaf, hidx, hle, hroom, d, hd, hdata⟩ := hp.branch
  have hl := l.length_toList_pos
  have hr := r.length_toList_pos
  have hstart : getStartLeaf p.index d.size d.preTrees = leaves := by
    rw [hidx, hdata.size, hdata.preTrees, getStartLeaf_eq hle hroom hl hr]
  have hend : getEndLeaf p.index d.preTrees = leaves + (l.toList.length + r.toList.length) - 1 := by
    rw [hidx, hdata.preTrees, getEndLeaf_eq hle hroom hl hr]
  rw [PersistedNode.getByIndex, if_neg (by rw [hleaf]; simp), hd, ← hend, ← hstart,
    Results.some_bind]
  rfl

/-- A rank whose sum with the start of the range does not wrap around. -/
theorem getByIndex_eq (hp : p.Sits n leaves branches)
    (hi : leaves + index < 2 ^ 32 ∨ n.isLeaf = true) : p.getByIndex index = some (pairAt n.toList index) := by
  cases n with
  | leaf v k x =>
    rw [PersistedNode.getByIndex, if_pos hp.isLeaf_of_leaf]
    by_cases h0 : index = 0
    · subst h0
      have hidx : p.index = leaves + 0 := by rw [hp.eq]; rfl
      rw [if_neg (by simp), hidx]
      exact hp.leafKeyValue_pairAt Nat.one_pos
    · rw [if_pos h0, pairAt_of_le (show 1 ≤ index by omega)]
  | branch ht s v k l r =>
    have hlen : (Node.branch ht s v k l r).toList.length = l.toList.length + r.toList.length := by
      rw [Node.toList, length_append]
    have hl := l.length_toList_pos
    rw [hp.getByIndex_branch, Nat.mod_eq_of_lt (hi.resolve_right (by simp [Node.isLeaf]))]
    by_cases hend : leaves + index > leaves + (l.toList.length + r.toList.length) - 1
    · rw [if_pos hend, pairAt_of_le (by rw [hlen]; omega)]
    · rw [if_neg hend]
      exact hp.leafKeyValue_pairAt (by omega)

/-- A rank whose sum does: a leaf in front of the range is read. -/
theorem getByIndex_wrap (hp : p.Sits n leaves branches) (hb : n.isLeaf = false)
    (hi : index < 2 ^ 32) (hwrap : 2 ^ 32 ≤ leaves + index) :
    ∃ k x, p.getByIndex index = some (some k, some x) := by
  cases n with
  | leaf v k x => cases hb
  | branch ht s v k l r =>
    have hroom := hp.room
    rw [Node.toList, length_append] at hroom
    have hl := l.length_toList_pos
    have hmod : (leaves + index) % 2 ^ 32 < leaves := by omega
    obtain ⟨k, x, hkv⟩ := hp.exists_leafKeyValue hmod
    rw [hp.getByIndex_branch, if_neg (by omega), hkv]
    exact ⟨k, x, rfl⟩

end PersistedNode.Sits

theorem PersistedNode.InFile.sits (hp : p.InFile) (hd : persistedInterface.Denotes p n) :
    ∃ leaves branches, p.Sits n leaves branches := by
  obtain ⟨m, leaves, branches, hm⟩ := hp
  obtain rfl := hm.denotes.unique hd
  exact ⟨leaves, branches, hm⟩

end Persisted

/-! ## Nodes in memory -/

section Memory

variable [Sha256] {h : Heap} {r : Ref} {t : Node} {F : Set Addr} {depth : Nat}

theorem Heap.get_eq (hr : Rep h r t F) (ht : t.Valid) (hok : h.CellsOk PersistedNode.InFile)
    (hin : r.In PersistedNode.InFile) (hdepth : t.height < depth) (key : Bytes) :
    h.get key depth r = some (t.find key, SortedAssoc.rank key t.toList % 2 ^ 32) := by
  induction hr generalizing depth with
  | @persisted p t hd =>
    obtain ⟨depth, rfl⟩ : ∃ d, depth = d + 1 := ⟨depth - 1, by omega⟩
    obtain ⟨leaves, branches, hp⟩ := PersistedNode.InFile.sits hin hd
    have hroom := hp.room
    have hrank := rank_le_length key t.toList
    rw [Heap.get, hp.get_eq, Nat.mod_eq_of_lt (by omega)]
  | @leaf a v k x l r hash hc hh =>
    obtain ⟨depth, rfl⟩ : ∃ d, depth = d + 1 := ⟨depth - 1, by omega⟩
    simp only [Heap.get, hc, Option.bind_eq_bind, Option.bind_some, if_true, Option.pure_def]
    rcases lt_trichotomy k key with hlt | rfl | hgt
    · rw [if_pos hlt, find_of_absent (by simpa [Node.toList] using hlt.ne),
        rank_eq_length (by simpa [Node.toList] using hlt)]
      rfl
    · rw [if_neg (lt_irrefl k), if_neg (lt_irrefl k), find_of_mem ht.ordered (mem_singleton_self _),
        rank_eq_zero (by simp [Node.toList]), Nat.zero_mod]
    · rw [if_neg hgt.not_gt, if_pos hgt, find_of_absent (by simpa [Node.toList] using hgt.ne'),
        rank_eq_zero (by simpa [Node.toList] using hgt.le), Nat.zero_mod]
  | @branch a ht' s v k x l r hash tl tr Fl Fr hc h0 hl hr hal har hlr hh ihl ihr =>
    obtain ⟨depth, rfl⟩ : ∃ d, depth = d + 1 := ⟨depth - 1, by omega⟩
    have hmax := ht.balanced.2.2.1
    rw [height_branch] at hdepth
    obtain ⟨hlin, hrin⟩ : l.In PersistedNode.InFile ∧ r.In PersistedNode.InFile := by
      cases hok a _ hc with
      | branch _ hlin hrin => exact ⟨hlin, hrin⟩
    simp only [Heap.get, hc, Option.bind_eq_bind, Option.bind_some, if_neg h0]
    by_cases hk : key < k
    · obtain ⟨hrank, hfind⟩ := ht.ordered.go_left hk
      rw [if_pos hk, ihl ht.left hlin (by omega), hrank, hfind]
    · obtain ⟨hrank, hfind⟩ := ht.ordered.go_right (not_lt.mp hk)
      have hsize : s = tl.toList.length + tr.toList.length := ht.sized.2.2
      rw [if_neg hk, ihr ht.right hrin (by omega)]
      simp only [hr.size_eq, Option.bind_some, Option.pure_def, ht.right.sized.size_eq, hrank, hfind,
        Option.some.injEq, Prod.mk.injEq, true_and]
      omega

def Wraps (lastLeaf : Option Nat) (length index : Nat) : Prop :=
  ∃ e, lastLeaf = some e ∧ 2 ^ 32 + length ≤ index + e + 1

theorem PersistedNode.Sits.lastLeaf {p : PersistedNode} {n : Node} {leaves branches : Nat}
    (hp : p.Sits n leaves branches) (depth : Nat) :
    h.lastLeaf (depth + 1) (.persisted p) =
      if n.isLeaf then none else some (leaves + n.toList.length - 1) := by
  rw [Heap.lastLeaf]
  cases n with
  | leaf v k x =>
    rw [if_pos hp.isLeaf_of_leaf]
    rfl
  | branch ht s v k l r =>
    obtain ⟨hleaf, hidx, hle, hroom, d, hd, hdata⟩ := hp.branch
    rw [if_neg (by rw [hleaf]; simp), if_neg (by simp [Node.isLeaf]), hd, Option.bind_eq_bind,
      Option.bind_some, hidx, hdata.preTrees,
      getEndLeaf_eq hle hroom l.length_toList_pos r.length_toList_pos, Node.toList, length_append]
    rfl

omit [Sha256] in
theorem pairAt_append_left {l r : List (Bytes × Slice)} {i : Nat} (hi : i < l.length) :
    pairAt (l ++ r) i = pairAt l i := by
  rw [pairAt, pairAt, getElem?_append_left hi]

omit [Sha256] in
theorem pairAt_append_right {l r : List (Bytes × Slice)} {i : Nat} (hi : l.length ≤ i) :
    pairAt (l ++ r) i = pairAt r (i - l.length) := by
  rw [pairAt, pairAt, getElem?_append_right hi]

theorem Heap.getByIndex_eq (hr : Rep h r t F) (ht : t.Valid) (hok : h.CellsOk PersistedNode.InFile)
    (hin : r.In PersistedNode.InFile) (hdepth : t.height < depth) (hlen : t.toList.length ≤ 2 ^ 32)
    {index : Nat} (hi : index < 2 ^ 32) :
    (∀ e, h.lastLeaf depth r = some e → e + 1 < 2 ^ 32) ∧
    (¬Wraps (h.lastLeaf depth r) t.toList.length index →
      h.getByIndex depth r index = some (pairAt t.toList index)) ∧
    (Wraps (h.lastLeaf depth r) t.toList.length index →
      ∃ k x, h.getByIndex depth r index = some (some k, some x)) := by
  induction hr generalizing depth index with
  | @persisted p t hd =>
    obtain ⟨depth, rfl⟩ : ∃ d, depth = d + 1 := ⟨depth - 1, by omega⟩
    obtain ⟨leaves, branches, hp⟩ := PersistedNode.InFile.sits hin hd
    have hroom := hp.room
    have hpos := t.length_toList_pos
    rw [hp.lastLeaf, Heap.getByIndex]
    cases hleaf : t.isLeaf with
    | true =>
      refine ⟨(fun e he => by cases he), fun _ => hp.getByIndex_eq (.inr hleaf), ?_⟩
      rintro ⟨e, he, -⟩
      cases he
    | false =>
      refine ⟨(fun e he => by cases he; omega), fun hw => hp.getByIndex_eq (.inl ?_), ?_⟩
      · by_contra hwrap
        exact hw ⟨_, rfl, by omega⟩
      · rintro ⟨e, he, hwrap⟩
        cases he
        exact hp.getByIndex_wrap hleaf hi (by omega)
  | @leaf a v k x l r hash hc hh =>
    obtain ⟨depth, rfl⟩ : ∃ d, depth = d + 1 := ⟨depth - 1, by omega⟩
    have hnone : h.lastLeaf (depth + 1) (.mem a) = none := by
      cases hok a _ hc with
      | leaf => simp [Heap.lastLeaf, hc]
      | branch h0 => exact absurd rfl h0
    rw [hnone]
    refine ⟨(fun e he => by cases he), fun _ => ?_, fun ⟨e, he, _⟩ => by cases he⟩
    simp only [Heap.getByIndex, hc, Results.some_bind, if_true, Option.pure_def]
    by_cases h0 : index = 0
    · subst h0
      rfl
    · rw [if_neg h0, pairAt_of_le (show 1 ≤ index by omega)]
  | @branch a ht' s v k x l r hash tl tr Fl Fr hc h0 hl hr hal har hlr hh ihl ihr =>
    obtain ⟨depth, rfl⟩ : ∃ d, depth = d + 1 := ⟨depth - 1, by omega⟩
    have hmax := ht.balanced.2.2.1
    rw [height_branch] at hdepth
    obtain ⟨hlin, hrin⟩ : l.In PersistedNode.InFile ∧ r.In PersistedNode.InFile := by
      cases hok a _ hc with
      | branch _ hlin hrin => exact ⟨hlin, hrin⟩
    have hposl := tl.length_toList_pos
    have hposr := tr.length_toList_pos
    rw [Node.toList, length_append] at hlen ⊢
    have hlast : h.lastLeaf (depth + 1) (.mem a) = h.lastLeaf depth r := by
      simp [Heap.lastLeaf, hc]
    have hget : h.getByIndex (depth + 1) (.mem a) index =
        if index < tl.toList.length then h.getByIndex depth l index
        else h.getByIndex depth r (index - tl.toList.length) := by
      simp only [Heap.getByIndex, hc, Results.some_bind, if_neg h0, hl.size_eq,
        ht.left.sized.size_eq, Nat.mod_eq_of_lt (show tl.toList.length < 2 ^ 32 by omega)]
    obtain ⟨hbound, hrest⟩ := ihr ht.right hrin (show tr.height < depth by omega) (by omega)
      (show index - tl.toList.length < 2 ^ 32 by omega)
    rw [hlast, hget]
    refine ⟨hbound, ?_⟩
    by_cases hlt : index < tl.toList.length
    · -- on the left every rank is that of a leaf
      obtain ⟨hbound', hleft, -⟩ := ihl ht.left hlin (show tl.height < depth by omega) (by omega) hi
      rw [if_pos hlt]
      refine ⟨fun _ => ?_, ?_⟩
      · rw [hleft, pairAt_append_left hlt]
        rintro ⟨e, he, hwrap⟩
        have := hbound' e he
        omega
      · rintro ⟨e, he, hwrap⟩
        have := hbound e he
        omega
    · rw [if_neg hlt, pairAt_append_right (not_lt.mp hlt)]
      have hiff : Wraps (h.lastLeaf depth r) (tl.toList.length + tr.toList.length) index ↔
          Wraps (h.lastLeaf depth r) tr.toList.length (index - tl.toList.length) := by
        constructor
        · rintro ⟨e, he, hwrap⟩
          exact ⟨e, he, by omega⟩
        · rintro ⟨e, he, hwrap⟩
          exact ⟨e, he, by omega⟩
      rw [hiff]
      exact hrest

end Memory

def Tree.find (v : Tree) (key : Bytes) : Slice := (v.toList.lookup key).getD none

section Trees

variable [Sha256] {h : Heap} {t : HeapTree} {v : Tree}

section

variable (hs : t.Stands h v)
include hs

theorem HeapTree.Stands.getWithIndex_eq (key : Bytes) :
    t.getWithIndex h key =
      some (((SortedAssoc.rank key v.toList % 2 ^ 32 : Nat) : Int), v.find key) := by
  obtain ⟨⟨F, hrep⟩, hv, hm⟩ := hs
  obtain ⟨tv, cow, root⟩ := t
  obtain ⟨vv, vroot⟩ := v
  cases hrep with
  | none => rfl
  | @some r n F hr =>
    have hn := hv n rfl
    simp only [HeapTree.getWithIndex, hr.height_eq, Results.some_bind,
      Heap.get_eq hr hn hm.cells (hm.root r rfl) (Nat.lt_succ_self _)]
    rfl

section

variable (hlen : v.toList.length ≤ 2 ^ 32)
include hlen

theorem HeapTree.Stands.getByIndex_spec {index : Int} (h0 : 0 ≤ index) :
    t.getByIndex h index = some (pairAt v.toList index.toNat) ↔
      ¬(index ≤ maxUint32 ∧ Wraps (t.lastLeaf h) v.toList.length index.toNat) := by
  have hmax : maxUint32 = 4294967295 := rfl
  unfold HeapTree.getByIndex
  by_cases hbig : index > maxUint32
  · rw [if_pos hbig, pairAt_of_le (by omega)]
    exact iff_of_true rfl fun hw => absurd hw.1 (not_le.mpr hbig)
  · rw [if_neg hbig]
    have hmod : (index % 2 ^ 32).toNat = index.toNat := by omega
    obtain ⟨⟨F, hrep⟩, hv, hm⟩ := hs
    obtain ⟨tv, cow, root⟩ := t
    obtain ⟨vv, vroot⟩ := v
    cases hrep with
    | none =>
      refine iff_of_true rfl ?_
      rintro ⟨-, e, he, -⟩
      cases he
    | @some r n F hr =>
      have hn := hv n rfl
      obtain ⟨hbound, hexact, hwrap⟩ := Heap.getByIndex_eq hr hn hm.cells (hm.root r rfl) (Nat.lt_succ_self _)
        hlen (show index.toNat < 2 ^ 32 by omega)
      simp only [HeapTree.lastLeaf, hr.height_eq, Results.some_bind, hmod]
      constructor
      · rintro hget ⟨-, hw⟩
        obtain ⟨e, he, hle⟩ := id hw
        obtain ⟨k, x, hkx⟩ := hwrap hw
        rw [hget, pairAt_of_le] at hkx
        · cases hkx
        · have := hbound e he
          show n.toList.length ≤ _
          have hle : 2 ^ 32 + n.toList.length ≤ _ := hle
          omega
      · exact fun hnot => hexact fun hw => hnot ⟨by omega, hw⟩

/-- The last leaf of a file has an index below the greatest `uint32`. -/
theorem HeapTree.Stands.lastLeaf_lt {e : Nat}
    (he : t.lastLeaf h = some e) : e + 1 < 2 ^ 32 := by
  obtain ⟨⟨F, hrep⟩, hv, hm⟩ := hs
  obtain ⟨tv, cow, root⟩ := t
  obtain ⟨vv, vroot⟩ := v
  cases hrep with
  | none => cases he
  | @some r n F hr =>
    simp only [HeapTree.lastLeaf, hr.height_eq, Results.some_bind] at he
    exact (Heap.getByIndex_eq hr (hv n rfl) hm.cells (hm.root r rfl) (Nat.lt_succ_self _) hlen
      (Nat.two_pow_pos 32)).1 e he

theorem HeapTree.Stands.getByIndex_eq {index : Nat} (hi : index ≤ v.toList.length) :
    t.getByIndex h index = some (pairAt v.toList index) := by
  refine (hs.getByIndex_spec hlen (Int.natCast_nonneg index)).mpr ?_
  rintro ⟨-, e, he, hwrap⟩
  have hlt := hs.lastLeaf_lt hlen he
  rw [Int.toNat_natCast] at hwrap
  omega

end

end

omit [Sha256] in
theorem Tree.Valid.find_of_mem (hv : v.Valid) {key : Bytes} {x : Slice} (h : (key, x) ∈ v.toList) :
    v.find key = x := by
  rw [Tree.find, (lookup_eq_some_iff hv.sorted).mpr h]
  rfl

omit [Sha256] in
/-- No value is nil, so a nil is the answer for a key that is not there. -/
theorem Tree.Valid.find_eq_none_iff (hv : v.Valid) {key : Bytes} :
    v.find key = none ↔ ∀ p ∈ v.toList, p.1 ≠ key := by
  constructor
  · rintro hnone ⟨k, x⟩ hp rfl
    rw [hv.find_of_mem hp] at hnone
    exact hv.value_ne_none _ hp hnone
  · intro habs
    rw [Tree.find, lookup_eq_none_iff.mpr fun p hp => by simpa using (habs p hp).symm]
    rfl

end Trees

def Tree.fourLeaves : Tree :=
  ⟨1, some (.branch 2 4 1 [3]
    (.branch 1 2 1 [2] (.leaf 1 [1] (some [7])) (.leaf 1 [2] (some [8])))
    (.branch 1 2 1 [4] (.leaf 1 [3] (some [9])) (.leaf 1 [4] (some [10]))))⟩

theorem Tree.fourLeaves_persistable : Tree.fourLeaves.Persistable where
  valid := by
    rintro n ⟨⟩
    refine ⟨by simp [Node.Balanced], by simp [Node.Sized, Node.toList], ?_, by simp [Node.Stored, Node.toList]⟩
    simp only [Node.Ordered, Node.toList, Node.minKey]
    decide
  version := by decide
  length := by decide
  fits := by
    rintro n ⟨⟩
    simp [Node.Fits]

/-- Looking up a key in an edited tree gives the value bound to it, nil exactly if there is none,
and as index the number of smaller keys. -/
theorem getWithIndex_exact [Sha256] {h : Heap} {t : HeapTree} {v : Tree} (he : Edited h t v)
    (hlen : v.toList.length < 2 ^ 32) (key : Bytes) :
    ∃ value, t.getWithIndex h key = some ((SortedAssoc.rank key v.toList : Int), value) ∧
      (∀ x, (key, x) ∈ v.toList → value = x) ∧ (value = none ↔ ∀ p ∈ v.toList, p.1 ≠ key) := by
  obtain ⟨hs, -⟩ := he.stands
  have hrank := rank_le_length key v.toList
  refine ⟨v.find key, ?_, fun x hx => hs.valid.find_of_mem hx, hs.valid.find_eq_none_iff⟩
  rw [hs.getWithIndex_eq, Nat.mod_eq_of_lt (by omega)]

/-- Four leaves of a snapshot without the first: the second of the rest is found in a persisted
branch below a node in memory. -/
theorem getWithIndex_exact_removed :
    letI := Sha256.zero
    ∃ (h : Heap) (t : HeapTree),
      Edited h t (Tree.fourLeaves.remove [1]) ∧ t.getWithIndex h [3] = some (1, some [9]) := by
  let _ := Sha256.zero
  have hstart := Tree.fourLeaves_persistable.edited (by decide)
  obtain ⟨⟨t, h⟩, hs⟩ : ∃ r, (HeapTree.newFromSnapshot Tree.fourLeaves.snapshot).remove [] [1] = some r :=
    isSome_iff_exists.mp (by decide +kernel)
  have hedited : Edited h t (Tree.fourLeaves.remove [1]) := .remove hstart hs
  obtain ⟨value, hget, hvalue, -⟩ := getWithIndex_exact hedited (by decide) [3]
  rw [hvalue (some [9]) (by decide)] at hget
  exact ⟨h, t, hedited, hget⟩

/-- Access by rank in an edited tree of at most `2 ^ 32` leaves is exact but for a rank that
wraps around, and it is exact for every rank if and only if there are no more leaves and the
leaves of the persisted branch at the right end, if there is one, do not have higher indices in
the files than there are leaves in the tree. -/
theorem getByIndex_exact_iff [Sha256] {h : Heap} {t : HeapTree} {v : Tree} (he : Edited h t v) :
    (v.toList.length ≤ 2 ^ 32 → ∀ index : Int, 0 ≤ index →
      (t.getByIndex h index = some (pairAt v.toList index.toNat) ↔
        ¬(index ≤ maxUint32 ∧ Wraps (t.lastLeaf h) v.toList.length index.toNat))) ∧
    ((∀ index : Int, 0 ≤ index → t.getByIndex h index = some (pairAt v.toList index.toNat)) ↔
      v.toList.length ≤ 2 ^ 32 ∧ ∀ e, t.lastLeaf h = some e → e < v.toList.length) := by
  have hmax : maxUint32 = 4294967295 := rfl
  obtain ⟨hs, -⟩ := he.stands
  refine ⟨fun hlen index h0 => hs.getByIndex_spec hlen h0, ?_, ?_⟩
  · intro hall
    have hlen : v.toList.length ≤ 2 ^ 32 := by
      -- the first rank that is not a `uint32`
      by_contra hgt
      have hget := hall (2 ^ 32) (by decide)
      rw [HeapTree.getByIndex, if_pos (by decide), pairAt,
        getElem?_eq_getElem (show (2 ^ 32 : Int).toNat < v.toList.length by omega)] at hget
      cases hget
    refine ⟨hlen, fun e hlast => ?_⟩
    by_contra hge
    have hspec := hs.getByIndex_spec hlen (show (0 : Int) ≤ maxUint32 by decide)
    refine hspec.mp (hall _ (by decide)) ⟨le_rfl, e, hlast, ?_⟩
    omega
  · rintro ⟨hlen, hlast⟩ index h0
    refine (hs.getByIndex_spec hlen h0).mpr ?_
    rintro ⟨hle, e, he, hwrap⟩
    have := hlast e he
    omega

/-- The snapshot of four leaves, opened: rank by rank it is the tree. -/
theorem getByIndex_exact_iff_opened :
    letI := Sha256.zero
    (HeapTree.newFromSnapshot Tree.fourLeaves.snapshot).lastLeaf [] = some 3 ∧
    ∀ index : Int, 0 ≤ index → (HeapTree.newFromSnapshot Tree.fourLeaves.snapshot).getByIndex [] index =
      some (pairAt Tree.fourLeaves.toList index.toNat) := by
  let _ := Sha256.zero
  have hlast : (HeapTree.newFromSnapshot Tree.fourLeaves.snapshot).lastLeaf [] = some 3 := by decide +kernel
  refine ⟨hlast, ?_⟩
  refine (getByIndex_exact_iff (Tree.fourLeaves_persistable.edited (by decide))).2.mpr ⟨by decide, ?_⟩
  intro e he
  cases hlast.symm.trans he
  decide

/-- The first of the four leaves is removed. The last rank that is a `uint32` then wraps around
to it. -/
theorem exists_getByIndex_wrap :
    letI := Sha256.zero
    ∃ (h : Heap) (t : HeapTree) (v : Tree), Edited h t v ∧ v.toList.map Prod.fst = [[2], [3], [4]] ∧
      t.getByIndex h 4294967295 = some (some [1], some [7]) := by
  let _ := Sha256.zero
  have hstart := Tree.fourLeaves_persistable.edited (by decide)
  have hrun : ((HeapTree.newFromSnapshot Tree.fourLeaves.snapshot).remove [] [1]).bind
      (fun r => r.1.getByIndex r.2 4294967295) = some (some [1], some [7]) := by
    decide +kernel
  obtain ⟨⟨t, h⟩, hs, hget⟩ := bind_eq_some_iff.mp hrun
  exact ⟨h, t, _, .remove hstart hs, by decide, hget⟩

/-- Iteration, access by rank and lookup see the same pairs in the same places. -/
theorem reads_agree [Sha256] {h : Heap} {t : HeapTree} {v : Tree} (he : Edited h t v)
    (hlen : v.toList.length < 2 ^ 32) :
    ∃ ps, ps.length = v.toList.length ∧
      (∀ fuel, 2 * ps.length < fuel → t.iterate h fuel none none true = some ps) ∧
      (∀ (i : Nat) key x, ps[i]? = some (key, x) →
        t.getByIndex h i = some (some key, x) ∧ t.getWithIndex h key = some ((i : Int), x)) ∧
      t.getByIndex h ps.length = some (none, none) := by
  obtain ⟨hs, -⟩ := he.stands
  obtain ⟨F, hrep⟩ := hs.rep
  refine ⟨v.toList, rfl, fun fuel hfuel => ?_, fun i key x hp => ?_, ?_⟩
  · rw [HeapTree.iterate, Iterator.pairs_eq (hrep.rootDenotes hs.valid) hs.valid hfuel]
    simp [Iterator.selected, Iterator.InRange]
  · have hi : i < v.toList.length := (List.getElem?_eq_some_iff.mp hp).1
    have hrank := rank_of_getElem? hs.valid.sorted hp
    refine ⟨?_, ?_⟩
    · rw [hs.getByIndex_eq hlen.le hi.le, pairAt, hp]
    · rw [hs.getWithIndex_eq, hrank, Nat.mod_eq_of_lt (hi.trans hlen),
        hs.valid.find_of_mem (mem_of_getElem? hp)]
  · rw [hs.getByIndex_eq hlen.le le_rfl, pairAt, getElem?_eq_none le_rfl]

/-- The four leaves, in an opened snapshot. -/
theorem reads_agree_fourLeaves :
    letI := Sha256.zero
    let t := HeapTree.newFromSnapshot Tree.fourLeaves.snapshot
    ∃ ps, t.iterate [] 9 none none true = some ps ∧ ps.length = 4 ∧ t.getByIndex [] 4 = some (none, none) := by
  let _ := Sha256.zero
  obtain ⟨ps, hlen, hiterate, -, hend⟩ := reads_agree (Tree.fourLeaves_persistable.edited (by decide)) (by decide)
  rw [hlen] at hend
  exact ⟨ps, hiterate 9 (by rw [hlen]; decide), hlen, hend⟩

end CronosStore.Memiavl
