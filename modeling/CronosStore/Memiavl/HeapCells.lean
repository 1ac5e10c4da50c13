import CronosStore.Memiavl.Grown

/-!
# The cells of the heap

`Rep` says which tree a node is. What it leaves open is what the code never makes: a branch in
memory that holds a value, and a persisted node that is not one of the files it was read from. Here
both are ruled out for every cell of the heap (`Heap.CellsOk`). The persisted nodes that may occur
are a parameter, closed under going down; every operation then keeps the cells, and keeps leaves
leaves and branches branches (`Heap.Kept`).
-/

namespace CronosStore.Memiavl

open Foundation CellHeap Option

section Cells

variable (S : PersistedNode → Prop)

def Ref.In : Ref → Prop
  | .mem _ => True
  | .persisted p => S p

variable {S} in
theorem Ref.mem_in (a : Addr) : (Ref.mem a).In S := trivial

inductive CellOk : MemNode → Prop
  | leaf {s v : Nat} {k : Bytes} {x hash : Slice} : CellOk ⟨0, s, v, k, x, none, none, hash⟩
  | branch {ht s v : Nat} {k : Bytes} {l r : Ref} {hash : Slice} (h0 : ht ≠ 0) (hl : l.In S)
      (hr : r.In S) : CellOk ⟨ht, s, v, k, none, some l, some r, hash⟩

variable {S} in
theorem CellOk.height_ne_zero {c : MemNode} (hc : CellOk S c) {l : Ref} (hl : c.left = some l) :
    c.height ≠ 0 := by
  cases hc with
  | leaf => cases hl
  | branch h0 => exact h0

structure PersistedClosed : Prop where
  left : ∀ {p q : PersistedNode}, S p → p.left = some q → S q
  right : ∀ {p q : PersistedNode}, S p → p.right = some q → S q
  clone : ∀ {p : PersistedNode} {version : Nat} {c : MemNode}, S p →
    Heap.cloneOfPersisted p version = some c → CellOk S c

namespace Heap

def CellsOk (h : Heap) : Prop := ∀ (a : Addr) (c : MemNode), h[a]? = some c → CellOk S c

structure Kept (h h' : Heap) : Prop where
  cells : h'.CellsOk S
  kind : ∀ a b, h.isLeaf (.mem a) = some b → h'.isLeaf (.mem a) = some b

variable {S} {h h' h'' : Heap} {a : Addr} {r r' : Ref} {b : Bool}

theorem Kept.refl (hok : h.CellsOk S) : Kept S h h := ⟨hok, fun _ _ hb => hb⟩

theorem Kept.trans (hk : Kept S h h') (hk' : Kept S h' h'') : Kept S h h'' :=
  ⟨hk'.cells, fun a b hb => hk'.kind a b (hk.kind a b hb)⟩

theorem Kept.isLeaf (hk : Kept S h h') (hb : h.isLeaf r = some b) : h'.isLeaf r = some b := by
  cases r with
  | mem a => exact hk.kind a b hb
  | persisted p => exact hb

variable {c : MemNode} {version cow : Nat} {value : Slice} {node : Addr}

theorem isLeaf_mem (hc : h[a]? = some c) : h.isLeaf (.mem a) = some (c.height == 0) := by
  rw [Heap.isLeaf, hc]
  rfl

theorem CellsOk.alloc (hok : h.CellsOk S) (hc : CellOk S c) : Kept S h (h ++ [c]) := by
  constructor
  · intro a c' hc'
    rcases Nat.lt_or_ge a h.length with hlt | hge
    · rw [List.getElem?_append_left hlt] at hc'
      exact hok a c' hc'
    · rw [List.getElem?_append_right hge] at hc'
      obtain ⟨-, rfl⟩ := List.getElem?_eq_some_iff.mp hc'
      simpa using hc
  · intro a b hb
    simp only [Heap.isLeaf, map_eq_some_iff] at hb ⊢
    obtain ⟨c', hc', hb⟩ := hb
    exact ⟨c', by rwa [List.getElem?_append_left (List.getElem?_eq_some_iff.mp hc').1], hb⟩

theorem CellsOk.put (hok : h.CellsOk S) {c' : MemNode} (hc : h[a]? = some c) (hc' : CellOk S c')
    (hkind : c'.height = 0 ↔ c.height = 0) : Kept S h (h.set a c') := by
  have hlt := (List.getElem?_eq_some_iff.mp hc).1
  constructor
  · intro b d hd
    by_cases hab : a = b
    · subst hab
      rw [List.getElem?_set_self hlt] at hd
      cases hd
      exact hc'
    · rw [List.getElem?_set_ne hab] at hd
      exact hok b d hd
  · intro b k hk
    by_cases hab : a = b
    · subst hab
      rw [isLeaf_mem (List.getElem?_set_self hlt)]
      rw [isLeaf_mem hc] at hk
      rw [← hk]
      rw [Option.some.injEq, Bool.eq_iff_iff]
      simpa using hkind
    · rw [Heap.isLeaf, List.getElem?_set_ne hab]
      exact hk

theorem CellsOk.left (hS : PersistedClosed S) (hok : h.CellsOk S) (hr : r.In S)
    (hl : h.left r = some r') : r'.In S ∧ h.isLeaf r = some false := by
  cases r with
  | mem a =>
    simp only [Heap.left, bind_eq_some_iff] at hl
    obtain ⟨c, hc, hl⟩ := hl
    rw [isLeaf_mem hc]
    cases hok a c hc with
    | leaf => cases hl
    | branch h0 hin _ =>
      cases hl
      exact ⟨hin, by simpa using h0⟩
  | persisted p =>
    simp only [Heap.left, map_eq_some_iff] at hl
    obtain ⟨q, hq, rfl⟩ := hl
    refine ⟨hS.left hr hq, ?_⟩
    cases hp : p.isLeaf with
    | false => rw [Heap.isLeaf, hp]
    | true =>
      rw [PersistedNode.left, if_pos hp] at hq
      cases hq

theorem CellsOk.right (hS : PersistedClosed S) (hok : h.CellsOk S) (hr : r.In S)
    (hl : h.right r = some r') : r'.In S ∧ h.isLeaf r = some false := by
  cases r with
  | mem a =>
    simp only [Heap.right, bind_eq_some_iff] at hl
    obtain ⟨c, hc, hl⟩ := hl
    rw [isLeaf_mem hc]
    cases hok a c hc with
    | leaf => cases hl
    | branch h0 _ hin =>
      cases hl
      exact ⟨hin, by simpa using h0⟩
  | persisted p =>
    simp only [Heap.right, map_eq_some_iff] at hl
    obtain ⟨q, hq, rfl⟩ := hl
    refine ⟨hS.right hr hq, ?_⟩
    cases hp : p.isLeaf with
    | false => rw [Heap.isLeaf, hp]
    | true =>
      rw [PersistedNode.right, if_pos hp] at hq
      cases hq

/-! ## Changing one cell -/

theorem CellsOk.mutate (hS : PersistedClosed S) (hok : h.CellsOk S) (hr : r.In S)
    (hm : h.mutate r version cow = some (a, h')) :
    Kept S h h' ∧ ∃ b, h.isLeaf r = some b ∧ h'.isLeaf (.mem a) = some b := by
  cases r with
  | mem a' =>
    simp only [Heap.mutate, bind_eq_bind, bind_eq_some_iff] at hm
    obtain ⟨c, hc, hm⟩ := hm
    have hc' : CellOk S { c with version := version, hash := none } := by
      cases hok a' c hc with
      | leaf => exact .leaf
      | branch h0 hl hr => exact .branch h0 hl hr
    refine ⟨?_, _, isLeaf_mem hc, ?_⟩
    · split at hm
      · cases hm
        exact hok.alloc hc'
      · cases hm
        exact hok.put hc hc' Iff.rfl
    · split at hm
      · cases hm
        exact isLeaf_mem (c := { c with version := version, hash := none }) (by simp)
      · cases hm
        have hlt := (List.getElem?_eq_some_iff.mp hc).1
        exact isLeaf_mem (c := { c with version := version, hash := none }) (by simp [hlt])
  | persisted p =>
    simp only [Heap.mutate, bind_eq_bind, bind_eq_some_iff] at hm
    obtain ⟨c, hc, hm⟩ := hm
    cases hm
    have hcell := hS.clone hr hc
    refine ⟨hok.alloc hcell, p.isLeaf, rfl, ?_⟩
    rw [isLeaf_mem (c := c) (by simp)]
    unfold cloneOfPersisted at hc
    cases hp : p.isLeaf with
    | true =>
      simp only [hp, if_true, bind_eq_bind, bind_eq_some_iff] at hc
      obtain ⟨kv, -, hc⟩ := hc
      cases hc
      rfl
    | false =>
      simp only [hp, Bool.false_eq_true, if_false, bind_eq_bind, bind_eq_some_iff] at hc
      obtain ⟨d, -, k, -, l, -, r, -, hc⟩ := hc
      cases hc
      simpa using hcell.height_ne_zero rfl

section

variable (hok : h.CellsOk S)
include hok

theorem CellsOk.modify {f : MemNode → MemNode} (hheight : ∀ c, (f c).height = c.height)
    (hf : ∀ c, h[a]? = some c → CellOk S c → CellOk S (f c))
    (hs : (h[a]?.bind fun c => some (h.set a (f c))) = some h') : Kept S h h' := by
  obtain ⟨c, hc, hs⟩ := bind_eq_some_iff.mp hs
  cases hs
  refine hok.put hc (hf c hc (hok a c hc)) ?_
  rw [hheight]

theorem CellsOk.setLeft (hr : r.In S) (hb : h.isLeaf (.mem a) = some false)
    (hs : h.setLeft a r = some h') : Kept S h h' := by
  refine hok.modify (f := fun c => { c with left := some r }) (fun _ => rfl) (fun c hc hcell => ?_) hs
  rw [isLeaf_mem hc] at hb
  cases hcell with
  | leaf => cases hb
  | branch h0 _ hr' => exact .branch h0 hr hr'

theorem CellsOk.setRight (hr : r.In S) (hb : h.isLeaf (.mem a) = some false)
    (hs : h.setRight a r = some h') : Kept S h h' := by
  refine hok.modify (f := fun c => { c with right := some r }) (fun _ => rfl) (fun c hc hcell => ?_) hs
  rw [isLeaf_mem hc] at hb
  cases hcell with
  | leaf => cases hb
  | branch h0 hl _ => exact .branch h0 hl hr

theorem CellsOk.setNewKey {newKey : Slice}
    (hs : h.setNewKey a newKey = some h') : Kept S h h' := by
  cases newKey with
  | none =>
    cases hs
    exact .refl hok
  | some k =>
    refine hok.modify (f := fun c => { c with key := k }) (fun _ => rfl) (fun c _ hcell => ?_) hs
    cases hcell with
    | leaf => exact .leaf
    | branch h0 hl hr => exact .branch h0 hl hr

theorem CellsOk.setValue (hb : h.isLeaf (.mem a) = some true)
    (hs : h.setValue a value = some h') : Kept S h h' := by
  refine hok.modify (f := fun c => { c with value := value }) (fun _ => rfl) (fun c hc hcell => ?_) hs
  rw [isLeaf_mem hc] at hb
  cases hcell with
  | leaf => exact .leaf
  | branch h0 => exact absurd (by simpa using hb) h0

theorem CellsOk.setHash {hash : Bytes} (hs : h.setHash a hash = some h') :
    Kept S h h' := by
  refine hok.modify (f := fun c => { c with hash := some hash }) (fun _ => rfl) (fun c _ hcell => ?_) hs
  cases hcell with
  | leaf => exact .leaf
  | branch h0 hl hr => exact .branch h0 hl hr

theorem CellsOk.updateHeightSize (hs : h.updateHeightSize a = some h') :
    Kept S h h' := by
  simp only [Heap.updateHeightSize, bind_eq_bind, bind_eq_some_iff] at hs
  obtain ⟨c, hc, l, hl, r, hr, lh, -, rh, -, ls, -, rs, -, hs⟩ := hs
  cases hs
  -- only a branch has children to take the height from
  cases hok a c hc with
  | leaf => cases hl
  | branch h0 hlin hrin =>
    refine hok.put hc (.branch (by omega) hlin hrin) ?_
    simp only
    omega

end

section

variable (hS : PersistedClosed S) (hok : h.CellsOk S)
include hS hok

theorem CellsOk.rotateRight
    (hs : h.rotateRight node version cow = some (a, h')) : Kept S h h' := by
  simp only [Heap.rotateRight, bind_eq_bind, bind_eq_some_iff, Prod.exists,
    pure_def, Option.some.injEq, Prod.mk.injEq] at hs
  obtain ⟨left, hleft, newSelf, h1, hm, lr, hlr, h2, hs1, h3, hs2, h4, hu1, h5, hu2, -, rfl⟩ := hs
  obtain ⟨hin, hnode⟩ := hok.left hS (Ref.mem_in node) hleft
  obtain ⟨k1, b, hb, hself⟩ := hok.mutate hS hin hm
  obtain ⟨hlrin, hbranch⟩ := k1.cells.right hS hin hlr
  cases (k1.isLeaf hb).symm.trans hbranch
  have k2 := k1.cells.setLeft hlrin (k1.isLeaf hnode) hs1
  have k3 := k2.cells.setRight (Ref.mem_in node) (k2.isLeaf hself) hs2
  have k4 := k3.cells.updateHeightSize hu1
  exact k1.trans (k2.trans (k3.trans (k4.trans (k4.cells.updateHeightSize hu2))))

theorem CellsOk.rotateLeft
    (hs : h.rotateLeft node version cow = some (a, h')) : Kept S h h' := by
  simp only [Heap.rotateLeft, bind_eq_bind, bind_eq_some_iff, Prod.exists,
    pure_def, Option.some.injEq, Prod.mk.injEq] at hs
  obtain ⟨right, hright, newSelf, h1, hm, rl, hrl, h2, hs1, h3, hs2, h4, hu1, h5, hu2, -, rfl⟩ := hs
  obtain ⟨hin, hnode⟩ := hok.right hS (Ref.mem_in node) hright
  obtain ⟨k1, b, hb, hself⟩ := hok.mutate hS hin hm
  obtain ⟨hrlin, hbranch⟩ := k1.cells.left hS hin hrl
  cases (k1.isLeaf hb).symm.trans hbranch
  have k2 := k1.cells.setRight hrlin (k1.isLeaf hnode) hs1
  have k3 := k2.cells.setLeft (Ref.mem_in node) (k2.isLeaf hself) hs2
  have k4 := k3.cells.updateHeightSize hu1
  exact k1.trans (k2.trans (k3.trans (k4.trans (k4.cells.updateHeightSize hu2))))

theorem CellsOk.reBalance
    (hs : h.reBalance node version cow = some (a, h')) : Kept S h h' := by
  simp only [Heap.reBalance, bind_eq_bind, bind_eq_some_iff] at hs
  obtain ⟨balance, -, hs⟩ := hs
  split at hs
  · simp only [bind_eq_some_iff] at hs
    obtain ⟨left, hleft, lb, -, hs⟩ := hs
    obtain ⟨hin, hnode⟩ := hok.left hS (Ref.mem_in node) hleft
    split at hs
    · exact hok.rotateRight hS hs
    · simp only [bind_eq_some_iff, Prod.exists] at hs
      obtain ⟨n, h1, hm, n', h2, hrot, h3, hset, hs⟩ := hs
      have k1 := (hok.mutate hS hin hm).1
      have k2 := k1.trans (k1.cells.rotateLeft hS hrot)
      have k3 := k2.trans (k2.cells.setLeft (Ref.mem_in n') (k2.isLeaf hnode) hset)
      exact k3.trans (k3.cells.rotateRight hS hs)
  · split at hs
    · simp only [bind_eq_some_iff] at hs
      obtain ⟨right, hright, rb, -, hs⟩ := hs
      obtain ⟨hin, hnode⟩ := hok.right hS (Ref.mem_in node) hright
      split at hs
      · exact hok.rotateLeft hS hs
      · simp only [bind_eq_some_iff, Prod.exists] at hs
        obtain ⟨n, h1, hm, n', h2, hrot, h3, hset, hs⟩ := hs
        have k1 := (hok.mutate hS hin hm).1
        have k2 := k1.trans (k1.cells.rotateRight hS hrot)
        have k3 := k2.trans (k2.cells.setRight (Ref.mem_in n') (k2.isLeaf hnode) hset)
        exact k3.trans (k3.cells.rotateLeft hS hs)
    · cases hs
      exact .refl hok

/-- What `setRecursive` and `removeRecursive` do above a changed child: the node is made
writable and its child replaced. -/
theorem CellsOk.mutate_setLeft (hr : r.In S)
    (hb : h.isLeaf r = some false) (hr' : r'.In S)
    (hm : h.mutate r version cow = some (a, h')) (hs : h'.setLeft a r' = some h'') : Kept S h h'' := by
  obtain ⟨k, b, hb', hself⟩ := hok.mutate hS hr hm
  cases hb.symm.trans hb'
  exact k.trans (k.cells.setLeft hr' hself hs)

theorem CellsOk.mutate_setRight (hr : r.In S)
    (hb : h.isLeaf r = some false) (hr' : r'.In S)
    (hm : h.mutate r version cow = some (a, h')) (hs : h'.setRight a r' = some h'') : Kept S h h'' := by
  obtain ⟨k, b, hb', hself⟩ := hok.mutate hS hr hm
  cases hb.symm.trans hb'
  exact k.trans (k.cells.setRight hr' hself hs)

theorem CellsOk.balanced
    (hu : h.updateHeightSize node = some h') (hs : h'.reBalance node version cow = some (a, h'')) :
    Kept S h h'' := by
  have k := hok.updateHeightSize hu
  exact k.trans (k.cells.reBalance hS hs)

end

theorem CellsOk.newLeafNode (hok : h.CellsOk S) (key : Bytes) (value : Slice) (version : Nat) :
    Kept S h (h.newLeafNode key value version).2 := hok.alloc .leaf

theorem CellsOk.setRecursive (hS : PersistedClosed S) {key : Bytes}
    {updated : Bool} (depth : Nat) (hok : h.CellsOk S) (hr : r.In S)
    (hs : setRecursive key value version cow depth h r = some ((a, updated), h')) : Kept S h h' := by
  induction depth generalizing h r a updated h' with
  | zero => cases hs
  | succ depth ih =>
    simp only [Heap.setRecursive, bind_eq_bind, bind_eq_some_iff] at hs
    obtain ⟨nodeKey, -, isLeaf, hleaf, hs⟩ := hs
    have hrest {h1 : Heap} {node : Addr} {u : Bool} (hok1 : h1.CellsOk S)
        (hs : (if u = true then pure ((node, true), h1) else
          (h1.updateHeightSize node).bind fun h => (h.reBalance node version cow).bind fun x =>
            pure ((x.1, false), x.2)) = some ((a, updated), h')) : Kept S h1 h' := by
      split at hs
      · cases hs
        exact .refl hok1
      · simp only [bind_eq_some_iff, Prod.exists] at hs
        obtain ⟨h2, hu, n, h3, hb, hs⟩ := hs
        cases hs
        exact hok1.balanced hS hu hb
    cases isLeaf with
    | true =>
      simp only [if_true] at hs
      have k := hok.newLeafNode key value version
      split_ifs at hs
      · cases hs
        exact k.trans (k.cells.alloc (.branch (by decide) trivial hr))
      · cases hs
        exact k.trans (k.cells.alloc (.branch (by decide) hr trivial))
      · simp only [bind_eq_some_iff, Prod.exists] at hs
        obtain ⟨n, h1, hm, h2, hv, hs⟩ := hs
        cases hs
        obtain ⟨k, b, hb, hself⟩ := hok.mutate hS hr hm
        cases hleaf.symm.trans hb
        exact k.trans (k.cells.setValue hself hv)
    | false =>
      simp only [Bool.false_eq_true, if_false] at hs
      split_ifs at hs
      · simp only [bind_eq_some_iff, Prod.exists, pure_def, bind_some] at hs
        obtain ⟨left, hl, n, u, h1, hrec, n', h2, hm, h3, hset, hs⟩ := hs
        have k1 := ih hok (hok.left hS hr hl).1 hrec
        have k2 := k1.trans (k1.cells.mutate_setLeft hS hr (k1.isLeaf hleaf) (Ref.mem_in n) hm hset)
        exact k2.trans (hrest k2.cells hs)
      · simp only [bind_eq_some_iff, Prod.exists, pure_def, bind_some] at hs
        obtain ⟨right, hl, n, u, h1, hrec, n', h2, hm, h3, hset, hs⟩ := hs
        have k1 := ih hok (hok.right hS hr hl).1 hrec
        have k2 := k1.trans (k1.cells.mutate_setRight hS hr (k1.isLeaf hleaf) (Ref.mem_in n) hm hset)
        exact k2.trans (hrest k2.cells hs)

theorem CellsOk.removeRecursive (hS : PersistedClosed S) {key : Bytes}
    {newKey : Slice} {root : Option Ref} (depth : Nat) (hok : h.CellsOk S) (hr : r.In S)
    (hs : removeRecursive key version cow depth h r = some ((value, root, newKey), h')) :
    Kept S h h' ∧ ∀ r', root = some r' → r'.In S := by
  induction depth generalizing h r value root newKey h' with
  | zero => cases hs
  | succ depth ih =>
    simp only [Heap.removeRecursive, bind_eq_bind, bind_eq_some_iff] at hs
    obtain ⟨nodeKey, -, isLeaf, hleaf, hs⟩ := hs
    have hself : Kept S h h ∧ ∀ r', some r = some r' → r'.In S :=
      ⟨.refl hok, fun r' he => Option.some.inj he ▸ hr⟩
    cases isLeaf with
    | true =>
      simp only [if_true] at hs
      split_ifs at hs
      · simp only [bind_eq_some_iff] at hs
        obtain ⟨x, -, hs⟩ := hs
        cases hs
        exact ⟨.refl hok, fun r' he => by cases he⟩
      · cases hs
        exact hself
    | false =>
      simp only [Bool.false_eq_true, if_false] at hs
      split_ifs at hs
      · simp only [bind_eq_some_iff, Prod.exists] at hs
        obtain ⟨left, hl, x, res, nk, h1, hrec, hs⟩ := hs
        obtain ⟨k1, hres⟩ := ih hok (hok.left hS hr hl).1 hrec
        cases x with
        | none =>
          cases hs
          exact ⟨k1, hself.2⟩
        | some x =>
          cases res with
          | none =>
            simp only [bind_eq_some_iff] at hs
            obtain ⟨right, hright, hs⟩ := hs
            cases hs
            exact ⟨k1, fun r' he => Option.some.inj he ▸ (k1.cells.right hS hr hright).1⟩
          | some newLeft =>
            simp only [bind_eq_some_iff, Prod.exists] at hs
            obtain ⟨n, h2, hm, h3, hset, h4, hu, n', h5, hb, hs⟩ := hs
            cases hs
            have k2 := k1.trans (k1.cells.mutate_setLeft hS hr (k1.isLeaf hleaf) (hres _ rfl) hm hset)
            exact ⟨k2.trans (k2.cells.balanced hS hu hb), fun r' he => Option.some.inj he ▸ Ref.mem_in n'⟩
      · simp only [bind_eq_some_iff, Prod.exists] at hs
        obtain ⟨right, hl, x, res, nk, h1, hrec, hs⟩ := hs
        obtain ⟨k1, hres⟩ := ih hok (hok.right hS hr hl).1 hrec
        cases x with
        | none =>
          cases hs
          exact ⟨k1, hself.2⟩
        | some x =>
          cases res with
          | none =>
            simp only [bind_eq_some_iff] at hs
            obtain ⟨left, hleft, hs⟩ := hs
            cases hs
            exact ⟨k1, fun r' he => Option.some.inj he ▸ (k1.cells.left hS hr hleft).1⟩
          | some newRight =>
            simp only [bind_eq_some_iff, Prod.exists] at hs
            obtain ⟨n, h2, hm, h3, hset, h4, hkey, h5, hu, n', h6, hb, hs⟩ := hs
            cases hs
            have k2 := k1.trans (k1.cells.mutate_setRight hS hr (k1.isLeaf hleaf) (hres _ rfl) hm hset)
            have k3 := k2.trans (k2.cells.setNewKey hkey)
            exact ⟨k3.trans (k3.cells.balanced hS hu hb), fun r' he => Option.some.inj he ▸ Ref.mem_in n'⟩

theorem CellsOk.hash [Sha256] (depth : Nat) {x : Bytes} (hok : h.CellsOk S)
    (hs : Heap.hash depth h r = some (x, h')) : Kept S h h' := by
  induction depth generalizing h r x h' with
  | zero => cases hs
  | succ depth ih =>
    cases r with
    | persisted p =>
      simp only [Heap.hash, bind_eq_bind, bind_eq_some_iff] at hs
      obtain ⟨y, -, hs⟩ := hs
      cases hs
      exact .refl hok
    | mem a =>
      simp only [Heap.hash, bind_eq_bind, bind_eq_some_iff] at hs
      obtain ⟨c, hc, hs⟩ := hs
      split at hs
      · cases hs
        exact .refl hok
      · split_ifs at hs
        · simp only [bind_eq_some_iff] at hs
          obtain ⟨h1, hset, hs⟩ := hs
          cases hs
          exact hok.setHash hset
        · simp only [bind_eq_some_iff, Prod.exists] at hs
          obtain ⟨l, -, x1, h1, hl, r, -, x2, h2, hr, h3, hset, hs⟩ := hs
          cases hs
          have k1 := ih hok hl
          have k2 := k1.trans (ih k1.cells hr)
          exact k2.trans (k2.cells.setHash hset)

end Heap

structure HeapTree.Made (h : Heap) (t : HeapTree) : Prop where
  cells : h.CellsOk S
  root : ∀ r, t.root = some r → r.In S

variable {S} {h h' : Heap} {t t' : HeapTree}

theorem HeapTree.Made.set (hS : PersistedClosed S) (hm : t.Made S h) {key : Bytes} {value : Slice}
    (hs : t.set h key value = some (t', h')) : t'.Made S h' := by
  unfold HeapTree.set at hs
  cases hroot : t.root with
  | none =>
    simp only [hroot] at hs
    cases hs
    exact ⟨(hm.cells.newLeafNode _ _ _).cells, fun r he => Option.some.inj he ▸ Ref.mem_in _⟩
  | some r =>
    simp only [hroot, bind_eq_bind, bind_eq_some_iff, Prod.exists] at hs
    obtain ⟨height, -, a, updated, h1, hrec, hs⟩ := hs
    cases hs
    exact ⟨(hm.cells.setRecursive hS _ (hm.root r hroot) hrec).cells,
      fun r he => Option.some.inj he ▸ Ref.mem_in a⟩

theorem HeapTree.Made.remove (hS : PersistedClosed S) (hm : t.Made S h) {key : Bytes}
    (hs : t.remove h key = some (t', h')) : t'.Made S h' := by
  unfold HeapTree.remove at hs
  cases hroot : t.root with
  | none =>
    simp only [hroot] at hs
    cases hs
    exact hm
  | some r =>
    simp only [hroot, bind_eq_bind, bind_eq_some_iff, Prod.exists] at hs
    obtain ⟨height, -, value, root, newKey, h1, hrec, hs⟩ := hs
    cases hs
    obtain ⟨k, hin⟩ := hm.cells.removeRecursive hS _ (hm.root r hroot) hrec
    exact ⟨k.cells, hin⟩

theorem HeapTree.Made.saveVersion [Sha256] (hm : t.Made S h) {updateHash : Bool}
    {res : Option Slice} (hs : t.saveVersion h updateHash = some (res, t', h')) : t'.Made S h' := by
  have hhash {x : Bytes} (hx : t.rootHash h = some (x, h')) : h'.CellsOk S := by
    unfold HeapTree.rootHash at hx
    cases hroot : t.root with
    | none =>
      simp only [hroot] at hx
      cases hx
      exact hm.cells
    | some r =>
      simp only [hroot, bind_eq_bind, bind_eq_some_iff] at hx
      obtain ⟨height, -, hx⟩ := hx
      exact (hm.cells.hash _ hx).cells
  unfold HeapTree.saveVersion at hs
  split at hs
  · cases hs
    exact hm
  · cases updateHash with
    | false =>
      cases hs
      exact ⟨hm.cells, hm.root⟩
    | true =>
      simp only [if_true, bind_eq_bind, bind_eq_some_iff, Prod.exists] at hs
      obtain ⟨x, h1, hx, y, h2, hy, hs⟩ := hs
      cases hy
      cases hs
      exact ⟨hhash hx, hm.root⟩

end Cells

/-! ## Nodes of a snapshot's files -/

section Files

variable [Sha256]

structure PersistedNode.Sits (p : PersistedNode) (n : Node) (leaves branches : Nat) : Prop where
  holds : ∃ L B offset, p.snapshot.HoldsAt L B n offset leaves branches
  eq : p = p.snapshot.nodeAt leaves branches n
  valid : n.Valid
  fits : n.Fits

def PersistedNode.InFile (p : PersistedNode) : Prop := ∃ n leaves branches, p.Sits n leaves branches

namespace PersistedNode.Sits

variable {p : PersistedNode} {n : Node} {leaves branches : Nat}

theorem denotes (hp : p.Sits n leaves branches) : persistedInterface.Denotes p n := by
  obtain ⟨L, B, offset, hs⟩ := hp.holds
  rw [hp.eq]
  exact hs.denotes hp.valid hp.fits

variable {v : Nat} {k : Bytes}

theorem branch {ht s : Nat} {l r : Node} (hp : p.Sits (.branch ht s v k l r) leaves branches) :
    p.isLeaf = false ∧ p.index = branches + (l.toList.length + r.toList.length) - 2 ∧
      branches ≤ leaves ∧ leaves + (l.toList.length + r.toList.length) < 2 ^ 32 ∧
      ∃ d, p.branchNode = some d ∧ BranchData d (.branch ht s v k l r) l r leaves branches := by
  obtain ⟨L, B, offset, hs⟩ := hp.holds
  obtain ⟨d, hd, hdata⟩ := hs.branchNode hp.valid hp.fits
  rw [← hp.eq] at hd
  refine ⟨by rw [hp.eq]; rfl, ?_, hs.le, ?_, d, hd, hdata⟩
  · rw [hp.eq]
    exact Snapshot.HoldsAt.index_nodeAt
  · simpa [Node.toList] using hs.room

theorem children {ht s : Nat} {l r : Node} (hp : p.Sits (.branch ht s v k l r) leaves branches) :
    ∃ pl pr, p.left = some pl ∧ p.right = some pr ∧ pl.Sits l leaves branches ∧
      pr.Sits r (leaves + l.toList.length) (branches + l.toList.length - 1) := by
  obtain ⟨L, B, offset, hs⟩ := hp.holds
  obtain ⟨hleaf, hidx, hle, hroom, d, hd, hdata⟩ := hp.branch
  exact ⟨_, _, left_eq hleaf hidx hd hdata hle hroom, right_eq hleaf hidx hd hdata hle hroom,
    ⟨⟨L, B, offset, hs.left hp.valid.balanced⟩, rfl, hp.valid.left, hp.fits.2.1⟩,
    ⟨⟨L, B, _, hs.right hp.valid.balanced⟩, rfl, hp.valid.right, hp.fits.2.2⟩⟩

theorem isLeaf_of_leaf {x : Slice} (hp : p.Sits (.leaf v k x) leaves branches) :
    p.isLeaf = true := by
  rw [hp.eq]
  rfl

end PersistedNode.Sits

theorem persistedClosed_inFile : PersistedClosed PersistedNode.InFile where
  left := by
    rintro p q ⟨n, leaves, branches, hp⟩ hq
    cases n with
    | leaf v k x =>
      rw [PersistedNode.left, if_pos hp.isLeaf_of_leaf] at hq
      cases hq
    | branch ht s v k l r =>
      obtain ⟨pl, pr, hl, -, hpl, -⟩ := hp.children
      cases hl.symm.trans hq
      exact ⟨_, _, _, hpl⟩
  right := by
    rintro p q ⟨n, leaves, branches, hp⟩ hq
    cases n with
    | leaf v k x =>
      rw [PersistedNode.right, if_pos hp.isLeaf_of_leaf] at hq
      cases hq
    | branch ht s v k l r =>
      obtain ⟨pl, pr, -, hr, -, hpr⟩ := hp.children
      cases hr.symm.trans hq
      exact ⟨_, _, _, hpr⟩
  clone := by
    rintro p version c ⟨n, leaves, branches, hp⟩ hc
    have hd := hp.denotes
    cases n with
    | leaf v k x =>
      cases (cloneOfPersisted_leaf hd version).symm.trans hc
      exact .leaf
    | branch ht s v k l r =>
      obtain ⟨pl, pr, hl, hr, hpl, hpr⟩ := hp.children
      cases (cloneOfPersisted_branch hd.1 hl hr version).symm.trans hc
      exact .branch hp.valid.balanced.height_ne_zero ⟨_, _, _, hpl⟩ ⟨_, _, _, hpr⟩

omit [Sha256] in
theorem cellsOk_nil {S : PersistedNode → Prop} : Heap.CellsOk S [] := fun a c hc => by simp at hc

/-! ## Trees that are edited -/

/-- The trees that `Set`, `Remove` and `SaveVersion` make of an empty tree or of an opened
snapshot, with the value they stand for. -/
inductive Edited : Heap → HeapTree → Tree → Prop
  | empty {version : Nat} {t : HeapTree} (ht : HeapTree.newEmptyTree version = some t) :
      Edited [] t ⟨version, none⟩
  | opened {h : Heap} {t : HeapTree} {v : Tree} {dir : SnapshotDir} {s : Snapshot}
      (hd : t.Denotes h v) (hv : v.Persistable) (hw : t.writeSnapshot h = .ok dir)
      (ho : openSnapshot dir = .ok s) : Edited [] (.newFromSnapshot s) v
  | set {h h' : Heap} {t t' : HeapTree} {v : Tree} (he : Edited h t v) {key : Bytes} {value : Slice}
      (hs : t.set h key value = some (t', h')) : Edited h' t' (v.set key value)
  | remove {h h' : Heap} {t t' : HeapTree} {v : Tree} (he : Edited h t v) {key : Bytes}
      (hs : t.remove h key = some (t', h')) : Edited h' t' (v.remove key)
  | saveVersion {h h' : Heap} {t t' : HeapTree} {v : Tree} (he : Edited h t v) {updateHash : Bool}
      {res : Option Slice} (hs : t.saveVersion h updateHash = some (res, t', h')) :
      Edited h' t' (v.saveVersion.getD v)

structure HeapTree.Stands (h : Heap) (t : HeapTree) (v : Tree) : Prop where
  rep : ∃ F, RepRoot h t.root v.root F
  valid : v.Valid
  made : t.Made PersistedNode.InFile h

theorem Edited.stands {h : Heap} {t : HeapTree} {v : Tree} (he : Edited h t v) :
    t.Stands h v ∧ t.version = v.version := by
  induction he with
  | empty ht =>
    unfold HeapTree.newEmptyTree at ht
    split_ifs at ht
    cases ht
    exact ⟨⟨⟨∅, .none⟩, (fun n hn => by cases hn), cellsOk_nil, (fun r hr => by cases hr)⟩, rfl⟩
  | @opened h t v dir s hd hv hw ho =>
    obtain ⟨rfl, hsize⟩ := writeSnapshot_eq_ok hd hv hw
    cases hv.openSnapshot_eq.symm.trans ho
    refine ⟨⟨⟨∅, hv.repRoot hsize []⟩, hv.valid, cellsOk_nil, fun r hr => ?_⟩, rfl⟩
    obtain ⟨p, hp, rfl⟩ := map_eq_some_iff.mp hr
    cases hroot : v.root with
    | none =>
      have hnone := hv.rootDenotes hsize
      rw [hroot, hp] at hnone
      exact absurd hnone id
    | some n =>
      obtain ⟨hs, hat⟩ := hv.holdsAt hsize hroot
      cases hat.symm.trans hp
      exact ⟨n, 0, 0, ⟨_, _, _, hs⟩, rfl, hv.valid n hroot, hv.fits n hroot⟩
  | @set h h' t t' v he key value hs ih =>
    obtain ⟨⟨⟨F, hrep⟩, hv, hm⟩, hver⟩ := ih
    obtain ⟨t1, h1, F', hs', hver', -, hrep', -⟩ := set_repRoot hrep hver hv key value
    cases hs.symm.trans hs'
    exact ⟨⟨⟨F', hrep'⟩, hv.set key value, hm.set persistedClosed_inFile hs⟩, hver'.trans hver⟩
  | @remove h h' t t' v he key hs ih =>
    obtain ⟨⟨⟨F, hrep⟩, hv, hm⟩, hver⟩ := ih
    obtain ⟨t1, h1, F', hs', hver', -, hrep', -⟩ := remove_repRoot hrep hver hv key
    cases hs.symm.trans hs'
    exact ⟨⟨⟨F', hrep'⟩, hv.remove key, hm.remove persistedClosed_inFile hs⟩, hver'.trans hver⟩
  | @saveVersion h h' t t' v he updateHash res hs ih =>
    obtain ⟨⟨⟨F, hrep⟩, hv, hm⟩, hver⟩ := ih
    have hm' := hm.saveVersion hs
    obtain ⟨hstep, rfl⟩ := saveVersion_repRoot hrep hv hs
    unfold Tree.saveVersion
    rw [← hver]
    split_ifs at hm' ⊢
    · exact ⟨⟨⟨F, hrep.hashStep hstep⟩, hv, hm'⟩, hver⟩
    · exact ⟨⟨⟨F, hrep.hashStep hstep⟩, hv, hm'⟩, rfl⟩

/-- The snapshot of any tree that fits a snapshot can be opened and edited. -/
theorem Tree.Persistable.edited {v : Tree} (hv : v.Persistable) (hsize : v.kvsSize ≤ maxFileSize) :
    Edited [] (.newFromSnapshot v.snapshot) v := by
  have hroot := (hv.repRoot hsize []).rootDenotes hv.valid
  have hwrite : (HeapTree.newFromSnapshot v.snapshot).writeSnapshot [] = .ok v.snapshotDir := by
    rw [HeapTree.writeSnapshot]
    exact (hv.writeSnapshot_eq (fun _ => rfl) hroot).trans (if_pos hsize)
  exact .opened ⟨rfl, hroot⟩ hv hwrite hv.openSnapshot_eq

end Files

end CronosStore.Memiavl
