import CronosStore.Memiavl.Heap

/-!
# What a reference represents

`Rep h r t F` says that the reference `r` is the tree `t` on the heap `h`, and that the cells of `t`
are exactly `F`, each used once. Persisted nodes have no cells. A cached hash is that of the
subtree.

Changing a tree is described by `CellHeap.Step`, with the writable cells `W` fixed for the whole
operation. A cell that is not writable has a version that `Mutate` takes as a reason to clone
(`Guarded`), so no write leaves `W`.
-/

namespace CronosStore.Memiavl

open Foundation CellHeap

def Ref.own : Ref → Set Addr
  | .mem a => {a}
  | .persisted _ => ∅

def HashOk [Sha256] (hash : Slice) (t : Node) : Prop := ∀ x, hash = some x → x = t.hashNode

/-- The tree below a reference, and the cells that make it up. -/
inductive Rep [Sha256] (h : Heap) : Ref → Node → Set Addr → Prop
  | persisted {p : PersistedNode} {t : Node} (hd : persistedInterface.Denotes p t) :
      Rep h (.persisted p) t ∅
  | leaf {a : Addr} {v : Nat} {k : Bytes} {x : Slice} {l r : Option Ref} {hash : Slice}
      (hc : h[a]? = some ⟨0, 1, v, k, x, l, r, hash⟩) (hh : HashOk hash (.leaf v k x)) :
      Rep h (.mem a) (.leaf v k x) {a}
  | branch {a : Addr} {ht s v : Nat} {k : Bytes} {x : Slice} {l r : Ref} {hash : Slice}
      {tl tr : Node} {Fl Fr : Set Addr}
      (hc : h[a]? = some ⟨ht, s, v, k, x, some l, some r, hash⟩) (h0 : ht ≠ 0)
      (hl : Rep h l tl Fl) (hr : Rep h r tr Fr) (hal : a ∉ Fl) (har : a ∉ Fr)
      (hlr : ∀ b ∈ Fl, b ∉ Fr) (hh : HashOk hash (.branch ht s v k tl tr)) :
      Rep h (.mem a) (.branch ht s v k tl tr) ({a} ∪ (Fl ∪ Fr))

inductive RepRoot [Sha256] (h : Heap) : Option Ref → Option Node → Set Addr → Prop
  | none : RepRoot h none none ∅
  | some {r : Ref} {t : Node} {F : Set Addr} (hr : Rep h r t F) : RepRoot h (some r) (some t) F

variable [Sha256] {W F F' Fl Fr G : Set Addr} {h h' : Heap} {r : Ref} {t : Node}

namespace Rep

section

variable (hr : Rep h r t F)
include hr

theorem lt_length : ∀ a ∈ F, a < h.length := by
  induction hr with
  | persisted => exact fun a ha => ha.elim
  | leaf hc =>
    rintro b rfl
    exact (List.getElem?_eq_some_iff.mp hc).1
  | branch hc _ _ _ _ _ _ _ ihl ihr =>
    rintro b (rfl | hb | hb)
    · exact (List.getElem?_eq_some_iff.mp hc).1
    · exact ihl b hb
    · exact ihr b hb

theorem congr (heq : ∀ a ∈ F, h'[a]? = h[a]?) : Rep h' r t F := by
  induction hr with
  | persisted hd => exact .persisted hd
  | leaf hc hh => exact .leaf ((heq _ rfl).trans hc) hh
  | branch hc h0 _ _ hal har hlr hh ihl ihr =>
    exact .branch ((heq _ (.inl rfl)).trans hc) h0 (ihl fun b hb => heq b (.inr (.inl hb)))
      (ihr fun b hb => heq b (.inr (.inr hb))) hal har hlr hh

/-- An operation that was not given the cells of a tree leaves it as it was. -/
theorem step (hs : Step W h G h' F') (hdisj : ∀ a ∈ F, a ∉ G) :
    Rep h' r t F :=
  hr.congr fun a ha => hs.frame a (hr.lt_length a ha) (.inl (hdisj a ha))

theorem unique {t' : Node} (hr' : Rep h r t' F') : t = t' := by
  induction hr generalizing t' F' with
  | persisted hd =>
    cases hr' with
    | persisted hd' => exact hd.unique hd'
  | leaf hc =>
    cases hr' with
    | leaf hc' =>
      cases hc.symm.trans hc'
      rfl
    | branch hc' h0 =>
      cases hc.symm.trans hc'
      exact absurd rfl h0
  | branch hc h0 _ _ _ _ _ _ ihl ihr =>
    cases hr' with
    | leaf hc' =>
      cases hc.symm.trans hc'
      exact absurd rfl h0
    | branch hc' _ hl' hr' =>
      cases hc.symm.trans hc'
      rw [ihl hl', ihr hr']

end

end Rep

structure Shape (h : Heap) (r : Ref) (ht s v : Nat) (k : Bytes) (cl cr : Ref) : Prop where
  isLeaf : h.isLeaf r = some false
  key : h.key r = some k
  left : h.left r = some cl
  right : h.right r = some cr
  cell : ∀ a, r = .mem a → ∃ x hash, h[a]? = some ⟨ht, s, v, k, x, some cl, some cr, hash⟩
  clone : ∀ p, r = .persisted p → ∀ version, Heap.cloneOfPersisted p version =
    some ⟨ht, s, version, k, none, some cl, some cr, none⟩

variable {ht s v : Nat} {k : Bytes}

omit [Sha256] in
theorem Shape.congr {cl cr : Ref} (hsh : Shape h r ht s v k cl cr)
    (heq : ∀ a ∈ r.own, h'[a]? = h[a]?) : Shape h' r ht s v k cl cr := by
  obtain ⟨h1, h2, h3, h4, h5, h6⟩ := hsh
  cases r with
  | persisted p => exact ⟨h1, h2, h3, h4, by simp, h6⟩
  | mem a =>
    have ha := heq a rfl
    refine ⟨?_, ?_, ?_, ?_, ?_, by simp⟩
    · rwa [Heap.isLeaf, ha]
    · rwa [Heap.key, ha]
    · rwa [Heap.left, ha]
    · rwa [Heap.right, ha]
    · rintro b ⟨rfl⟩
      obtain ⟨x, hash, hc⟩ := h5 a rfl
      exact ⟨x, hash, ha.trans hc⟩

namespace Rep

section

variable (hr : Rep h r t F)
include hr

theorem height_eq : h.height r = some t.height := by
  cases hr with
  | persisted hd => exact hd.shows.height
  | leaf hc => rw [Heap.height, hc]; rfl
  | branch hc => rw [Heap.height, hc]; rfl

theorem size_eq : h.size r = some t.size := by
  cases hr with
  | persisted hd => exact hd.shows.size
  | leaf hc => rw [Heap.size, hc]; rfl
  | branch hc => rw [Heap.size, hc]; rfl

theorem version_eq : h.version r = some t.version := by
  cases hr with
  | persisted hd => exact hd.shows.version
  | leaf hc => rw [Heap.version, hc]; rfl
  | branch hc => rw [Heap.version, hc]; rfl

theorem key_eq : h.key r = some t.key := by
  cases hr with
  | persisted hd => exact hd.shows.key
  | leaf hc => rw [Heap.key, hc]; rfl
  | branch hc => rw [Heap.key, hc]; rfl

theorem isLeaf_eq : h.isLeaf r = some t.isLeaf := by
  cases hr with
  | persisted hd => exact hd.shows.isLeaf
  | leaf hc => rw [Heap.isLeaf, hc]; rfl
  | branch hc h0 =>
    rw [Heap.isLeaf, hc]
    simp [Node.isLeaf, h0]

end

theorem value_eq {v : Nat} {k : Bytes} {x : Slice} (hr : Rep h r (.leaf v k x) F) :
    h.value r = some x := by
  cases hr with
  | persisted hd => exact hd.2
  | leaf hc => rw [Heap.value, hc]; rfl

end Rep

omit [Sha256] in
theorem Snapshot.leafKey_of_leafKeyValue {s : Snapshot} {i : Nat} {x : Bytes}
    (hkv : s.leafKeyValue i = some (k, x)) : s.leafKey i = some k := by
  unfold Snapshot.leafKeyValue at hkv
  unfold Snapshot.leafKey
  cases hleaf : s.leaf i with
  | none => simp [hleaf] at hkv
  | some d =>
    simp only [hleaf, Option.bind_eq_bind, Option.bind_some, Option.bind_eq_some_iff] at hkv ⊢
    obtain ⟨k', hk', _, _, _, _, heq⟩ := hkv
    cases heq
    exact hk'

theorem cloneOfPersisted_leaf {p : PersistedNode} {x : Slice}
    (hd : persistedInterface.Denotes p (.leaf v k x)) (version : Nat) :
    Heap.cloneOfPersisted p version = some ⟨0, 1, version, k, x, none, none, none⟩ := by
  obtain ⟨hs, hx⟩ := hd
  have hleaf : p.isLeaf = true := Option.some.inj hs.isLeaf
  have hkey : p.snapshot.leafKey p.index = some k := by
    have := hs.key
    rwa [show persistedInterface.key p = p.key from rfl, PersistedNode.key, if_pos hleaf] at this
  have hval : (p.snapshot.leafKeyValue p.index).map (fun kv => some kv.2) = some x := by
    rwa [show persistedInterface.value p = p.value from rfl, PersistedNode.value,
      if_pos hleaf] at hx
  obtain ⟨⟨k', x'⟩, hkv, hxx⟩ := Option.map_eq_some_iff.mp hval
  have hk := Snapshot.leafKey_of_leafKeyValue hkv
  cases hk.symm.trans hkey
  subst hxx
  rw [Heap.cloneOfPersisted, if_pos hleaf, hkv]
  rfl

theorem cloneOfPersisted_branch {p pl pr : PersistedNode}
    {tl tr : Node} (hs : persistedInterface.Shows p (.branch ht s v k tl tr))
    (hl : p.left = some pl) (hr : p.right = some pr) (version : Nat) :
    Heap.cloneOfPersisted p version = some ⟨ht, s, version, k, none, some (.persisted pl),
      some (.persisted pr), none⟩ := by
  have hleaf : ¬ p.isLeaf = true := by
    have := hs.isLeaf
    intro hp
    cases (congrArg some hp).symm.trans this
  have hheight : p.branchNode.map NodeLayout.height = some ht := by
    have := hs.height
    rwa [show persistedInterface.height p = p.height from rfl, PersistedNode.height,
      if_neg hleaf] at this
  have hsize : p.branchNode.map NodeLayout.size = some s := by
    have := hs.size
    rwa [show persistedInterface.size p = p.size from rfl, PersistedNode.size,
      if_neg hleaf] at this
  have hkey : p.key = some k := hs.key
  obtain ⟨d, hd, rfl⟩ := Option.map_eq_some_iff.mp hheight
  rw [hd] at hsize
  cases hsize
  rw [Heap.cloneOfPersisted, if_neg hleaf, hd, hkey, hl, hr]
  rfl

theorem Rep.branch_inv {tl tr : Node} (hr : Rep h r (.branch ht s v k tl tr) F) :
    ∃ cl cr Fl Fr, Shape h r ht s v k cl cr ∧ Rep h cl tl Fl ∧ Rep h cr tr Fr ∧
      F = r.own ∪ (Fl ∪ Fr) ∧ (∀ a ∈ r.own, a ∉ Fl ∧ a ∉ Fr) ∧ (∀ b ∈ Fl, b ∉ Fr) ∧
      (∀ p, r = .persisted p → Fl = ∅ ∧ Fr = ∅) := by
  cases hr with
  | persisted hd =>
    obtain ⟨hs, pl, pr, hpl, hpr, hdl, hdr⟩ := hd
    refine ⟨.persisted pl, .persisted pr, ∅, ∅, ⟨hs.isLeaf, hs.key, ?_, ?_, by simp, ?_⟩,
      .persisted hdl, .persisted hdr, by simp [Ref.own], by simp [Ref.own], by simp, by simp⟩
    · exact congrArg (Option.map Ref.persisted) hpl
    · exact congrArg (Option.map Ref.persisted) hpr
    · rintro p' ⟨rfl⟩ version
      exact cloneOfPersisted_branch hs hpl hpr version
  | branch hc h0 hl hr hal har hlr hh =>
    refine ⟨_, _, _, _, ⟨?_, ?_, ?_, ?_, ?_, by simp⟩, hl, hr, rfl, ?_, hlr, by simp⟩
    · rw [Heap.isLeaf, hc]
      simp [h0]
    · rw [Heap.key, hc]
      rfl
    · rw [Heap.left, hc]
      rfl
    · rw [Heap.right, hc]
      rfl
    · rintro b ⟨rfl⟩
      exact ⟨_, _, hc⟩
    · rintro b rfl
      exact ⟨hal, har⟩

end CronosStore.Memiavl
