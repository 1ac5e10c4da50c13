import CronosStore.Memiavl.Invariant

/-!
# The `Node` interface

The `Node` interface of `memiavl/node.go`: the questions both `MemNode` and
`PersistedNode` answer. An answer of `none` is a call that panics. `Denotes` says that a
node of some implementation, navigated with `Left` and `Right`, is the tree `t`: the same
shape, and the same height, size, version, key, value and hash at corresponding nodes.
Code that reads trees through the interface is written against it, so what is proved of
that code holds for nodes in memory, for nodes of a snapshot and for mixtures of them.
-/

namespace CronosStore.Memiavl

open Foundation

structure NodeInterface (N : Type) where
  height : N → Option Nat
  isLeaf : N → Option Bool
  size : N → Option Nat
  version : N → Option Nat
  key : N → Option Bytes
  value : N → Option Slice
  left : N → Option N
  right : N → Option N
  hash : N → Option Bytes

namespace NodeInterface

variable {N : Type} [Sha256] (I : NodeInterface N)

structure Shows (n : N) (t : Node) : Prop where
  isLeaf : I.isLeaf n = some t.isLeaf
  height : I.height n = some t.height
  size : I.size n = some t.size
  version : I.version n = some t.version
  key : I.key n = some t.key
  hash : I.hash n = some t.hashNode

def Denotes (n : N) : Node → Prop
  | .leaf v k x => I.Shows n (.leaf v k x) ∧ I.value n = some x
  | .branch h s v k l r =>
    I.Shows n (.branch h s v k l r) ∧
      ∃ nl nr, I.left n = some nl ∧ I.right n = some nr ∧ Denotes nl l ∧ Denotes nr r

def RootDenotes (root : Option N) (t : Option Node) : Prop :=
  match root, t with
  | none, none => True
  | some n, some t => I.Denotes n t
  | _, _ => False

def read : Nat → N → Option Node
  | 0, _ => none
  | depth + 1, n => do
    if ← I.isLeaf n then
      pure (.leaf (← I.version n) (← I.key n) (← I.value n))
    else
      pure (.branch (← I.height n) (← I.size n) (← I.version n) (← I.key n)
        (← read depth (← I.left n)) (← read depth (← I.right n)))

variable {I : NodeInterface N} {n : N} {t : Node}

theorem Denotes.shows (h : I.Denotes n t) :
    I.Shows n t := by
  cases t with
  | leaf => exact h.1
  | branch => exact h.1

theorem Denotes.unique {t' : Node} (h : I.Denotes n t) (h' : I.Denotes n t') : t = t' := by
  induction t generalizing n t' with
  | leaf v k x =>
    obtain ⟨hs, hx⟩ := h
    cases t' with
    | leaf v' k' x' =>
      obtain ⟨hs', hx'⟩ := h'
      have hv : v = v' := Option.some.inj (hs.version.symm.trans hs'.version)
      have hk : k = k' := Option.some.inj (hs.key.symm.trans hs'.key)
      have hxx : x = x' := Option.some.inj (hx.symm.trans hx')
      rw [hv, hk, hxx]
    | branch h s v' k' l r => cases hs.isLeaf.symm.trans h'.1.isLeaf
  | branch hh s v k l r ihl ihr =>
    obtain ⟨hs, nl, nr, hl, hr, hdl, hdr⟩ := h
    cases t' with
    | leaf v' k' x' => cases hs.isLeaf.symm.trans h'.1.isLeaf
    | branch hh' s' v' k' l' r' =>
      obtain ⟨hs', nl', nr', hl', hr', hdl', hdr'⟩ := h'
      cases hl.symm.trans hl'
      cases hr.symm.trans hr'
      have h1 : hh = hh' := Option.some.inj (hs.height.symm.trans hs'.height)
      have h2 : s = s' := Option.some.inj (hs.size.symm.trans hs'.size)
      have h3 : v = v' := Option.some.inj (hs.version.symm.trans hs'.version)
      have h4 : k = k' := Option.some.inj (hs.key.symm.trans hs'.key)
      rw [h1, h2, h3, h4, ihl hdl hdl', ihr hdr hdr']

/-- The rule for a recursion that goes down by a depth which the height of the tree bounds. -/
theorem Denotes.depth_induction {motive : Nat → N → Node → Prop}
    (leaf : ∀ {depth : Nat} {n : N} {v : Nat} {k : Bytes} {x : Slice}, I.Shows n (.leaf v k x) →
      I.value n = some x → motive (depth + 1) n (.leaf v k x))
    (branch : ∀ {depth : Nat} {n nl nr : N} {ht s v : Nat} {k : Bytes} {l r : Node},
      I.Shows n (.branch ht s v k l r) → I.left n = some nl → I.right n = some nr →
      motive depth nl l → motive depth nr r → motive (depth + 1) n (.branch ht s v k l r)) (h : I.Denotes n t) (hb : t.Balanced) {depth : Nat} (hdepth : t.height < depth) :
    motive depth n t := by
  induction t generalizing n depth with
  | leaf v k x =>
    obtain ⟨hs, hx⟩ := h
    cases depth with
    | zero => omega
    | succ depth => exact leaf hs hx
  | branch ht s v k l r ihl ihr =>
    obtain ⟨hs, nl, nr, hl, hr, hdl, hdr⟩ := h
    obtain ⟨hbl, hbr, hh, -, -⟩ := hb
    rw [Node.height_branch] at hdepth
    cases depth with
    | zero => omega
    | succ depth => exact branch hs hl hr (ihl hdl hbl (by omega)) (ihr hdr hbr (by omega))

theorem Denotes.read_eq (h : I.Denotes n t)
    (hb : t.Balanced) {depth : Nat} (hdepth : t.height < depth) : I.read depth n = some t := by
  refine h.depth_induction (motive := fun depth n t => I.read depth n = some t) ?_ ?_ hb hdepth
  · intro depth n v k x hs hx
    simp only [read, hs.isLeaf, hs.version, hs.key, hx, Option.bind_eq_bind, Option.bind_some,
      Option.pure_def, Node.isLeaf, if_true, Node.version, Node.key]
  · intro depth n nl nr ht s v k l r hs hl hr ihl ihr
    simp only [read, hs.isLeaf, hs.height, hs.size, hs.version, hs.key, hl, hr, ihl, ihr,
      Option.bind_eq_bind, Option.bind_some, Option.pure_def, Node.isLeaf, Bool.false_eq_true,
      if_false, Node.height, Node.size, Node.version, Node.key]

end NodeInterface

end CronosStore.Memiavl
