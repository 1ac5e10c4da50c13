import Mathlib.Algebra.Order.Ring.Int
import Mathlib.Data.List.Basic

/-!
# Post-order listings of full binary trees

A listing is read with a stack of the trees that have no parent yet: a leaf is pushed, and a branch
takes the two trees on top. Whether a label is one of a leaf is told by the label. The stack holds the
trees whose listings have been read, one after the other (`listing_foldlM_shift`), and a single tree is
left just after its own listing (`foldlM_shift_eq_singleton`).
-/

namespace Foundation

open List

inductive FullTree (α : Type) where
  | leaf (a : α)
  | branch (a : α) (left right : FullTree α)

namespace FullTree

variable {α : Type}

def postOrder : FullTree α → List α
  | .leaf a => [a]
  | .branch a l r => l.postOrder ++ r.postOrder ++ [a]

def numLeaves : FullTree α → Nat
  | .leaf _ => 1
  | .branch _ l r => l.numLeaves + r.numLeaves

def Labelled (isLeaf : α → Bool) : FullTree α → Prop
  | .leaf a => isLeaf a = true
  | .branch a l r => isLeaf a = false ∧ l.Labelled isLeaf ∧ r.Labelled isLeaf

def shift (isLeaf : α → Bool) (stack : List (FullTree α)) (a : α) : Option (List (FullTree α)) :=
  if isLeaf a then some (.leaf a :: stack)
  else
    match stack with
    | r :: l :: stack => some (.branch a l r :: stack)
    | _ => none

def listing : List (FullTree α) → List α
  | [] => []
  | t :: stack => listing stack ++ t.postOrder

variable {isLeaf : α → Bool}

theorem numLeaves_pos (t : FullTree α) : 0 < t.numLeaves := by
  induction t with
  | leaf a => exact Nat.one_pos
  | branch a l r ihl _ => exact Nat.add_pos_left ihl _

theorem shift_eq_some {stack stack' : List (FullTree α)} {a : α} (h : shift isLeaf stack a = some stack')
    (hstack : ∀ t ∈ stack, t.Labelled isLeaf) :
    listing stack' = listing stack ++ [a] ∧ ∀ t ∈ stack', t.Labelled isLeaf := by
  unfold shift at h
  by_cases ha : isLeaf a = true
  · rw [if_pos ha] at h
    cases h
    exact ⟨rfl, forall_mem_cons.mpr ⟨ha, hstack⟩⟩
  · rw [if_neg ha] at h
    match stack, h with
    | r :: l :: stack, h =>
      cases h
      obtain ⟨hr, hstack⟩ := forall_mem_cons.mp hstack
      obtain ⟨hl, hstack⟩ := forall_mem_cons.mp hstack
      refine ⟨?_, forall_mem_cons.mpr ⟨⟨Bool.eq_false_iff.mpr ha, hl, hr⟩, hstack⟩⟩
      simp only [listing, postOrder, append_assoc]

variable {t : FullTree α} {xs : List α}

theorem foldlM_shift_postOrder (ht : t.Labelled isLeaf) (stack : List (FullTree α)) :
    t.postOrder.foldlM (shift isLeaf) stack = some (t :: stack) := by
  induction t generalizing stack with
  | leaf a =>
    have ha : isLeaf a = true := ht
    simp [postOrder, shift, ha]
  | branch a l r ihl ihr =>
    obtain ⟨ha, hl, hr⟩ := ht
    rw [postOrder, foldlM_append, foldlM_append, ihl hl]
    simp [ihr hr, shift, ha]

theorem listing_foldlM_shift {stack stack' : List (FullTree α)}
    (h : xs.foldlM (shift isLeaf) stack = some stack') (hstack : ∀ t ∈ stack, t.Labelled isLeaf) :
    listing stack' = listing stack ++ xs ∧ ∀ t ∈ stack', t.Labelled isLeaf := by
  induction xs generalizing stack with
  | nil =>
    cases h
    exact ⟨(append_nil _).symm, hstack⟩
  | cons a xs ih =>
    rw [foldlM_cons, Option.bind_eq_bind, Option.bind_eq_some_iff] at h
    obtain ⟨stack1, hshift, hxs⟩ := h
    obtain ⟨hlist, hstack1⟩ := shift_eq_some hshift hstack
    obtain ⟨hlist', hstack'⟩ := ih hxs hstack1
    refine ⟨?_, hstack'⟩
    rw [hlist', hlist, append_assoc, singleton_append]

theorem foldlM_shift_eq_singleton :
    xs.foldlM (shift isLeaf) [] = some [t] ↔ t.Labelled isLeaf ∧ xs = t.postOrder := by
  constructor
  · intro h
    obtain ⟨hlist, hlabelled⟩ := listing_foldlM_shift h (by simp)
    exact ⟨hlabelled t (mem_singleton.mpr rfl), hlist.symm⟩
  · rintro ⟨ht, rfl⟩
    exact foldlM_shift_postOrder ht []

theorem foldlM_shift_eq_nil : xs.foldlM (shift isLeaf) [] = some [] ↔ xs = [] := by
  constructor
  · intro h
    exact (listing_foldlM_shift h (by simp)).1.symm
  · rintro rfl
    rfl

theorem countP_postOrder (ht : t.Labelled isLeaf) :
    t.postOrder.countP isLeaf = t.numLeaves := by
  induction t with
  | leaf a => exact countP_singleton.trans (if_pos ht)
  | branch a l r ihl ihr =>
    obtain ⟨ha, hl, hr⟩ := ht
    simp [postOrder, numLeaves, countP_append, ihl hl, ihr hr, ha]

end FullTree

end Foundation
