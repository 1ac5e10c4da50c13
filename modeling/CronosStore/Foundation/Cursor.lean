import Mathlib.Algebra.Order.Ring.Int
import Mathlib.Data.List.Basic

/-!
# Cursors

A cursor stands on an entry of a list or is invalid. What is ahead of it in one of the two
directions is a list (`forward`, `backward`), and a move in that direction takes its head off.
Over entries that are sorted by a key, a search gives the entries that are not below the wanted
key, and a step back from there the ones that are.
-/

namespace Foundation

open List

/-! ## Predicates that change at most once along a list -/

section Monotone

variable {α : Type} {p : α → Bool} {l : List α}

theorem takeWhile_eq_filter (h : l.Pairwise fun a b => p b → p a) : l.takeWhile p = l.filter p := by
  induction l with
  | nil => rfl
  | cons a l ih =>
    obtain ⟨ha, hl⟩ := pairwise_cons.mp h
    by_cases hp : p a = true
    · rw [takeWhile_cons_of_pos hp, filter_cons_of_pos hp, ih hl]
    · rw [takeWhile_cons_of_neg hp, filter_cons_of_neg hp, eq_comm, filter_eq_nil_iff]
      exact fun b hb hpb => hp (ha b hb hpb)

theorem drop_findIdx (h : l.Pairwise fun a b => p a → p b) : l.drop (l.findIdx p) = l.filter p := by
  induction l with
  | nil => rfl
  | cons a l ih =>
    obtain ⟨ha, hl⟩ := pairwise_cons.mp h
    by_cases hp : p a = true
    · rw [findIdx_cons, hp, cond_true, drop_zero, eq_comm, filter_eq_self]
      exact forall_mem_cons.mpr ⟨hp, fun b hb => ha b hb hp⟩
    · rw [findIdx_cons, eq_false_of_ne_true hp, cond_false, drop_succ_cons, ih hl,
        filter_cons_of_neg hp]

theorem take_findIdx (h : l.Pairwise fun a b => p a → p b) :
    l.take (l.findIdx p) = l.filter fun a => !p a := by
  induction l with
  | nil => rfl
  | cons a l ih =>
    obtain ⟨ha, hl⟩ := pairwise_cons.mp h
    by_cases hp : p a = true
    · rw [findIdx_cons, hp, cond_true, take_zero, eq_comm, filter_eq_nil_iff]
      exact forall_mem_cons.mpr ⟨by simp [hp], fun b hb => by simp [ha b hb hp]⟩
    · rw [findIdx_cons, eq_false_of_ne_true hp, cond_false, take_succ_cons, ih hl,
        filter_cons_of_pos (by simp [hp])]

end Monotone

structure Cursor (α : Type) where
  entries : List α
  pos : Option (Fin entries.length)

namespace Cursor

variable {α K : Type} [LinearOrder K] (key : α → K) (c : Cursor α)

def current : Option α := c.pos.map c.entries.get

def goto (i : Nat) : Cursor α :=
  { c with pos := if h : i < c.entries.length then some ⟨i, h⟩ else none }

def seekToFirst : Cursor α := c.goto 0

def seekToLast : Cursor α := c.goto (c.entries.length - 1)

def seek (k : K) : Cursor α := c.goto (c.entries.findIdx fun e => k ≤ key e)

def next : Cursor α :=
  match c.pos with
  | none => c
  | some i => c.goto (i + 1)

def prev : Cursor α :=
  match c.pos with
  | none => c
  | some ⟨0, _⟩ => { c with pos := none }
  | some ⟨i + 1, _⟩ => c.goto i

def forward : List α :=
  match c.pos with
  | none => []
  | some i => c.entries.drop i

def backward : List α :=
  match c.pos with
  | none => []
  | some i => (c.entries.take (i + 1)).reverse

variable {c} {key}

theorem forward_goto (i : Nat) : (c.goto i).forward = c.entries.drop i := by
  by_cases h : i < c.entries.length
  · simp [goto, forward, h]
  · simp [goto, forward, h, drop_eq_nil_of_le (Nat.le_of_not_lt h)]

theorem backward_goto {i : Nat} (h : i < c.entries.length) :
    (c.goto i).backward = (c.entries.take (i + 1)).reverse := by
  simp [goto, backward, h]

theorem current_eq_head?_forward : c.current = c.forward.head? := by
  obtain ⟨entries, pos⟩ := c
  cases pos with
  | none => rfl
  | some i => simp [current, forward, head?_drop]

theorem current_eq_head?_backward : c.current = c.backward.head? := by
  obtain ⟨entries, pos⟩ := c
  cases pos with
  | none => rfl
  | some i =>
    have hi := i.isLt
    simp [current, backward, getLast?_take]

theorem forward_next : c.next.forward = c.forward.tail := by
  obtain ⟨entries, pos⟩ := c
  cases pos with
  | none => rfl
  | some i =>
    rw [next, forward_goto]
    simp [forward]

theorem tail_reverse_take {l : List α} {i : Nat} (h : i < l.length) :
    (l.take (i + 1)).reverse.tail = (l.take i).reverse := by
  rw [take_succ_eq_append_getElem h, reverse_append]
  rfl

theorem backward_prev : c.prev.backward = c.backward.tail := by
  obtain ⟨entries, pos⟩ := c
  match pos with
  | none => rfl
  | some ⟨0, h⟩ =>
    simp only [prev, backward]
    rw [tail_reverse_take h]
    rfl
  | some ⟨i + 1, h⟩ =>
    rw [prev, backward_goto (by simp only; omega)]
    simp only [backward]
    rw [tail_reverse_take h]

theorem forward_seekToFirst : c.seekToFirst.forward = c.entries := forward_goto 0

theorem backward_seekToLast : c.seekToLast.backward = c.entries.reverse := by
  unfold seekToLast
  by_cases h : c.entries = []
  · simp [goto, backward, h]
  · have hpos := length_pos_iff.mpr h
    rw [backward_goto (by omega), Nat.sub_add_cancel hpos, take_length]

/-! ## Searching in sorted entries -/

variable (h : c.entries.Pairwise fun a b => key a < key b)
include h

theorem pairwise_le (k : K) :
    c.entries.Pairwise fun a b => decide (k ≤ key a) = true → decide (k ≤ key b) = true :=
  h.imp fun hab ha => decide_eq_true ((of_decide_eq_true ha).trans hab.le)

theorem forward_seek (k : K) : (c.seek key k).forward = c.entries.filter fun e => k ≤ key e := by
  rw [seek, forward_goto, drop_findIdx (pairwise_le h k)]

variable {k : K}

/-- The last entry below a key is before the first one that is not. -/
theorem backward_prev_seek {e : α} (he : (c.seek key k).current = some e) :
    (c.seek key k).prev.backward = (c.entries.filter fun e => !decide (k ≤ key e)).reverse := by
  have hlt : (c.entries.findIdx fun e => decide (k ≤ key e)) < c.entries.length := by
    by_contra hge
    rw [current_eq_head?_forward, seek, forward_goto, drop_eq_nil_of_le (Nat.le_of_not_lt hge)] at he
    cases he
  rw [backward_prev, seek, backward_goto hlt, tail_reverse_take hlt, take_findIdx (pairwise_le h k)]

theorem filter_of_seek_eq_none (hnone : (c.seek key k).current = none) :
    (c.entries.filter fun e => !decide (k ≤ key e)) = c.entries := by
  rw [current_eq_head?_forward, forward_seek h, head?_eq_none_iff, filter_eq_nil_iff] at hnone
  rw [filter_eq_self]
  intro e he
  simpa using hnone e he

theorem le_of_seek {e : α} (he : (c.seek key k).current = some e) : k ≤ key e := by
  rw [current_eq_head?_forward, forward_seek h] at he
  exact of_decide_eq_true (mem_filter.mp (mem_of_head? he)).2

end Cursor

end Foundation
