import Mathlib.Algebra.Order.Ring.Int

/-!
# Logs with consecutive indices

A log numbers its entries from 1. Entries are appended at the end with the next index, and
the log can be cut at both ends; the numbers of the entries that stay do not change. It is
kept as the number of entries that were dropped in front and the list of the others. A
log never becomes empty by a cut, so an empty log has dropped nothing, and its first and
last index are 0.
-/

namespace Foundation

open List

structure IndexedLog (α : Type) where
  dropped : Nat
  entries : List α
  dropped_eq_zero : entries = [] → dropped = 0
deriving DecidableEq

namespace IndexedLog

variable {α : Type}

def empty : IndexedLog α := ⟨0, [], fun _ => rfl⟩

section

variable (l : IndexedLog α)

def lastIndex : Nat := l.dropped + l.entries.length

def firstIndex : Nat := if l.entries = [] then 0 else l.dropped + 1

def read (index : Nat) : Option α :=
  if index ≤ l.dropped then none else l.entries[index - l.dropped - 1]?

def append (a : α) : IndexedLog α where
  dropped := l.dropped
  entries := l.entries ++ [a]
  dropped_eq_zero h := by simp at h

def writeBatch (l : IndexedLog α) : List (Nat × α) → Option (IndexedLog α)
  | [] => some l
  | (index, a) :: batch => if index = l.lastIndex + 1 then (l.append a).writeBatch batch else none

def InRange (index : Nat) : Prop :=
  index ≠ 0 ∧ l.firstIndex ≤ index ∧ index ≤ l.lastIndex

end

instance (l : IndexedLog α) (index : Nat) : Decidable (l.InRange index) :=
  inferInstanceAs (Decidable (_ ∧ _ ∧ _))

variable {l l' : IndexedLog α} {index : Nat}

theorem InRange.lt (h : l.InRange index) :
    l.dropped < index ∧ index - l.dropped - 1 < l.entries.length := by
  obtain ⟨h0, h1, h2⟩ := h
  unfold firstIndex at h1
  unfold lastIndex at h2
  split_ifs at h1 with he
  · have hd := l.dropped_eq_zero he
    rw [he, length_nil] at h2
    omega
  · omega

def truncateFront (l : IndexedLog α) (index : Nat) : Option (IndexedLog α) :=
  if h : l.InRange index then
    some ⟨index - 1, l.entries.drop (index - 1 - l.dropped), fun he => by
      have := h.lt
      rw [drop_eq_nil_iff] at he
      omega⟩
  else none

def truncateBack (l : IndexedLog α) (index : Nat) : Option (IndexedLog α) :=
  if h : l.InRange index then
    some ⟨l.dropped, l.entries.take (index - l.dropped), fun he => by
      have := h.lt
      rw [take_eq_nil_iff, ← length_eq_zero_iff] at he
      omega⟩
  else none

@[simp] theorem lastIndex_empty : (empty : IndexedLog α).lastIndex = 0 := rfl

@[simp] theorem lastIndex_append (l : IndexedLog α) (a : α) :
    (l.append a).lastIndex = l.lastIndex + 1 := by
  simp only [lastIndex, append, length_append, length_singleton]
  omega

@[simp] theorem dropped_append (l : IndexedLog α) (a : α) : (l.append a).dropped = l.dropped := rfl

theorem dropped_le_lastIndex (l : IndexedLog α) : l.dropped ≤ l.lastIndex := Nat.le_add_right _ _

theorem read_isSome_iff :
    (l.read index).isSome ↔ l.dropped < index ∧ index ≤ l.lastIndex := by
  unfold read lastIndex
  split_ifs with h
  · simp only [Option.isSome_none, Bool.false_eq_true, false_iff]
    omega
  · rw [isSome_getElem?]
    omega

theorem read_eq_none (h : l.lastIndex < index) :
    l.read index = none := by
  rw [← Option.not_isSome_iff_eq_none, read_isSome_iff]
  omega

theorem inRange_iff :
    l.InRange index ↔ l.dropped < index ∧ index ≤ l.lastIndex := by
  constructor
  · exact fun h => ⟨h.lt.1, h.2.2⟩
  · rintro ⟨h1, h2⟩
    refine ⟨by omega, ?_, h2⟩
    unfold firstIndex
    split_ifs <;> omega

theorem writeBatch_eq_some {batch : List (Nat × α)} (h : l.writeBatch batch = some l') :
    l'.dropped = l.dropped ∧ l'.lastIndex = l.lastIndex + batch.length := by
  induction batch generalizing l with
  | nil =>
    cases h
    exact ⟨rfl, rfl⟩
  | cons e batch ih =>
    rw [writeBatch] at h
    split_ifs at h
    obtain ⟨hd, hl⟩ := ih h
    rw [lastIndex_append] at hl
    exact ⟨hd, by rw [hl, length_cons]; omega⟩

theorem read_append_of_le {a : α} (h : index ≤ l.lastIndex) :
    (l.append a).read index = l.read index := by
  unfold lastIndex at h
  unfold read append
  by_cases hd : index ≤ l.dropped
  · rw [if_pos hd, if_pos hd]
  · rw [if_neg hd, if_neg hd, getElem?_append_left (show index - l.dropped - 1 < _ by omega)]

theorem read_append_self {a : α} :
    (l.append a).read (l.lastIndex + 1) = some a := by
  unfold read lastIndex append
  rw [if_neg (by simp only; omega)]
  simp only [show l.dropped + l.entries.length + 1 - l.dropped - 1 = l.entries.length by omega,
    getElem?_concat_length]

theorem truncateFront_eq_some (h : l.truncateFront index = some l') :
    l'.lastIndex = l.lastIndex ∧ l'.dropped = index - 1 ∧ l.dropped ≤ l'.dropped ∧
      ∀ i, index ≤ i → l'.read i = l.read i := by
  unfold truncateFront at h
  split_ifs at h with hr
  cases h
  obtain ⟨hd, hl⟩ := inRange_iff.mp hr
  unfold lastIndex at *
  refine ⟨?_, rfl, ?_, fun i hi => ?_⟩
  · simp only [length_drop]
    omega
  · simp only
    omega
  · unfold read
    simp only
    rw [if_neg (show ¬i ≤ index - 1 by omega), if_neg (show ¬i ≤ l.dropped by omega),
      getElem?_drop]
    congr 1
    omega

theorem truncateBack_eq_some (h : l.truncateBack index = some l') :
    l'.lastIndex = index ∧ l'.dropped = l.dropped ∧ ∀ i, i ≤ index → l'.read i = l.read i := by
  unfold truncateBack at h
  split_ifs at h with hr
  cases h
  obtain ⟨hd, hl⟩ := inRange_iff.mp hr
  unfold lastIndex at *
  refine ⟨?_, rfl, fun i hi => ?_⟩
  · simp only [length_take]
    omega
  · unfold read
    simp only
    split_ifs with hi'
    · rfl
    · rw [getElem?_take_of_lt (by omega)]

theorem truncateBack_lastIndex (h : l.InRange l.lastIndex) :
    l.truncateBack l.lastIndex = some l := by
  obtain ⟨dropped, entries, hz⟩ := l
  have htake : entries.take (dropped + entries.length - dropped) = entries :=
    take_of_length_le (by omega)
  rw [truncateBack, dif_pos h]
  simp only [lastIndex, htake]

theorem truncateBack_isSome (h : l.InRange index) :
    ∃ l', l.truncateBack index = some l' := ⟨_, dif_pos h⟩

end IndexedLog

end Foundation
