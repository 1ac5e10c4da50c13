import Mathlib.Algebra.Order.Ring.Int
import Mathlib.Data.List.Lex

/-!
# Byte strings

Byte strings are lists of `UInt8`, compared byte by byte with a proper prefix first.
Fixed-width integers are stored with the low byte first (`putLE`, `readLE`), and
variable-width ones as seven bits a byte, low group first (`putUvarint`).
`slice` is the bounds-checked subrange `b[lo:hi]`; a file made of records of one size
is read record by record with it (`slice_flatMap`).
-/

namespace Foundation

open List

abbrev Bytes := List UInt8

instance instLinearOrderUInt8 : LinearOrder UInt8 where
  le_refl := UInt8.le_refl
  le_trans _ _ _ := UInt8.le_trans
  le_antisymm _ _ := UInt8.le_antisymm
  le_total := UInt8.le_total
  lt_iff_le_not_ge a b := by
    simp only [UInt8.lt_iff_toNat_lt, UInt8.le_iff_toNat_le]
    omega
  toDecidableLE := inferInstance
  toDecidableLT := inferInstance
  toDecidableEq := inferInstance

/-! ## Integers as bytes -/

def putLE : Nat → Nat → Bytes
  | 0, _ => []
  | n + 1, x => UInt8.ofNat x :: putLE n (x / 256)

def readLE : Bytes → Nat
  | [] => 0
  | b :: bs => b.toNat + 256 * readLE bs

@[simp] theorem length_putLE (n x : Nat) : (putLE n x).length = n := by
  induction n generalizing x with
  | zero => rfl
  | succ n ih => simp [putLE, ih]

@[simp] theorem drop_putLE {m n : Nat} (h : n ≤ m) (x : Nat) : (putLE n x).drop m = [] :=
  drop_eq_nil_of_le (by rwa [length_putLE])

@[simp] theorem take_putLE {m n : Nat} (h : n ≤ m) (x : Nat) : (putLE n x).take m = putLE n x :=
  take_of_length_le (by rwa [length_putLE])

theorem readLE_putLE (n x : Nat) : readLE (putLE n x) = x % 256 ^ n := by
  induction n generalizing x with
  | zero => simp [putLE, readLE, Nat.mod_one]
  | succ n ih =>
    have hb : (UInt8.ofNat x).toNat = x % 256 := by simp
    rw [putLE, readLE, ih, hb, Nat.pow_succ, Nat.mul_comm (256 ^ n) 256, Nat.mod_mul]

variable {b c : Bytes}

theorem readLE_inj (hlen : b.length = c.length) (h : readLE b = readLE c) : b = c := by
  induction b generalizing c with
  | nil => exact (length_eq_zero_iff.mp hlen.symm).symm
  | cons x b ih =>
    cases c with
    | nil => cases hlen
    | cons y c =>
      have hx := x.toNat_lt
      have hy := y.toNat_lt
      rw [readLE, readLE] at h
      have hxy : x = y := UInt8.toNat_inj.mp (by omega)
      rw [hxy, ih (Nat.succ_inj.mp hlen) (by omega)]

theorem readLE_lt (b : Bytes) : readLE b < 256 ^ b.length := by
  induction b with
  | nil => decide
  | cons x b ih =>
    have hx := x.toNat_lt
    rw [readLE, length_cons, Nat.pow_succ]
    omega

theorem readLE_take_lt (n : Nat) (b : Bytes) : readLE (b.take n) < 256 ^ n := by
  apply lt_of_lt_of_le (readLE_lt _)
  exact Nat.pow_le_pow_right (by decide) (length_take_le _ _)

/-- Seven bits a byte, low group first, the high bit set on every byte but the last.
At most `fuel + 1` groups are written. -/
def putUvarintAux : Nat → Nat → Bytes
  | 0, x => [UInt8.ofNat x]
  | fuel + 1, x =>
    if x < 128 then [UInt8.ofNat x]
    else UInt8.ofNat (x % 128 + 128) :: putUvarintAux fuel (x / 128)

def putUvarint (x : Nat) : Bytes := putUvarintAux 9 x

def putVarint (x : Int) : Bytes :=
  putUvarint (if 0 ≤ x then 2 * x.toNat else 2 * (-x).toNat - 1)

/-- `b[lo:hi]`, with no result out of range. -/
def slice (b : Bytes) (lo hi : Nat) : Option Bytes :=
  if lo ≤ hi ∧ hi ≤ b.length then some ((b.drop lo).take (hi - lo)) else none

theorem length_of_slice {lo hi : Nat} (h : slice b lo hi = some c) :
    lo + c.length = hi := by
  unfold slice at h
  split_ifs at h with hle
  cases h
  rw [length_take, length_drop]
  omega

theorem slice_append_mid (a b c : Bytes) :
    slice (a ++ b ++ c) a.length (a.length + b.length) = some b := by
  have h : a.length ≤ a.length + b.length ∧ a.length + b.length ≤ (a ++ b ++ c).length := by
    simp
  rw [slice, if_pos h]
  simp [append_assoc]

/-- A range given by a split of the string into before, range and after. -/
theorem slice_eq_of_split {s a : Bytes} {lo hi : Nat} (h : s = a ++ b ++ c)
    (hlo : lo = a.length) (hhi : hi = lo + b.length) : slice s lo hi = some b := by
  subst h hlo hhi
  exact slice_append_mid a b c

section Records

variable {α : Type} {f : α → Bytes} {n : Nat}

theorem length_flatMap_const (hf : ∀ a, (f a).length = n) (l : List α) :
    (l.flatMap f).length = l.length * n := by
  induction l with
  | nil => simp
  | cons a l ih => simp [ih, hf, Nat.succ_mul, Nat.add_comm]

theorem slice_flatMap (hf : ∀ a, (f a).length = n) {l : List α} {i : Nat} {a : α}
    (hi : l[i]? = some a) : slice (l.flatMap f) (i * n) (i * n + n) = some (f a) := by
  obtain ⟨hlt, rfl⟩ := List.getElem?_eq_some_iff.mp hi
  have hsplit : (l.take i ++ [l[i]] ++ l.drop (i + 1)).flatMap f = l.flatMap f := by simp
  refine slice_eq_of_split (b := f l[i]) (a := (l.take i).flatMap f)
    (c := (l.drop (i + 1)).flatMap f) ?_ ?_ ?_
  · rw [← hsplit, flatMap_append, flatMap_append, flatMap_singleton]
  · rw [length_flatMap_const hf, length_take, Nat.min_eq_left hlt.le]
  · rw [hf]

end Records

end Foundation
