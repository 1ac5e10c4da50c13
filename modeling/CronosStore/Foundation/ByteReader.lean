import CronosStore.Foundation.Bytes
import CronosStore.Foundation.Results

/-!
# Reading from a stream of bytes

A reader takes bytes from the front of a stream and returns what is left. A stream that ends
before the first byte of what is read is told from one that ends within it. What was written
in front of a stream is read back, and the rest of the stream is left (`readFull_append`,
`readUvarint_append`).
-/

namespace Foundation

open List

inductive ReadError
  | eof
  | unexpectedEOF
  | overflow
deriving DecidableEq

def readByte : Bytes → Except ReadError (UInt8 × Bytes)
  | [] => .error .eof
  | b :: rest => .ok (b, rest)

def readFull (n : Nat) (b : Bytes) : Except ReadError (Bytes × Bytes) :=
  if n ≤ b.length then .ok (b.take n, b.drop n)
  else if b = [] then .error .eof
  else .error .unexpectedEOF

def readUvarintAux : Nat → Bool → Bytes → Except ReadError (Nat × Bytes)
  | 0, _, _ => .error .overflow
  | _ + 1, first, [] => .error (if first then .eof else .unexpectedEOF)
  | groups + 1, _, b :: rest =>
    if b.toNat < 128 then
      if groups = 0 ∧ b.toNat > 1 then .error .overflow else .ok (b.toNat, rest)
    else
      match readUvarintAux groups false rest with
      | .error e => .error e
      | .ok (x, rest) => .ok (b.toNat % 128 + 128 * x, rest)

def readUvarint (b : Bytes) : Except ReadError (Nat × Bytes) := readUvarintAux 10 true b

variable {n groups x : Nat} {b rest : Bytes}

theorem readFull_append {a : Bytes} (h : a.length = n) :
    readFull n (a ++ b) = .ok (a, b) := by
  rw [readFull, if_pos (by simp [h]), ← h, take_left, drop_left]

theorem readFull_ok {x : Bytes} (h : readFull n b = .ok (x, rest)) :
    b = x ++ rest ∧ x.length = n := by
  unfold readFull at h
  split_ifs at h with hle
  cases h
  exact ⟨(take_append_drop n b).symm, by rw [length_take]; omega⟩

theorem readUvarintAux_append (hx : x < 2 * 128 ^ groups) (first : Bool) (b : Bytes) :
    readUvarintAux (groups + 1) first (putUvarintAux groups x ++ b) = .ok (x, b) := by
  induction groups generalizing x first with
  | zero =>
    have hx : x < 2 := by simpa using hx
    have hb : (UInt8.ofNat x).toNat = x := by
      rw [UInt8.toNat_ofNat']
      omega
    rw [putUvarintAux, singleton_append, readUvarintAux, hb, if_pos (by omega), if_neg (by omega)]
  | succ groups ih =>
    rw [putUvarintAux]
    by_cases hlt : x < 128
    · have hb : (UInt8.ofNat x).toNat = x := by
        rw [UInt8.toNat_ofNat']
        omega
      rw [if_pos hlt, singleton_append, readUvarintAux, hb, if_pos hlt, if_neg (by omega)]
    · have hb : (UInt8.ofNat (x % 128 + 128)).toNat = x % 128 + 128 := by
        rw [UInt8.toNat_ofNat']
        omega
      have hdiv : x / 128 < 2 * 128 ^ groups := by
        rw [Nat.pow_succ] at hx
        omega
      rw [if_neg hlt, cons_append, readUvarintAux, hb, if_neg (by omega), ih hdiv]
      simp only [Except.ok.injEq, Prod.mk.injEq, and_true]
      omega

theorem readUvarint_append (hx : x < 2 ^ 64) (b : Bytes) :
    readUvarint (putUvarint x ++ b) = .ok (x, b) :=
  readUvarintAux_append (lt_of_lt_of_eq hx (by decide)) true b

theorem readUvarintAux_local {first : Bool} (h : readUvarintAux groups first b = .ok (x, rest)) :
    ∃ p, p ≠ [] ∧ b = p ++ rest ∧ ∀ c, readUvarintAux groups first (p ++ c) = .ok (x, c) := by
  induction groups generalizing first b x with
  | zero => cases h
  | succ groups ih =>
    cases b with
    | nil => cases h
    | cons d b =>
      rw [readUvarintAux] at h
      by_cases hlt : d.toNat < 128
      · rw [if_pos hlt] at h
        split_ifs at h with hover
        cases h
        refine ⟨[d], cons_ne_nil _ _, rfl, fun c => ?_⟩
        rw [singleton_append, readUvarintAux, if_pos hlt, if_neg hover]
      · rw [if_neg hlt] at h
        cases hr : readUvarintAux groups false b with
        | error e =>
          rw [hr] at h
          cases h
        | ok r =>
          rw [hr] at h
          cases h
          obtain ⟨p, -, rfl, hp⟩ := ih hr
          refine ⟨d :: p, cons_ne_nil _ _, rfl, fun c => ?_⟩
          rw [cons_append, readUvarintAux, if_neg hlt, hp]

theorem readUvarint_local (h : readUvarint b = .ok (x, rest)) :
    ∃ p, p ≠ [] ∧ b = p ++ rest ∧ ∀ c, readUvarint (p ++ c) = .ok (x, c) :=
  readUvarintAux_local h

/-- A number may be read from more bytes than it is written to, and never from fewer. -/
theorem readUvarintAux_ok {first : Bool} (h : readUvarintAux (groups + 1) first b = .ok (x, rest)) :
    x < 2 * 128 ^ groups ∧ (putUvarintAux groups x ++ rest).length ≤ b.length ∧
      (b.length ≤ (putUvarintAux groups x ++ rest).length → b = putUvarintAux groups x ++ rest) := by
  have hself : ∀ c : UInt8, UInt8.ofNat c.toNat = c := fun c => by simp
  induction groups generalizing first b x with
  | zero =>
    cases b with
    | nil => cases h
    | cons c b =>
      rw [readUvarintAux] at h
      split_ifs at h with hlt hle
      · cases h
        rw [putUvarintAux, hself]
        exact ⟨by omega, le_rfl, fun _ => rfl⟩
      · cases h
  | succ groups ih =>
    cases b with
    | nil => cases h
    | cons c b =>
      rw [readUvarintAux] at h
      by_cases hlt : c.toNat < 128
      · rw [if_pos hlt, if_neg (by omega)] at h
        cases h
        have hpow : 0 < 128 ^ groups := Nat.pow_pos (by decide)
        rw [putUvarintAux, if_pos hlt, hself, Nat.pow_succ]
        exact ⟨by omega, le_rfl, fun _ => rfl⟩
      · rw [if_neg hlt] at h
        cases hr : readUvarintAux (groups + 1) false b with
        | error e =>
          rw [hr] at h
          cases h
        | ok r =>
          obtain ⟨y, rest'⟩ := r
          rw [hr] at h
          cases h
          obtain ⟨hy, hlen, heq⟩ := ih hr
          have hc := c.toNat_lt
          rw [Nat.pow_succ]
          refine ⟨by omega, ?_⟩
          rw [putUvarintAux]
          by_cases hsmall : c.toNat % 128 + 128 * y < 128
          · -- a last group of zeros, which is not written
            obtain rfl : y = 0 := by omega
            have hput : putUvarintAux groups 0 = [UInt8.ofNat 0] := by cases groups <;> rfl
            rw [hput, length_append, length_singleton] at hlen
            rw [if_pos hsmall, length_append, length_singleton, length_cons]
            exact ⟨by omega, fun hle => by omega⟩
          · have hmod : UInt8.ofNat ((c.toNat % 128 + 128 * y) % 128 + 128) = c := by
              have hgroup : (c.toNat % 128 + 128 * y) % 128 + 128 = c.toNat := by omega
              rw [hgroup, hself]
            have hdiv : (c.toNat % 128 + 128 * y) / 128 = y := by omega
            rw [if_neg hsmall, hmod, hdiv, cons_append, length_cons, length_cons]
            exact ⟨by omega, fun hle => by rw [← heq (by omega)]⟩

theorem readUvarint_ok (h : readUvarint b = .ok (x, rest)) :
    x < 2 ^ 64 ∧ (putUvarint x ++ rest).length ≤ b.length ∧
      (b.length ≤ (putUvarint x ++ rest).length → b = putUvarint x ++ rest) := by
  obtain ⟨hx, hle, heq⟩ := readUvarintAux_ok h
  exact ⟨lt_of_lt_of_eq hx (by decide), hle, heq⟩

/-- Numbers are a prefix code. -/
theorem putUvarint_append_inj {y : Nat} {c : Bytes} (hx : x < 2 ^ 64) (hy : y < 2 ^ 64)
    (h : putUvarint x ++ b = putUvarint y ++ c) : x = y ∧ b = c := by
  have hread := readUvarint_append hx b
  rw [h, readUvarint_append hy c, Except.ok.injEq, Prod.mk.injEq] at hread
  exact ⟨hread.1.symm, hread.2.symm⟩

theorem putVarint_append_inj {y : Nat} {c : Bytes} (hx : x < 2 ^ 63) (hy : y < 2 ^ 63)
    (h : putVarint x ++ b = putVarint y ++ c) : x = y ∧ b = c := by
  rw [putVarint, putVarint, if_pos (by omega), if_pos (by omega)] at h
  obtain ⟨hxy, hbc⟩ := putUvarint_append_inj (by omega) (by omega) h
  exact ⟨by omega, hbc⟩

/-! ## The size of a number -/

def bitLen (x : Nat) : Nat := if x = 0 then 0 else x.log2 + 1

theorem bitLen_le : bitLen x ≤ n ↔ x < 2 ^ n := by
  unfold bitLen
  split_ifs with h
  · rw [h]
    exact ⟨fun _ => Nat.two_pow_pos n, fun _ => Nat.zero_le n⟩
  · rw [Nat.succ_le_iff, Nat.log2_lt h]

theorem bitLen_div (x : Nat) : bitLen (x / 128) = bitLen x - 7 := by
  apply le_antisymm
  · rw [bitLen_le]
    have hx : x < 2 ^ bitLen x := bitLen_le.mp le_rfl
    rcases le_total 7 (bitLen x) with h | h
    · rw [Nat.div_lt_iff_lt_mul (by decide), show (128 : Nat) = 2 ^ 7 from rfl, ← Nat.pow_add]
      rwa [Nat.sub_add_cancel h]
    · have : 2 ^ bitLen x ≤ 2 ^ 7 := Nat.pow_le_pow_right (by decide) h
      rw [Nat.div_eq_of_lt (by omega)]
      exact Nat.two_pow_pos _
  · have hx : x / 128 < 2 ^ bitLen (x / 128) := bitLen_le.mp le_rfl
    have hle : bitLen x ≤ bitLen (x / 128) + 7 := by
      rw [bitLen_le, Nat.pow_add]
      omega
    omega

theorem length_putUvarintAux (hx : x < 2 * 128 ^ groups) :
    (putUvarintAux groups x).length = max 1 ((bitLen x + 6) / 7) := by
  induction groups generalizing x with
  | zero =>
    have hle : bitLen x ≤ 1 := bitLen_le.mpr (by simpa using hx)
    rw [putUvarintAux, length_singleton]
    omega
  | succ groups ih =>
    rw [putUvarintAux]
    by_cases hlt : x < 128
    · have hle : bitLen x ≤ 7 := bitLen_le.mpr hlt
      rw [if_pos hlt, length_singleton]
      omega
    · have hgt : ¬bitLen x ≤ 7 := fun h => hlt (bitLen_le.mp h)
      have hdiv : x / 128 < 2 * 128 ^ groups := by
        rw [Nat.pow_succ] at hx
        omega
      rw [if_neg hlt, length_cons, ih hdiv, bitLen_div]
      omega

theorem length_putUvarint (hx : x < 2 ^ 64) :
    (putUvarint x).length = max 1 ((bitLen x + 6) / 7) :=
  length_putUvarintAux (lt_of_lt_of_eq hx (by decide))

end Foundation
