import CronosStore.Foundation.Bytes
import Mathlib.Tactic.Ring

/-!
# Decimal numbers of a fixed width

`padDecimal w n` is `n` in `w` digits with zeros in front. On numbers that fit, the order of
bytes is the order of the numbers (`padDecimal_lt`), and `parseInt` reads the number back
if it has the bits for it (`parseInt_padDecimal`).
-/

namespace Foundation

open List

def padDecimal : Nat → Nat → Bytes
  | 0, _ => []
  | w + 1, n => UInt8.ofNat (48 + n / 10 ^ w % 10) :: padDecimal w (n % 10 ^ w)

def parseDigits : Nat → Bytes → Option Nat
  | acc, [] => some acc
  | acc, c :: s =>
    if 48 ≤ c.toNat ∧ c.toNat ≤ 57 then parseDigits (10 * acc + (c.toNat - 48)) s else none

def parseUint (s : Bytes) : Option Nat := if s = [] then none else parseDigits 0 s

def parseInt (bitSize : Nat) (s : Bytes) : Option Int :=
  let signed := if s.head? = some 43 ∨ s.head? = some 45 then s.tail else s
  match parseUint signed with
  | none => none
  | some n =>
    if s.head? = some 45 then if n ≤ 2 ^ (bitSize - 1) then some (-n) else none
    else if n < 2 ^ (bitSize - 1) then some n else none

@[simp] theorem length_padDecimal (w n : Nat) : (padDecimal w n).length = w := by
  induction w generalizing n with
  | zero => rfl
  | succ w ih => simp [padDecimal, ih]

theorem toNat_digit (n : Nat) : (UInt8.ofNat (48 + n % 10)).toNat = 48 + n % 10 := by
  have : n % 10 < 10 := Nat.mod_lt _ (by omega)
  simp only [UInt8.toNat_ofNat']
  omega

theorem le_of_mem_padDecimal {w n : Nat} {c : UInt8} (h : c ∈ padDecimal w n) : c.toNat ≤ 57 := by
  induction w generalizing n with
  | zero => cases h
  | succ w ih =>
    rcases mem_cons.mp h with rfl | h
    · rw [toNat_digit]
      omega
    · exact ih h

theorem parseDigits_padDecimal (w acc n : Nat) (h : n < 10 ^ w) :
    parseDigits acc (padDecimal w n) = some (acc * 10 ^ w + n) := by
  induction w generalizing acc n with
  | zero =>
    obtain rfl : n = 0 := by simpa using h
    simp [padDecimal, parseDigits]
  | succ w ih =>
    have hdigit : n / 10 ^ w < 10 := Nat.div_lt_of_lt_mul (by rwa [Nat.pow_succ] at h)
    have hrest : n % 10 ^ w < 10 ^ w := Nat.mod_lt _ (Nat.pow_pos (by omega))
    have hrange : 48 ≤ 48 + n / 10 ^ w ∧ 48 + n / 10 ^ w ≤ 57 := ⟨Nat.le_add_right _ _, by omega⟩
    rw [padDecimal, parseDigits, toNat_digit, Nat.mod_eq_of_lt hdigit, if_pos hrange, ih _ _ hrest,
      Nat.add_sub_cancel_left]
    have hn := Nat.div_add_mod n (10 ^ w)
    congr 1
    calc (10 * acc + n / 10 ^ w) * 10 ^ w + n % 10 ^ w
        = acc * (10 ^ w * 10) + (10 ^ w * (n / 10 ^ w) + n % 10 ^ w) := by ring
      _ = acc * 10 ^ (w + 1) + n := by rw [hn, Nat.pow_succ]

theorem padDecimal_lt (w : Nat) {m n : Nat} (hmn : m < n) (hn : n < 10 ^ w) :
    padDecimal w m < padDecimal w n := by
  induction w generalizing m n with
  | zero =>
    rw [Nat.pow_zero] at hn
    omega
  | succ w ih =>
    have hdn : n / 10 ^ w < 10 := Nat.div_lt_of_lt_mul (by rwa [Nat.pow_succ] at hn)
    have hle : m / 10 ^ w ≤ n / 10 ^ w := Nat.div_le_div_right hmn.le
    rw [padDecimal, padDecimal, cons_lt_cons_iff]
    rcases hle.lt_or_eq with hlt | heq
    · left
      rw [UInt8.lt_iff_toNat_lt, toNat_digit, toNat_digit, Nat.mod_eq_of_lt hdn,
        Nat.mod_eq_of_lt (hlt.trans hdn)]
      omega
    · right
      rw [heq]
      refine ⟨rfl, ih ?_ (Nat.mod_lt _ (Nat.pow_pos (by omega)))⟩
      have hm := Nat.div_add_mod m (10 ^ w)
      have hn := Nat.div_add_mod n (10 ^ w)
      rw [heq] at hm
      omega

theorem append_lt_append_of_lt {a b : Bytes} (h : a < b) (hlen : a.length = b.length) (s t : Bytes) :
    a ++ s < b ++ t := by
  induction a generalizing b with
  | nil =>
    cases b with
    | nil => exact absurd h (lt_irrefl _)
    | cons y b => simp at hlen
  | cons x a ih =>
    cases b with
    | nil => simp at hlen
    | cons y b =>
      rw [cons_lt_cons_iff] at h
      rw [cons_append, cons_append, cons_lt_cons_iff]
      rcases h with hlt | ⟨heq, hrest⟩
      · exact .inl hlt
      · exact .inr ⟨heq, ih hrest (Nat.succ.inj hlen)⟩

theorem padDecimal_inj {w m n : Nat} (hm : m < 10 ^ w) (hn : n < 10 ^ w)
    (h : padDecimal w m = padDecimal w n) : m = n := by
  rcases Nat.lt_trichotomy m n with hlt | heq | hlt
  · exact absurd h (padDecimal_lt w hlt hn).ne
  · exact heq
  · exact absurd h.symm (padDecimal_lt w hlt hm).ne

/-- A padded number is read back if it has the bits for it, and refused otherwise. -/
theorem parseInt_padDecimal {bitSize w n : Nat} (hw : 0 < w) (h : n < 10 ^ w) :
    parseInt bitSize (padDecimal w n) = if n < 2 ^ (bitSize - 1) then some (n : Int) else none := by
  obtain ⟨w, rfl⟩ := Nat.exists_eq_add_one_of_ne_zero hw.ne'
  have hdigit := toNat_digit (n / 10 ^ w)
  have hsign : ∀ c : UInt8, c.toNat < 48 → (padDecimal (w + 1) n).head? ≠ some c := by
    intro c hc heq
    cases heq
    omega
  have hp : parseUint (padDecimal (w + 1) n) = some n := by
    have hne : padDecimal (w + 1) n ≠ [] := cons_ne_nil _ _
    rw [parseUint, if_neg hne, parseDigits_padDecimal (w + 1) 0 n h,
      Nat.zero_mul, Nat.zero_add]
  unfold parseInt
  simp only [hsign 43 (by decide), hsign 45 (by decide), or_self, if_false, hp]

end Foundation
