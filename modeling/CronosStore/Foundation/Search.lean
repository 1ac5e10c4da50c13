import Mathlib.Algebra.Order.Ring.Int

/-!
# Binary search

`sort.Search` of Go: halve an interval until it is empty, going left where the predicate
holds. For a monotone predicate the result is the first position where it holds
(`search_spec`). `searchM` is the same search with a predicate that may fail to answer.
-/

namespace Foundation

def searchLoop (f : Nat → Bool) : Nat → Nat → Nat → Nat
  | 0, i, _ => i
  | fuel + 1, i, j =>
    if i < j then
      let h := (i + j) / 2
      if f h then searchLoop f fuel i h else searchLoop f fuel (h + 1) j
    else i

def search (n : Nat) (f : Nat → Bool) : Nat := searchLoop f n 0 n

variable {f : Nat → Bool} {n : Nat}

/-- What the loop keeps: nothing holds below the interval, and everything from its end on. -/
theorem searchLoop_spec (hmono : ∀ i j, f i = true → i ≤ j → j < n → f j = true) {fuel i j : Nat}
    (hfuel : j - i ≤ fuel) (hij : i ≤ j) (hj : j ≤ n) (hlow : ∀ k < i, f k = false)
    (hhigh : ∀ k, j ≤ k → k < n → f k = true) :
    searchLoop f fuel i j ≤ n ∧ (∀ k < searchLoop f fuel i j, f k = false) ∧
      ∀ k, searchLoop f fuel i j ≤ k → k < n → f k = true := by
  induction fuel generalizing i j with
  | zero =>
    obtain rfl : i = j := by omega
    exact ⟨hj, hlow, hhigh⟩
  | succ fuel ih =>
    rw [searchLoop]
    by_cases hlt : i < j
    · rw [if_pos hlt]
      by_cases hf : f ((i + j) / 2) = true
      · simp only [hf, if_true]
        refine ih (by omega) (by omega) (by omega) hlow fun k hk hkn => ?_
        exact hmono _ k hf hk hkn
      · simp only [hf, if_false, Bool.false_eq_true]
        refine ih (by omega) (by omega) hj (fun k hk => ?_) hhigh
        cases hfk : f k with
        | false => rfl
        | true => exact absurd (hmono k _ hfk (by omega) (by omega)) hf
    · obtain rfl : i = j := by omega
      rw [if_neg hlt]
      exact ⟨hj, hlow, hhigh⟩

/-- The search ends at the first position where a monotone predicate holds. -/
theorem search_spec (hmono : ∀ i j, f i = true → i ≤ j → j < n → f j = true) :
    search n f ≤ n ∧ (∀ k < search n f, f k = false) ∧
      ∀ k, search n f ≤ k → k < n → f k = true :=
  searchLoop_spec hmono (Nat.sub_le _ _) (Nat.zero_le n) (Nat.le_refl n)
    (fun k hk => absurd hk (Nat.not_lt_zero k)) fun _ hk hkn => absurd hkn (Nat.not_lt.mpr hk)

/-! ## Predicates that may fail -/

def searchLoopM (f : Nat → Option Bool) : Nat → Nat → Nat → Option Nat
  | 0, i, _ => some i
  | fuel + 1, i, j =>
    if i < j then do
      let h := (i + j) / 2
      if ← f h then searchLoopM f fuel i h else searchLoopM f fuel (h + 1) j
    else some i

def searchM (n : Nat) (f : Nat → Option Bool) : Option Nat := searchLoopM f n 0 n

theorem searchLoopM_eq {g : Nat → Option Bool} (hg : ∀ i < n, g i = some (f i)) {fuel i j : Nat}
    (hj : j ≤ n) : searchLoopM g fuel i j = some (searchLoop f fuel i j) := by
  induction fuel generalizing i j with
  | zero => rfl
  | succ fuel ih =>
    rw [searchLoopM, searchLoop]
    by_cases hlt : i < j
    · rw [if_pos hlt, if_pos hlt]
      simp only [hg ((i + j) / 2) (by omega), Option.bind_eq_bind, Option.bind_some]
      split
      · exact ih (by omega)
      · exact ih hj
    · rw [if_neg hlt, if_neg hlt]

/-- Where the predicate answers, the search is that of its answers. -/
theorem searchM_eq {g : Nat → Option Bool} (hg : ∀ i < n, g i = some (f i)) :
    searchM n g = some (search n f) := searchLoopM_eq hg (Nat.le_refl n)

end Foundation
