import Mathlib.Algebra.Order.Ring.Int
import Mathlib.Order.Bounds.Basic
import Mathlib.Data.List.Sort

/-!
# Association lists sorted by key

The abstract value of an ordered map: a list of pairs whose keys strictly increase.
`insert` puts a binding at its place or replaces the one that is there, `erase` drops
the binding of a key. Both are local: in a list cut in two at a separator they only
touch the side the key belongs to (`insert_append_left`, `insert_append_right`,
`erase_append`), which is what a search tree relies on.
-/

namespace Foundation.SortedAssoc

open List

variable {K V : Type} [LinearOrder K]

def Sorted (l : List (K × V)) : Prop := l.Pairwise (fun a b => a.1 < b.1)

def insert (k : K) (v : V) : List (K × V) → List (K × V)
  | [] => [(k, v)]
  | p :: l =>
    if k < p.1 then (k, v) :: p :: l
    else if k = p.1 then (k, v) :: l
    else p :: insert k v l

def erase (k : K) (l : List (K × V)) : List (K × V) := l.filter (fun p => p.1 ≠ k)

variable {l r : List (K × V)} {k : K} {v : V} {p : K × V} {i : Nat}

theorem sorted_append :
    Sorted (l ++ r) ↔ Sorted l ∧ Sorted r ∧ ∀ a ∈ l, ∀ b ∈ r, a.1 < b.1 :=
  pairwise_append

theorem insert_append_left (hr : ∀ p ∈ r, k < p.1) :
    insert k v (l ++ r) = insert k v l ++ r := by
  induction l with
  | nil =>
    cases r with
    | nil => rfl
    | cons p r => simp [insert, hr p mem_cons_self]
  | cons p l ih =>
    simp only [cons_append, insert, ih]
    split_ifs <;> rfl

theorem insert_append_right (hl : ∀ p ∈ l, p.1 < k) :
    insert k v (l ++ r) = l ++ insert k v r := by
  induction l with
  | nil => rfl
  | cons p l ih =>
    have hp := hl p mem_cons_self
    simp only [cons_append, insert, if_neg hp.not_gt, if_neg hp.ne']
    rw [ih fun q hq => hl q (mem_cons_of_mem _ hq)]

theorem mem_insert (h : Sorted l) :
    p ∈ insert k v l ↔ p = (k, v) ∨ p ∈ l ∧ p.1 ≠ k := by
  induction l with
  | nil => simp [insert]
  | cons q l ih =>
    obtain ⟨hq, hl⟩ := pairwise_cons.mp h
    simp only [insert]
    split_ifs with hlt heq
    · have hall : ∀ r ∈ q :: l, r.1 ≠ k := by
        intro r hr
        rcases mem_cons.mp hr with rfl | hr
        · exact hlt.ne'
        · exact (hlt.trans (hq r hr)).ne'
      rw [mem_cons]
      exact or_congr_right ⟨fun hp => ⟨hp, hall p hp⟩, And.left⟩
    · have hall : ∀ r ∈ l, r.1 ≠ k := fun r hr => heq ▸ (hq r hr).ne'
      rw [mem_cons, mem_cons]
      refine or_congr_right ⟨fun hp => ⟨Or.inr hp, hall p hp⟩, ?_⟩
      rintro ⟨rfl | hp, hne⟩
      · exact absurd heq.symm hne
      · exact hp
    · rw [mem_cons, ih hl, mem_cons]
      constructor
      · rintro (rfl | rfl | ⟨hp, hne⟩)
        · exact Or.inr ⟨Or.inl rfl, fun h => heq h.symm⟩
        · exact Or.inl rfl
        · exact Or.inr ⟨Or.inr hp, hne⟩
      · rintro (rfl | ⟨rfl | hp, hne⟩)
        · exact Or.inr (Or.inl rfl)
        · exact Or.inl rfl
        · exact Or.inr (Or.inr ⟨hp, hne⟩)

theorem sorted_insert (h : Sorted l) :
    Sorted (insert k v l) := by
  induction l with
  | nil => simp [insert, Sorted]
  | cons q l ih =>
    obtain ⟨hq, hl⟩ := pairwise_cons.mp h
    simp only [insert]
    split_ifs with hlt heq
    · refine pairwise_cons.mpr ⟨?_, h⟩
      intro r hr
      rcases mem_cons.mp hr with rfl | hr
      · exact hlt
      · exact hlt.trans (hq r hr)
    · exact pairwise_cons.mpr ⟨fun r hr => heq ▸ hq r hr, hl⟩
    · refine pairwise_cons.mpr ⟨?_, ih hl⟩
      intro r hr
      rcases (mem_insert hl).mp hr with rfl | ⟨hr, -⟩
      · exact lt_of_le_of_ne (not_lt.mp hlt) (fun h => heq h.symm)
      · exact hq r hr

theorem insert_of_mem (h : Sorted l) (hk : (k, v) ∈ l) :
    insert k v l = l := by
  induction l with
  | nil => cases hk
  | cons q l ih =>
    obtain ⟨hq, hl⟩ := pairwise_cons.mp h
    rcases mem_cons.mp hk with rfl | hk
    · simp [insert]
    · have hlt := hq _ hk
      simp only [insert, if_neg hlt.not_gt, if_neg hlt.ne', ih hl hk]

theorem lookup_eq_some_iff [BEq K] [LawfulBEq K] (h : Sorted l) :
    l.lookup k = some v ↔ (k, v) ∈ l := by
  induction l with
  | nil => simp
  | cons q l ih =>
    obtain ⟨hq, hl⟩ := pairwise_cons.mp h
    rw [lookup_cons, mem_cons]
    by_cases hk : k = q.1
    · have hne : (q.1, v) ∉ l := fun hmem => absurd (hq _ hmem) (lt_irrefl _)
      simp [hk, hne, Prod.ext_iff, eq_comm]
    · rw [show (k == q.1) = false by simpa using hk]
      simp only [ih hl, Prod.ext_iff, hk, false_and, false_or]

@[simp] theorem erase_append (k : K) (l r : List (K × V)) :
    erase k (l ++ r) = erase k l ++ erase k r := filter_append ..

theorem erase_eq_self (h : ∀ p ∈ l, p.1 ≠ k) : erase k l = l :=
  filter_eq_self.mpr fun p hp => decide_eq_true (h p hp)

theorem erase_insert (h : ∀ p ∈ l, p.1 ≠ k) :
    erase k (insert k v l) = l := by
  induction l with
  | nil => simp [insert, erase]
  | cons p l ih =>
    obtain ⟨hp, hl⟩ := forall_mem_cons.mp h
    simp only [insert]
    split_ifs with hlt heq
    · rw [erase, filter_cons_of_neg (by simp)]
      exact erase_eq_self h
    · exact absurd heq.symm hp
    · rw [erase, filter_cons_of_pos (by simpa using hp)]
      exact congrArg _ (ih hl)

theorem mem_erase :
    p ∈ erase k l ↔ p ∈ l ∧ p.1 ≠ k := by
  simp [erase]

theorem sorted_erase (h : Sorted l) : Sorted (erase k l) :=
  List.Pairwise.filter _ h

section Lookup

variable [BEq K] [LawfulBEq K] {k k' : K} {v : V} {l l' : List (K × V)}

section

variable (h : Sorted l)
include h

theorem lookup_insert_self : (insert k v l).lookup k = some v :=
  (lookup_eq_some_iff (sorted_insert h)).mpr ((mem_insert h).mpr (.inl rfl))

theorem lookup_insert_of_ne (hne : k' ≠ k) :
    (insert k v l).lookup k' = l.lookup k' := by
  ext w
  rw [lookup_eq_some_iff (sorted_insert h), mem_insert h, lookup_eq_some_iff h]
  simp [hne]

theorem lookup_erase_self : (erase k l).lookup k = none := by
  rw [Option.eq_none_iff_forall_ne_some]
  intro v hv
  rw [lookup_eq_some_iff (sorted_erase h), mem_erase] at hv
  exact hv.2 rfl

theorem lookup_erase_of_ne (hne : k' ≠ k) : (erase k l).lookup k' = l.lookup k' := by
  ext w
  rw [lookup_eq_some_iff (sorted_erase h), mem_erase, lookup_eq_some_iff h]
  simp [hne]

theorem eq_of_lookup (h' : Sorted l') (heq : ∀ k, l.lookup k = l'.lookup k) :
    l = l' := by
  have : Std.Irrefl fun a b : K × V => a.1 < b.1 := ⟨fun a => lt_irrefl a.1⟩
  refine List.Pairwise.eq_of_mem_iff h h' fun a => ?_
  rw [← lookup_eq_some_iff h, ← lookup_eq_some_iff h', heq]

end

end Lookup

theorem sorted_map {W : Type} (f : V → W) (h : Sorted l) :
    Sorted (l.map fun e => (e.1, f e.2)) :=
  pairwise_map.mpr h

omit [LinearOrder K] in
theorem lookup_map [BEq K] {W : Type} (f : V → W) (l : List (K × V)) (k : K) :
    (l.map fun e => (e.1, f e.2)).lookup k = (l.lookup k).map f := by
  induction l with
  | nil => rfl
  | cons e l ih =>
    rw [map_cons, lookup_cons, lookup_cons, ih]
    cases k == e.1 <;> rfl

def rank (k : K) (l : List (K × V)) : Nat := l.countP fun p => p.1 < k

theorem rank_le_length (k : K) (l : List (K × V)) : rank k l ≤ l.length := countP_le_length

theorem rank_append (k : K) (l r : List (K × V)) : rank k (l ++ r) = rank k l + rank k r :=
  countP_append

theorem rank_eq_length (h : ∀ p ∈ l, p.1 < k) : rank k l = l.length :=
  countP_eq_length.mpr fun p hp => decide_eq_true (h p hp)

theorem rank_eq_zero (h : ∀ p ∈ l, k ≤ p.1) : rank k l = 0 :=
  countP_eq_zero.mpr fun p hp => by simpa using h p hp

theorem getElem?_lt_iff (h : Sorted l) (hp : l[i]? = some p) : p.1 < k ↔ i < rank k l := by
  induction l generalizing i with
  | nil => cases hp
  | cons q l ih =>
    have hq := pairwise_cons.mp h
    rw [rank, countP_cons]
    by_cases hqk : q.1 < k
    · rw [if_pos (by simpa using hqk)]
      cases i with
      | zero =>
        cases hp
        exact iff_of_true hqk (Nat.succ_pos _)
      | succ i =>
        rw [ih hq.2 (by simpa using hp)]
        exact (Nat.add_lt_add_iff_right).symm
    · -- no later key is smaller either
      have hzero : rank k l = 0 := rank_eq_zero fun r hr => le_of_lt (lt_of_le_of_lt (not_lt.mp hqk) (hq.1 r hr))
      rw [rank] at hzero
      rw [if_neg (by simpa using hqk), hzero]
      refine iff_of_false ?_ (Nat.not_lt_zero _)
      cases i with
      | zero =>
        cases hp
        exact hqk
      | succ i =>
        have hmem := mem_of_getElem? (l := l) (by simpa using hp)
        exact fun hlt => hqk ((hq.1 p hmem).trans hlt)

theorem rank_of_getElem? (h : Sorted l) (hp : l[i]? = some p) : rank p.1 l = i := by
  induction l generalizing i with
  | nil => cases hp
  | cons q l ih =>
    have hq := pairwise_cons.mp h
    cases i with
    | zero =>
      cases hp
      refine rank_eq_zero fun r hr => ?_
      rcases mem_cons.mp hr with rfl | hr
      · exact le_rfl
      · exact (hq.1 r hr).le
    | succ i =>
      have hp' : l[i]? = some p := by simpa using hp
      rw [rank, countP_cons, if_pos (by simpa using hq.1 p (mem_of_getElem? hp'))]
      exact congrArg (· + 1) (ih hq.2 hp')

/-- The key before the rank is the greatest of the smaller ones. -/
theorem isGreatest_of_rank (h : Sorted l) (hi : rank k l = i + 1) (hp : l[i]? = some p) : IsGreatest
    {k' | k' < k ∧ ∃ v, (k', v) ∈ l} p.1 := by
  refine ⟨⟨(getElem?_lt_iff h hp).mpr (by omega), p.2, mem_of_getElem? hp⟩, ?_⟩
  rintro k' ⟨hlt, v, hmem⟩
  obtain ⟨j, hj⟩ := mem_iff_getElem?.mp hmem
  have hji := (getElem?_lt_iff h hj).mp hlt
  by_contra hgt
  have hij := (getElem?_lt_iff h hp).mp (not_le.mp hgt)
  rw [rank_of_getElem? h hj] at hij
  omega

/-- The key at the rank is the smallest of the greater ones, unless it is the key itself. -/
theorem isLeast_of_rank (h : Sorted l) (habs : ∀ p ∈ l, p.1 ≠ k) (hp : l[rank k l]? = some p) : IsLeast
    {k' | k < k' ∧ ∃ v, (k', v) ∈ l} p.1 := by
  have hmem := mem_of_getElem? hp
  have hge : k ≤ p.1 := not_lt.mp fun hlt => lt_irrefl _ ((getElem?_lt_iff h hp).mp hlt)
  refine ⟨⟨lt_of_le_of_ne hge (habs p hmem).symm, p.2, hmem⟩, ?_⟩
  rintro k' ⟨hlt, v, hmem'⟩
  obtain ⟨j, hj⟩ := mem_iff_getElem?.mp hmem'
  by_contra hgt
  have hjr := (getElem?_lt_iff h hj).mp (not_le.mp hgt)
  rw [rank_of_getElem? h hp] at hjr
  exact absurd ((getElem?_lt_iff h hj).mpr hjr) (not_lt.mpr hlt.le)

theorem length_insert (h : ∀ p ∈ l, p.1 ≠ k) :
    (insert k v l).length = l.length + 1 := by
  induction l with
  | nil => rfl
  | cons p l ih =>
    obtain ⟨hp, hl⟩ := forall_mem_cons.mp h
    rw [insert]
    split
    · rfl
    · rw [if_neg hp.symm, length_cons, ih hl, length_cons]

end Foundation.SortedAssoc
