import Mathlib.Algebra.Order.Ring.Int
import Mathlib.Data.List.Basic

/-!
# Binary heaps

A heap in an array, as the package `container/heap` of Go keeps it: the children of a position
`i` are at `2 * i + 1` and `2 * i + 2`, and no child is less than its parent. An element that
may be greater than its children is moved down (`down`); a heap is made, or mended after its
top was exchanged or removed, by that alone.
-/

namespace Foundation.BinaryHeap

variable {α : Type}

section Definitions

variable (less : α → α → Bool)

def lesserChild (h : Array α) (j : Nat) : Nat :=
  match h[j]?, h[j + 1]? with
  | some x, some y => if less y x then j + 1 else j
  | _, _ => j

def downLoop : Nat → Array α → Nat → Array α
  | 0, h, _ => h
  | fuel + 1, h, i =>
    let j := lesserChild less h (2 * i + 1)
    if hj : j < h.size then
      if hi : i < h.size then
        if less h[j] h[i] then downLoop fuel (h.swap i j) j else h
      else h
    else h

def down (h : Array α) (i : Nat) : Array α := downLoop less h.size h i

def initLoop : Nat → Array α → Array α
  | 0, h => h
  | i + 1, h => initLoop i (down less h i)

def init (h : Array α) : Array α := initLoop less (h.size / 2) h

def fixTop (h : Array α) : Array α := down less h 0

def removeTop (h : Array α) : Array α :=
  if hpos : 0 < h.size then
    if h.size - 1 = 0 then h.pop else fixTop less (h.swap 0 (h.size - 1)).pop
  else h

end Definitions

structure StrictWeak (less : α → α → Bool) : Prop where
  asymm : ∀ {a b}, less a b = true → less b a = false
  trans : ∀ {a b c}, less b a = false → less c b = false → less c a = false

theorem StrictWeak.of_lt {less : α → α → Bool} {β : Type} [LinearOrder β] (f : α → β)
    (h : ∀ a b, less a b = true ↔ f a < f b) : StrictWeak less := by
  constructor
  · intro a b hab
    rw [Bool.eq_false_iff, ne_eq, h]
    exact ((h a b).mp hab).not_gt
  · intro a b c hba hcb
    rw [Bool.eq_false_iff, ne_eq, h, not_lt] at *
    exact hba.trans hcb

def Child (c p : Nat) : Prop := c = 2 * p + 1 ∨ c = 2 * p + 2

def OrderedAt (less : α → α → Bool) (h : Array α) (p : Nat) : Prop :=
  ∀ c x y, Child c p → h[p]? = some x → h[c]? = some y → less y x = false

def OrderedFrom (less : α → α → Bool) (i : Nat) (h : Array α) : Prop := ∀ p, i ≤ p → OrderedAt less h p

structure Sifting (less : α → α → Bool) (i0 i : Nat) (h : Array α) : Prop where
  except : ∀ p, i0 ≤ p → p ≠ i → OrderedAt less h p
  grand : ∀ p, i0 ≤ p → Child i p → ∀ c x y, Child c i → h[p]? = some x → h[c]? = some y → less y x = false

variable {less : α → α → Bool} {h : Array α} {i i0 : Nat}

theorem lesserChild_eq (less : α → α → Bool) (h : Array α) (j : Nat) :
    lesserChild less h j = j ∨ lesserChild less h j = j + 1 ∧ j + 1 < h.size := by
  unfold lesserChild
  split
  · rename_i hx hy
    split_ifs
    · exact .inr ⟨rfl, (Array.getElem?_eq_some_iff.mp hy).1⟩
    · exact .inl rfl
  · exact .inl rfl

theorem child_lesserChild (less : α → α → Bool) (h : Array α) (i : Nat) :
    Child (lesserChild less h (2 * i + 1)) i := by
  rcases lesserChild_eq less h (2 * i + 1) with hj | ⟨hj, -⟩
  · exact .inl hj
  · exact .inr hj

theorem StrictWeak.irrefl (hl : StrictWeak less) (a : α) : less a a = false := by
  cases ha : less a a with
  | false => rfl
  | true => exact ha ▸ hl.asymm ha

theorem lesserChild_le (hl : StrictWeak less) {c : Nat} {x y : α} (hc : Child c i)
    (hx : h[lesserChild less h (2 * i + 1)]? = some x) (hy : h[c]? = some y) : less y x = false := by
  cases ha : h[2 * i + 1]? with
  | none =>
    have hj : lesserChild less h (2 * i + 1) = 2 * i + 1 := by simp [lesserChild, ha]
    rw [hj, ha] at hx
    cases hx
  | some a =>
    cases hb : h[2 * i + 1 + 1]? with
    | none =>
      have hj : lesserChild less h (2 * i + 1) = 2 * i + 1 := by simp [lesserChild, ha, hb]
      rw [hj, ha] at hx
      cases hx
      rcases hc with rfl | rfl
      · rw [ha] at hy
        cases hy
        exact hl.irrefl _
      · rw [hb] at hy
        cases hy
    | some b =>
      have hj : lesserChild less h (2 * i + 1) = if less b a then 2 * i + 1 + 1 else 2 * i + 1 := by
        simp [lesserChild, ha, hb]
      rw [hj] at hx
      split_ifs at hx with hba
      · rw [hb] at hx
        cases hx
        rcases hc with rfl | rfl
        · rw [ha] at hy
          cases hy
          exact hl.asymm hba
        · rw [hb] at hy
          cases hy
          exact hl.irrefl _
      · rw [ha] at hx
        cases hx
        rcases hc with rfl | rfl
        · rw [ha] at hy
          cases hy
          exact hl.irrefl _
        · rw [hb] at hy
          cases hy
          exact Bool.eq_false_iff.mpr hba

theorem Sifting.swap (hl : StrictWeak less) (hs : Sifting less i0 i h) (hle : i0 ≤ i) {j : Nat}
    (hi : i < h.size) (hj : j < h.size) (hji : j = lesserChild less h (2 * i + 1))
    (hless : less h[j] h[i] = true) : Sifting less i0 j (h.swap i j) := by
  have hchild : Child j i := hji ▸ child_lesserChild less h i
  have hget : ∀ k, (h.swap i j)[k]? = if j = k then some h[i] else if i = k then some h[j] else h[k]? :=
    fun k => Array.getElem?_swap hi hj
  have hat : h[lesserChild less h (2 * i + 1)]? = some h[j] := by
    rw [← hji]
    exact Array.getElem?_eq_getElem hj
  constructor
  · intro p hp hpj c x y hc hx hy
    rw [hget] at hx hy
    by_cases hpi : p = i
    · -- the child that moved up is the lesser one
      subst hpi
      rw [if_neg (by unfold Child at hchild; omega), if_pos rfl] at hx
      cases hx
      by_cases hcj : j = c
      · rw [if_pos hcj] at hy
        cases hy
        exact hl.asymm hless
      · rw [if_neg hcj, if_neg (by unfold Child at hc; omega)] at hy
        exact lesserChild_le hl hc hat hy
    · rw [if_neg (by omega), if_neg (by omega)] at hx
      have hcj : j ≠ c := by
        rintro rfl
        unfold Child at hchild hc
        omega
      rw [if_neg hcj] at hy
      by_cases hci : i = c
      · subst hci
        rw [if_pos rfl] at hy
        cases hy
        exact hs.grand p hp hc j x h[j] hchild hx (Array.getElem?_eq_getElem hj)
      · rw [if_neg hci] at hy
        exact hs.except p hp hpi c x y hc hx hy
  · intro p hp hjp c x y hc hx hy
    have hpi : p = i := by
      unfold Child at hjp hchild
      omega
    subst hpi
    rw [hget] at hx hy
    rw [if_neg (by unfold Child at hchild; omega), if_pos rfl] at hx
    rw [if_neg (by unfold Child at hc; omega), if_neg (by unfold Child at hc hchild; omega)] at hy
    cases hx
    exact hs.except j (by unfold Child at hchild; omega) (by unfold Child at hchild; omega) c h[j] y hc
      (Array.getElem?_eq_getElem hj) hy

theorem Sifting.done (hs : Sifting less i0 i h) (hat : OrderedAt less h i) : OrderedFrom less i0 h := by
  intro p hp
  by_cases hpi : p = i
  · exact hpi ▸ hat
  · exact hs.except p hp hpi

theorem downLoop_ordered (hl : StrictWeak less) {fuel : Nat} (hs : Sifting less i0 i h) (hle : i0 ≤ i)
    (hfuel : h.size ≤ i + fuel) : OrderedFrom less i0 (downLoop less fuel h i) := by
  induction fuel generalizing h i with
  | zero =>
    refine hs.done fun c x y _ hx _ => ?_
    have := (Array.getElem?_eq_some_iff.mp hx).1
    omega
  | succ fuel ih =>
    rw [downLoop]
    split_ifs with hj hi hless
    · have hchild := child_lesserChild less h i
      unfold Child at hchild
      refine ih (hs.swap hl hle hi hj rfl hless) (by omega) ?_
      rw [Array.size_swap]
      omega
    · refine hs.done fun c x y hc hx hy => ?_
      -- no child is less than the lesser one
      have hmin := lesserChild_le hl hc (Array.getElem?_eq_getElem hj) hy
      obtain ⟨-, rfl⟩ := Array.getElem?_eq_some_iff.mp hx
      exact hl.trans (Bool.eq_false_iff.mpr hless) hmin
    · refine hs.done fun c x y _ hx _ => ?_
      have := (Array.getElem?_eq_some_iff.mp hx).1
      omega
    · refine hs.done fun c x y hc _ hy => ?_
      have hlt := (Array.getElem?_eq_some_iff.mp hy).1
      rcases lesserChild_eq less h (2 * i + 1) with heq | ⟨heq, hsize⟩ <;> unfold Child at hc <;> omega

theorem downLoop_perm {fuel : Nat} (h : Array α) (i : Nat) : (downLoop less fuel h i).Perm h := by
  induction fuel generalizing h i with
  | zero => exact .rfl
  | succ fuel ih =>
    rw [downLoop]
    split_ifs with hj hi hless
    · exact (ih _ _).trans (Array.swap_perm hi hj)
    all_goals exact .rfl

theorem down_perm (h : Array α) (i : Nat) : (down less h i).Perm h := downLoop_perm h i

section

variable (hl : StrictWeak less)
include hl

theorem down_ordered (hs : OrderedFrom less (i + 1) h) :
    OrderedFrom less i (down less h i) := by
  refine downLoop_ordered hl ⟨fun p hp hpi => hs p (by omega), fun p hp hc => ?_⟩ (Nat.le_refl i) (by omega)
  unfold Child at hc
  omega

theorem init_spec (h : Array α) :
    OrderedFrom less 0 (init less h) ∧ (init less h).Perm h := by
  have hloop : ∀ n (h : Array α), OrderedFrom less n h →
      OrderedFrom less 0 (initLoop less n h) ∧ (initLoop less n h).Perm h := by
    intro n
    induction n with
    | zero => exact fun h hs => ⟨hs, .rfl⟩
    | succ n ih =>
      intro h hs
      obtain ⟨hordered, hperm⟩ := ih _ (down_ordered hl hs)
      exact ⟨hordered, hperm.trans (down_perm h n)⟩
  refine hloop _ h fun p hp c x y hc _ hy => ?_
  -- the positions from the middle on have no children
  have := (Array.getElem?_eq_some_iff.mp hy).1
  unfold Child at hc
  omega

section

variable (hs : OrderedFrom less 0 h)
include hs

theorem top_le {x y : α} (hx : h[0]? = some x)
    (hy : y ∈ h) : less y x = false := by
  obtain ⟨k, hk, rfl⟩ := Array.mem_iff_getElem.mp hy
  induction k using Nat.strongRecOn with
  | _ k ih =>
    by_cases h0 : k = 0
    · subst h0
      obtain ⟨-, rfl⟩ := Array.getElem?_eq_some_iff.mp hx
      exact hl.irrefl _
    · have hparent : (k - 1) / 2 < k := by omega
      have hchild : Child k ((k - 1) / 2) := by
        unfold Child
        omega
      have hle := hs ((k - 1) / 2) (Nat.zero_le _) k h[(k - 1) / 2] h[k] hchild
        (Array.getElem?_eq_getElem (by omega)) (Array.getElem?_eq_getElem hk)
      exact hl.trans (ih _ hparent (by omega) (Array.getElem_mem _)) hle

theorem fixTop_ordered {h' : Array α}
    (hsame : ∀ k, 0 < k → k < h'.size → h'[k]? = h[k]?) : OrderedFrom less 0 (fixTop less h') := by
  refine down_ordered hl fun p hp c x y hc hx hy => ?_
  have hpl := (Array.getElem?_eq_some_iff.mp hx).1
  have hcl := (Array.getElem?_eq_some_iff.mp hy).1
  rw [hsame p (by omega) hpl] at hx
  rw [hsame c (by unfold Child at hc; omega) hcl] at hy
  exact hs p (Nat.zero_le _) c x y hc hx hy

theorem removeTop_spec (hpos : 0 < h.size) :
    OrderedFrom less 0 (removeTop less h) ∧ h.toList.Perm (h[0] :: (removeTop less h).toList) := by
  rw [removeTop, dif_pos hpos]
  by_cases hone : h.size - 1 = 0
  · rw [if_pos hone]
    constructor
    · intro p _ c x y _ hx _
      have := (Array.getElem?_eq_some_iff.mp hx).1
      rw [Array.size_pop] at this
      omega
    · obtain ⟨l⟩ := h
      cases l with
      | nil => cases hpos
      | cons a l =>
        have hl : l = [] := List.eq_nil_of_length_eq_zero hone
        subst hl
        exact .refl _
  · rw [if_neg hone]
    have hlast : h.size - 1 < h.size := by omega
    constructor
    · refine fixTop_ordered hl hs fun k hk hlt => ?_
      rw [Array.size_pop, Array.size_swap] at hlt
      rw [Array.getElem?_pop, Array.size_swap, if_pos hlt, Array.getElem?_swap, if_neg (by omega),
        if_neg (by omega)]
    · have hswap : (h.swap 0 (h.size - 1)).toList.Perm h.toList := (Array.swap_perm hpos hlast).toList
      have hfix : (fixTop less (h.swap 0 (h.size - 1)).pop).toList.Perm
          (h.swap 0 (h.size - 1)).toList.dropLast := (down_perm _ 0).toList
      have hne : (h.swap 0 (h.size - 1)).toList ≠ [] := by
        rw [← List.length_pos_iff, Array.length_toList, Array.size_swap]
        exact hpos
      have hend : (h.swap 0 (h.size - 1)).toList.getLast hne = h[0] := by
        rw [List.getLast_eq_getElem, Array.getElem_toList]
        simp only [Array.length_toList, Array.size_swap]
        exact Array.getElem_swap_right
      have hsplit := List.dropLast_concat_getLast hne
      rw [hend] at hsplit
      rw [← hsplit] at hswap
      exact (hswap.symm.trans List.perm_append_comm).trans (hfix.symm.cons _)

end

end

end Foundation.BinaryHeap
