import CronosStore.Memiavl.Outcome

/-!
# The contents of a changed tree

`setRecursive` inserts a binding into the ordered list of leaves and `removeRecursive`
erases one, whatever rotations they make. The order of the keys is kept along with it: a
branch's key stays the smallest key on its right, because a removal that takes away the
smallest leaf hands the next key up to the branch it separates.
-/

namespace CronosStore.Memiavl.Node

open Foundation List SortedAssoc

theorem head?_toList (n : Node) : (n.toList.head?).map Prod.fst = some n.minKey := by
  induction n with
  | leaf v k x => rfl
  | branch h s v k l r ihl _ =>
    cases hl : l.toList with
    | nil => simp [hl] at ihl
    | cons p ps =>
      rw [hl] at ihl
      simpa [toList, hl, minKey] using ihl

variable {n l n' : Node} {version : Nat} {k key : Bytes} {value x nk : Slice} {updated : Bool}

theorem minKey_eq_of_toList_eq {p : Bytes × Slice} {ps : List (Bytes × Slice)}
    (h : n.toList = p :: ps) : n.minKey = p.1 := by
  have := head?_toList n
  rw [h] at this
  simpa using this.symm

theorem toList_eq_minKey_cons (n : Node) : ∃ x ps, n.toList = (n.minKey, x) :: ps := by
  cases h : n.toList with
  | nil =>
    have := head?_toList n
    rw [h] at this
    cases this
  | cons p ps => exact ⟨p.2, ps, by rw [minKey_eq_of_toList_eq h]⟩

theorem minKey_append {ps : List (Bytes × Slice)} (h : n.toList = l.toList ++ ps) :
    n.minKey = l.minKey := by
  obtain ⟨x, qs, hl⟩ := toList_eq_minKey_cons l
  rw [hl] at h
  exact minKey_eq_of_toList_eq h

theorem Rebalanced.minKey_eq {v : Nat} {r : Node}
    (h : Rebalanced version v k l r n) : n.minKey = l.minKey := minKey_append h.toList_eq

theorem Rebalanced.ordered {v : Nat} {r : Node} (h : Rebalanced version v k l r n) (hl : Ordered l)
    (hr : Ordered r) (hlt : ∀ p ∈ l.toList, p.1 < k) (hmin : r.minKey = k) : Ordered n := by
  cases h with
  | same => exact ordered_mkBranch.mpr ⟨hl, hr, hlt, hmin⟩
  | leftLeft =>
    obtain ⟨hll, hlr, hlk, hlm⟩ := hl
    refine ordered_mkBranch.mpr ⟨hll, ordered_mkBranch.mpr ⟨hlr, hr, ?_, hmin⟩, hlk, hlm⟩
    exact fun p hp => hlt p (mem_append_right _ hp)
  | leftRight =>
    obtain ⟨hll, ⟨hlrl, hlrr, hlrk, hlrm⟩, hlk, hlm⟩ := hl
    refine ordered_mkBranch.mpr ⟨ordered_mkBranch.mpr ⟨hll, hlrl, hlk, hlm⟩,
      ordered_mkBranch.mpr ⟨hlrr, hr, ?_, hmin⟩, ?_, hlrm⟩
    · exact fun p hp => hlt p (mem_append_right _ (mem_append_right _ hp))
    · intro p hp
      rcases mem_append.mp hp with hp | hp
      · exact (hlk p hp).trans (lt_of_minKey_eq hlrk hlm)
      · exact hlrk p hp
  | rightRight =>
    obtain ⟨hrl, hrr, hrk, hrm⟩ := hr
    refine ordered_mkBranch.mpr ⟨ordered_mkBranch.mpr ⟨hl, hrl, hlt, hmin⟩, hrr, ?_, hrm⟩
    intro p hp
    rcases mem_append.mp hp with hp | hp
    · exact (hlt p hp).trans (lt_of_minKey_eq hrk hmin)
    · exact hrk p hp
  | rightLeft =>
    obtain ⟨⟨hrll, hrlr, hrlk, hrlm⟩, hrr, hrk, hrm⟩ := hr
    refine ordered_mkBranch.mpr ⟨ordered_mkBranch.mpr ⟨hl, hrll, hlt, hmin⟩,
      ordered_mkBranch.mpr ⟨hrlr, hrr, ?_, hrm⟩, ?_, hrlm⟩
    · exact fun p hp => hrk p (mem_append_right _ hp)
    · intro p hp
      rcases mem_append.mp hp with hp | hp
      · exact (hlt p hp).trans (lt_of_minKey_eq hrlk hmin)
      · exact hrlk p hp

/-! ## Setting a key -/

section

variable (h : SetOutcome key value version n n' updated)
include h

theorem SetOutcome.toList_eq (hn : Ordered n) :
    n'.toList = SortedAssoc.insert key value n.toList := by
  induction h with
  | before hk => simp [toList, SortedAssoc.insert, hk]
  | after hk => simp [toList, SortedAssoc.insert, hk.not_gt, hk.ne']
  | replace => simp [toList, SortedAssoc.insert]
  | leftUpdate hk _ ih =>
    have hkr := hn.key_le_right
    simp only [toList, ih hn.1]
    exact (insert_append_left fun p hp => hk.trans_le (hkr p hp)).symm
  | leftInsert hk _ hre ih =>
    have hkr := hn.key_le_right
    rw [hre.toList_eq, ih hn.1]
    exact (insert_append_left fun p hp => hk.trans_le (hkr p hp)).symm
  | rightUpdate hk _ ih =>
    simp only [toList, ih hn.2.1]
    exact (insert_append_right fun p hp => (hn.2.2.1 p hp).trans_le hk).symm
  | rightInsert hk _ hre ih =>
    rw [hre.toList_eq, ih hn.2.1]
    exact (insert_append_right fun p hp => (hn.2.2.1 p hp).trans_le hk).symm

theorem SetOutcome.forall_lt (hn : Ordered n)
    (hk : key < k) (hlt : ∀ p ∈ n.toList, p.1 < k) : ∀ p ∈ n'.toList, p.1 < k := by
  intro p hp
  rw [h.toList_eq hn, mem_insert hn.sorted] at hp
  rcases hp with rfl | ⟨hp, -⟩
  · exact hk
  · exact hlt p hp

theorem SetOutcome.minKey_eq (hn : Ordered n)
    (hk : n.minKey ≤ key) : n'.minKey = n.minKey := by
  obtain ⟨x, ps, hps⟩ := toList_eq_minKey_cons n
  have hl := h.toList_eq hn
  rw [hps, SortedAssoc.insert, if_neg hk.not_gt] at hl
  split_ifs at hl with he
  · exact (minKey_eq_of_toList_eq hl).trans he
  · exact minKey_eq_of_toList_eq hl

theorem SetOutcome.ordered (hn : Ordered n) :
    Ordered n' := by
  induction h with
  | before hk => exact ⟨trivial, trivial, by simpa [toList] using hk, rfl⟩
  | after hk => exact ⟨trivial, trivial, by simpa [toList] using hk, rfl⟩
  | replace => trivial
  | leftUpdate hk hl ih =>
    obtain ⟨hol, hor, hlt, hmin⟩ := hn
    exact ⟨ih hol, hor, hl.forall_lt hol hk hlt, hmin⟩
  | leftInsert hk hl hre ih =>
    obtain ⟨hol, hor, hlt, hmin⟩ := hn
    exact hre.ordered (ih hol) hor (hl.forall_lt hol hk hlt) hmin
  | rightUpdate hk hr ih =>
    obtain ⟨hol, hor, hlt, hmin⟩ := hn
    exact ⟨hol, ih hor, hlt, (hr.minKey_eq hor (hmin.trans_le hk)).trans hmin⟩
  | rightInsert hk hr hre ih =>
    obtain ⟨hol, hor, hlt, hmin⟩ := hn
    exact hre.ordered hol (ih hor) hlt ((hr.minKey_eq hor (hmin.trans_le hk)).trans hmin)

/-! ## Removing a key -/

end

theorem RemoveOutcome.toList_of_none
    (h : RemoveOutcome key version n x none nk) : n.toList = [(key, x)] := by
  cases h
  rfl

theorem RemoveOutcome.toList_eq (h : RemoveOutcome key version n x (some n') nk) (hn : Ordered n) :
    n'.toList = SortedAssoc.erase key n.toList := by
  generalize ho : some n' = res at h
  induction h generalizing n' with
  | absent habs =>
    cases ho
    exact (erase_eq_self habs).symm
  | leaf => cases ho
  | leftGone hk hl =>
    cases ho
    have hkr := hn.key_le_right
    have hr := erase_eq_self fun p hp => (hk.trans_le (hkr p hp)).ne'
    rw [toList, hl.toList_of_none, SortedAssoc.erase_append, hr]
    simp [SortedAssoc.erase]
  | rightGone hk hr =>
    cases ho
    have hl := erase_eq_self fun p hp => ((hn.2.2.1 p hp).trans_le hk).ne
    rw [toList, hr.toList_of_none, SortedAssoc.erase_append, hl]
    simp [SortedAssoc.erase]
  | leftChanged hk _ hre ih =>
    cases ho
    have hkr := hn.key_le_right
    have hr := erase_eq_self fun p hp => (hk.trans_le (hkr p hp)).ne'
    rw [hre.toList_eq, ih hn.1 rfl, toList, SortedAssoc.erase_append, hr]
  | rightChanged hk _ hre ih =>
    cases ho
    have hl := erase_eq_self fun p hp => ((hn.2.2.1 p hp).trans_le hk).ne
    rw [hre.toList_eq, ih hn.2.1 rfl, toList, SortedAssoc.erase_append, hl]

theorem RemoveOutcome.eq_self {res : Option Node} (h : RemoveOutcome key version n x res nk)
    (habs : ∀ p ∈ n.toList, p.1 ≠ key) : x = none ∧ res = some n := by
  induction h with
  | absent => exact ⟨rfl, rfl⟩
  | leaf => exact absurd rfl (habs _ (mem_singleton_self _))
  | leftGone _ _ ih => cases (ih fun p hp => habs p (mem_append_left _ hp)).1
  | leftChanged _ _ _ ih => cases (ih fun p hp => habs p (mem_append_left _ hp)).1
  | rightGone _ _ ih => cases (ih fun p hp => habs p (mem_append_right _ hp)).1
  | rightChanged _ _ _ ih => cases (ih fun p hp => habs p (mem_append_right _ hp)).1

theorem RemoveOutcome.forall_lt (h : RemoveOutcome key version n x (some n') nk) (hn : Ordered n)
    (hlt : ∀ p ∈ n.toList, p.1 < k) : ∀ p ∈ n'.toList, p.1 < k := by
  intro p hp
  rw [h.toList_eq hn, mem_erase] at hp
  exact hlt p hp.1

/-- The separator handed up is the new smallest key; without one the smallest key is the
old one. The order is kept. -/
theorem RemoveOutcome.ordered (h : RemoveOutcome key version n x (some n') nk) (hn : Ordered n) :
    Ordered n' ∧ n'.minKey = nk.getD n.minKey := by
  generalize ho : some n' = res at h
  induction h generalizing n' with
  | absent =>
    cases ho
    exact ⟨hn, rfl⟩
  | leaf => cases ho
  | leftGone =>
    cases ho
    exact ⟨hn.2.1, hn.2.2.2⟩
  | rightGone =>
    cases ho
    exact ⟨hn.1, rfl⟩
  | leftChanged hk hl hre ih =>
    cases ho
    obtain ⟨hol, hor, hlt, hmin⟩ := hn
    obtain ⟨hol', hmin'⟩ := ih hol rfl
    exact ⟨hre.ordered hol' hor (hl.forall_lt hol hlt) hmin, hre.minKey_eq.trans hmin'⟩
  | @rightChanged h s v k x l r r' n nk hk hr hre ih =>
    cases ho
    have hkr := hn.key_le_right
    obtain ⟨hol, hor, hlt, hmin⟩ := hn
    obtain ⟨hor', hmin'⟩ := ih hor rfl
    rw [hmin] at hmin'
    have hk' : k ≤ nk.getD k := by
      obtain ⟨p, hp, he⟩ := exists_minKey_mem r'
      rw [hr.toList_eq hor, mem_erase] at hp
      exact (hkr p hp.1).trans_eq (he.trans hmin')
    exact ⟨hre.ordered hol hor' (fun p hp => (hlt p hp).trans_le hk') hmin', hre.minKey_eq⟩

end CronosStore.Memiavl.Node
