import Mathlib.Algebra.Order.Ring.Int
import Mathlib.Data.List.Sort

/-!
# Stable sorting by a key

A stable sort keeps the order of the elements that have the same key, so what it makes of a
list depends on nothing but the elements of each key in their order (`sortBy_eq`).
-/

namespace Foundation

open List

variable {α K : Type} [LinearOrder K]

def sortBy (key : α → K) (l : List α) : List α := l.insertionSort fun a b => key a ≤ key b

variable {key : α → K} {l l' : List α}

instance instIsTransKeyLe (key : α → K) : IsTrans α fun a b => key a ≤ key b := ⟨fun _ _ _ => le_trans⟩

instance instTotalKeyLe (key : α → K) : Std.Total fun a b : α => key a ≤ key b := ⟨fun a b => le_total (key a) (key b)⟩

theorem pairwise_sortBy (key : α → K) (l : List α) : (sortBy key l).Pairwise fun a b => key a ≤ key b :=
  pairwise_insertionSort (fun a b => key a ≤ key b) l

theorem mem_sortBy {a : α} : a ∈ sortBy key l ↔ a ∈ l := mem_insertionSort _

theorem pairwise_sortBy_lt (h : (l.map key).Nodup) : (sortBy key l).Pairwise fun a b => key a < key b := by
  have hnodup : ((sortBy key l).map key).Nodup :=
    ((perm_insertionSort (fun a b => key a ≤ key b) l).map key).nodup_iff.mpr h
  rw [List.Nodup, pairwise_map] at hnodup
  exact ((pairwise_sortBy key l).and hnodup).imp fun hab => lt_of_le_of_ne hab.1 hab.2

theorem filter_orderedInsert (a : α) (l : List α) (k : K) :
    (l.orderedInsert (fun a b => key a ≤ key b) a).filter (fun b => key b = k) =
      (a :: l).filter fun b => key b = k := by
  induction l with
  | nil => rfl
  | cons b l ih =>
    rw [orderedInsert_cons]
    by_cases hle : key a ≤ key b
    · rw [if_pos hle]
    · rw [if_neg hle, filter_cons, ih]
      by_cases hb : key b = k
      · have ha : key a ≠ k := fun ha => hle (ha.trans hb.symm).le
        simp [hb, ha]
      · simp [filter_cons, hb]

theorem filter_sortBy (key : α → K) (l : List α) (k : K) :
    (sortBy key l).filter (fun b => key b = k) = l.filter fun b => key b = k := by
  induction l with
  | nil => rfl
  | cons a l ih =>
    have hcons : sortBy key (a :: l) = (sortBy key l).orderedInsert (fun a b => key a ≤ key b) a := rfl
    rw [hcons, filter_orderedInsert, filter_cons, filter_cons, ih]

/-- A sorted list is determined by the elements of each key. -/
theorem eq_of_filter (h : l.Pairwise fun a b => key a ≤ key b)
    (h' : l'.Pairwise fun a b => key a ≤ key b)
    (heq : ∀ k, l.filter (fun b => key b = k) = l'.filter fun b => key b = k) : l = l' := by
  induction l generalizing l' with
  | nil =>
    cases l' with
    | nil => rfl
    | cons b l' =>
      have hb := heq (key b)
      simp at hb
  | cons a l ih =>
    cases l' with
    | nil =>
      have ha := heq (key a)
      simp at ha
    | cons b l' =>
      obtain ⟨hal, hl⟩ := pairwise_cons.mp h
      obtain ⟨hbl, hl'⟩ := pairwise_cons.mp h'
      have hle : key a ≤ key b := by
        have hmem : b ∈ (a :: l).filter fun c => key c = key b := by
          rw [heq]
          simp
        rcases mem_cons.mp (mem_filter.mp hmem).1 with rfl | hmem
        · exact le_rfl
        · exact hal b hmem
      have hge : key b ≤ key a := by
        have hmem : a ∈ (b :: l').filter fun c => key c = key a := by
          rw [← heq]
          simp
        rcases mem_cons.mp (mem_filter.mp hmem).1 with rfl | hmem
        · exact le_rfl
        · exact hbl a hmem
      have hkey : key a = key b := le_antisymm hle hge
      have hhead := heq (key b)
      rw [filter_cons_of_pos (by simpa using hkey), filter_cons_of_pos (by simp),
        List.cons.injEq] at hhead
      obtain ⟨rfl, htail⟩ := hhead
      refine congrArg (List.cons a) (ih hl hl' fun k => ?_)
      by_cases hk : key a = k
      · subst hk
        exact htail
      · have hk' := heq k
        rwa [filter_cons_of_neg (by simpa using hk), filter_cons_of_neg (by simpa using hk)] at hk'

theorem sortBy_eq (heq : ∀ k, l.filter (fun b => key b = k) = l'.filter fun b => key b = k) :
    sortBy key l = sortBy key l' :=
  eq_of_filter (pairwise_sortBy key l) (pairwise_sortBy key l') fun k => by
    rw [filter_sortBy, filter_sortBy, heq]

/-- Elements with different keys may come in any order behind the others. -/
theorem sortBy_append_perm {r r' : List α} (hperm : r.Perm r') (hnodup : (r.map key).Nodup) :
    sortBy key (l ++ r) = sortBy key (l ++ r') := by
  refine sortBy_eq fun k => ?_
  rw [filter_append, filter_append]
  congr 1
  have hp := hperm.filter fun b => key b = k
  rcases hr : r.filter fun b => key b = k with _ | ⟨a, _ | ⟨b, t⟩⟩
  · rw [hr] at hp
    exact hp.nil_eq
  · rw [hr] at hp
    exact singleton_perm.mp hp
  · -- two elements with the key `k`
    rw [List.Nodup, pairwise_map] at hnodup
    have hsub := hnodup.filter fun b => key b = k
    rw [hr] at hsub
    have hmem : ∀ c ∈ a :: b :: t, key c = k := by
      intro c hc
      rw [← hr, mem_filter] at hc
      exact of_decide_eq_true hc.2
    have hne := (pairwise_cons.mp hsub).1 b mem_cons_self
    exact absurd ((hmem a (by simp)).trans (hmem b (by simp)).symm) hne

theorem map_sortBy {β : Type} {key' : β → K} {f : α → β} (hf : ∀ a, key' (f a) = key a) (l : List α) :
    (sortBy key l).map f = sortBy key' (l.map f) :=
  map_insertionSort _ _ f l fun a _ b _ => by rw [hf, hf]

end Foundation
