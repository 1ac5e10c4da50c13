import Mathlib.Algebra.Order.Ring.Int

/-!
# Heaps of cells

A heap is a list of cells, an address is a position in it, and allocation appends. `Step`
is the footprint discipline of an operation: it was given the cells `F`, it leaves the
cells `F'` to its result, and it wrote only fresh cells and those of `F` that lie in the
writable set `W`. Steps compose (`Step.trans`), and what an operation was not given stays
as it was (`Step.union`).
-/

namespace Foundation.CellHeap

abbrev Addr := Nat

variable {C : Type}

/-- From `h` to `h'` only writable cells of the footprint change, and `F'` is the new one. -/
structure Step (W : Set Addr) (h : List C) (F : Set Addr) (h' : List C) (F' : Set Addr) : Prop where
  length_le : h.length ≤ h'.length
  frame : ∀ a < h.length, a ∉ F ∨ a ∉ W → h'[a]? = h[a]?
  footprint : ∀ a ∈ F', a ∈ F ∨ h.length ≤ a

namespace Step

variable {W F F1 F2 G : Set Addr} {h h1 h2 : List C} {a : Addr} {c : C}

theorem refl (W : Set Addr) (h : List C) (F : Set Addr) : Step W h F h F :=
  ⟨le_rfl, fun _ _ _ => rfl, fun _ ha => .inl ha⟩

theorem trans (s : Step W h F h1 F1) (s' : Step W h1 F1 h2 F2) : Step W h F h2 F2 := by
  refine ⟨s.length_le.trans s'.length_le, fun a ha hnot => ?_, fun a ha => ?_⟩
  · rw [s'.frame a (ha.trans_le s.length_le) ?_, s.frame a ha hnot]
    refine hnot.imp_left fun hF hF1 => ?_
    rcases s.footprint a hF1 with h' | h'
    · exact hF h'
    · omega
  · rcases s'.footprint a ha with h' | h'
    · exact s.footprint a h'
    · exact .inr (s.length_le.trans h')

theorem union (s : Step W h F h1 F1) (G : Set Addr) : Step W h (F ∪ G) h1 (F1 ∪ G) := by
  refine ⟨s.length_le, fun a ha hnot => s.frame a ha ?_, fun a ha => ?_⟩
  · exact hnot.imp_left fun hF hmem => hF (.inl hmem)
  · rcases ha with ha | ha
    · exact (s.footprint a ha).imp_left .inl
    · exact .inl (.inr ha)

theorem mono (s : Step W h F h1 F1) (hF : F ⊆ G) (hF2 : F2 ⊆ F1) : Step W h G h1 F2 := by
  refine ⟨s.length_le, fun a ha hnot => s.frame a ha (hnot.imp_left fun hG hmem => hG (hF hmem)),
    fun a ha => (s.footprint a (hF2 ha)).imp_left fun hmem => hF hmem⟩

theorem within (s : Step W h F h1 F) (hG : F ⊆ G) : Step W h G h1 G := by
  have := s.union G
  rwa [Set.union_eq_self_of_subset_left hG] at this

theorem two {b : Addr} (s : Step W h {a} h1 {a}) (s' : Step W h1 {b} h2 {b}) (ha : a ∈ G) (hb : b ∈ G) :
    Step W h G h2 G :=
  (s.within (Set.singleton_subset_iff.mpr ha)).trans (s'.within (Set.singleton_subset_iff.mpr hb))

theorem alloc (W : Set Addr) (h : List C) (c : C) : Step W h ∅ (h ++ [c]) {h.length} := by
  refine ⟨by simp, fun a ha _ => ?_, fun a ha => .inr (le_of_eq ha.symm)⟩
  rw [List.getElem?_append_left ha]

theorem alloc_union (W : Set Addr) (h : List C) (c : C) (F : Set Addr) :
    Step W h F (h ++ [c]) ({h.length} ∪ F) := by
  have := (alloc W h c).union F
  rwa [Set.empty_union] at this

theorem set (h : List C) (c : C) (ha : a ∈ W) : Step W h {a} (h.set a c) {a} := by
  refine ⟨by simp, fun b _ hb => ?_, fun b hb => .inl hb⟩
  rw [List.getElem?_set_ne]
  rintro rfl
  exact hb.elim (fun hF => hF rfl) fun hW => hW ha

theorem get_eq (s : Step W h F h1 F1) (hc : h[a]? = some c) (ha : a ∉ F) : h1[a]? = some c := by
  rw [s.frame a (List.getElem?_eq_some_iff.mp hc).1 (.inl ha), hc]

end Step

end Foundation.CellHeap
