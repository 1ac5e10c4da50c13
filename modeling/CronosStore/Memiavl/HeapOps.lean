import CronosStore.Memiavl.HeapRep

/-!
# Changing trees on the heap

Each function of `Memiavl.Heap` that changes nodes does on the heap what the function of
`Memiavl.Node` under the same name does to values, within the footprint it was given.
-/

namespace CronosStore.Memiavl

open Foundation CellHeap List Option

/-- Cells that may not be written are old enough to be copied instead. -/
structure Guarded (W : Set Addr) (cow : Nat) (h : Heap) (F : Set Addr) : Prop where
  fresh : ∀ a, h.length ≤ a → a ∈ W
  shared : ∀ a ∈ F, a ∉ W → ∃ c, h[a]? = some c ∧ c.version ≤ cow

variable {W F F' Fl Fr G : Set Addr} {cow ht s v version : Nat} {k : Bytes} {h h' : Heap}
  {a : Addr} {r cl cr : Ref} {t tl tr : Node}

theorem Guarded.mono (hg : Guarded W cow h F) (hF : F' ⊆ F) : Guarded W cow h F' :=
  ⟨hg.fresh, fun a ha => hg.shared a (hF ha)⟩

theorem Guarded.step (hg : Guarded W cow h F) (hs : Step W h F h' F') : Guarded W cow h' F' := by
  refine ⟨fun a ha => hg.fresh a (hs.length_le.trans ha), fun a ha hW => ?_⟩
  rcases hs.footprint a ha with hF | hfresh
  · obtain ⟨c, hc, hle⟩ := hg.shared a hF hW
    exact ⟨c, (hs.frame a (List.getElem?_eq_some_iff.mp hc).1 (.inr hW)).trans hc, hle⟩
  · exact absurd (hg.fresh a hfresh) hW

/-- A node that may be changed in place. -/
structure Own [Sha256] (W : Set Addr) (h : Heap) (a : Addr) (t : Node) (F : Set Addr) : Prop where
  writable : a ∈ W
  rep : Rep h (.mem a) t F
  unhashed : ∀ c, h[a]? = some c → c.hash = none

/-! ## Writing a cell -/

section Cells

variable [Sha256]

theorem own_of_cell {x : Slice} (hc : h[a]? = some ⟨ht, s, v, k, x, some cl, some cr, none⟩)
    (hW : a ∈ W) (h0 : ht ≠ 0) (hl : Rep h cl tl Fl) (hr : Rep h cr tr Fr) (hal : a ∉ Fl)
    (har : a ∉ Fr) (hlr : ∀ b ∈ Fl, b ∉ Fr) :
    Own W h a (.branch ht s v k tl tr) ({a} ∪ (Fl ∪ Fr)) := by
  refine ⟨hW, .branch hc h0 hl hr hal har hlr (by simp [HashOk]), fun c hc' => ?_⟩
  cases hc.symm.trans hc'
  rfl

theorem Own.branch_inv (ho : Own W h a (.branch ht s v k tl tr) F) :
    ∃ x cl cr Fl Fr, h[a]? = some ⟨ht, s, v, k, x, some cl, some cr, none⟩ ∧ ht ≠ 0 ∧
      Rep h cl tl Fl ∧ Rep h cr tr Fr ∧ F = {a} ∪ (Fl ∪ Fr) ∧ a ∉ Fl ∧ a ∉ Fr ∧
      ∀ b ∈ Fl, b ∉ Fr := by
  obtain ⟨-, hrep, hun⟩ := ho
  cases hrep with
  | branch hc h0 hl hr hal har hlr hh =>
    have hnone := hun _ hc
    subst hnone
    exact ⟨_, _, _, _, _, hc, h0, hl, hr, rfl, hal, har, hlr⟩

theorem updateHeightSize_own (ho : Own W h a (.branch ht s v k tl tr) F) :
    ∃ h', h.updateHeightSize a = some h' ∧ Own W h' a (.mkBranch v k tl tr) F ∧
      Step W h {a} h' {a} := by
  obtain ⟨x, cl, cr, Fl, Fr, hc, h0, hl, hr, rfl, hal, har, hlr⟩ := ho.branch_inv
  have ha := (List.getElem?_eq_some_iff.mp hc).1
  have hs := Step.set h ⟨max tl.height tr.height + 1, tl.size + tr.size, v, k, x, some cl, some cr,
    none⟩ ho.writable
  refine ⟨_, ?_, own_of_cell (getElem?_set_self ha) ho.writable (Nat.succ_ne_zero _)
    (hl.step hs fun b hb hba => hal (hba ▸ hb)) (hr.step hs fun b hb hba => har (hba ▸ hb))
    hal har hlr, hs⟩
  simp only [Heap.updateHeightSize, hc, hl.height_eq, hr.height_eq, hl.size_eq, hr.size_eq,
    Results.some_bind, Option.pure_def]

end Cells

/-! ## `Mutate` -/

theorem mutate_mem {c : MemNode} (hc : h[a]? = some c) (hg : Guarded W cow h {a}) (version : Nat) :
    ∃ b h', h.mutate (.mem a) version cow = some (b, h') ∧
      h'[b]? = some { c with version := version, hash := none } ∧ b ∈ W ∧ Step W h {a} h' {b} ∧
      (b = h.length ∧ h'[a]? = some c ∨ b = a) := by
  have ha := (List.getElem?_eq_some_iff.mp hc).1
  by_cases hv : c.version ≤ cow
  · refine ⟨h.length, _, ?_, getElem?_concat_length, hg.fresh _ le_rfl,
      (Step.alloc W h _).mono (Set.empty_subset _) le_rfl, .inl ⟨rfl, (getElem?_append_left ha).trans hc⟩⟩
    simp only [Heap.mutate, hc, Results.some_bind, hv, if_true, Option.pure_def]
    rfl
  · have hW : a ∈ W := by
      by_contra hW
      obtain ⟨c', hc', hle⟩ := hg.shared a rfl hW
      cases hc.symm.trans hc'
      exact hv hle
    refine ⟨a, _, ?_, getElem?_set_self ha, hW, Step.set h _ hW, .inr rfl⟩
    simp only [Heap.mutate, hc, Results.some_bind, hv, if_false, Option.pure_def]

theorem mutate_shape (hsh : Shape h r ht s v k cl cr) (hg : Guarded W cow h r.own) (version : Nat) :
    ∃ a h' x, h.mutate r version cow = some (a, h') ∧
      h'[a]? = some ⟨ht, s, version, k, x, some cl, some cr, none⟩ ∧ a ∈ W ∧
      Step W h r.own h' {a} ∧ h'.left r = some cl ∧ h'.right r = some cr ∧
      ∀ b < h.length, b ∉ r.own → b ≠ a := by
  cases r with
  | persisted p =>
    have hclone := hsh.clone p rfl version
    refine ⟨h.length, _, none, ?_, getElem?_concat_length, hg.fresh _ le_rfl, Step.alloc W h _,
      hsh.left, hsh.right, fun b hb _ => hb.ne⟩
    simp only [Heap.mutate, hclone, Results.some_bind, Option.pure_def]
    rfl
  | mem a =>
    obtain ⟨x, hash, hc⟩ := hsh.cell a rfl
    obtain ⟨b, h', hm, hb, hW, hs, hold⟩ := mutate_mem hc hg version
    obtain ⟨c, hget, hl, hr⟩ : ∃ c, h'[a]? = some c ∧ c.left = some cl ∧ c.right = some cr := by
      rcases hold with ⟨-, hget⟩ | rfl
      · exact ⟨_, hget, rfl, rfl⟩
      · exact ⟨_, hb, rfl, rfl⟩
    refine ⟨b, h', x, hm, hb, hW, hs, ?_, ?_, fun d hd hne => ?_⟩
    · rw [Heap.left, hget]
      exact hl
    · rw [Heap.right, hget]
      exact hr
    · rcases hold with ⟨rfl, -⟩ | rfl
      · exact hd.ne
      · exact hne

section Mutate

variable [Sha256]

variable {x : Slice}

theorem mutate_leaf (hr : Rep h r (.leaf v k x) F) (hg : Guarded W cow h F) (version : Nat) :
    ∃ a h' cl cr, h.mutate r version cow = some (a, h') ∧
      h'[a]? = some ⟨0, 1, version, k, x, cl, cr, none⟩ ∧ a ∈ W ∧ Step W h F h' {a} := by
  cases hr with
  | persisted hd =>
    refine ⟨h.length, _, none, none, ?_, getElem?_concat_length, hg.fresh _ le_rfl,
      Step.alloc W h _⟩
    simp only [Heap.mutate, cloneOfPersisted_leaf hd version, Results.some_bind, Option.pure_def]
    rfl
  | @leaf a _ _ _ cl cr hash hc hh =>
    obtain ⟨b, h', hm, hb, hW, hs, -⟩ := mutate_mem hc hg version
    exact ⟨b, h', cl, cr, hm, hb, hW, hs⟩

/-- Trees without the node's own cell stay as they were, and do not use the new cell. -/
theorem Rep.mutate {b : Addr} (hrep : Rep h cl tl Fl) (hs : Step W h r.own h' {b})
    (hown : ∀ a ∈ r.own, a ∉ Fl) (hne : ∀ a < h.length, a ∉ r.own → a ≠ b) :
    Rep h' cl tl Fl ∧ b ∉ Fl := by
  refine ⟨hrep.step hs fun a ha hmem => hown a hmem ha, fun hb => ?_⟩
  exact hne b (hrep.lt_length b hb) (fun hmem => hown b hmem hb) rfl

omit [Sha256] in
theorem setLeft_cell (hc : h[a]? = some ⟨ht, s, v, k, x, some cl, some cr, none⟩)
    (hW : a ∈ W) (nl : Ref) :
    ∃ h', h.setLeft a nl = some h' ∧
      h'[a]? = some ⟨ht, s, v, k, x, some nl, some cr, none⟩ ∧ Step W h {a} h' {a} := by
  refine ⟨_, ?_, List.getElem?_set_self (List.getElem?_eq_some_iff.mp hc).1, Step.set h _ hW⟩
  simp only [Heap.setLeft, hc, Results.some_bind, Option.pure_def]

omit [Sha256] in
theorem setRight_cell (hc : h[a]? = some ⟨ht, s, v, k, x, some cl, some cr, none⟩)
    (hW : a ∈ W) (nr : Ref) :
    ∃ h', h.setRight a nr = some h' ∧
      h'[a]? = some ⟨ht, s, v, k, x, some cl, some nr, none⟩ ∧ Step W h {a} h' {a} := by
  refine ⟨_, ?_, List.getElem?_set_self (List.getElem?_eq_some_iff.mp hc).1, Step.set h _ hW⟩
  simp only [Heap.setRight, hc, Results.some_bind, Option.pure_def]

theorem setNewKey_own (ho : Own W h a (.branch ht s v k tl tr) F) (newKey : Slice) :
    ∃ h', h.setNewKey a newKey = some h' ∧
      Own W h' a (.branch ht s v (newKey.getD k) tl tr) F ∧ Step W h F h' F := by
  cases newKey with
  | none => exact ⟨h, rfl, ho, Step.refl W h F⟩
  | some k' =>
    obtain ⟨x, cl, cr, Fl, Fr, hc, h0, hl, hr, rfl, hal, har, hlr⟩ := ho.branch_inv
    have ha := (List.getElem?_eq_some_iff.mp hc).1
    have hs := Step.set h ⟨ht, s, v, k', x, some cl, some cr, none⟩ ho.writable
    refine ⟨_, ?_, own_of_cell (getElem?_set_self ha) ho.writable h0
      (hl.step hs fun b hb hba => hal (hba ▸ hb)) (hr.step hs fun b hb hba => har (hba ▸ hb))
      hal har hlr, hs.within fun b hb => .inl hb⟩
    simp only [Heap.setNewKey, Heap.setKey, hc, Results.some_bind,
      Option.pure_def, Option.getD_some]

/-- `Mutate`, and a step that puts `cl'` and `cr'` in the place of the children. -/
theorem mutate_set {cl' cr' : Ref} {set : Heap → Addr → Option Heap} {version : Nat}
    (hset : ∀ {h : Heap} {a : Addr} {x : Slice}, h[a]? = some ⟨ht, s, version, k, x, some cl, some cr, none⟩ →
      a ∈ W → ∃ h', set h a = some h' ∧ h'[a]? = some ⟨ht, s, version, k, x, some cl', some cr', none⟩ ∧
        Step W h {a} h' {a})
    (hsh : Shape h r ht s v k cl cr) (h0 : ht ≠ 0) (hg : Guarded W cow h r.own) (hl : Rep h cl' tl Fl)
    (hr : Rep h cr' tr Fr) (hown : ∀ a ∈ r.own, a ∉ Fl ∧ a ∉ Fr) (hlr : ∀ b ∈ Fl, b ∉ Fr) :
    ∃ a h₁ h₂, h.mutate r version cow = some (a, h₁) ∧ set h₁ a = some h₂ ∧
      Own W h₂ a (.branch ht s version k tl tr) ({a} ∪ (Fl ∪ Fr)) ∧
      Step W h (r.own ∪ (Fl ∪ Fr)) h₂ ({a} ∪ (Fl ∪ Fr)) := by
  obtain ⟨a, h₁, x, hm, hc, hW, hs, -, -, hne⟩ := mutate_shape hsh hg version
  obtain ⟨hl1, hal⟩ := hl.mutate hs (fun a ha => (hown a ha).1) hne
  obtain ⟨hr1, har⟩ := hr.mutate hs (fun a ha => (hown a ha).2) hne
  obtain ⟨h₂, he, hc2, hs2⟩ := hset hc hW
  exact ⟨a, h₁, h₂, hm, he, own_of_cell hc2 hW h0
    (hl1.step hs2 fun b hb hba => hal (hba ▸ hb)) (hr1.step hs2 fun b hb hba => har (hba ▸ hb))
    hal har hlr, (hs.trans hs2).union _⟩

end Mutate

section Rotations

variable [Sha256] {lh ls lv rh rs rv : Nat} {lk rk : Bytes} {tll tlr trl trr : Node}

theorem Rep.set_two {h₁ h₂ : Heap} {c : Ref} {n : Node} {G : Set Addr} {b : Addr} (hrep : Rep h c n G)
    (hs1 : Step W h {a} h₁ {a}) (hs2 : Step W h₁ {b} h₂ {b}) (ha : a ∉ G) (hb : b ∉ G) : Rep h₂ c n G := by
  have hrep1 := hrep.step hs1 fun d hd hda => ha (hda ▸ hd)
  exact hrep1.step hs2 fun d hd hdb => hb (hdb ▸ hd)

theorem rotateRight_own (ho : Own W h a (.branch ht s v k (.branch lh ls lv lk tll tlr) tr) F)
    (h0 : lh ≠ 0) (hg : Guarded W cow h F) (version : Nat) :
    ∃ b h' F', h.rotateRight a version cow = some (b, h') ∧
      Own W h' b (.mkBranch version lk tll (.mkBranch v k tlr tr)) F' ∧ Step W h F h' F' := by
  obtain ⟨x, cl, cr, Fl, Fr, hc, ha0, hl, hr, rfl, hal, har, hlr⟩ := ho.branch_inv
  obtain ⟨cll, clr, Fll, Flr, hsh, hll, hlr', rfl, hown, hdisj, -⟩ := hl.branch_inv
  have haF : a ∉ cl.own ∧ a ∉ Fll ∧ a ∉ Flr :=
    ⟨fun hm => hal (.inl hm), fun hm => hal (.inr (.inl hm)), fun hm => hal (.inr (.inr hm))⟩
  have ha := (List.getElem?_eq_some_iff.mp hc).1
  -- the new root: a copy of the left child, or that child itself
  obtain ⟨b, h₁, y, hm, hb, hbW, hs1, -, hright, hne⟩ := mutate_shape hsh
    (hg.mono fun b hb => .inr (.inl (.inl hb))) version
  have hab : a ≠ b := hne a ha haF.1
  have hc1 := hs1.get_eq hc haF.1
  obtain ⟨hll1, hbll⟩ := hll.mutate hs1 (fun c hc => (hown c hc).1) hne
  obtain ⟨hlr1, hblr⟩ := hlr'.mutate hs1 (fun c hc => (hown c hc).2) hne
  obtain ⟨hr1, hbr⟩ := hr.mutate hs1 (fun c hc => hlr c (.inl hc)) hne
  have hba : b ∉ {a} ∪ (Flr ∪ Fr) := by
    rintro (rfl | hmem | hmem)
    · exact hab rfl
    · exact hblr hmem
    · exact hbr hmem
  have hllF : ∀ c ∈ Fll, c ∉ {a} ∪ (Flr ∪ Fr) := by
    rintro d hd (rfl | hmem | hmem)
    · exact haF.2.1 hd
    · exact hdisj d hd hmem
    · exact hlr d (.inr (.inl hd)) hmem
  -- the old root takes over the inner subtree and becomes the right child
  obtain ⟨h₂, he2, hc2, hs2⟩ := setLeft_cell hc1 ho.writable clr
  have hb2 := hs2.get_eq hb (Ne.symm hab)
  obtain ⟨h3, he3, hb3, hs3⟩ := setRight_cell hb2 hbW (.mem a)
  have hc3 := hs3.get_eq hc2 hab
  have ho3 := own_of_cell hc3 ho.writable ha0 (hlr1.set_two hs2 hs3 haF.2.2 hblr)
    (hr1.set_two hs2 hs3 har hbr)
    haF.2.2 har fun c hc => hlr c (.inr (.inr hc))
  -- heights and sizes, bottom up
  obtain ⟨h4, he4, ho4, hs4⟩ := updateHeightSize_own ho3
  have hll4 := (hll1.set_two hs2 hs3 haF.2.1 hbll).step hs4 fun c hc hca => haF.2.1 (hca ▸ hc)
  obtain ⟨h5, he5, ho5, hs5⟩ := updateHeightSize_own
    (own_of_cell (hs4.get_eq hb3 (Ne.symm hab)) hbW h0 hll4 ho4.rep hbll hba hllF)
  refine ⟨b, h5, _, ?_, ho5, ?_⟩
  · have hleft : h.left (.mem a) = some cl := by
      rw [Heap.left, hc]
      rfl
    simp only [Heap.rotateRight, hleft, hm, hright, he2, he3, he4, he5, Results.some_bind, Option.pure_def]
  · have hall : Step W h (cl.own ∪ ({a} ∪ (Fll ∪ Flr ∪ Fr))) h5 ({b} ∪ ({a} ∪ (Fll ∪ Flr ∪ Fr))) :=
      (hs1.union _).trans ((hs2.two hs3 (.inr (.inl rfl)) (.inl rfl)).trans
        (hs4.two hs5 (.inr (.inl rfl)) (.inl rfl)))
    refine hall.mono (le_of_eq ?_) (le_of_eq ?_) <;> ac_rfl

theorem rotateLeft_own (ho : Own W h a (.branch ht s v k tl (.branch rh rs rv rk trl trr)) F)
    (h0 : rh ≠ 0) (hg : Guarded W cow h F) (version : Nat) :
    ∃ b h' F', h.rotateLeft a version cow = some (b, h') ∧
      Own W h' b (.mkBranch version rk (.mkBranch v k tl trl) trr) F' ∧ Step W h F h' F' := by
  obtain ⟨x, cl, cr, Fl, Fr, hc, ha0, hl, hr, rfl, hal, har, hlr⟩ := ho.branch_inv
  obtain ⟨crl, crr, Frl, Frr, hsh, hrl, hrr, rfl, hown, hdisj, -⟩ := hr.branch_inv
  have haF : a ∉ cr.own ∧ a ∉ Frl ∧ a ∉ Frr :=
    ⟨fun hm => har (.inl hm), fun hm => har (.inr (.inl hm)), fun hm => har (.inr (.inr hm))⟩
  have ha := (List.getElem?_eq_some_iff.mp hc).1
  -- the new root: a copy of the right child, or that child itself
  obtain ⟨b, h₁, y, hm, hb, hbW, hs1, hleft, -, hne⟩ := mutate_shape hsh
    (hg.mono fun b hb => .inr (.inr (.inl hb))) version
  have hab : a ≠ b := hne a ha haF.1
  have hc1 := hs1.get_eq hc haF.1
  obtain ⟨hrl1, hbrl⟩ := hrl.mutate hs1 (fun c hc => (hown c hc).1) hne
  obtain ⟨hrr1, hbrr⟩ := hrr.mutate hs1 (fun c hc => (hown c hc).2) hne
  obtain ⟨hl1, hbl⟩ := hl.mutate hs1 (fun c hc hcl => hlr c hcl (.inl hc)) hne
  have hba : b ∉ {a} ∪ (Fl ∪ Frl) := by
    rintro (rfl | hmem | hmem)
    · exact hab rfl
    · exact hbl hmem
    · exact hbrl hmem
  have hrrF : ∀ d ∈ {a} ∪ (Fl ∪ Frl), d ∉ Frr := by
    rintro d (rfl | hmem | hmem) hd
    · exact haF.2.2 hd
    · exact hlr d hmem (.inr (.inr hd))
    · exact hdisj d hmem hd
  -- the old root takes over the inner subtree and becomes the left child
  obtain ⟨h₂, he2, hc2, hs2⟩ := setRight_cell hc1 ho.writable crl
  have hb2 := hs2.get_eq hb (Ne.symm hab)
  obtain ⟨h3, he3, hb3, hs3⟩ := setLeft_cell hb2 hbW (.mem a)
  have hc3 := hs3.get_eq hc2 hab
  have ho3 := own_of_cell hc3 ho.writable ha0 (hl1.set_two hs2 hs3 hal hbl)
    (hrl1.set_two hs2 hs3 haF.2.1 hbrl)
    hal haF.2.1 fun c hc hcr => hlr c hc (.inr (.inl hcr))
  -- heights and sizes, bottom up
  obtain ⟨h4, he4, ho4, hs4⟩ := updateHeightSize_own ho3
  have hrr4 := (hrr1.set_two hs2 hs3 haF.2.2 hbrr).step hs4 fun c hc hca => haF.2.2 (hca ▸ hc)
  obtain ⟨h5, he5, ho5, hs5⟩ := updateHeightSize_own
    (own_of_cell (hs4.get_eq hb3 (Ne.symm hab)) hbW h0 ho4.rep hrr4 hba hbrr hrrF)
  refine ⟨b, h5, _, ?_, ho5, ?_⟩
  · have hright : h.right (.mem a) = some cr := by
      rw [Heap.right, hc]
      rfl
    simp only [Heap.rotateLeft, hright, hm, hleft, he2, he3, he4, he5, Results.some_bind, Option.pure_def]
  · have hall : Step W h (cr.own ∪ ({a} ∪ (Fl ∪ Frl ∪ Frr))) h5 ({b} ∪ ({a} ∪ (Fl ∪ Frl ∪ Frr))) :=
      (hs1.union _).trans ((hs2.two hs3 (.inr (.inl rfl)) (.inl rfl)).trans
        (hs4.two hs5 (.inr (.inl rfl)) (.inl rfl)))
    refine hall.mono (le_of_eq ?_) (le_of_eq ?_) <;> ac_rfl

theorem mutate_own (hr : Rep h r (.branch ht s v k tl tr) F) (h0 : ht ≠ 0)
    (hg : Guarded W cow h F) (version : Nat) :
    ∃ a h' F', h.mutate r version cow = some (a, h') ∧
      Own W h' a (.branch ht s version k tl tr) F' ∧ Step W h F h' F' := by
  obtain ⟨cl, cr, Fl, Fr, hsh, hl, hr', rfl, hown, hlr, -⟩ := hr.branch_inv
  obtain ⟨a, h₁, x, hm, hc, hW, hs, -, -, hne⟩ := mutate_shape hsh
    (hg.mono fun b hb => .inl hb) version
  obtain ⟨hl1, hal⟩ := hl.mutate hs (fun a ha => (hown a ha).1) hne
  obtain ⟨hr1, har⟩ := hr'.mutate hs (fun a ha => (hown a ha).2) hne
  exact ⟨a, h₁, _, hm, own_of_cell hc hW h0 hl1 hr1 hal har hlr, hs.union _⟩

theorem calcBalance_rep (hr : Rep h r (.branch ht s v k tl tr) F) :
    h.calcBalance r = some ((tl.height : Int) - tr.height) := by
  obtain ⟨cl, cr, Fl, Fr, hsh, hl, hr', -⟩ := hr.branch_inv
  simp only [Heap.calcBalance, hsh.left, hsh.right, hl.height_eq, hr'.height_eq,
    Results.some_bind, Option.pure_def]

/-- The left child of an owned branch is taken over by `Mutate` and rotated to the left. -/
theorem rotateLeftChild_own {h' s' lrv : Nat} {lrk : Bytes} {tlrl tlrr : Node}
    (ho : Own W h a (.branch ht s v k (.branch lh ls lv lk tll (.branch h' s' lrv lrk tlrl tlrr)) tr)
      F) (h0 : lh ≠ 0) (h0' : h' ≠ 0) (hg : Guarded W cow h F) (version : Nat) :
    ∃ cl n h₁ n' h₂ h3 F', h.left (.mem a) = some cl ∧ h.mutate cl version cow = some (n, h₁) ∧
      h₁.rotateLeft n version cow = some (n', h₂) ∧ h₂.setLeft a (.mem n') = some h3 ∧
      Own W h3 a (.branch ht s v k
        (.mkBranch version lrk (.mkBranch version lk tll tlrl) tlrr) tr) F' ∧ Step W h F h3 F' := by
  obtain ⟨x, cl, cr, Fl, Fr, hc, ha0, hl, hr, rfl, hal, har, hlr⟩ := ho.branch_inv
  have ha := (List.getElem?_eq_some_iff.mp hc).1
  have hgl : Guarded W cow h Fl := hg.mono fun b hb => .inr (.inl hb)
  obtain ⟨n, h₁, F1, he1, ho1, hs1⟩ := mutate_own hl h0 hgl version
  obtain ⟨n', h₂, F2, he2, ho2, hs2⟩ := rotateLeft_own ho1 h0' (hgl.step hs1) version
  have hs := hs1.trans hs2
  have hfresh : ∀ b < h.length, b ∉ Fl → b ∉ F2 := fun b hb hbl hb2 =>
    (hs.footprint b hb2).elim hbl fun hge => by omega
  obtain ⟨h3, he3, hc3, hs3⟩ := setLeft_cell (hs.get_eq hc hal) ho.writable (.mem n')
  have ha2 : a ∉ F2 := hfresh a ha hal
  have hl3 := ho2.rep.step hs3 fun b hb hba => ha2 (hba ▸ hb)
  have hr3 := (hr.step hs fun b hb hbl => hlr b hbl hb).step hs3 fun b hb hba => har (hba ▸ hb)
  refine ⟨cl, n, h₁, n', h₂, h3, _, ?_, he1, he2, he3, own_of_cell hc3 ho.writable ha0 hl3 hr3 ha2 har
    fun b hb hbr => hfresh b (hr.lt_length b hbr) (fun hbl => hlr b hbl hbr) hb, ?_⟩
  · rw [Heap.left, hc]
    rfl
  · have hall := (hs.union ({a} ∪ Fr)).trans (hs3.within fun b hb => .inr (.inl hb))
    refine hall.mono (le_of_eq ?_) (le_of_eq ?_) <;> ac_rfl

/-- The right child of an owned branch is taken over by `Mutate` and rotated to the right. -/
theorem rotateRightChild_own {h' s' rlv : Nat} {rlk : Bytes} {trll trlr : Node}
    (ho : Own W h a (.branch ht s v k tl (.branch rh rs rv rk (.branch h' s' rlv rlk trll trlr) trr))
      F) (h0 : rh ≠ 0) (h0' : h' ≠ 0) (hg : Guarded W cow h F) (version : Nat) :
    ∃ cr n h₁ n' h₂ h3 F', h.right (.mem a) = some cr ∧ h.mutate cr version cow = some (n, h₁) ∧
      h₁.rotateRight n version cow = some (n', h₂) ∧ h₂.setRight a (.mem n') = some h3 ∧
      Own W h3 a (.branch ht s v k tl
        (.mkBranch version rlk trll (.mkBranch version rk trlr trr))) F' ∧ Step W h F h3 F' := by
  obtain ⟨x, cl, cr, Fl, Fr, hc, ha0, hl, hr, rfl, hal, har, hlr⟩ := ho.branch_inv
  have ha := (List.getElem?_eq_some_iff.mp hc).1
  have hgr : Guarded W cow h Fr := hg.mono fun b hb => .inr (.inr hb)
  obtain ⟨n, h₁, F1, he1, ho1, hs1⟩ := mutate_own hr h0 hgr version
  obtain ⟨n', h₂, F2, he2, ho2, hs2⟩ := rotateRight_own ho1 h0' (hgr.step hs1) version
  have hs := hs1.trans hs2
  have hfresh : ∀ b < h.length, b ∉ Fr → b ∉ F2 := fun b hb hbr hb2 =>
    (hs.footprint b hb2).elim hbr fun hge => by omega
  obtain ⟨h3, he3, hc3, hs3⟩ := setRight_cell (hs.get_eq hc har) ho.writable (.mem n')
  have ha2 : a ∉ F2 := hfresh a ha har
  have hr3 := ho2.rep.step hs3 fun b hb hba => ha2 (hba ▸ hb)
  have hl3 := (hl.step hs fun b hb hbr => hlr b hb hbr).step hs3 fun b hb hba => hal (hba ▸ hb)
  refine ⟨cr, n, h₁, n', h₂, h3, _, ?_, he1, he2, he3, own_of_cell hc3 ho.writable ha0 hl3 hr3 hal ha2
    fun b hb => hfresh b (hl.lt_length b hb) (hlr b hb), ?_⟩
  · rw [Heap.right, hc]
    rfl
  · have hall := (hs.union ({a} ∪ Fl)).trans (hs3.within fun b hb => .inr (.inl hb))
    refine hall.mono (le_of_eq ?_) (le_of_eq ?_) <;> ac_rfl

omit [Sha256] in
theorem Node.Balanced.height_ne_zero (hb : Node.Balanced (.branch ht s v k tl tr)) : ht ≠ 0 := by
  obtain ⟨-, -, hh, -, -⟩ := hb
  omega

theorem reBalance_own (ho : Own W h a (.mkBranch v k tl tr) F) (hl : tl.Balanced) (hr : tr.Balanced)
    (h1 : tl.height ≤ tr.height + 2) (h2 : tr.height ≤ tl.height + 2) (hg : Guarded W cow h F)
    (version : Nat) :
    ∃ b h' F', h.reBalance a version cow = some (b, h') ∧
      Own W h' b (Node.reBalance version (.mkBranch v k tl tr)) F' ∧ Step W h F h' F' := by
  have hbal : h.calcBalance (.mem a) = some ((tl.height : Int) - tr.height) := calcBalance_rep ho.rep
  obtain ⟨x, cl, cr, Fl, Fr, hc, ha0, hrl, hrr, hF, -⟩ := ho.branch_inv
  have hleft : h.left (.mem a) = some cl := by rw [Heap.left, hc]; rfl
  have hright : h.right (.mem a) = some cr := by rw [Heap.right, hc]; rfl
  have hreb := Node.reBalance_mkBranch version v k hl hr h1 h2
  generalize Node.reBalance version (.mkBranch v k tl tr) = n at hreb
  -- the outcome of `reBalance` on values says which branch the code takes
  cases hreb with
  | same hle hge =>
    refine ⟨a, h, F, ?_, ho, Step.refl W h F⟩
    simp only [Heap.reBalance, hbal, Results.some_bind, Option.pure_def]
    rw [if_neg (by omega), if_neg (by omega)]
  | @leftLeft lh ls lv lk tll tlr _ hh hi =>
    obtain ⟨b, h', F', he, ho', hs⟩ := rotateRight_own ho hl.height_ne_zero hg version
    obtain ⟨-, -, hlh, -, -⟩ := hl
    refine ⟨b, h', F', ?_, ho', hs⟩
    simp only [Heap.reBalance, hbal, hleft, calcBalance_rep hrl, Results.some_bind, Node.height_branch]
    rw [if_pos (by omega), if_pos (by omega), he]
  | @leftRight lh ls lv h' s' lrv lk lrk tll tlrl tlrr _ hh hi =>
    obtain ⟨-, hblr, hlh, -, -⟩ := id hl
    obtain ⟨cl', n, h₁, n', h₂, h3, F3, hcl, he1, he2, he3, ho3, hs3⟩ :=
      rotateLeftChild_own ho hl.height_ne_zero hblr.height_ne_zero hg version
    cases hleft.symm.trans hcl
    obtain ⟨b, h4, F4, he4, ho4, hs4⟩ := rotateRight_own ho3 (Nat.succ_ne_zero _) (hg.step hs3)
      version
    obtain ⟨-, -, hlrh, -, -⟩ := hblr
    refine ⟨b, h4, F4, ?_, ho4, hs3.trans hs4⟩
    simp only [Heap.reBalance, hbal, hleft, calcBalance_rep hrl, Results.some_bind, Node.height_branch, he1, he2, he3, he4]
    simp only [Node.height_branch] at hlh
    rw [if_pos (by omega), if_neg (by omega)]
  | @rightRight rh rs rv rk _ trl trr hh hi =>
    obtain ⟨b, h', F', he, ho', hs⟩ := rotateLeft_own ho hr.height_ne_zero hg version
    obtain ⟨-, -, hrh, -, -⟩ := hr
    refine ⟨b, h', F', ?_, ho', hs⟩
    simp only [Heap.reBalance, hbal, hright, calcBalance_rep hrr, Results.some_bind, Node.height_branch]
    rw [if_neg (by omega), if_pos (by omega), if_pos (by omega), he]
  | @rightLeft rh rs rv h' s' rlv rk rlk _ trll trlr trr hh hi =>
    obtain ⟨hbrl, -, hrh, -, -⟩ := id hr
    obtain ⟨cr', n, h₁, n', h₂, h3, F3, hcr, he1, he2, he3, ho3, hs3⟩ :=
      rotateRightChild_own ho hr.height_ne_zero hbrl.height_ne_zero hg version
    cases hright.symm.trans hcr
    obtain ⟨b, h4, F4, he4, ho4, hs4⟩ := rotateLeft_own ho3 (Nat.succ_ne_zero _) (hg.step hs3)
      version
    obtain ⟨-, -, hrlh, -, -⟩ := hbrl
    refine ⟨b, h4, F4, ?_, ho4, hs3.trans hs4⟩
    simp only [Heap.reBalance, hbal, hright, calcBalance_rep hrr, Results.some_bind, Node.height_branch, he1, he2, he3, he4]
    simp only [Node.height_branch] at hrh
    rw [if_neg (by omega), if_pos (by omega), if_neg (by omega)]

end Rotations

end CronosStore.Memiavl
