import CronosStore.Memiavl.HeapOps

/-!
# Setting and removing on the heap

`setRecursive` and `removeRecursive` on the heap, by induction on the tree that the node
represents. The child's result comes first, under the footprint of the child; then the node
is taken over by `Mutate` and relinked, and the whole stays within the node's footprint.
-/

namespace CronosStore.Memiavl

open Foundation CellHeap Option

variable [Sha256] {W F F' Fl Fr G : Set Addr} {cow ht s v depth : Nat} {k : Bytes} {h h' : Heap}
  {a : Addr} {r cl cr : Ref} {t tl tr : Node}

/-- What was disjoint from a footprint stays disjoint from what the operation leaves. -/
theorem Rep.disjoint_step (hrep : Rep h r t F) (hs : Step W h G h' F') (hd : ∀ b ∈ F, b ∉ G) :
    ∀ b ∈ F, b ∉ F' := fun b hb hb' =>
  (hs.footprint b hb').elim (hd b hb) fun hge => Nat.not_lt.mpr hge (hrep.lt_length b hb)

omit [Sha256] in
theorem Shape.own_lt (hsh : Shape h r ht s v k cl cr) : ∀ b ∈ r.own, b < h.length := by
  cases r with
  | persisted p => exact fun b hb => hb.elim
  | mem a =>
    rintro b rfl
    obtain ⟨x, hash, hc⟩ := hsh.cell b rfl
    exact (List.getElem?_eq_some_iff.mp hc).1

omit [Sha256] in
theorem Shape.step (hsh : Shape h r ht s v k cl cr) (hs : Step W h G h' F')
    (hown : ∀ b ∈ r.own, b ∉ G) : Shape h' r ht s v k cl cr ∧ ∀ b ∈ r.own, b ∉ F' := by
  refine ⟨hsh.congr fun b hb => hs.frame b (hsh.own_lt b hb) (.inl (hown b hb)), fun b hb hb' => ?_⟩
  exact (hs.footprint b hb').elim (hown b hb) fun hge => Nat.not_lt.mpr hge (hsh.own_lt b hb)

section

variable (hsh : Shape h r ht s v k cl cr) (h0 : ht ≠ 0) (hown : ∀ b ∈ r.own, b ∉ Fl ∧ b ∉ Fr)
  (hlr : ∀ b ∈ Fl, b ∉ Fr) (hg : Guarded W cow h (r.own ∪ (Fl ∪ Fr)))

include hsh h0 hown hlr hg

/-- The branch takes over what became of its left child. -/
theorem relinkLeft {nl : Ref} {tl' : Node} {Fl' : Set Addr} (hr : Rep h cr tr Fr)
    (hs : Step W h Fl h' Fl') (hl' : Rep h' nl tl' Fl') (version : Nat) :
    ∃ a h₁ h₂ F', h'.mutate r version cow = some (a, h₁) ∧ h₁.setLeft a nl = some h₂ ∧
      Own W h₂ a (.branch ht s version k tl' tr) F' ∧ Step W h (r.own ∪ (Fl ∪ Fr)) h₂ F' := by
  obtain ⟨hsh', hown'⟩ := hsh.step hs fun b hb => (hown b hb).1
  have hdisj : ∀ b ∈ Fr, b ∉ Fl := fun b hb hbl => hlr b hbl hb
  have hs' : Step W h (r.own ∪ (Fl ∪ Fr)) h' (r.own ∪ (Fl' ∪ Fr)) := by
    refine (hs.union (r.own ∪ Fr)).mono (le_of_eq ?_) (le_of_eq ?_) <;> ac_rfl
  obtain ⟨a, h₁, h₂, he1, he2, ho, hs2⟩ := mutate_set (fun hc hW => setLeft_cell hc hW nl)
    hsh' h0 ((hg.step hs').mono fun b hb => .inl hb) hl' (hr.step hs hdisj)
    (fun b hb => ⟨hown' b hb, (hown b hb).2⟩)
    (fun b hb hbr => hr.disjoint_step hs hdisj b hbr hb)
  exact ⟨a, h₁, h₂, _, he1, he2, ho, hs'.trans hs2⟩

theorem relinkRight {nr : Ref} {tr' : Node} {Fr' : Set Addr} (hl : Rep h cl tl Fl)
    (hs : Step W h Fr h' Fr') (hr' : Rep h' nr tr' Fr') (version : Nat) :
    ∃ a h₁ h₂ F', h'.mutate r version cow = some (a, h₁) ∧ h₁.setRight a nr = some h₂ ∧
      Own W h₂ a (.branch ht s version k tl tr') F' ∧ Step W h (r.own ∪ (Fl ∪ Fr)) h₂ F' := by
  obtain ⟨hsh', hown'⟩ := hsh.step hs fun b hb => (hown b hb).2
  have hs' : Step W h (r.own ∪ (Fl ∪ Fr)) h' (r.own ∪ (Fl ∪ Fr')) := by
    refine (hs.union (r.own ∪ Fl)).mono (le_of_eq ?_) (le_of_eq ?_) <;> ac_rfl
  obtain ⟨a, h₁, h₂, he1, he2, ho, hs2⟩ := mutate_set (fun hc hW => setRight_cell hc hW nr)
    hsh' h0 ((hg.step hs').mono fun b hb => .inl hb) (hl.step hs hlr) hr'
    (fun b hb => ⟨(hown b hb).1, hown' b hb⟩) (hl.disjoint_step hs hlr)
  exact ⟨a, h₁, h₂, _, he1, he2, ho, hs'.trans hs2⟩

end

theorem rebalance_own (ho : Own W h a (.branch ht s v k tl tr) F) (hl : tl.Balanced)
    (hr : tr.Balanced) (h1 : tl.height ≤ tr.height + 2) (h2 : tr.height ≤ tl.height + 2)
    (hg : Guarded W cow h F) (version : Nat) :
    ∃ h₁ b h₂ F', h.updateHeightSize a = some h₁ ∧ h₁.reBalance a version cow = some (b, h₂) ∧
      Own W h₂ b (Node.reBalance version (.mkBranch v k tl tr)) F' ∧ Step W h F h₂ F' := by
  obtain ⟨h₁, he1, ho1, hs1⟩ := updateHeightSize_own ho
  obtain ⟨x, cl, cr, Fl, Fr, -, -, -, -, rfl, -⟩ := ho.branch_inv
  have hs1' := hs1.within (G := {a} ∪ (Fl ∪ Fr)) fun b hb => .inl hb
  obtain ⟨b, h₂, F', he2, ho2, hs2⟩ := reBalance_own ho1 hl hr h1 h2 (hg.step hs1') version
  exact ⟨h₁, b, h₂, F', he1, he2, ho2, hs1'.trans hs2⟩

/-! ## `setRecursive` -/

theorem alloc_pair (W : Set Addr) (hr : Rep h r t F) (key : Bytes) (value : Slice) (version : Nat)
    (c : MemNode) :
    ∃ h₁ h₂, h.newLeafNode key value version = (h.length, h₁) ∧
      h₁.alloc c = (h.length + 1, h₂) ∧
      Step W h F h₂ ({h.length + 1} ∪ ({h.length} ∪ F)) ∧ h₂[h.length + 1]? = some c ∧
      Rep h₂ (.mem h.length) (.leaf version key value) {h.length} ∧ Rep h₂ r t F := by
  set leaf : MemNode := ⟨0, 1, version, key, value, none, none, none⟩
  have hlen : (h ++ [leaf]).length = h.length + 1 := by simp
  have hs : Step W h F (h ++ [leaf] ++ [c]) ({h.length + 1} ∪ ({h.length} ∪ F)) := by
    have := (Step.alloc_union W h leaf F).trans (Step.alloc_union W (h ++ [leaf]) c _)
    rwa [hlen] at this
  have hold : ∀ b < h.length, (h ++ [leaf] ++ [c])[b]? = h[b]? := fun b hb => by
    rw [List.append_assoc, List.getElem?_append_left hb]
  have hnew : (h ++ [leaf] ++ [c])[h.length]? = some leaf := by
    rw [List.getElem?_append_left (by omega)]
    exact List.getElem?_concat_length
  refine ⟨h ++ [leaf], h ++ [leaf] ++ [c], rfl, ?_, hs, ?_, .leaf hnew (by simp [HashOk]),
    hr.congr fun b hb => hold b (hr.lt_length b hb)⟩
  · rw [Heap.alloc, hlen]
  · rw [← hlen]
    exact List.getElem?_concat_length

theorem setRecursive_leaf {x : Slice} (hr : Rep h r (.leaf v k x) F) (hg : Guarded W cow h F)
    (key : Bytes) (value : Slice) (version : Nat) :
    ∃ a h' F', Heap.setRecursive key value version cow (depth + 1) h r =
        some ((a, (Node.setRecursive key value version (.leaf v k x)).2), h') ∧
      Rep h' (.mem a) (Node.setRecursive key value version (.leaf v k x)).1 F' ∧
      Step W h F h' F' := by
  have hkey : h.key r = some k := hr.key_eq
  have hleaf : h.isLeaf r = some true := hr.isLeaf_eq
  have hF : ∀ b ∈ F, b < h.length := hr.lt_length
  simp only [Heap.setRecursive, hkey, hleaf, Results.some_bind, if_true,
    Node.setRecursive]
  split_ifs with h1 h2
  · obtain ⟨h₁, h₂, he1, he2, hs, hc, hnew, hold⟩ := alloc_pair W hr key value version
      ⟨1, 2, version, k, none, some (.mem h.length), some r, none⟩
    rw [he1]
    dsimp only
    rw [he2]
    refine ⟨h.length + 1, h₂, _, rfl, .branch hc (by decide) hnew hold ?_ ?_ ?_ (by simp [HashOk]), hs⟩
    · exact fun hb => absurd hb (Nat.succ_ne_self _)
    · exact fun hb => Nat.not_lt.mpr (Nat.le_succ _) (hF _ hb)
    · rintro b rfl hb
      exact Nat.lt_irrefl _ (hF _ hb)
  · obtain ⟨h₁, h₂, he1, he2, hs, hc, hnew, hold⟩ := alloc_pair W hr key value version
      ⟨1, 2, version, key, none, some r, some (.mem h.length), none⟩
    rw [he1]
    dsimp only
    rw [he2]
    refine ⟨h.length + 1, h₂, _, rfl, .branch hc (by decide) hold hnew ?_ ?_ ?_ (by simp [HashOk]),
      hs.mono le_rfl (le_of_eq (congrArg _ (Set.union_comm _ _)))⟩
    · exact fun hb => Nat.not_lt.mpr (Nat.le_succ _) (hF _ hb)
    · exact fun hb => absurd hb (Nat.succ_ne_self _)
    · rintro b hb rfl
      exact Nat.lt_irrefl _ (hF _ hb)
  · obtain ⟨a, h₁, l', r', he, hc, hW, hs⟩ := mutate_leaf hr hg version
    have ha := (List.getElem?_eq_some_iff.mp hc).1
    have hs' := Step.set h₁ ⟨0, 1, version, k, value, l', r', none⟩ hW
    refine ⟨a, _, _, ?_, .leaf (List.getElem?_set_self ha) (by simp [HashOk]), hs.trans hs'⟩
    simp only [he, Heap.setValue, hc, bind_some, bind_eq_bind, pure_def]

theorem setRecursive_rep (hr : Rep h r t F) (hb : t.Balanced) (hg : Guarded W cow h F)
    (hdepth : t.height < depth) (key : Bytes) (value : Slice) (version : Nat) :
    ∃ a h' F', Heap.setRecursive key value version cow depth h r =
        some ((a, (t.setRecursive key value version).2), h') ∧
      Rep h' (.mem a) (t.setRecursive key value version).1 F' ∧ Step W h F h' F' := by
  induction t generalizing h r F depth with
  | leaf v k x =>
    cases depth with
    | zero => omega
    | succ depth => exact setRecursive_leaf hr hg key value version
  | branch ht s v k tl tr ihl ihr =>
    have hkey : h.key r = some k := hr.key_eq
    have hleaf : h.isLeaf r = some false := hr.isLeaf_eq
    have h0 := hb.height_ne_zero
    obtain ⟨cl, cr, Fl, Fr, hsh, hl, hr', rfl, hown, hlr, -⟩ := hr.branch_inv
    obtain ⟨hbl, hbr, hh, h1, h2⟩ := hb
    rw [Node.height_branch] at hdepth
    cases depth with
    | zero => omega
    | succ depth =>
      by_cases hk : key < k
      · obtain ⟨a, h₁, Fl', he, hl', hs⟩ := ihl hl hbl (hg.mono fun b hb => .inr (.inl hb))
          (show tl.height < depth by omega)
        obtain ⟨-, hb', hlo, hhi, -⟩ := Node.setRecursive_outcome key value version hbl
        obtain ⟨n, h₂, h3, F3, he2, he3, ho, hs3⟩ :=
          relinkLeft hsh h0 hown hlr hg hr' hs hl' version
        simp only [Heap.setRecursive, hkey, hleaf, hsh.left, he, he2, he3, bind_eq_bind,
          bind_some, Bool.false_eq_true, if_false, if_pos hk, Node.setRecursive,
          pure_def]
        generalize Node.setRecursive key value version tl = res at he hl' hb' hlo hhi ho
        obtain ⟨tl', updated⟩ := res
        cases updated with
        | true => exact ⟨n, h3, F3, rfl, ho.rep, hs3⟩
        | false =>
          obtain ⟨h4, b, h5, F5, he4, he5, ho5, hs5⟩ := rebalance_own ho hb' hbr (by omega)
            (by omega) (hg.step hs3) version
          refine ⟨b, h5, F5, ?_, ho5.rep, hs3.trans hs5⟩
          simp only [Bool.false_eq_true, if_false, he4, he5, bind_some]
      · obtain ⟨a, h₁, Fr', he, hr'', hs⟩ := ihr hr' hbr (hg.mono fun b hb => .inr (.inr hb))
          (show tr.height < depth by omega)
        obtain ⟨-, hb', hlo, hhi, -⟩ := Node.setRecursive_outcome key value version hbr
        obtain ⟨n, h₂, h3, F3, he2, he3, ho, hs3⟩ :=
          relinkRight hsh h0 hown hlr hg hl hs hr'' version
        simp only [Heap.setRecursive, hkey, hleaf, hsh.right, he, he2, he3, bind_eq_bind,
          bind_some, Bool.false_eq_true, if_false, if_neg hk, Node.setRecursive,
          pure_def]
        generalize Node.setRecursive key value version tr = res at he hr'' hb' hlo hhi ho
        obtain ⟨tr', updated⟩ := res
        cases updated with
        | true => exact ⟨n, h3, F3, rfl, ho.rep, hs3⟩
        | false =>
          obtain ⟨h4, b, h5, F5, he4, he5, ho5, hs5⟩ := rebalance_own ho hbl hb' (by omega)
            (by omega) (hg.step hs3) version
          refine ⟨b, h5, F5, ?_, ho5.rep, hs3.trans hs5⟩
          simp only [Bool.false_eq_true, if_false, he4, he5, bind_some]

/-! ## `removeRecursive` -/

/-- `removeRecursive` on the heap is `removeRecursive` of the value, and does nothing when
there is nothing to remove. -/
theorem removeRecursive_rep (hr : Rep h r t F) (hv : t.Valid) (hg : Guarded W cow h F)
    (hdepth : t.height < depth) (key : Bytes) (version : Nat) :
    ∃ root h' F', Heap.removeRecursive key version cow depth h r =
        some (((t.removeRecursive key version).1, root, (t.removeRecursive key version).2.2), h') ∧
      RepRoot h' root (t.removeRecursive key version).2.1 F' ∧ Step W h F h' F' ∧
      ((t.removeRecursive key version).1 = none → h' = h ∧ root = some r) := by
  induction t generalizing h r F depth with
  | leaf v k x =>
    have hkey : h.key r = some k := hr.key_eq
    have hleaf : h.isLeaf r = some true := hr.isLeaf_eq
    have hval : h.value r = some x := hr.value_eq
    cases depth with
    | zero => omega
    | succ depth =>
      simp only [Heap.removeRecursive, hkey, hleaf, hval, bind_eq_bind, bind_some,
        if_true, Node.removeRecursive, pure_def]
      split_ifs with hk
      · exact ⟨none, h, ∅, rfl, .none, (Step.refl W h F).mono le_rfl (Set.empty_subset _),
          fun hx => absurd hx (hv.stored (k, x) (List.mem_singleton_self _))⟩
      · exact ⟨some r, h, F, rfl, .some hr, Step.refl W h F, fun _ => ⟨rfl, rfl⟩⟩
  | branch ht s v k tl tr ihl ihr =>
    have hkey : h.key r = some k := hr.key_eq
    have hleaf : h.isLeaf r = some false := hr.isLeaf_eq
    have h0 := hv.balanced.height_ne_zero
    obtain ⟨cl, cr, Fl, Fr, hsh, hl, hr', rfl, hown, hlr, -⟩ := hr.branch_inv
    obtain ⟨hbl, hbr, hh, h1, h2⟩ := id hv.balanced
    have hvl := hv.left
    have hvr := hv.right
    rw [Node.height_branch] at hdepth
    cases depth with
    | zero => omega
    | succ depth =>
      by_cases hk : key < k
      · obtain ⟨root, h₁, Fl', he, hroot, hs, hsame⟩ := ihl hl hvl
          (hg.mono fun b hb => .inr (.inl hb)) (show tl.height < depth by omega)
        obtain ⟨-, -, hout⟩ := Node.removeRecursive_outcome key version hbl hvl.ordered hvl.stored
        simp only [Heap.removeRecursive, hkey, hleaf, hsh.left, he, bind_eq_bind,
          bind_some, Bool.false_eq_true, if_false, if_pos hk, Node.removeRecursive]
        generalize Node.removeRecursive key version tl = res at he hroot hsame hout
        obtain ⟨value, newLeft, newKey⟩ := res
        cases value with
        | none =>
          obtain ⟨rfl, -⟩ := hsame rfl
          exact ⟨some r, h₁, _, rfl, .some hr, Step.refl W h₁ _, fun _ => ⟨rfl, rfl⟩⟩
        | some value =>
          cases hroot with
          | none =>
            obtain ⟨hsh', -⟩ := hsh.step hs fun b hb => (hown b hb).1
            refine ⟨some cr, h₁, Fr, ?_, .some (hr'.step hs fun b hb hbl => hlr b hbl hb), ?_,
              fun h => absurd h (by simp)⟩
            · simp only [hsh'.right, bind_some, pure_def]
            · exact (hs.union Fr).mono (fun b hb => .inr hb) fun b hb => .inr hb
          | @some nl tl' _ hl' =>
            obtain ⟨hb', hle, hge⟩ := hout tl' rfl
            obtain ⟨n, h₂, h3, F3, he2, he3, ho, hs3⟩ :=
              relinkLeft hsh h0 hown hlr hg hr' hs hl' version
            obtain ⟨h4, b, h5, F5, he4, he5, ho5, hs5⟩ := rebalance_own ho hb' hbr (by omega)
              (by omega) (hg.step hs3) version
            refine ⟨some (.mem b), h5, F5, ?_, .some ho5.rep, hs3.trans hs5,
              fun h => absurd h (by simp)⟩
            simp only [he2, he3, he4, he5, bind_some, pure_def]
      · obtain ⟨root, h₁, Fr', he, hroot, hs, hsame⟩ := ihr hr' hvr
          (hg.mono fun b hb => .inr (.inr hb)) (show tr.height < depth by omega)
        obtain ⟨-, -, hout⟩ := Node.removeRecursive_outcome key version hbr hvr.ordered hvr.stored
        simp only [Heap.removeRecursive, hkey, hleaf, hsh.right, he, bind_eq_bind,
          bind_some, Bool.false_eq_true, if_false, if_neg hk, Node.removeRecursive]
        generalize Node.removeRecursive key version tr = res at he hroot hsame hout
        obtain ⟨value, newRight, newKey⟩ := res
        cases value with
        | none =>
          obtain ⟨rfl, -⟩ := hsame rfl
          exact ⟨some r, h₁, _, rfl, .some hr, Step.refl W h₁ _, fun _ => ⟨rfl, rfl⟩⟩
        | some value =>
          cases hroot with
          | none =>
            obtain ⟨hsh', -⟩ := hsh.step hs fun b hb => (hown b hb).2
            refine ⟨some cl, h₁, Fl, ?_, .some (hl.step hs hlr), ?_, fun h => absurd h (by simp)⟩
            · simp only [hsh'.left, bind_some, pure_def]
            · refine (hs.union Fl).mono (fun b hb => ?_) fun b hb => .inr hb
              exact hb.elim (fun hbr => .inr (.inr hbr)) fun hbl => .inr (.inl hbl)
          | @some nr tr' _ hr'' =>
            obtain ⟨hb', hle, hge⟩ := hout tr' rfl
            obtain ⟨n, h₂, h3, F3, he2, he3, ho, hs3⟩ :=
              relinkRight hsh h0 hown hlr hg hl hs hr'' version
            obtain ⟨h4, he4, ho4, hs4⟩ := setNewKey_own ho newKey
            obtain ⟨h5, b, h6, F6, he5, he6, ho6, hs6⟩ := rebalance_own ho4 hbl hb' (by omega)
              (by omega) ((hg.step hs3).step hs4) version
            refine ⟨some (.mem b), h6, F6, ?_, .some ho6.rep, hs3.trans (hs4.trans hs6),
              fun h => absurd h (by simp)⟩
            simp only [he2, he3, he4, he5, he6, bind_some, pure_def]

end CronosStore.Memiavl
