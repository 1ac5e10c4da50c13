import CronosStore.Memiavl.Block

/-!
# The order of the pending log

The root store hands over the change sets of a block sorted by the names of the stores, in
one piece or in several. A piece that comes later is merged: pairs go behind those of their
store, and a store that has none gets its place by a binary search. So the change sets stay
sorted by name, and which pairs there are for each store determines the pending log
(`InOrder.deref_eq`), whatever the pieces were.
-/

namespace CronosStore.Memiavl

open Foundation List

namespace PendingLog

open MultiTree List

structure InOrder (l : List NamedChangeSet) : Prop where
  sorted : l.Pairwise fun a b => a.name < b.name
  nonempty : ∀ cs ∈ l, cs.changeset ≠ []

namespace InOrder

variable {l l' A B : List NamedChangeSet} {cs : NamedChangeSet}

theorem nil : InOrder [] := ⟨List.Pairwise.nil, fun _ h => absurd h not_mem_nil⟩

theorem tail (h : InOrder (cs :: l)) : InOrder l :=
  ⟨h.sorted.tail, fun c hc => h.nonempty c (mem_cons_of_mem _ hc)⟩

theorem pairsFor_eq (h : InOrder l) (hcs : cs ∈ l) : pairsFor cs.name l = cs.changeset := by
  induction l with
  | nil => cases hcs
  | cons c l ih =>
    have hlt := (pairwise_cons.mp h.sorted).1
    rw [pairsFor_cons]
    rcases mem_cons.mp hcs with rfl | hmem
    · rw [if_pos rfl, pairsFor_eq_nil fun d hd => (hlt d hd).ne', append_nil]
    · rw [if_neg (hlt cs hmem).ne, ih h.tail hmem, nil_append]

theorem insert (h : InOrder (A ++ B)) (hcs : cs.changeset ≠ []) (hA : ∀ c ∈ A, c.name < cs.name)
    (hB : ∀ c ∈ B, cs.name < c.name) : InOrder (A ++ cs :: B) := by
  obtain ⟨hsA, hsB, hAB⟩ := pairwise_append.mp h.sorted
  refine ⟨pairwise_append.mpr ⟨hsA, pairwise_cons.mpr ⟨hB, hsB⟩, ?_⟩, ?_⟩
  · intro a ha b hb
    rcases mem_cons.mp hb with rfl | hb
    · exact hA a ha
    · exact hAB a ha b hb
  · intro c hc
    rcases mem_append.mp hc with hc | hc
    · exact h.nonempty c (mem_append_left _ hc)
    · rcases mem_cons.mp hc with rfl | hc
      · exact hcs
      · exact h.nonempty c (mem_append_right _ hc)

theorem extend (h : InOrder (A ++ cs :: B)) (pairs : ChangeSet) :
    InOrder (A ++ { cs with changeset := cs.changeset ++ pairs } :: B) := by
  obtain ⟨hsA, hsB, hAB⟩ := pairwise_append.mp h.sorted
  obtain ⟨hcB, hsB⟩ := pairwise_cons.mp hsB
  refine ⟨pairwise_append.mpr ⟨hsA, pairwise_cons.mpr ⟨hcB, hsB⟩, ?_⟩, ?_⟩
  · intro a ha b hb
    rcases mem_cons.mp hb with rfl | hb
    · exact hAB a ha cs mem_cons_self
    · exact hAB a ha b (mem_cons_of_mem _ hb)
  · intro c hc
    rcases mem_append.mp hc with hc | hc
    · exact h.nonempty c (mem_append_left _ hc)
    · rcases mem_cons.mp hc with rfl | hc
      · intro hnil
        exact h.nonempty cs (mem_append_right _ mem_cons_self) (append_eq_nil_iff.mp hnil).1
      · exact h.nonempty c (mem_append_right _ (mem_cons_of_mem _ hc))

end InOrder

end PendingLog

/-! ## The place of a new store -/

namespace PendingLog

variable {cells : List NamedChangeSet} {ptrs : List Nat} {p : PendingLog}

theorem follow_cons {ptr : Nat} (h : ptr < cells.length) :
    follow cells (ptr :: ptrs) = cells[ptr] :: follow cells ptrs := by
  simp [follow, getElem?_eq_getElem h]

section

variable (h : ∀ ptr ∈ ptrs, ptr < cells.length)
include h

theorem length_follow : (follow cells ptrs).length = ptrs.length := by
  induction ptrs with
  | nil => rfl
  | cons ptr ptrs ih =>
    obtain ⟨hptr, hptrs⟩ := forall_mem_cons.mp h
    rw [follow_cons hptr, length_cons, length_cons, ih hptrs]

theorem follow_take (k : Nat) :
    follow cells (ptrs.take k) = (follow cells ptrs).take k := by
  induction ptrs generalizing k with
  | nil => simp [follow]
  | cons ptr ptrs ih =>
    obtain ⟨hptr, hptrs⟩ := forall_mem_cons.mp h
    cases k with
    | zero => rfl
    | succ k => rw [take_succ_cons, follow_cons hptr, follow_cons hptr, take_succ_cons, ih hptrs]

theorem follow_drop (k : Nat) :
    follow cells (ptrs.drop k) = (follow cells ptrs).drop k := by
  induction ptrs generalizing k with
  | nil => simp [follow]
  | cons ptr ptrs ih =>
    obtain ⟨hptr, hptrs⟩ := forall_mem_cons.mp h
    cases k with
    | zero => rfl
    | succ k => rw [drop_succ_cons, follow_cons hptr, drop_succ_cons, ih hptrs]

theorem getElem?_follow (i : Nat) :
    (follow cells ptrs)[i]? = ptrs[i]?.bind fun ptr => cells[ptr]? := by
  induction ptrs generalizing i with
  | nil => simp [follow]
  | cons ptr ptrs ih =>
    obtain ⟨hptr, hptrs⟩ := forall_mem_cons.mp h
    rw [follow_cons hptr]
    cases i with
    | zero => simp [getElem?_eq_getElem hptr]
    | succ i => simpa using ih hptrs i

end

theorem Valid.nameAt_eq (h : p.Valid) (i : Nat) : p.nameAt i = (p.deref[i]?).map (·.name) := by
  rw [deref, getElem?_follow h.lt, nameAt]
  cases p.changesets[i]? with
  | none => rfl
  | some ptr => cases hc : p.cells[ptr]? <;> simp [hc]

theorem Valid.alloc (h : p.Valid) (cs : NamedChangeSet) :
    (p.alloc cs).2.Valid ∧ (p.alloc cs).2.deref = p.deref := by
  refine ⟨⟨h.nodup, fun ptr hp => ?_⟩, follow_append_cells h.lt⟩
  exact (h.lt ptr hp).trans (by simp [PendingLog.alloc])

end PendingLog

namespace DB

open PendingLog MultiTree List

variable {db db' : DB} {cs : NamedChangeSet}

theorem name_le_of_le {l : List NamedChangeSet} (h : l.Pairwise fun a b => a.name < b.name) {i j : Nat}
    {a b : NamedChangeSet} (ha : l[i]? = some a) (hb : l[j]? = some b) (hij : i ≤ j) : a.name ≤ b.name := by
  obtain ⟨hi, rfl⟩ := List.getElem?_eq_some_iff.mp ha
  obtain ⟨hj, rfl⟩ := List.getElem?_eq_some_iff.mp hb
  rcases Nat.eq_or_lt_of_le hij with rfl | hlt
  · exact le_rfl
  · exact (pairwise_iff_getElem.mp h i j hi hj hlt).le

theorem any_name_iff {l : List NamedChangeSet} {i : Nat} {q : Name → Bool} :
    ((l[i]?).map (·.name)).any q = true ↔ ∃ c, l[i]? = some c ∧ q c.name = true := by
  cases l[i]? <;> simp

theorem insertPendingChangeSet_place (hv : db.pendingLog.Valid) (hord : InOrder db.pendingLog.deref)
    (hfresh : ∀ c ∈ db.pendingLog.deref, c.name ≠ cs.name) :
    ∃ A B, db.pendingLog.changesets = A ++ B ∧
      (∀ c ∈ follow db.pendingLog.cells A, c.name < cs.name) ∧
      (∀ c ∈ follow db.pendingLog.cells B, cs.name < c.name) ∧ db.insertPendingChangeSet cs =
      { db with
        pendingLog := db.pendingLog.insertBetween A B cs
        cachedPendingChangesets := some ((cs.name, db.pendingLog.cells.length) ::
          db.cachedPendingChangesets.getD []) } := by
  obtain ⟨hv', hderef⟩ := hv.alloc cs
  have hname : ∀ i, (db.pendingLog.alloc cs).2.nameAt i = (db.pendingLog.deref[i]?).map (·.name) := by
    intro i
    rw [hv'.nameAt_eq, hderef]
  have hlen : db.pendingLog.deref.length = db.pendingLog.changesets.length := length_follow hv.lt
  unfold insertPendingChangeSet
  simp only [hname]
  split_ifs with h
  · refine ⟨db.pendingLog.changesets, [], (append_nil _).symm, ?_, nofun, rfl⟩
    intro c hc
    obtain ⟨i, hi, hci⟩ := getElem_of_mem hc
    have hi : i < db.pendingLog.deref.length := hi
    rcases h with h0 | hlast
    · have h0 : db.pendingLog.changesets.length = 0 := h0
      omega
    · obtain ⟨c', hc', hlt⟩ := any_name_iff.mp hlast
      have hlt : c'.name < cs.name := by simpa using hlt
      refine (name_le_of_le hord.sorted (List.getElem?_eq_some_iff.mpr ⟨hi, hci⟩) hc' ?_).trans_lt hlt
      show i ≤ db.pendingLog.changesets.length - 1
      omega
  · have hmono : ∀ i j, ((db.pendingLog.deref[i]?).map (·.name)).any (cs.name ≤ ·) = true → i ≤ j →
        j < db.pendingLog.changesets.length →
        ((db.pendingLog.deref[j]?).map (·.name)).any (cs.name ≤ ·) = true := by
      intro i j hi hij hj
      obtain ⟨c, hc, hle⟩ := any_name_iff.mp hi
      have hj := getElem?_eq_getElem (hlen.symm ▸ hj)
      exact any_name_iff.mpr ⟨_, hj, decide_eq_true ((of_decide_eq_true hle).trans
        (name_le_of_le hord.sorted hc hj hij))⟩
    obtain ⟨-, hlow, hhigh⟩ := search_spec hmono
    refine ⟨_, _, (take_append_drop _ _).symm, ?_, ?_, rfl⟩
    · intro c hc
      rw [follow_take hv.lt] at hc
      obtain ⟨i, hi, rfl⟩ := mem_take_iff_getElem.mp hc
      obtain ⟨hlt, hi⟩ := Nat.lt_min.mp hi
      by_contra hnot
      have htrue : ((db.pendingLog.deref[i]?).map (·.name)).any (cs.name ≤ ·) = true :=
        any_name_iff.mpr ⟨_, getElem?_eq_getElem hi, decide_eq_true (not_lt.mp hnot)⟩
      exact absurd ((hlow i hlt).symm.trans htrue) nofun
    · intro c hc
      have hne := hfresh c (deref_split (take_append_drop _ _).symm ▸ mem_append_right _ hc)
      rw [follow_drop hv.lt] at hc
      obtain ⟨i, hi, rfl⟩ := mem_drop_iff_getElem.mp hc
      have hi' := hi
      rw [length_follow hv.lt] at hi'
      rw [Nat.add_comm] at hi'
      obtain ⟨c', hc', hle⟩ := any_name_iff.mp (hhigh _ (Nat.le_add_right _ i) hi')
      obtain ⟨_, rfl⟩ := List.getElem?_eq_some_iff.mp hc'
      exact lt_of_le_of_ne (of_decide_eq_true hle) (Ne.symm hne)

theorem LogValid.applyChangeSet_inOrder (h : db.LogValid) (hord : InOrder db.pendingLog.deref)
    (name : Name) {pairs : ChangeSet} (hne : pairs ≠ []) (hro : db.readOnly = false) :
    ∃ db1, db.Merged name pairs db1 ∧ InOrder db1.pendingLog.deref ∧
      db.applyChangeSet name pairs = db1.onTrees (db.mtree.applyChangeSet name pairs) := by
  unfold DB.applyChangeSet
  rw [if_neg hne, if_neg (by simp [hro])]
  obtain ⟨cache, heq, h', hmap⟩ := h.ensure
  rw [heq]
  simp only
  cases hl : (cache.getD []).lookup name with
  | some ptr =>
    cases cache with
    | none => simp at hl
    | some map =>
      obtain ⟨hv, hm, hr, hu, hp, hn⟩ := h'.extend pairs rfl hmap hl
      refine ⟨_, ⟨hv, hm, hr, hu, hp, hn⟩, ?_, rfl⟩
      obtain ⟨A, B, c, hAB, hc, -, -⟩ := hmap.last name ptr hl
      obtain ⟨hold, hnew⟩ := h.valid.deref_extend hAB hc pairs
      rw [hold] at hord
      show InOrder (db.pendingLog.extend ptr pairs).deref
      rw [hnew]
      exact hord.extend pairs
  | none =>
    obtain ⟨hv, hm, hr, hu, hp, hn⟩ := h'.insert pairs hmap hl
    refine ⟨_, ⟨hv, hm, hr, hu, hp, hn⟩, ?_, by rw [hm]⟩
    obtain ⟨A, B, hAB, hA, hB, heq'⟩ :=
      @insertPendingChangeSet_place { db with cachedPendingChangesets := cache } ⟨name, pairs⟩
        h.valid hord (hmap.fresh name hl)
    rw [heq']
    show InOrder (db.pendingLog.insertBetween A B ⟨name, pairs⟩).deref
    rw [h.valid.deref_insertBetween hAB]
    rw [deref_split hAB] at hord
    exact hord.insert hne hA hB

structure Flushed (m : MultiTree) (db : DB) (changeSets : List NamedChangeSet) (db' : DB) : Prop
    extends db'.Pending m where
  inOrder : InOrder db'.pendingLog.deref
  pairs : ∀ n, pairsFor n db'.pendingLog.deref = pairsFor n db.pendingLog.deref ++ pairsFor n changeSets
  upgrades : db'.pendingLog.upgrades = db.pendingLog.upgrades
  readOnly : db'.readOnly = db.readOnly

variable {m : MultiTree}

theorem Pending.flushed (h : db.Pending m) (hord : InOrder db.pendingLog.deref) : Flushed m db [] db :=
  { h with inOrder := hord, pairs := fun _ => (append_nil _).symm, upgrades := rfl, readOnly := rfl }

theorem Pending.applyEach_flushed (h : db.Pending m) (hi : m.Indexed)
    (hord : InOrder db.pendingLog.deref) (hro : db.readOnly = false) {changeSets : List NamedChangeSet}
    (hne : ∀ cs ∈ changeSets, cs.changeset ≠ []) :
    (∃ db', db.applyEach changeSets = .ok db' ∧ Flushed m db changeSets db' ∧
      ∀ cs ∈ changeSets, m.HasTree cs.name) ∨
    (∃ f, db.applyEach changeSets = .error f) ∧ ∃ cs ∈ changeSets, ¬m.HasTree cs.name := by
  induction changeSets generalizing db with
  | nil => exact .inl ⟨db, rfl, h.flushed hord, fun _ hcs => absurd hcs not_mem_nil⟩
  | cons cs changeSets ih =>
    obtain ⟨hcs, hne⟩ := forall_mem_cons.mp hne
    obtain ⟨db1, hmerge, hord1, heq⟩ := h.toLogValid.applyChangeSet_inOrder hord cs.name hcs hro
    rw [DB.applyEach, heq]
    by_cases hhas : m.HasTree cs.name
    · have hok := heq.trans (onTrees_ok.mpr ⟨_, (h.indexed hi).applyChangeSet_ok.mpr
        ⟨h.mtree ▸ hasTree_applyPairs.mpr hhas, rfl⟩, rfl⟩)
      obtain ⟨hp2, hu2, hr2⟩ := h.applyChangeSet hi hok
      rw [← heq, hok]
      rcases ih hp2 hord1 (hr2.trans hro) hne with ⟨db', hdb', hf, hall⟩ | ⟨herror, c, hc, hnot⟩
      · refine .inl ⟨db', hdb', ?_, forall_mem_cons.mpr ⟨hhas, hall⟩⟩
        exact { hf with
          pairs := fun n => by
            rw [hf.pairs]
            show pairsFor n db1.pendingLog.deref ++ _ = _
            rw [hmerge.pairs, pairsFor_cons, append_assoc]
          upgrades := hf.upgrades.trans hu2
          readOnly := hf.readOnly.trans hr2 }
      · exact .inr ⟨herror, c, mem_cons_of_mem _ hc, hnot⟩
    · refine .inr ⟨?_, cs, mem_cons_self, hhas⟩
      cases hr : db.mtree.applyChangeSet cs.name cs.changeset with
      | error f => exact ⟨_, rfl⟩
      | ok t =>
        obtain ⟨hmem, -⟩ := (h.indexed hi).applyChangeSet_ok.mp hr
        exact absurd (h.hasTree hmem) hhas

theorem Pending.applyChangeSets_flushed (h : db.Pending m) (hi : m.Indexed)
    (hord : InOrder db.pendingLog.deref) {changeSets : List NamedChangeSet} (hcs : InOrder changeSets) :
    (∃ db', db.applyChangeSets changeSets = .ok db' ∧ Flushed m db changeSets db' ∧
      (changeSets = [] → db' = db) ∧
      ∀ cs ∈ changeSets, db.readOnly = false ∧ m.HasTree cs.name) ∨
    (∃ f, db.applyChangeSets changeSets = .error f) ∧
      ∃ cs ∈ changeSets, ¬(db.readOnly = false ∧ m.HasTree cs.name) := by
  by_cases hnil : changeSets = []
  · subst hnil
    exact .inl ⟨db, rfl, h.flushed hord, fun _ => rfl, fun _ hc => absurd hc not_mem_nil⟩
  cases hro : db.readOnly with
  | true =>
    obtain ⟨cs, hmem⟩ := exists_mem_of_ne_nil _ hnil
    refine .inr ⟨⟨⟨.readOnly, db⟩, ?_⟩, cs, hmem, by simp⟩
    rw [DB.applyChangeSets, if_neg hnil, if_pos hro]
  | false =>
    have hro' : ¬db.readOnly = true := by simp [hro]
    by_cases hempty : db.pendingLog.changesets = []
    · obtain ⟨hvalid, hderef, hmt, -, -⟩ := setPendingChangeSets_ok db hnil
      have heq : db.applyChangeSets changeSets =
          (db.setPendingChangeSets changeSets).onTrees (db.mtree.applyChangeSets changeSets) := by
        rw [DB.applyChangeSets, if_neg hnil, if_neg hro', if_pos hempty]
        simp only [hmt]
      have hold : db.pendingLog.deref = [] := by rw [deref, hempty]; rfl
      by_cases hall : ∀ cs ∈ changeSets, m.HasTree cs.name
      · have hok := heq.trans (onTrees_ok.mpr ⟨_, (h.indexed hi).applyChangeSets_ok.mpr
          ⟨fun cs hc => h.mtree ▸ hasTree_applyPairs.mpr (hall cs hc), rfl⟩, rfl⟩)
        obtain ⟨hp, hu, hr⟩ := h.applyChangeSets hi hok
        refine .inl ⟨_, hok, { hp with
          inOrder := by
            show InOrder (db.setPendingChangeSets changeSets).pendingLog.deref
            rwa [hderef]
          pairs := fun n => by
            show pairsFor n (db.setPendingChangeSets changeSets).pendingLog.deref = _
            rw [hderef, hold, pairsFor_nil, nil_append]
          upgrades := hu
          readOnly := hr }, fun hn => absurd hn hnil, fun cs hc => ⟨rfl, hall cs hc⟩⟩
      · simp only [not_forall] at hall
        obtain ⟨cs, hc, hnot⟩ := hall
        refine .inr ⟨?_, cs, hc, fun hand => hnot hand.2⟩
        rw [heq]
        cases hr : db.mtree.applyChangeSets changeSets with
        | error f => exact ⟨_, rfl⟩
        | ok t =>
          obtain ⟨hmem, -⟩ := (h.indexed hi).applyChangeSets_ok.mp hr
          exact absurd (h.hasTree (hmem cs hc)) hnot
    · have heq : db.applyChangeSets changeSets = db.applyEach changeSets := by
        rw [DB.applyChangeSets, if_neg hnil, if_neg hro', if_neg hempty]
      rw [heq]
      rcases h.applyEach_flushed hi hord hro hcs.nonempty with ⟨db', hdb', hf, hall⟩ | ⟨herror, c, hc, hnot⟩
      · exact .inl ⟨db', hdb', hf, fun hn => absurd hn hnil, fun cs hc => ⟨rfl, hall cs hc⟩⟩
      · exact .inr ⟨herror, c, hc, fun hand => hnot hand.2⟩

end DB

end CronosStore.Memiavl
