import CronosStore.Memiavl.Block

/-!
# Upgrades in several batches

The log of a block keeps one list of upgrades and applies it before all change sets. This is
the same as what was done in the block if

* no batch makes two stores share a name on its way (`distinctThroughout`): a deletion moves
  the last store to the place of the deleted one, and the order of stores between two
  batches differs from the order in one batch, so with two stores of one name another one
  may be found (`applyUpgrades_append` is the case without them);
* no store is deleted or renamed after it was written to (`Spares`): its pairs would go to a
  store that is not there, or to another one (`applyUpgrades_applyPairs`).
-/

namespace CronosStore.Memiavl

open Foundation List

def TreeNameUpgrade.Spares (u : TreeNameUpgrade) (S : Name → Prop) : Prop :=
  if u.delete then ¬S u.name else u.renameFrom ≠ [] → ¬S u.renameFrom

namespace NamedTree

def withPairs (pairs : Name → ChangeSet) (e : NamedTree) : NamedTree :=
  { e with tree := e.tree.applyChangeSet (pairs e.name) }

theorem withPairs_eq_self {pairs : Name → ChangeSet} {e : NamedTree} (h : pairs e.name = []) :
    e.withPairs pairs = e := by
  rw [withPairs, h]
  rfl

end NamedTree

namespace MultiTree

def distinctThroughout (next : Int) : List TreeNameUpgrade → List NamedTree → Bool
  | [], _ => true
  | u :: upgrades, trees =>
    match applyUpgrade next trees u with
    | .error _ => true
    | .ok trees => (trees.map NamedTree.name).Nodup && distinctThroughout next upgrades trees

section Upgrade

variable {next : Int} {u : TreeNameUpgrade} {T T' R : List NamedTree}

theorem exists_split_of_findIdx? {p : NamedTree → Bool} {i : Nat} (h : T.findIdx? p = some i) :
    ∃ A e B, T = A ++ e :: B ∧ A.length = i ∧ p e = true := by
  obtain ⟨hi, hp, -⟩ := findIdx?_eq_some_iff_getElem.mp h
  refine ⟨T.take i, T[i], T.drop (i + 1), ?_, length_take_of_le hi.le, hp⟩
  rw [getElem_cons_drop, take_append_drop]

theorem swapDelete_perm {A B : List NamedTree} {e last : NamedTree}
    (hlast : (A ++ e :: B).getLast? = some last) :
    (e :: ((A ++ e :: B).set A.length last).dropLast).Perm (A ++ e :: B) := by
  rcases eq_nil_or_concat B with rfl | ⟨B, b, rfl⟩
  · rw [set_append_right _ _ le_rfl, Nat.sub_self]
    simp only [set_cons_zero, dropLast_concat]
    exact (perm_append_singleton e A).symm
  · rw [concat_eq_append, ← cons_append, ← append_assoc] at hlast ⊢
    have hb : b = last := by
      rw [getLast?_concat] at hlast
      exact Option.some.inj hlast
    subst hb
    rw [append_assoc, set_append_right _ _ le_rfl, Nat.sub_self, cons_append,
      set_cons_zero, ← cons_append, ← append_assoc, dropLast_concat]
    refine List.Perm.trans ?_ perm_middle.symm
    apply List.Perm.cons
    refine List.Perm.trans perm_middle ?_
    rw [← append_assoc]
    exact (perm_append_singleton b (A ++ B)).symm

theorem modify_split (A B : List NamedTree) (e : NamedTree) (f : NamedTree → NamedTree) :
    (A ++ e :: B).modify A.length f = A ++ f e :: B := by
  induction A with
  | nil => rfl
  | cons a A ih => exact congrArg (List.cons a) ih

theorem applyUpgrade_ok (h : applyUpgrade next T u = .ok R) :
    (u.delete = true ∧ ∃ e, e.name = u.name ∧ (e :: R).Perm T) ∨
    (u.delete = false ∧ u.renameFrom ≠ [] ∧ ∃ A e B, T = A ++ e :: B ∧ e.name = u.renameFrom ∧
      R = A ++ { e with name := u.name } :: B) ∨
    (u.delete = false ∧ u.renameFrom = [] ∧
      R = T ++ [⟨u.name, .newWithInitialVersion (next % 2 ^ 32).toNat⟩]) := by
  unfold applyUpgrade at h
  by_cases hd : u.delete = true
  · rw [if_pos hd] at h
    split at h
    · rename_i i last hfind hlast
      obtain ⟨A, e, B, rfl, rfl, he⟩ := exists_split_of_findIdx? hfind
      cases h
      exact .inl ⟨hd, e, of_decide_eq_true he, swapDelete_perm hlast⟩
    · cases h
  · rw [if_neg hd] at h
    have hd' := Bool.eq_false_iff.mpr hd
    by_cases hr : u.renameFrom ≠ []
    · rw [if_pos hr] at h
      split at h
      · rename_i i hfind
        obtain ⟨A, e, B, rfl, rfl, he⟩ := exists_split_of_findIdx? hfind
        refine .inr (.inl ⟨hd', hr, A, e, B, rfl, of_decide_eq_true he, ?_⟩)
        rw [← Except.ok.inj h, modify_split]
      · cases h
    · rw [if_neg hr] at h
      exact .inr (.inr ⟨hd', not_not.mp hr, (Except.ok.inj h).symm⟩)

theorem exists_applyUpgrade (hdel : u.delete = true → ∃ e ∈ T, e.name = u.name)
    (hren : u.delete = false → u.renameFrom ≠ [] → ∃ e ∈ T, e.name = u.renameFrom) :
    ∃ R, applyUpgrade next T u = .ok R := by
  have hfind {name : Name} (h : ∃ e ∈ T, e.name = name) :
      ∃ i, T.findIdx? (fun e => e.name = name) = some i := by
    obtain ⟨e, he, hn⟩ := h
    cases hf : T.findIdx? (fun e => e.name = name) with
    | some i => exact ⟨i, rfl⟩
    | none =>
      have := findIdx?_eq_none_iff.mp hf e he
      simp [hn] at this
  unfold applyUpgrade
  by_cases hd : u.delete = true
  · obtain ⟨e, he, hn⟩ := hdel hd
    obtain ⟨i, hi⟩ := hfind ⟨e, he, hn⟩
    rw [if_pos hd, hi]
    cases hl : T.getLast? with
    | none =>
      rw [getLast?_eq_none_iff] at hl
      rw [hl] at he
      cases he
    | some last => exact ⟨_, rfl⟩
  · rw [if_neg hd]
    by_cases hr : u.renameFrom ≠ []
    · obtain ⟨i, hi⟩ := hfind (hren (Bool.eq_false_iff.mpr hd) hr)
      rw [if_pos hr, hi]
      exact ⟨_, rfl⟩
    · rw [if_neg hr]
      exact ⟨_, rfl⟩

theorem eq_of_name (hnd : (T.map NamedTree.name).Nodup) {a b : NamedTree} (ha : a ∈ T) (hb : b ∈ T)
    (h : a.name = b.name) : a = b :=
  inj_on_of_nodup_map hnd ha hb h

theorem applyUpgrade_perm (hp : T.Perm T') (hnd : (T.map NamedTree.name).Nodup)
    (h : applyUpgrade next T u = .ok R) : ∃ R', applyUpgrade next T' u = .ok R' ∧ R.Perm R' := by
  obtain ⟨R', h'⟩ : ∃ R', applyUpgrade next T' u = .ok R' := by
    apply exists_applyUpgrade
    · intro hd
      obtain ⟨-, e, hn, hperm⟩ | ⟨hd', -⟩ | ⟨hd', -⟩ := applyUpgrade_ok h
      · exact ⟨e, hp.subset (hperm.subset mem_cons_self), hn⟩
      · rw [hd] at hd'
        cases hd'
      · rw [hd] at hd'
        cases hd'
    · intro hd hr
      obtain ⟨hd', -⟩ | ⟨-, -, A, e, B, rfl, hn, -⟩ | ⟨-, hr', -⟩ := applyUpgrade_ok h
      · rw [hd] at hd'
        cases hd'
      · exact ⟨e, hp.subset (by simp), hn⟩
      · exact absurd hr' hr
  refine ⟨R', h', ?_⟩
  have hnd' : (T'.map NamedTree.name).Nodup := (hp.map _).nodup_iff.mp hnd
  obtain ⟨hd, e, hn, hperm⟩ | ⟨hd, hr, A, e, B, rfl, hn, rfl⟩ | ⟨hd, hr, rfl⟩ := applyUpgrade_ok h
  · obtain ⟨-, e', hn', hperm'⟩ | ⟨hd', -⟩ | ⟨hd', -⟩ := applyUpgrade_ok h'
    · have he : e = e' := eq_of_name hnd (hperm.subset mem_cons_self)
        (hp.symm.subset (hperm'.subset mem_cons_self)) (hn.trans hn'.symm)
      subst he
      exact ((hperm.trans hp).trans hperm'.symm).cons_inv
    · rw [hd] at hd'
      cases hd'
    · rw [hd] at hd'
      cases hd'
  · obtain ⟨hd', -⟩ | ⟨-, -, A', e', B', rfl, hn', rfl⟩ | ⟨-, hr', -⟩ := applyUpgrade_ok h'
    · rw [hd] at hd'
      cases hd'
    · have he : e = e' := eq_of_name hnd (by simp) (hp.symm.subset (by simp)) (hn.trans hn'.symm)
      subst he
      have hrest : (A ++ B).Perm (A' ++ B') :=
        ((perm_middle.symm.trans hp).trans perm_middle).cons_inv
      exact (perm_middle.trans (hrest.cons _)).trans perm_middle.symm
    · exact absurd hr' hr
  · obtain ⟨hd', -⟩ | ⟨-, hr', -⟩ | ⟨-, -, rfl⟩ := applyUpgrade_ok h'
    · rw [hd] at hd'
      cases hd'
    · exact absurd hr hr'
    · exact hp.append_right _

end Upgrade

section Batch

variable {next : Int} {upgrades : List TreeNameUpgrade} {T T' R : List NamedTree}

theorem applyUpgradeList_cons {u : TreeNameUpgrade} :
    applyUpgradeList next (u :: upgrades) T = .ok R ↔
      ∃ T1, applyUpgrade next T u = .ok T1 ∧ applyUpgradeList next upgrades T1 = .ok R := by
  rw [applyUpgradeList]
  cases applyUpgrade next T u with
  | error e => simp
  | ok T1 => simp

theorem applyUpgradeList_append {upgrades' : List TreeNameUpgrade}
    (h : applyUpgradeList next upgrades T = .ok T') (h' : applyUpgradeList next upgrades' T' = .ok R) :
    applyUpgradeList next (upgrades ++ upgrades') T = .ok R := by
  induction upgrades generalizing T with
  | nil =>
    cases h
    exact h'
  | cons u upgrades ih =>
    obtain ⟨T1, h1, h⟩ := applyUpgradeList_cons.mp h
    exact applyUpgradeList_cons.mpr ⟨T1, h1, ih h⟩

/-- The first upgrade of a batch, and that names are distinct after it. -/
theorem distinctThroughout_cons {u : TreeNameUpgrade} {T1 : List NamedTree}
    (hd : distinctThroughout next (u :: upgrades) T = true) (h : applyUpgrade next T u = .ok T1) :
    (T1.map NamedTree.name).Nodup ∧ distinctThroughout next upgrades T1 = true := by
  rw [distinctThroughout] at hd
  simpa only [h, Bool.and_eq_true, decide_eq_true_eq] using hd

theorem applyUpgradeList_perm (hp : T.Perm T') (hnd : (T.map NamedTree.name).Nodup)
    (hd : distinctThroughout next upgrades T = true) (h : applyUpgradeList next upgrades T = .ok R) :
    ∃ R', applyUpgradeList next upgrades T' = .ok R' ∧ R.Perm R' := by
  induction upgrades generalizing T T' with
  | nil =>
    cases h
    exact ⟨T', rfl, hp⟩
  | cons u upgrades ih =>
    obtain ⟨T1, h1, h⟩ := applyUpgradeList_cons.mp h
    obtain ⟨hnd1, hd1⟩ := distinctThroughout_cons hd h1
    obtain ⟨T1', h1', hp1⟩ := applyUpgrade_perm hp hnd h1
    obtain ⟨R', hR', hpR⟩ := ih hp1 hnd1 hd1 h
    exact ⟨R', applyUpgradeList_cons.mpr ⟨T1', h1', hR'⟩, hpR⟩

theorem sortByName_perm (trees : List NamedTree) : (sortByName trees).Perm trees :=
  perm_insertionSort _ _

theorem sortByName_eq_of_perm (hp : T.Perm T') (hnd : (T.map NamedTree.name).Nodup) :
    sortByName T = sortByName T' := by
  have hnd' : (T'.map NamedTree.name).Nodup := (hp.map _).nodup_iff.mp hnd
  have hs (l : List NamedTree) (h : (l.map NamedTree.name).Nodup) :
      (sortByName l).Pairwise fun a b => a.name < b.name :=
    sortByName_strict (((sortByName_perm l).map _).nodup_iff.mpr h)
  refine List.Perm.eq_of_pairwise (fun a b _ _ hab hba => absurd (hab.trans hba) (lt_irrefl _))
    (hs T hnd) (hs T' hnd') ?_
  exact ((sortByName_perm T).trans hp).trans (sortByName_perm T').symm

end Batch

/-! ## Upgrades of a multi tree -/

variable {t t' t'' : MultiTree} {upgrades upgrades' : List TreeNameUpgrade}

theorem applyUpgrades_ok_iff (hne : upgrades ≠ []) : t.applyUpgrades upgrades = .ok t' ↔
    ∃ T index, applyUpgradeList (nextVersion t.version t.initialVersion) upgrades t.trees = .ok T ∧
      indexTrees 0 (sortByName T) [] = .ok index ∧
      t' = { t with trees := sortByName T, treesByName := index } := by
  unfold MultiTree.applyUpgrades
  rw [if_neg hne]
  cases applyUpgradeList (nextVersion t.version t.initialVersion) upgrades t.trees with
  | error f => simp
  | ok T =>
    simp only [Except.ok.injEq, exists_and_left, exists_eq_left']
    cases indexTrees 0 (sortByName T) [] with
    | error f => simp
    | ok index => simp [eq_comm]

/-- Two batches are one, if the second one has different names throughout. -/
theorem applyUpgrades_append (h : t.applyUpgrades upgrades = .ok t')
    (h' : t'.applyUpgrades upgrades' = .ok t'')
    (hd : distinctThroughout (nextVersion t'.version t'.initialVersion) upgrades' t'.trees = true) :
    t.applyUpgrades (upgrades ++ upgrades') = .ok t'' := by
  by_cases hne : upgrades = []
  · subst hne
    rw [MultiTree.applyUpgrades, if_pos rfl] at h
    cases h
    exact h'
  by_cases hne' : upgrades' = []
  · subst hne'
    rw [MultiTree.applyUpgrades, if_pos rfl] at h'
    cases h'
    rwa [append_nil]
  obtain ⟨T, index, hT, hindex, rfl⟩ := (applyUpgrades_ok_iff hne).mp h
  obtain ⟨R, index', hR, hindex', rfl⟩ := (applyUpgrades_ok_iff hne').mp h'
  obtain ⟨-, hnd, -⟩ := indexTrees_eq_ok hindex
  obtain ⟨-, hndR, -⟩ := indexTrees_eq_ok hindex'
  obtain ⟨R', hR', hp⟩ := applyUpgradeList_perm (sortByName_perm T) hnd hd hR
  have hndR' : (R.map NamedTree.name).Nodup := ((sortByName_perm R).map _).nodup_iff.mp hndR
  have hsort := sortByName_eq_of_perm hp hndR'
  refine (applyUpgrades_ok_iff (by simp [hne])).mpr ⟨R', index', applyUpgradeList_append hT hR', ?_, ?_⟩
  · rw [← hsort]
    exact hindex'
  · rw [hsort]

/-! ## Upgrades behind change sets -/

section Pairs

variable {next : Int} {pairs : Name → ChangeSet} {S : Name → Prop} {T R : List NamedTree}

theorem applyUpgrade_withPairs {u : TreeNameUpgrade} (hname : u.delete = false → pairs u.name = [])
    (hfrom : u.delete = false → u.renameFrom ≠ [] → pairs u.renameFrom = [])
    (h : applyUpgrade next (T.map (.withPairs pairs)) u = .ok R) :
    ∃ R0, applyUpgrade next T u = .ok R0 ∧ R = R0.map (.withPairs pairs) := by
  have hfind (name : Name) : (T.map (NamedTree.withPairs pairs)).findIdx? (fun e => e.name = name) =
      T.findIdx? (fun e => e.name = name) := by
    rw [findIdx?_map]
    rfl
  unfold applyUpgrade at h ⊢
  by_cases hd : u.delete = true
  · rw [if_pos hd, hfind, getLast?_map] at h
    rw [if_pos hd]
    cases hi : T.findIdx? (fun e => e.name = u.name) with
    | none => simp [hi] at h
    | some i =>
      cases hl : T.getLast? with
      | none => simp [hi, hl] at h
      | some last =>
        refine ⟨_, rfl, ?_⟩
        simp only [hi, hl, Option.map_some, Except.ok.injEq] at h
        rw [← h, map_dropLast, map_set]
  · have hd' := Bool.eq_false_iff.mpr hd
    rw [if_neg hd, hfind] at h
    rw [if_neg hd]
    by_cases hr : u.renameFrom ≠ []
    · rw [if_pos hr] at h ⊢
      cases hi : T.findIdx? (fun e => e.name = u.renameFrom) with
      | none => simp [hi] at h
      | some i =>
        obtain ⟨A, e, B, rfl, rfl, he⟩ := exists_split_of_findIdx? hi
        have hen : e.name = u.renameFrom := of_decide_eq_true he
        have hself : e.withPairs pairs = e :=
          NamedTree.withPairs_eq_self (hen ▸ hfrom hd' hr)
        have hnew : NamedTree.withPairs pairs { e with name := u.name } = { e with name := u.name } :=
          NamedTree.withPairs_eq_self (hname hd')
        refine ⟨_, rfl, ?_⟩
        simp only [hi, Except.ok.injEq] at h
        rw [← h, modify_split, map_append, map_cons, hself]
        have hmod := modify_split (A.map (.withPairs pairs)) (B.map (.withPairs pairs)) e
          fun entry => { entry with name := u.name }
        rw [length_map] at hmod
        rw [hmod, map_append, map_cons, hnew]
    · rw [if_neg hr] at h ⊢
      refine ⟨_, rfl, ?_⟩
      rw [← Except.ok.inj h, map_append, map_singleton,
        NamedTree.withPairs_eq_self (hname hd')]

def Holds (T : List NamedTree) (S : Name → Prop) : Prop := ∀ name, S name → ∃ e ∈ T, e.name = name

/-- With different names after it, an upgrade does not make a store that is there already, and
one that spares the stores of `S` leaves them. -/
theorem Holds.applyUpgrade (hS : Holds T S) {u : TreeNameUpgrade} (hu : u.Spares S)
    (h : applyUpgrade next T u = .ok R) (hnd : (R.map NamedTree.name).Nodup) :
    Holds R S ∧ (u.delete = false → ¬S u.name) ∧
      (u.delete = false → u.renameFrom ≠ [] → ¬S u.renameFrom) := by
  unfold TreeNameUpgrade.Spares at hu
  obtain ⟨hd, e, hn, hperm⟩ | ⟨hd, hr, A, e, B, rfl, hn, rfl⟩ | ⟨hd, hr, rfl⟩ := applyUpgrade_ok h
  · rw [if_pos hd] at hu
    refine ⟨fun name hname => ?_, fun hd' => ?_, fun hd' => ?_⟩
    · obtain ⟨a, ha, han⟩ := hS name hname
      rcases mem_cons.mp (hperm.symm.subset ha) with rfl | ha
      · rw [han] at hn
        exact absurd (hn ▸ hname) hu
      · exact ⟨a, ha, han⟩
    · rw [hd] at hd'
      cases hd'
    · rw [hd] at hd'
      cases hd'
  · rw [if_neg (by simp [hd])] at hu
    have hfrom := hu hr
    have hother {name : Name} (hname : S name) : ∃ a ∈ A ++ B, a.name = name := by
      obtain ⟨a, ha, han⟩ := hS name hname
      rcases mem_append.mp ha with ha | ha
      · exact ⟨a, mem_append_left _ ha, han⟩
      · rcases mem_cons.mp ha with rfl | ha
        · rw [han] at hn
          exact absurd (hn ▸ hname) hfrom
        · exact ⟨a, mem_append_right _ ha, han⟩
    refine ⟨fun name hname => ?_, fun _ hname => ?_, fun _ _ => hfrom⟩
    · obtain ⟨a, ha, han⟩ := hother hname
      refine ⟨a, ?_, han⟩
      rw [mem_append] at ha ⊢
      exact ha.imp_right (mem_cons_of_mem _)
    · -- the new name would be there twice
      obtain ⟨a, ha, han⟩ := hother hname
      rw [map_append, map_cons] at hnd
      refine (nodup_cons.mp (nodup_middle.mp hnd)).1 ?_
      rw [← map_append]
      exact mem_map.mpr ⟨a, ha, han⟩
  · refine ⟨fun name hname => ?_, fun _ hname => ?_, fun _ hr' => absurd hr hr'⟩
    · obtain ⟨a, ha, han⟩ := hS name hname
      exact ⟨a, mem_append_left _ ha, han⟩
    · obtain ⟨a, ha, han⟩ := hS _ hname
      rw [map_append, nodup_append] at hnd
      exact hnd.2.2 _ (mem_map.mpr ⟨a, ha, rfl⟩) u.name (by simp) han

theorem applyUpgradeList_withPairs {upgrades : List TreeNameUpgrade} (hS : Holds T S)
    (hpairs : ∀ name, ¬S name → pairs name = []) (hu : ∀ u ∈ upgrades, u.Spares S)
    (hd : distinctThroughout next upgrades (T.map (.withPairs pairs)) = true)
    (h : applyUpgradeList next upgrades (T.map (.withPairs pairs)) = .ok R) :
    ∃ R0, applyUpgradeList next upgrades T = .ok R0 ∧ R = R0.map (.withPairs pairs) ∧ Holds R0 S ∧
      distinctThroughout next upgrades T = true := by
  have hmap (l : List NamedTree) :
      Holds (l.map (.withPairs pairs)) S ↔ Holds l S := by
    simp [Holds, NamedTree.withPairs]
  induction upgrades generalizing T with
  | nil =>
    cases h
    exact ⟨T, rfl, rfl, hS, rfl⟩
  | cons u upgrades ih =>
    obtain ⟨hu1, hu⟩ := forall_mem_cons.mp hu
    obtain ⟨T1, h1, h⟩ := applyUpgradeList_cons.mp h
    obtain ⟨hnd1, hd1⟩ := distinctThroughout_cons hd h1
    obtain ⟨hS1, hname, hfrom⟩ := ((hmap T).mpr hS).applyUpgrade hu1 h1 hnd1
    obtain ⟨T0, hT0, rfl⟩ := applyUpgrade_withPairs (fun hd => hpairs _ (hname hd))
      (fun hd hr => hpairs _ (hfrom hd hr)) h1
    obtain ⟨R0, hR0, hR, hS', hd'⟩ := ih ((hmap T0).mp hS1) hu hd1 h
    refine ⟨R0, applyUpgradeList_cons.mpr ⟨T0, hT0, hR0⟩, hR, hS', ?_⟩
    rw [map_map] at hnd1
    have hnd0 : (T0.map NamedTree.name).Nodup := hnd1
    simp only [distinctThroughout, hT0, hnd0, decide_true, hd', Bool.and_self]

theorem sortByName_withPairs (T : List NamedTree) :
    sortByName (T.map (.withPairs pairs)) = (sortByName T).map (.withPairs pairs) := by
  unfold sortByName
  rw [map_insertionSort (fun a b : NamedTree => a.name ≤ b.name)
    (fun a b : NamedTree => a.name ≤ b.name) _ T]
  intro a _ b _
  rfl

theorem indexTrees_withPairs (i : Nat) (T : List NamedTree) (index : List (Name × Nat)) :
    indexTrees i (T.map (.withPairs pairs)) index = indexTrees i T index := by
  induction T generalizing i index with
  | nil => rfl
  | cons e T ih =>
    simp only [map_cons, indexTrees, ih]
    rfl

/-- Upgrades that spare the stores with pairs can be made before the pairs are applied. -/
theorem applyUpgrades_applyPairs {t t' : MultiTree} {upgrades : List TreeNameUpgrade}
    (hS : ∀ name, S name → t.HasTree name) (hpairs : ∀ name, ¬S name → pairs name = [])
    (hu : ∀ u ∈ upgrades, u.Spares S)
    (hd : distinctThroughout (nextVersion t.version t.initialVersion) upgrades
      (t.applyPairs pairs).trees = true)
    (h : (t.applyPairs pairs).applyUpgrades upgrades = .ok t') :
    ∃ m, t.applyUpgrades upgrades = .ok m ∧ t' = m.applyPairs pairs ∧
      (∀ name, S name → m.HasTree name) ∧
      distinctThroughout (nextVersion t.version t.initialVersion) upgrades t.trees = true := by
  by_cases hne : upgrades = []
  · subst hne
    rw [MultiTree.applyUpgrades, if_pos rfl] at h
    cases h
    exact ⟨t, by rw [MultiTree.applyUpgrades, if_pos rfl], rfl, hS, rfl⟩
  obtain ⟨T, index, hT, hindex, rfl⟩ := (applyUpgrades_ok_iff hne).mp h
  obtain ⟨R0, hR0, rfl, hS', hd'⟩ := applyUpgradeList_withPairs hS hpairs hu hd hT
  rw [sortByName_withPairs, indexTrees_withPairs] at hindex
  refine ⟨{ t with trees := sortByName R0, treesByName := index },
    (applyUpgrades_ok_iff hne).mpr ⟨R0, index, hR0, hindex, rfl⟩, ?_, fun name hname => ?_, hd'⟩
  · rw [sortByName_withPairs]
    rfl
  · obtain ⟨e, he, hen⟩ := hS' name hname
    exact ⟨e, (sortByName_perm R0).mem_iff.mpr he, hen⟩

end Pairs

end MultiTree

end CronosStore.Memiavl
