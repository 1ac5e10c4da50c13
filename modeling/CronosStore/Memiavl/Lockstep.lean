import CronosStore.Memiavl.MultiTree

/-!
# What the methods of a multi tree keep

The trees are ordered by name and the index tells where each name is (`Indexed`), so change
sets for different names do not meet, and applying a list of them gives every tree the
concatenation of those that carry its name (`applyChangeSets_ok`). At the end of a block
all trees have the version of the commit info, and the commit info describes them
(`Committed`); such a state is what loading a snapshot of it gives back
(`loadMultiTree_writeSnapshot`).
-/

namespace CronosStore.Memiavl

open Foundation List

/-! ## The index of names -/

namespace MultiTree

structure Indexed (t : MultiTree) : Prop where
  sorted : t.trees.Pairwise fun a b => a.name < b.name
  index : t.treesByName = indexFrom 0 t.trees

variable {trees : List NamedTree} {name : Name} {i : Nat}

theorem exists_lookup_indexFrom {entry : NamedTree} (he : entry ∈ trees) (hname : entry.name = name)
    (i : Nat) : ∃ j, (indexFrom i trees).lookup name = some j := by
  induction trees generalizing i with
  | nil => exact absurd he not_mem_nil
  | cons e trees ih =>
    rw [indexFrom, lookup_cons]
    by_cases hne : name = e.name
    · rw [hne, beq_self_eq_true]
      exact ⟨i, rfl⟩
    · rw [beq_false_of_ne hne]
      rcases mem_cons.mp he with rfl | he
      · exact absurd hname.symm hne
      · exact ih he (i + 1)

theorem modify_lookup_indexFrom (hs : trees.Pairwise fun a b => a.name < b.name) {j : Nat}
    (hj : (indexFrom i trees).lookup name = some j) (f : NamedTree → NamedTree) :
    i ≤ j ∧ trees.modify (j - i) f = trees.map (fun e => if e.name = name then f e else e) ∧
      ∃ entry ∈ trees, entry.name = name := by
  induction trees generalizing i with
  | nil => cases hj
  | cons entry trees ih =>
    obtain ⟨hlt, hs⟩ := pairwise_cons.mp hs
    rw [indexFrom, lookup_cons] at hj
    by_cases hname : name = entry.name
    · rw [hname, beq_self_eq_true] at hj
      cases hj
      refine ⟨le_rfl, ?_, entry, mem_cons_self, hname.symm⟩
      have hrest : trees.map (fun e => if e.name = name then f e else e) = trees := by
        refine (map_congr_left fun e he => ?_).trans (map_id _)
        rw [if_neg (hname ▸ (hlt e he).ne')]
        rfl
      rw [Nat.sub_self, modify_zero_cons, map_cons, if_pos hname.symm, hrest]
    · rw [beq_false_of_ne hname] at hj
      obtain ⟨hle, hm, e, he, hen⟩ := ih hs hj
      refine ⟨by omega, ?_, e, mem_cons_of_mem _ he, hen⟩
      rw [show j - i = j - (i + 1) + 1 by omega, modify_succ_cons, hm, map_cons,
        if_neg (Ne.symm hname)]

theorem lookup_indexFrom (i : Nat) (name : Name) :
    (∀ j, (indexFrom i trees).lookup name = some j → i ≤ j) ∧
      ((indexFrom i trees).lookup name).bind (fun j => (trees[j - i]?).map NamedTree.tree) =
        (trees.map fun e => (e.name, e.tree)).lookup name := by
  induction trees generalizing i with
  | nil => exact ⟨fun j hj => (by cases hj), rfl⟩
  | cons e trees ih =>
    rw [indexFrom, map_cons, lookup_cons, lookup_cons]
    by_cases hname : name = e.name
    · rw [hname, beq_self_eq_true]
      refine ⟨fun j hj => le_of_eq (Option.some.inj hj), ?_⟩
      simp
    · rw [beq_false_of_ne hname]
      obtain ⟨hle, heq⟩ := ih (i + 1)
      refine ⟨fun j hj => ?_, ?_⟩
      · have := hle j hj
        omega
      · rw [← heq]
        cases hl : (indexFrom (i + 1) trees).lookup name with
        | none => simp only [Option.bind_none]
        | some j =>
          have := hle j hl
          simp only [Option.bind_some]
          rw [show j - i = j - (i + 1) + 1 by omega, getElem?_cons_succ]

theorem Indexed.treeByName_eq_some {t : MultiTree} (ht : t.Indexed) {tree : Tree} :
    t.treeByName name = some tree ↔ (name, tree) ∈ t.trees.map fun e => (e.name, e.tree) := by
  have hsorted : SortedAssoc.Sorted (t.trees.map fun e => (e.name, e.tree)) :=
    pairwise_map.mpr ht.sorted
  rw [← SortedAssoc.lookup_eq_some_iff hsorted, ← (lookup_indexFrom 0 name).2, treeByName, ht.index]
  cases (indexFrom 0 t.trees).lookup name with
  | none => exact Iff.rfl
  | some j =>
    cases hj : t.trees[j]? with
    | none => simp [hj]
    | some e => simp [hj]

theorem indexTrees_eq_ok {index index' : List (Name × Nat)}
    (h : indexTrees i trees index = .ok index') :
    index' = index ++ indexFrom i trees ∧ (trees.map NamedTree.name).Nodup ∧
      ∀ entry ∈ trees, index.lookup entry.name = none := by
  induction trees generalizing i index with
  | nil =>
    cases h
    exact ⟨(append_nil _).symm, nodup_nil, fun _ he => absurd he not_mem_nil⟩
  | cons entry trees ih =>
    rw [indexTrees] at h
    cases hl : index.lookup entry.name with
    | some j => simp only [hl] at h; cases h
    | none =>
      simp only [hl] at h
      obtain ⟨rfl, hnd, hfresh⟩ := ih h
      have happ : ∀ e ∈ trees, index.lookup e.name = none ∧ e.name ≠ entry.name := by
        intro e he
        have hn := hfresh e he
        rw [lookup_append, Option.or_eq_none_iff] at hn
        refine ⟨hn.1, fun hen => ?_⟩
        rw [lookup_cons, hen, beq_self_eq_true] at hn
        cases hn.2
      refine ⟨by rw [append_assoc]; rfl, ?_, ?_⟩
      · rw [map_cons, nodup_cons]
        refine ⟨fun hmem => ?_, hnd⟩
        obtain ⟨e, he, hen⟩ := mem_map.mp hmem
        exact (happ e he).2 hen
      · intro e he
        rcases mem_cons.mp he with rfl | he
        · exact hl
        · exact (happ e he).1

theorem exists_indexTrees {index : List (Name × Nat)} (hnd : (trees.map NamedTree.name).Nodup)
    (hfresh : ∀ entry ∈ trees, index.lookup entry.name = none) :
    ∃ index', indexTrees i trees index = .ok index' := by
  induction trees generalizing i index with
  | nil => exact ⟨index, rfl⟩
  | cons entry trees ih =>
    rw [map_cons, nodup_cons] at hnd
    simp only [indexTrees, hfresh entry mem_cons_self]
    apply ih hnd.2
    intro e he
    have hne : e.name ≠ entry.name := fun hen => hnd.1 (hen ▸ mem_map_of_mem he)
    rw [lookup_append, hfresh e (mem_cons_of_mem _ he), lookup_cons,
      beq_false_of_ne hne]
    rfl

theorem sortByName_strict (h : ((sortByName trees).map NamedTree.name).Nodup) :
    (sortByName trees).Pairwise fun a b => a.name < b.name := by
  have hle : (sortByName trees).Pairwise fun a b => a.name ≤ b.name :=
    pairwise_insertionSort (fun a b : NamedTree => a.name ≤ b.name) trees
  rw [List.Nodup, pairwise_map] at h
  exact (hle.and h).imp fun hab => lt_of_le_of_ne hab.1 hab.2

variable {t t' : MultiTree}

theorem Indexed.applyUpgrades (ht : t.Indexed) {upgrades : List TreeNameUpgrade}
    (h : t.applyUpgrades upgrades = .ok t') : t'.Indexed := by
  unfold MultiTree.applyUpgrades at h
  split_ifs at h
  · cases h
    exact ht
  · split at h
    · cases h
    · rename_i trees _
      simp only at h
      split at h
      · cases h
      · rename_i index hindex
        cases h
        obtain ⟨hi, hnd, -⟩ := indexTrees_eq_ok hindex
        exact ⟨sortByName_strict hnd, hi⟩

theorem Indexed.mapTrees (ht : t.Indexed) (f : NamedTree → Tree) : (t.mapTrees f).Indexed := by
  refine ⟨pairwise_map.mpr ht.sorted, ?_⟩
  have hindex : ∀ (trees : List NamedTree) i,
      indexFrom i (trees.map fun e => { e with tree := f e }) = indexFrom i trees := by
    intro trees
    induction trees with
    | nil => exact fun _ => rfl
    | cons e trees ih => exact fun i => congrArg (List.cons (e.name, i)) (ih (i + 1))
  exact ht.index.trans (hindex _ _).symm

def pairsFor (name : Name) (changeSets : List NamedChangeSet) : ChangeSet :=
  changeSets.flatMap fun cs => if cs.name = name then cs.changeset else []

@[simp] theorem pairsFor_nil (name : Name) : pairsFor name [] = [] := rfl

theorem pairsFor_cons (name : Name) (cs : NamedChangeSet) (l : List NamedChangeSet) :
    pairsFor name (cs :: l) = (if cs.name = name then cs.changeset else []) ++ pairsFor name l := by
  rw [pairsFor, flatMap_cons]
  rfl

@[simp] theorem pairsFor_append (name : Name) (l l' : List NamedChangeSet) :
    pairsFor name (l ++ l') = pairsFor name l ++ pairsFor name l' :=
  flatMap_append

def HasTree (t : MultiTree) (name : Name) : Prop := ∃ entry ∈ t.trees, entry.name = name

def applyPairs (t : MultiTree) (pairs : Name → ChangeSet) : MultiTree :=
  t.mapTrees fun entry => entry.tree.applyChangeSet (pairs entry.name)

theorem Indexed.applyPairs (ht : t.Indexed) (pairs : Name → ChangeSet) :
    (t.applyPairs pairs).Indexed := ht.mapTrees _

@[simp] theorem hasTree_applyPairs {pairs : Name → ChangeSet} :
    (t.applyPairs pairs).HasTree name ↔ t.HasTree name := by
  simp [HasTree, MultiTree.applyPairs, MultiTree.mapTrees]

@[simp] theorem applyPairs_nil : t.applyPairs (fun _ => []) = t := by
  simp [MultiTree.applyPairs, MultiTree.mapTrees, Tree.applyChangeSet]

theorem applyPairs_applyPairs (pairs pairs' : Name → ChangeSet) :
    (t.applyPairs pairs).applyPairs pairs' = t.applyPairs fun name => pairs name ++ pairs' name := by
  simp [MultiTree.applyPairs, MultiTree.mapTrees, Tree.applyChangeSet]

theorem Indexed.applyChangeSet_ok (ht : t.Indexed) {cs : ChangeSet} :
    t.applyChangeSet name cs = .ok t' ↔
      t.HasTree name ∧ t' = t.applyPairs fun n => if name = n then cs else [] := by
  unfold MultiTree.applyChangeSet
  cases hl : t.treesByName.lookup name with
  | none =>
    constructor
    · intro h
      cases h
    · rintro ⟨⟨e, he, hen⟩, -⟩
      obtain ⟨j, hj⟩ := exists_lookup_indexFrom he hen 0
      rw [ht.index, hj] at hl
      cases hl
  | some i =>
    rw [ht.index] at hl
    obtain ⟨-, hm, hmem⟩ := modify_lookup_indexFrom ht.sorted hl fun entry =>
      { entry with tree := entry.tree.applyChangeSet cs }
    have heq : t.trees.modify i (fun e => { e with tree := e.tree.applyChangeSet cs }) =
        t.trees.map fun e => { e with tree := e.tree.applyChangeSet (if name = e.name then cs else []) } := by
      rw [Nat.sub_zero] at hm
      rw [hm]
      refine map_congr_left fun e _ => ?_
      by_cases he : e.name = name
      · rw [if_pos he, if_pos he.symm]
      · rw [if_neg he, if_neg (Ne.symm he)]
        rfl
    simp only [heq, Except.ok.injEq]
    exact ⟨fun h => ⟨hmem, h.symm⟩, fun h => h.2.symm⟩

theorem Indexed.applyChangeSets_ok (ht : t.Indexed) {changeSets : List NamedChangeSet} :
    t.applyChangeSets changeSets = .ok t' ↔
      (∀ cs ∈ changeSets, t.HasTree cs.name) ∧ t' = t.applyPairs fun n => pairsFor n changeSets := by
  induction changeSets generalizing t with
  | nil => simp [MultiTree.applyChangeSets, eq_comm]
  | cons cs changeSets ih =>
    rw [MultiTree.applyChangeSets]
    constructor
    · intro h
      cases h1 : t.applyChangeSet cs.name cs.changeset with
      | error f => simp only [h1] at h; cases h
      | ok t1 =>
        simp only [h1] at h
        obtain ⟨hmem, rfl⟩ := ht.applyChangeSet_ok.mp h1
        obtain ⟨hall, rfl⟩ := (ih (ht.applyPairs _)).mp h
        refine ⟨forall_mem_cons.mpr ⟨hmem, fun c hc => hasTree_applyPairs.mp (hall c hc)⟩, ?_⟩
        rw [applyPairs_applyPairs]
        simp only [pairsFor_cons]
    · rintro ⟨hall, rfl⟩
      obtain ⟨hmem, hall⟩ := forall_mem_cons.mp hall
      rw [ht.applyChangeSet_ok.mpr ⟨hmem, rfl⟩]
      refine (ih (ht.applyPairs _)).mpr ⟨fun c hc => hasTree_applyPairs.mpr (hall c hc), ?_⟩
      rw [applyPairs_applyPairs]
      simp only [pairsFor_cons]

section Hash

variable [Sha256]

def bump (t : MultiTree) : MultiTree :=
  t.mapTrees fun entry => { entry.tree with version := entry.tree.version + 1 }

theorem saveVersion_ok {update : Bool} :
    t.saveVersion update = .ok t' ↔ (∀ entry ∈ t.trees, entry.tree.version ≠ maxUint32) ∧
      t' = { t.bump with
        lastCommitInfo := if update then t.bump.buildCommitInfo (nextVersion t.version t.initialVersion)
          else ⟨nextVersion t.version t.initialVersion, []⟩ } := by
  unfold MultiTree.saveVersion
  cases hf : t.trees.find? fun entry => entry.tree.version = maxUint32 with
  | some entry =>
    have hmax := find?_some hf
    have hmem := mem_of_find?_eq_some hf
    simp only [decide_eq_true_eq] at hmax
    refine ⟨fun h => ?_, fun h => absurd hmax (h.1 entry hmem)⟩
    cases h
  | none =>
    have hall : ∀ entry ∈ t.trees, entry.tree.version ≠ maxUint32 := fun entry he hmax => by
      have := find?_eq_none.mp hf entry he
      simp [hmax] at this
    simp only [Except.ok.injEq]
    exact ⟨fun h => ⟨hall, h.symm⟩, fun h => h.2.symm⟩

structure Committed (t : MultiTree) : Prop where
  indexed : t.Indexed
  info : t.lastCommitInfo = t.buildCommitInfo t.version
  /-- All the trees share the same latest version. -/
  lockstep : ∀ entry ∈ t.trees, (entry.tree.version : Int) = t.version
  started : t.initialVersion > 1 → ∀ entry ∈ t.trees, 0 < entry.tree.version
  initialVersion_le : t.initialVersion ≤ maxUint32

theorem Committed.next (ht : t.Committed) {entry : NamedTree} (he : entry ∈ t.trees) :
    (entry.tree.version : Int) + 1 = nextVersion t.version t.initialVersion := by
  have hv := ht.lockstep entry he
  unfold nextVersion
  split_ifs with h
  · have := ht.started h.2 entry he
    omega
  · omega

end Hash

end MultiTree

theorem storeInfosEqual_eq_ok {i : Nat} {l l' : List StoreInfo} (hlen : l.length = l'.length) :
    storeInfosEqual i l l' = .ok () ↔ l = l' := by
  induction l generalizing i l' with
  | nil =>
    rw [length_nil, eq_comm, length_eq_zero_iff] at hlen
    rw [hlen]
    exact ⟨fun _ => rfl, fun _ => rfl⟩
  | cons a l ih =>
    cases l' with
    | nil => cases hlen
    | cons b l' =>
      obtain ⟨an, av, ah⟩ := a
      obtain ⟨bn, bv, bh⟩ := b
      rw [length_cons, length_cons, Nat.add_right_cancel_iff] at hlen
      simp only [storeInfosEqual, List.cons.injEq, StoreInfo.mk.injEq, CommitID.mk.injEq]
      split_ifs with h1 h2 h3
      · simp [h1]
      · simp [h2]
      · simp [h3]
      · simp only [not_not] at h1 h2 h3
        rw [ih hlen]
        simp [h1, h2, h3]

theorem commitInfoEqual_eq_ok {a b : CommitInfo} : commitInfoEqual a b = .ok () ↔ a = b := by
  obtain ⟨av, ai⟩ := a
  obtain ⟨bv, bi⟩ := b
  unfold commitInfoEqual
  simp only [CommitInfo.mk.injEq]
  split_ifs with h1 h2
  · simp [h1]
  · have : ai ≠ bi := fun h => h2 (congrArg List.length h)
    simp [this]
  · simp only [not_not] at h1 h2
    rw [storeInfosEqual_eq_ok h2]
    simp [h1]

theorem MultiTree.foldl_writeTree {trees : List NamedTree}
    (hs : trees.Pairwise fun a b => a.name < b.name) {dir : MultiTreeDir}
    (hd : ∀ p ∈ dir.trees, ∀ e ∈ trees, p.1 < e.name) :
    (trees.foldl (fun dir entry => dir.writeTree entry.name entry.tree) dir).trees =
      dir.trees ++ trees.map fun e => (e.name, e.tree) := by
  induction trees generalizing dir with
  | nil => exact (append_nil _).symm
  | cons e trees ih =>
    obtain ⟨hlt, hs⟩ := pairwise_cons.mp hs
    have hins : (dir.writeTree e.name e.tree).trees = dir.trees ++ [(e.name, e.tree)] := by
      have := SortedAssoc.insert_append_right (v := e.tree) (r := []) fun p hp =>
        hd p hp e mem_cons_self
      rwa [append_nil] at this
    rw [foldl_cons, ih hs, hins, append_assoc]
    · rfl
    · rw [hins]
      intro p hp e' he'
      rcases mem_append.mp hp with hp | hp
      · exact hd p hp e' (mem_cons_of_mem _ he')
      · rw [mem_singleton.mp hp]
        exact hlt e' he'

theorem MultiTreeDir.ext {d d' : MultiTreeDir} (hm : d.metadata = d'.metadata)
    (ht : d.trees = d'.trees) : d = d' := by
  cases d
  cases d'
  cases hm
  cases ht
  rfl

theorem MultiTree.Indexed.writeSnapshot_idem {t : MultiTree} (ht : t.Indexed) :
    t.writeSnapshot (t.writeSnapshot .empty) = t.writeSnapshot .empty := by
  have hdir : (t.writeSnapshot .empty).trees = t.trees.map fun e => (e.name, e.tree) :=
    MultiTree.foldl_writeTree ht.sorted fun p hp => absurd hp not_mem_nil
  have hfold : ∀ (trees : List NamedTree) (dir : MultiTreeDir),
      (∀ e ∈ trees, (e.name, e.tree) ∈ dir.trees) →
      trees.foldl (fun dir e => dir.writeTree e.name e.tree) dir = dir := by
    intro trees
    induction trees with
    | nil => exact fun _ _ => rfl
    | cons e trees ih =>
      intro dir hall
      obtain ⟨he, hall⟩ := forall_mem_cons.mp hall
      have hsame : dir.writeTree e.name e.tree = dir :=
        MultiTreeDir.ext rfl (SortedAssoc.insert_of_mem dir.sorted he)
      rw [foldl_cons, hsame, ih dir hall]
  have hall : ∀ e ∈ t.trees, (e.name, e.tree) ∈ (t.writeSnapshot .empty).trees := fun e he =>
    hdir ▸ mem_map.mpr ⟨e, he, rfl⟩
  have htrees : (t.writeSnapshot (t.writeSnapshot .empty)).trees =
      (t.trees.foldl (fun dir e => dir.writeTree e.name e.tree) (t.writeSnapshot .empty)).trees := rfl
  exact MultiTreeDir.ext rfl (htrees.trans (congrArg MultiTreeDir.trees (hfold _ _ hall)))

theorem readMetadata_eq_ok {dir : MultiTreeDir} {md : MultiTreeMetadata} {ci : CommitInfo} :
    readMetadata dir = .ok (md, ci) ↔ dir.metadata = some md ∧ md.commitInfo = some ci ∧
      ci.version ≤ maxUint32 ∧ md.initialVersion ≤ maxUint32 := by
  unfold readMetadata
  cases dir.metadata with
  | none => simp
  | some md' =>
    cases hc : md'.commitInfo with
    | none =>
      simp only [hc, reduceCtorEq, Option.some.injEq, false_iff]
      rintro ⟨rfl, h, -⟩
      cases hc.symm.trans h
    | some ci' =>
      simp only [hc, Option.some.injEq]
      split_ifs with h1 h2
      · simp only [false_iff]
        rintro ⟨rfl, h, h', -⟩
        cases hc.symm.trans h
        omega
      · simp only [false_iff]
        rintro ⟨rfl, -, -, h⟩
        omega
      · simp only [Except.ok.injEq, Prod.mk.injEq]
        constructor
        · rintro ⟨rfl, rfl⟩
          exact ⟨rfl, hc, by omega, by omega⟩
        · rintro ⟨rfl, h, -⟩
          exact ⟨rfl, Option.some.inj (hc.symm.trans h)⟩

section Load

variable {t : MultiTree} {dir : MultiTreeDir}

theorem MultiTree.Indexed.setInitialVersion (ht : t.Indexed) (iv : Nat) :
    (t.setInitialVersion iv).Indexed := by
  have ht' : MultiTree.Indexed { t with initialVersion := iv } := ⟨ht.sorted, ht.index⟩
  unfold MultiTree.setInitialVersion
  split_ifs
  · exact ht'.mapTrees _
  · exact ht'

theorem MultiTree.setInitialVersion_started (iv : Nat) :
    iv > 1 → ∀ entry ∈ (t.setInitialVersion iv).trees, 0 < entry.tree.version := by
  intro hiv entry he
  rw [MultiTree.setInitialVersion, if_pos hiv] at he
  obtain ⟨e, -, rfl⟩ := mem_map.mp he
  simp only [Tree.setInitialVersion]
  split_ifs <;> (try simp only) <;> omega

def loadedTrees (dir : MultiTreeDir) (md : MultiTreeMetadata) (ci : CommitInfo) : MultiTree :=
  let trees := dir.trees.map fun entry => ⟨entry.1, entry.2⟩
  MultiTree.setInitialVersion
    { initialVersion := 0, trees := trees, treesByName := indexFrom 0 trees,
      lastCommitInfo := ci, metadata := md } (md.initialVersion % 2 ^ 32).toNat

theorem loadedTrees_indexed (md : MultiTreeMetadata) (ci : CommitInfo) :
    (loadedTrees dir md ci).Indexed := by
  refine MultiTree.Indexed.setInitialVersion ⟨?_, rfl⟩ _
  exact pairwise_map.mpr dir.sorted

theorem loadedTrees_writeSnapshot (hi : t.Indexed)
    (hstarted : t.initialVersion > 1 → ∀ entry ∈ t.trees, 0 < entry.tree.version)
    (hle : t.initialVersion ≤ maxUint32) :
    loadedTrees (t.writeSnapshot .empty) ⟨some t.lastCommitInfo, t.initialVersion⟩
      t.lastCommitInfo = { t with metadata := ⟨some t.lastCommitInfo, t.initialVersion⟩ } := by
  have hdir : (t.writeSnapshot .empty).trees = t.trees.map fun e => (e.name, e.tree) :=
    MultiTree.foldl_writeTree hi.sorted fun p hp => absurd hp not_mem_nil
  have hiv : ((t.initialVersion : Int) % 2 ^ 32).toNat = t.initialVersion := by
    rw [maxUint32] at hle
    omega
  have htrees : (t.writeSnapshot .empty).trees.map (fun e => NamedTree.mk e.1 e.2) = t.trees := by
    rw [hdir, map_map]
    exact map_id _
  unfold loadedTrees MultiTree.setInitialVersion
  simp only [hiv, htrees, ← hi.index]
  split_ifs with h
  · -- every tree has a version already, so the initial version has no effect
    have hsame : t.trees.map (fun e => { e with tree := e.tree.setInitialVersion t.initialVersion }) =
        t.trees := by
      refine (map_congr_left fun e he => ?_).trans (map_id _)
      rw [Tree.setInitialVersion, if_pos (hstarted h e he)]
      rfl
    simp only [MultiTree.mapTrees, hsame]
  · rfl

variable [Sha256]

theorem loadMultiTree_eq_ok_iff :
    loadMultiTree dir = .ok t ↔ ∃ md ci, readMetadata dir = .ok (md, ci) ∧
      t = loadedTrees dir md ci ∧
      ci = t.buildCommitInfo (match t.trees with
        | entry :: _ => entry.tree.version
        | [] => ci.version) := by
  unfold loadMultiTree
  cases hm : readMetadata dir with
  | error e => simp
  | ok p =>
    obtain ⟨md, ci⟩ := p
    simp only [Results.ok_bind, Except.ok.injEq, Prod.mk.injEq]
    rw [Results.bind_eq_ok]
    constructor
    · rintro ⟨⟨⟩, h1, h2⟩
      cases h2
      exact ⟨md, ci, ⟨rfl, rfl⟩, rfl, commitInfoEqual_eq_ok.mp h1⟩
    · rintro ⟨_, _, ⟨rfl, rfl⟩, rfl, h⟩
      exact ⟨(), commitInfoEqual_eq_ok.mpr h, rfl⟩

theorem loadMultiTree_eq_ok (h : loadMultiTree dir = .ok t) :
    t.Indexed ∧ t.lastCommitInfo = t.buildCommitInfo t.version ∧
      (t.initialVersion > 1 → ∀ entry ∈ t.trees, 0 < entry.tree.version) ∧
      t.initialVersion ≤ maxUint32 ∧ t.version ≤ maxUint32 ∧ t.snapshotVersion = some t.version := by
  obtain ⟨md, ci, hm, rfl, hci⟩ := loadMultiTree_eq_ok_iff.mp h
  obtain ⟨-, hmc, hv, hiv⟩ := readMetadata_eq_ok.mp hm
  have hfields : (loadedTrees dir md ci).lastCommitInfo = ci ∧
      (loadedTrees dir md ci).metadata = md ∧
      (loadedTrees dir md ci).initialVersion = (md.initialVersion % 2 ^ 32).toNat := by
    unfold loadedTrees MultiTree.setInitialVersion
    split_ifs <;> exact ⟨rfl, rfl, rfl⟩
  obtain ⟨h1, h2, h3⟩ := hfields
  have hver : (loadedTrees dir md ci).version = ci.version := congrArg CommitInfo.version h1
  refine ⟨loadedTrees_indexed md ci, ?_, ?_, ?_, hver ▸ hv, ?_⟩
  · rw [h1, hver]
    have hcv := congrArg CommitInfo.version hci
    simp only [MultiTree.buildCommitInfo] at hcv
    rw [← hcv] at hci
    exact hci
  · rw [h3]
    exact MultiTree.setInitialVersion_started _
  · rw [h3, maxUint32]
    omega
  · rw [MultiTree.snapshotVersion, h2, hmc, hver]
    rfl

theorem loadMultiTree_writeSnapshot (ht : t.Committed) (hv : t.version ≤ maxUint32) :
    loadMultiTree (t.writeSnapshot .empty) =
      .ok { t with metadata := ⟨some t.lastCommitInfo, t.initialVersion⟩ } := by
  have hloaded := loadedTrees_writeSnapshot ht.indexed ht.started ht.initialVersion_le
  have hle : (t.initialVersion : Int) ≤ maxUint32 := Int.ofNat_le.mpr ht.initialVersion_le
  refine loadMultiTree_eq_ok_iff.mpr ⟨_, _, readMetadata_eq_ok.mpr ⟨rfl, rfl, hv, hle⟩,
    hloaded.symm, ?_⟩
  have hhead : (match t.trees with
      | entry :: _ => (entry.tree.version : Int)
      | [] => t.lastCommitInfo.version) = t.version := by
    cases htr : t.trees with
    | nil => rfl
    | cons e trees => exact ht.lockstep e (htr ▸ mem_cons_self)
  simp only [hhead]
  exact ht.info

end Load

end CronosStore.Memiavl
