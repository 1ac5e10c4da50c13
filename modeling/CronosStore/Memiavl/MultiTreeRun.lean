import CronosStore.Foundation.Transitions
import CronosStore.Memiavl.InitialVersion

/-!
# Runs of a multi tree

The methods of a `MultiTree` one after another, in any order, with writing a snapshot and loading it
among them. The names stay in order and the index stays right in every run. The versions are counted
twice, once for all trees and once in each tree. A tree that is created gets its count from the
other one as an `uint32`, so they agree after every `SaveVersion` if no tree is created once the
versions have passed `MaxUint32` (`run_lockstep`).
-/

namespace CronosStore.Memiavl.MultiTree

open Foundation List

/-! ## The remaining methods -/

def copiedIndex : Nat → List NamedTree → List (Name × Nat)
  | _, [] => []
  | i, entry :: trees =>
    if trees.any fun other => other.name = entry.name then copiedIndex (i + 1) trees
    else (entry.name, i) :: copiedIndex (i + 1) trees

def copy (t : MultiTree) : MultiTree := { t with treesByName := copiedIndex 0 t.trees }

inductive Op
  | applyUpgrades (upgrades : List TreeNameUpgrade)
  | applyChangeSets (changeSets : List NamedChangeSet)
  | saveVersion (updateCommitInfo : Bool)
  | copy
  | setInitialVersion (initialVersion : Int)
  /-- Write a snapshot and go on with what is loaded from it. -/
  | reload
deriving DecidableEq

structure Session where
  mtree : MultiTree
  settable : Bool

namespace Session

def init (initialVersion : Nat) : Session := ⟨newEmptyMultiTree initialVersion, initialVersion ≤ 1⟩

variable [Sha256]

def next (s : Session) : Op → Option Session
  | .applyUpgrades upgrades => (s.mtree.applyUpgrades upgrades).toOption.map (⟨·, s.settable⟩)
  | .applyChangeSets changeSets =>
    (s.mtree.applyChangeSets changeSets).toOption.map (⟨·, s.settable⟩)
  | .saveVersion update => (s.mtree.saveVersion update).toOption.map (⟨·, false⟩)
  | .copy => some ⟨s.mtree.copy, s.settable⟩
  | .setInitialVersion initialVersion =>
    if s.settable then (s.mtree.setInitialVersionChecked initialVersion).toOption.map (⟨·, false⟩)
    else none
  | .reload => (loadMultiTree (s.mtree.writeSnapshot .empty)).toOption.map (⟨·, s.settable⟩)

def Fits (s : Session) : Op → Prop
  | .applyUpgrades upgrades => (∃ u ∈ upgrades, u.Adds) → s.mtree.version < maxUint32
  | _ => True

abbrev Run (G : Session → Op → Prop) (initialVersion : Nat) : Session → Prop :=
  Runs next G (init initialVersion)

end Session

/-! ## The index of names -/

structure Ordered (t : MultiTree) : Prop where
  sorted : t.trees.Pairwise fun a b => a.name < b.name
  index : ∀ name i, t.treesByName.lookup name = some i ↔
    ∃ entry, t.trees[i]? = some entry ∧ entry.name = name

theorem lookup_indexFrom_iff {trees : List NamedTree}
    (hs : trees.Pairwise fun a b => a.name < b.name) (k : Nat) (name : Name) (i : Nat) :
    (indexFrom k trees).lookup name = some i ↔
      k ≤ i ∧ ∃ entry, trees[i - k]? = some entry ∧ entry.name = name := by
  induction trees generalizing k with
  | nil => simp [indexFrom]
  | cons e trees ih =>
    obtain ⟨hlt, hs⟩ := pairwise_cons.mp hs
    rw [indexFrom, lookup_cons]
    by_cases hname : name = e.name
    · rw [hname, beq_self_eq_true]
      constructor
      · intro h
        cases h
        exact ⟨le_rfl, e, by rw [Nat.sub_self]; rfl, rfl⟩
      · rintro ⟨hle, entry, hget, hen⟩
        rcases Nat.eq_or_lt_of_le hle with rfl | hlt'
        · rfl
        · -- a later tree has a greater name
          obtain ⟨j, hj⟩ : ∃ j, i - k = j + 1 := ⟨i - k - 1, by omega⟩
          rw [hj, getElem?_cons_succ] at hget
          have hne := hlt entry (mem_of_getElem? hget)
          rw [hen] at hne
          exact absurd hne (lt_irrefl _)
    · rw [beq_false_of_ne hname, ih hs]
      constructor
      · rintro ⟨hle, entry, hget, hen⟩
        refine ⟨by omega, entry, ?_, hen⟩
        have hi : i - k = i - (k + 1) + 1 := by omega
        rw [hi, getElem?_cons_succ]
        exact hget
      · rintro ⟨hle, entry, hget, hen⟩
        rcases Nat.eq_or_lt_of_le hle with rfl | hlt'
        · rw [Nat.sub_self, getElem?_cons_zero] at hget
          cases hget
          exact absurd hen.symm hname
        · have hi : i - k = i - (k + 1) + 1 := by omega
          rw [hi, getElem?_cons_succ] at hget
          exact ⟨hlt', entry, hget, hen⟩

variable {t t' : MultiTree}

theorem Indexed.ordered (ht : t.Indexed) : t.Ordered where
  sorted := ht.sorted
  index name i := by
    rw [ht.index, lookup_indexFrom_iff ht.sorted]
    simp

theorem copiedIndex_eq {trees : List NamedTree} (hs : trees.Pairwise fun a b => a.name < b.name)
    (i : Nat) : copiedIndex i trees = indexFrom i trees := by
  induction trees generalizing i with
  | nil => rfl
  | cons e trees ih =>
    obtain ⟨hlt, hs⟩ := pairwise_cons.mp hs
    have hnone : ¬(trees.any fun other => other.name = e.name) = true := by
      rw [any_eq_true]
      rintro ⟨other, hmem, heq⟩
      have := hlt other hmem
      rw [of_decide_eq_true heq] at this
      exact lt_irrefl _ this
    rw [copiedIndex, if_neg hnone, indexFrom, ih hs]

theorem Indexed.copy_eq (ht : t.Indexed) : t.copy = t := by
  rw [copy, copiedIndex_eq ht.sorted, ← ht.index]

namespace Session

variable {G : Session → Op → Prop} {s s' : Session} {op : Op} {iv : Nat}

structure Lockstep (s : Session) : Prop where
  indexed : s.mtree.Indexed
  aligned : Aligned (nextVersion s.mtree.version s.mtree.initialVersion) s.mtree.trees
  version_nonneg : 0 ≤ s.mtree.version
  initialVersion_le : s.mtree.initialVersion ≤ maxUint32
  unset : s.settable = true → s.mtree.initialVersion ≤ 1

theorem lockstep_init (hiv : iv ≤ maxUint32) : (init iv).Lockstep where
  indexed := ⟨List.Pairwise.nil, rfl⟩
  aligned := fun _ he => absurd he not_mem_nil
  version_nonneg := le_rfl
  initialVersion_le := hiv
  unset := fun h => of_decide_eq_true h

theorem nextVersion_pos {v : Int} (hv : 0 ≤ v) (iv : Nat) : 0 < nextVersion v iv :=
  lt_of_le_of_lt hv (lt_nextVersion v iv)

theorem Lockstep.applyUpgrades (hs : s.Lockstep) {upgrades : List TreeNameUpgrade}
    (hfits : s.Fits (.applyUpgrades upgrades)) (h : s.mtree.applyUpgrades upgrades = .ok t')
    {settable : Bool} (hset : settable = s.settable) : (Session.mk t' settable).Lockstep := by
  obtain ⟨hiv, hinfo, hal⟩ := applyUpgrades_fields h
  have hversion : t'.version = s.mtree.version := congrArg CommitInfo.version hinfo
  have hle : (∃ u ∈ upgrades, u.Adds) →
      nextVersion s.mtree.version s.mtree.initialVersion ≤ maxUint32 := by
    intro hadds
    have hlt := hfits hadds
    have hivle := hs.initialVersion_le
    unfold nextVersion
    split_ifs
    · exact Int.ofNat_le.mpr hivle
    · omega
  have haligned := hal (nextVersion_pos hs.version_nonneg _) hle hs.aligned
  refine ⟨hs.indexed.applyUpgrades h, ?_, ?_, ?_, ?_⟩
  · rw [hversion, hiv]
    exact haligned
  · rw [hversion]
    exact hs.version_nonneg
  · rw [hiv]
    exact hs.initialVersion_le
  · intro h
    rw [hiv]
    exact hs.unset (hset ▸ h)

theorem Lockstep.applyPairs (hs : s.Lockstep) (pairs : Name → ChangeSet) :
    (Session.mk (s.mtree.applyPairs pairs) s.settable).Lockstep where
  indexed := hs.indexed.applyPairs pairs
  aligned := by
    intro e he
    obtain ⟨e1, he1, rfl⟩ := mem_map.mp he
    have := hs.aligned e1 he1
    simp only [Tree.applyChangeSet_version]
    exact this
  version_nonneg := hs.version_nonneg
  initialVersion_le := hs.initialVersion_le
  unset := hs.unset

theorem Lockstep.setInitialVersion (hs : s.Lockstep) (hset : s.settable = true)
    (hversion : s.mtree.version = 0) {w : Nat} (hw : w ≤ maxUint32) :
    (Session.mk (s.mtree.setInitialVersion w) false).Lockstep := by
  have hfields : (s.mtree.setInitialVersion w).version = 0 ∧
      (s.mtree.setInitialVersion w).initialVersion = w := by
    unfold MultiTree.setInitialVersion
    split_ifs <;> exact ⟨hversion, rfl⟩
  obtain ⟨hv, hiv⟩ := hfields
  refine ⟨hs.indexed.setInitialVersion w, ?_, hv.ge, hiv.trans_le hw, fun h => absurd h
    Bool.false_ne_true⟩
  -- the trees that are there were created for version 1
  have hzero : ∀ entry ∈ s.mtree.trees, entry.tree.version = 0 := by
    intro e he
    have halign := hs.aligned e he
    have hle := hs.unset hset
    rw [hversion, nextVersion, if_neg (fun h => absurd h.2 (by omega))] at halign
    omega
  rw [hv, hiv]
  intro e he
  unfold MultiTree.setInitialVersion at he
  unfold nextVersion
  by_cases hw1 : w > 1
  · rw [if_pos hw1] at he
    obtain ⟨e1, he1, rfl⟩ := mem_map.mp he
    rw [if_pos ⟨rfl, hw1⟩]
    simp only [Tree.setInitialVersion]
    rw [if_neg (by rw [hzero e1 he1]; exact lt_irrefl 0), if_neg (by omega)]
    simp only
    omega
  · rw [if_neg hw1] at he
    rw [if_neg (fun h => hw1 h.2), hzero e he]
    rfl

variable [Sha256]

theorem next_cases (h : s.next op = some s') :
    (∃ upgrades, op = .applyUpgrades upgrades ∧ s.mtree.applyUpgrades upgrades = .ok s'.mtree ∧
      s'.settable = s.settable) ∨
    (∃ changeSets, op = .applyChangeSets changeSets ∧
      s.mtree.applyChangeSets changeSets = .ok s'.mtree ∧ s'.settable = s.settable) ∨
    (∃ update, op = .saveVersion update ∧ s.mtree.saveVersion update = .ok s'.mtree ∧
      s'.settable = false) ∨
    (op = .copy ∧ s'.mtree = s.mtree.copy ∧ s'.settable = s.settable) ∨
    (∃ initialVersion, op = .setInitialVersion initialVersion ∧ s.settable = true ∧
      s.mtree.setInitialVersionChecked initialVersion = .ok s'.mtree ∧ s'.settable = false) ∨
    (op = .reload ∧ loadMultiTree (s.mtree.writeSnapshot .empty) = .ok s'.mtree ∧
      s'.settable = s.settable) := by
  cases op with
  | applyUpgrades upgrades =>
    obtain ⟨t, ht, rfl⟩ := Option.map_eq_some_iff.mp h
    exact .inl ⟨upgrades, rfl, Results.toOption_eq_some.mp ht, rfl⟩
  | applyChangeSets changeSets =>
    obtain ⟨t, ht, rfl⟩ := Option.map_eq_some_iff.mp h
    exact .inr (.inl ⟨changeSets, rfl, Results.toOption_eq_some.mp ht, rfl⟩)
  | saveVersion update =>
    obtain ⟨t, ht, rfl⟩ := Option.map_eq_some_iff.mp h
    exact .inr (.inr (.inl ⟨update, rfl, Results.toOption_eq_some.mp ht, rfl⟩))
  | copy =>
    cases h
    exact .inr (.inr (.inr (.inl ⟨rfl, rfl, rfl⟩)))
  | setInitialVersion initialVersion =>
    rw [next] at h
    split_ifs at h with hset
    obtain ⟨t, ht, rfl⟩ := Option.map_eq_some_iff.mp h
    exact .inr (.inr (.inr (.inr (.inl ⟨_, rfl, hset, Results.toOption_eq_some.mp ht, rfl⟩))))
  | reload =>
    obtain ⟨t, ht, rfl⟩ := Option.map_eq_some_iff.mp h
    exact .inr (.inr (.inr (.inr (.inr ⟨rfl, Results.toOption_eq_some.mp ht, rfl⟩))))

theorem next_indexed (hs : s.mtree.Indexed) (h : s.next op = some s') : s'.mtree.Indexed := by
  obtain ⟨us, -, hu, -⟩ | ⟨cs, -, hc, -⟩ | ⟨update, -, hv, -⟩ | ⟨-, hcopy, -⟩ | ⟨v, -, -, hi, -⟩ |
    ⟨-, hl, -⟩ := next_cases h
  · exact hs.applyUpgrades hu
  · obtain ⟨-, heq⟩ := hs.applyChangeSets_ok.mp hc
    rw [heq]
    exact hs.applyPairs _
  · obtain ⟨-, heq⟩ := saveVersion_ok.mp hv
    have hbump := hs.mapTrees fun entry => { entry.tree with version := entry.tree.version + 1 }
    rw [heq]
    exact ⟨hbump.sorted, hbump.index⟩
  · rw [hcopy, hs.copy_eq]
    exact hs
  · rw [(setInitialVersionChecked_ok hi).2.2]
    exact hs.setInitialVersion _
  · exact (loadMultiTree_eq_ok hl).1

theorem Run.indexed (h : Run G iv s) : s.mtree.Indexed :=
  Runs.invariant (I := fun s => s.mtree.Indexed) ⟨List.Pairwise.nil, rfl⟩
    (fun _ _ _ hs _ htaken => next_indexed hs htaken) h

theorem Lockstep.saved (hs : s.Lockstep) {update : Bool} (h : s.mtree.saveVersion update = .ok t') :
    t'.version = nextVersion s.mtree.version s.mtree.initialVersion ∧
      ∀ entry ∈ t'.trees, (entry.tree.version : Int) = t'.version := by
  obtain ⟨-, rfl⟩ := saveVersion_ok.mp h
  have hversion : (if update then
        s.mtree.bump.buildCommitInfo (nextVersion s.mtree.version s.mtree.initialVersion)
      else ⟨nextVersion s.mtree.version s.mtree.initialVersion, []⟩).version =
      nextVersion s.mtree.version s.mtree.initialVersion := by
    cases update <;> rfl
  refine ⟨hversion, ?_⟩
  intro e he
  obtain ⟨e1, he1, rfl⟩ := mem_map.mp he
  have halign := hs.aligned e1 he1
  simp only [MultiTree.version] at hversion halign ⊢
  rw [hversion, ← halign]
  push_cast
  rfl

theorem Lockstep.saveVersion (hs : s.Lockstep) {update : Bool}
    (h : s.mtree.saveVersion update = .ok t') (hi : t'.Indexed) :
    (Session.mk t' false).Lockstep := by
  obtain ⟨hversion, hall⟩ := hs.saved h
  have hpos := nextVersion_pos hs.version_nonneg s.mtree.initialVersion
  rw [← hversion] at hpos
  have hiv : t'.initialVersion = s.mtree.initialVersion := by
    obtain ⟨-, rfl⟩ := saveVersion_ok.mp h
    rfl
  refine ⟨hi, ?_, hpos.le, ?_, fun h => absurd h (Bool.false_ne_true)⟩
  · intro e he
    rw [hall e he, nextVersion, if_neg (fun h => hpos.ne' h.1)]
  · rw [hiv]
    exact hs.initialVersion_le

theorem Lockstep.reload (hs : s.Lockstep)
    (h : loadMultiTree (s.mtree.writeSnapshot .empty) = .ok t') :
    (Session.mk t' s.settable).Lockstep := by
  have hstarted : s.mtree.initialVersion > 1 → ∀ entry ∈ s.mtree.trees, 0 < entry.tree.version := by
    intro hiv e he
    have halign := hs.aligned e he
    have hpos := hs.version_nonneg
    unfold nextVersion at halign
    split_ifs at halign with hv
    · omega
    · have : s.mtree.version ≠ 0 := fun h0 => hv ⟨h0, hiv⟩
      omega
  obtain ⟨md, ci, hm, ht, -⟩ := loadMultiTree_eq_ok_iff.mp h
  obtain ⟨hmd, hci, -⟩ := readMetadata_eq_ok.mp hm
  cases hmd
  cases hci
  rw [loadedTrees_writeSnapshot hs.indexed hstarted hs.initialVersion_le] at ht
  subst ht
  exact ⟨⟨hs.indexed.sorted, hs.indexed.index⟩, hs.aligned, hs.version_nonneg,
    hs.initialVersion_le, hs.unset⟩

theorem Lockstep.next (hs : s.Lockstep) (hfits : s.Fits op) (h : s.next op = some s') :
    s'.Lockstep := by
  have hi := next_indexed hs.indexed h
  obtain ⟨t', settable'⟩ := s'
  obtain ⟨us, rfl, hu, hset⟩ | ⟨cs, -, hc, rfl⟩ | ⟨update, -, hv, rfl⟩ | ⟨-, rfl, rfl⟩ |
    ⟨v, -, hset, hi', rfl⟩ | ⟨-, hl, rfl⟩ := next_cases h
  · exact hs.applyUpgrades hfits hu hset
  · obtain ⟨-, rfl⟩ := hs.indexed.applyChangeSets_ok.mp hc
    exact hs.applyPairs _
  · exact hs.saveVersion hv hi
  · rw [hs.indexed.copy_eq]
    exact hs
  · obtain ⟨-, hversion, rfl⟩ := setInitialVersionChecked_ok hi'
    exact hs.setInitialVersion hset hversion (by rw [maxUint32]; omega)
  · exact hs.reload hl

theorem Run.lockstep (hiv : iv ≤ maxUint32) (h : Run Fits iv s) : s.Lockstep :=
  Runs.invariant (lockstep_init hiv) (fun _ _ _ hs hfits htaken => hs.next hfits htaken) h

end Session

open Session List

section Results

variable [Sha256]

/-- In every run the names are in order and the index is right; in a run that creates no tree
past the last version, every tree has the version of the multi tree after `SaveVersion`. -/
theorem run_lockstep {iv : Nat} (hiv : iv ≤ maxUint32) {s : Session} :
    (Run (fun _ _ => True) iv s → s.mtree.Ordered) ∧
      (Run Fits iv s → ∀ update s', s.next (.saveVersion update) = some s' →
        ∀ entry ∈ s'.mtree.trees, (entry.tree.version : Int) = s'.mtree.version) := by
  refine ⟨fun h => h.indexed.ordered, ?_⟩
  intro h update s' htaken
  obtain ⟨t, ht, rfl⟩ := Option.map_eq_some_iff.mp htaken
  exact ((h.lockstep hiv).saved (Results.toOption_eq_some.mp ht)).2

end Results

instance (s : Session) : ∀ op, Decidable (s.Fits op)
  | .applyUpgrades _ => inferInstanceAs (Decidable (_ → _))
  | .applyChangeSets _ | .saveVersion _ | .copy | .setInitialVersion _ | .reload =>
    inferInstanceAs (Decidable True)

def grownRun : List Op :=
  [.applyUpgrades [⟨[97], [], false⟩], .setInitialVersion 5,
    .applyChangeSets [⟨[97], [⟨false, [1], some [2]⟩]⟩], .saveVersion true, .reload,
    .applyUpgrades [⟨[98], [], false⟩, ⟨[99], [97], false⟩], .copy]

theorem run_lockstep_grown :
    letI := Sha256.zero
    ∃ s s', Run Fits 1 s ∧ s.next (.saveVersion true) = some s' ∧ s'.mtree.version = 6 ∧
      s'.mtree.trees.map NamedTree.name = [[98], [99]] ∧
      ∀ entry ∈ s'.mtree.trees, (entry.tree.version : Int) = s'.mtree.version := by
  let _ := Sha256.zero
  have hend : ((runActions next Fits (init 1) grownRun).bind fun s =>
      (s.next (.saveVersion true)).map fun s' =>
        (s'.mtree.version, s'.mtree.trees.map NamedTree.name)) = some (6, [[98], [99]]) := by
    decide +kernel
  obtain ⟨s, hs, hend⟩ := Option.bind_eq_some_iff.mp hend
  obtain ⟨s', hs', hend⟩ := Option.map_eq_some_iff.mp hend
  obtain ⟨hversion, hnames⟩ := Prod.mk.inj hend
  have hrun : Run Fits 1 s := Runs.init.runActions hs
  exact ⟨s, s', hrun, hs', hversion, hnames, (run_lockstep (by decide)).2 hrun _ _ hs'⟩

def passedRun : List Op :=
  [.saveVersion true, .saveVersion true, .applyUpgrades [⟨[97], [], false⟩]]

/-- Versions without trees pass `MaxUint32`, and a tree that is created then starts at 0. -/
theorem lockstep_lost :
    letI := Sha256.zero
    ∃ s s', Run (fun _ _ => True) maxUint32 s ∧ s.next (.saveVersion true) = some s' ∧
      ∃ entry ∈ s'.mtree.trees, (entry.tree.version : Int) ≠ s'.mtree.version := by
  let _ := Sha256.zero
  have hend : ((runActions next (fun _ _ => True) (init maxUint32) passedRun).bind fun s =>
      (s.next (.saveVersion true)).map fun s' => (s'.mtree.version, s'.mtree.trees)) =
      some (2 ^ 32 + 1, [⟨[97], 1, none⟩]) := by
    decide +kernel
  obtain ⟨s, hs, hend⟩ := Option.bind_eq_some_iff.mp hend
  obtain ⟨s', hs', hend⟩ := Option.map_eq_some_iff.mp hend
  obtain ⟨hversion, htrees⟩ := Prod.mk.inj hend
  refine ⟨s, s', Runs.init.runActions hs, hs', ⟨[97], 1, none⟩, ?_, ?_⟩
  · rw [htrees]
    exact mem_singleton_self _
  · rw [hversion]
    decide

end CronosStore.Memiavl.MultiTree
