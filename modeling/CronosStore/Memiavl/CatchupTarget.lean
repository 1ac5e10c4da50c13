import CronosStore.Memiavl.Crash

/-!
# Catching up to a target

`catchupWAL` turns the target into an index of the log with an unsigned subtraction. A target more
than one below the initial version wraps around to an index behind every entry, is cut to the last
one, and the whole log is replayed. That is the only way past the target: `Overshoots` says when it
happens, and `catchup_bounded` that the version stays at or below the target exactly otherwise.

Versions are `int64`. The case of a negative version, which only a damaged metadata file could give,
is carried along: such trees would need a log of almost `2 ^ 64` entries.
-/

namespace CronosStore.Memiavl

open Foundation

namespace MultiTree

/-- The target lies below the initial version by more than one, and the log goes on behind the
version of the trees with an entry that is replayed to the initial version or later. -/
def Overshoots {P : Type} (t : MultiTree) (log : IndexedLog P) (endVersion : Int) : Prop :=
  endVersion + 1 < t.initialVersion ∧
    if t.version < 0 then 2 ^ 64 + 2 ≤ log.lastIndex + t.initialVersion
    else (t.version = 0 ∨ t.initialVersion ≤ t.version + 1) ∧
      walIndex (nextVersion t.version t.initialVersion) t.initialVersion ≤ log.lastIndex

instance {P : Type} (t : MultiTree) (log : IndexedLog P) (endVersion : Int) :
    Decidable (t.Overshoots log endVersion) := inferInstanceAs (Decidable (_ ∧ ite _ _ _))

/-! ## Versions along a replay -/

variable {t t' : MultiTree} {v : Int}

theorem applyChangeSets_fields {changeSets : List NamedChangeSet}
    (h : t.applyChangeSets changeSets = .ok t') :
    t'.initialVersion = t.initialVersion ∧ t'.version = t.version := by
  induction changeSets generalizing t with
  | nil =>
    cases h
    exact ⟨rfl, rfl⟩
  | cons cs changeSets ih =>
    rw [applyChangeSets, applyChangeSet] at h
    cases hl : t.treesByName.lookup cs.name with
    | none =>
      rw [hl] at h
      cases h
    | some i =>
      simp only [hl] at h
      obtain ⟨hiv, hver⟩ := ih h
      exact ⟨hiv, hver⟩

variable [Sha256] {P : Type} [WALCodec P] {log : IndexedLog P}

theorem replay_fields {n index : Nat} (h : replay log n index t = .ok t') :
    t'.initialVersion = t.initialVersion ∧
      t'.version = (fun v => nextVersion v t.initialVersion)^[n] t.version ∧
      (n ≠ 0 → index ≠ 0) := by
  induction n generalizing index t with
  | zero =>
    cases h
    exact ⟨rfl, rfl, fun h0 => absurd rfl h0⟩
  | succ n ih =>
    rw [replay] at h
    cases hread : log.read index with
    | none =>
      rw [hread] at h
      cases h
    | some bz =>
      rw [hread] at h
      simp only at h
      cases hdec : (unmarshal bz : Option WALEntry) with
      | none =>
        rw [hdec] at h
        cases h
      | some entry =>
        rw [hdec] at h
        simp only at h
        cases happly : t.applyWALEntry entry with
        | error f =>
          rw [happly] at h
          cases h
        | ok m =>
          rw [happly] at h
          simp only at h
          cases hsave : m.saveVersion false with
          | error f =>
            rw [hsave] at h
            cases h
          | ok u =>
            rw [hsave] at h
            obtain ⟨w, hw, hm⟩ := applyWALEntry_ok.mp happly
            obtain ⟨hiv, hinfo, -⟩ := applyUpgrades_fields hw
            obtain ⟨hiv', hver'⟩ := applyChangeSets_fields hm
            obtain ⟨-, rfl⟩ := saveVersion_ok.mp hsave
            obtain ⟨h1, h2, -⟩ := ih h
            have hmv : m.version = t.version := hver'.trans (congrArg CommitInfo.version hinfo)
            have hmiv : m.initialVersion = t.initialVersion := hiv'.trans hiv
            refine ⟨h1.trans hmiv, ?_, fun _ h0 => ?_⟩
            · rw [h2, Function.iterate_succ, Function.comp, ← hmv, ← hmiv]
              rfl
            · have hisSome : (log.read index).isSome := by
                rw [hread]
                rfl
              have hrange := IndexedLog.read_isSome_iff.mp hisSome
              omega

omit [Sha256] in
/-- From a version that is not negative, every entry but the first adds one. -/
theorem iterate_nextVersion (hv : 0 ≤ v) (iv n : Nat) :
    (fun v => nextVersion v iv)^[n + 1] v = nextVersion v iv + n := by
  induction n with
  | zero => simp
  | succ n ih =>
    have hpos : 0 < nextVersion v iv := by
      unfold nextVersion
      split_ifs <;> omega
    rw [Function.iterate_succ_apply', ih]
    unfold nextVersion at hpos ⊢
    split_ifs at hpos ⊢ <;> push_cast <;> omega

omit [Sha256] in
/-- From a negative version the trees pass zero on their way to the initial version. -/
theorem iterate_nextVersion_neg (hv : v < 0) {iv : Nat} (hiv : 1 < iv) (n : Nat) :
    (fun v => nextVersion v iv)^[n] v = if v + n ≤ 0 then v + n else iv + (v + n - 1) := by
  induction n with
  | zero =>
    rw [Function.iterate_zero, id, if_pos (by omega)]
    omega
  | succ n ih =>
    rw [Function.iterate_succ_apply', ih]
    unfold nextVersion
    push_cast
    split_ifs <;> omega

omit [Sha256] in
theorem walIndex_eq {iv : Nat} (hv : -2 ^ 63 ≤ v ∧ v ≤ 2 ^ 63) (hiv : iv ≤ maxUint32) :
    (walIndex v iv : Int) =
      if 1 < iv then if iv ≤ v + 1 then v + 1 - iv else v + 1 - iv + 2 ^ 64
      else if 0 ≤ v then v else v + 2 ^ 64 := by
  have : iv ≤ 4294967295 := hiv
  unfold walIndex
  split_ifs <;> omega

theorem catchupWAL_target_ok {endVersion : Int}
    (hpos : 0 < endVersion) (h : t.catchupWAL log endVersion = .ok t') :
    let first := walIndex (nextVersion t.version t.initialVersion) t.initialVersion
    let last := walIndex endVersion t.initialVersion
    (log.lastIndex < first ∧ t' = t) ∨
      first ≤ log.lastIndex ∧ first ≤ last ∧ first ≠ 0 ∧ t'.version =
        (fun v => nextVersion v t.initialVersion)^[min last log.lastIndex + 1 - first] t.version := by
  intro first last
  unfold catchupWAL at h
  rw [if_neg (by omega)] at h
  simp only [if_neg (show ¬endVersion = 0 by omega)] at h
  split_ifs at h with h1 h2
  · cases h
    exact .inl ⟨h1, rfl⟩
  · cases hr : replay log (min last log.lastIndex + 1 - first) first t with
    | error e =>
      rw [hr] at h
      cases h
    | ok u =>
      rw [hr] at h
      cases h
      obtain ⟨-, hver, hne⟩ := replay_fields hr
      exact .inr ⟨by omega, by omega, hne (by omega), hver⟩

theorem catchupWAL_le_iff {endVersion : Int}
    (hv : -2 ^ 63 ≤ t.version ∧ t.version < 2 ^ 63) (hiv : t.initialVersion ≤ maxUint32)
    (hpos : 0 < endVersion) (hend : endVersion < 2 ^ 63) (h : t.catchupWAL log endVersion = .ok t') :
    t'.version ≤ max t.version endVersion ↔ ¬t.Overshoots log endVersion := by
  have hmax : t.initialVersion ≤ 4294967295 := hiv
  have hnext : -2 ^ 63 ≤ nextVersion t.version t.initialVersion ∧
      nextVersion t.version t.initialVersion ≤ 2 ^ 63 := by
    unfold nextVersion
    split_ifs <;> omega
  have hfirst := walIndex_eq hnext hiv
  have hlastv := walIndex_eq (show -2 ^ 63 ≤ endVersion ∧ endVersion ≤ 2 ^ 63 by omega) hiv
  have hcases := catchupWAL_target_ok hpos h
  simp only at hcases
  unfold Overshoots
  generalize walIndex (nextVersion t.version t.initialVersion) t.initialVersion = first at *
  generalize walIndex endVersion t.initialVersion = last at *
  generalize log.lastIndex = L at *
  obtain ⟨hlast, rfl⟩ | ⟨hlast, hle, hne, hver⟩ := hcases
  · refine iff_of_true (le_max_left _ _) ?_
    rintro ⟨hwrap, hcond⟩
    rw [if_pos (by omega)] at hfirst
    unfold nextVersion at hfirst
    split_ifs at hcond hfirst <;> omega
  · -- at least one entry was replayed
    generalize hn : min last L + 1 - first = n at hver
    obtain ⟨k, rfl⟩ : ∃ k, n = k + 1 := ⟨n - 1, by omega⟩
    rw [hver]
    by_cases hone : 1 < t.initialVersion
    · rw [if_pos hone] at hfirst hlastv
      by_cases hneg : t.version < 0
      · rw [iterate_nextVersion_neg hneg hone, if_pos hneg]
        have hnv : nextVersion t.version t.initialVersion = t.version + 1 := by
          unfold nextVersion
          rw [if_neg (by omega)]
        rw [hnv, if_neg (by omega)] at hfirst
        push_cast
        split_ifs at hlastv ⊢ <;> omega
      · rw [iterate_nextVersion (by omega), if_neg hneg]
        unfold nextVersion at *
        split_ifs at hfirst hlastv ⊢ <;> omega
    · -- without an initial version nothing wraps around
      rw [if_neg hone] at hfirst hlastv
      have hnv : nextVersion t.version t.initialVersion = t.version + 1 := by
        unfold nextVersion
        rw [if_neg (by omega)]
      rw [hnv] at hfirst
      refine iff_of_true ?_ (by omega)
      rw [if_pos (by omega)] at hlastv
      have hneg : 0 ≤ t.version := by
        split_ifs at hfirst <;> omega
      rw [iterate_nextVersion hneg, hnv]
      split_ifs at hfirst <;> omega

end MultiTree

namespace Directory

variable {P : Type} [Sha256]

def Named (d : Directory P) : Prop :=
  ∀ v m, Nameable v → d.openTrees (snapshotName v) = .ok m → m.version = v

variable {d d' : Directory P}

omit [Sha256] in
theorem seekSnapshot_le {target : Nat} {v : Int} (h : d.seekSnapshot target = .ok v) : v ≤ target := by
  have hwalk : ∀ (names : List Name) (found : Option Int), (∀ w, found = some w → w ≤ target) →
      ∀ w, traverse (fun version found =>
        if version ≤ target then (true, some version) else (false, found)) names found = .ok (some w) →
      w ≤ target := by
    intro names
    induction names with
    | nil =>
      intro found hfound w hw
      cases hw
      exact hfound w rfl
    | cons name names ih =>
      intro found hfound w hw
      rw [traverse] at hw
      split_ifs at hw with hname
      · cases hparse : parseVersion name with
        | none =>
          rw [hparse] at hw
          cases hw
        | some version =>
          rw [hparse] at hw
          simp only at hw
          by_cases hle : version ≤ target
          · rw [if_pos hle] at hw
            cases hw
            exact hle
          · rw [if_neg hle] at hw
            exact ih found hfound w hw
      · exact ih found hfound w hw
  unfold seekSnapshot traverseSnapshots at h
  split at h
  · cases h
  · cases h
  · rename_i version hver
    cases h
    exact hwalk _ none (fun w hw => by cases hw) _ hver

theorem Named.clean (h : d.Named) : d.clean.Named := by
  intro v m hv hm
  refine h v m hv ?_
  obtain ⟨content, hget, hload⟩ := openTrees_eq_ok.mp hm
  have hmem := (mem_clean.mp (get_eq_some.mp hget)).1
  exact openTrees_eq_ok.mpr ⟨content, get_eq_some.mpr hmem, hload⟩

variable [WALCodec P]

theorem Sound.named {states : List MultiTree} {entries : List WALEntry} (h : d.Sound states entries) :
    d.Named := by
  intro v m hv hm
  obtain ⟨content, hget, hload⟩ := openTrees_eq_ok.mp hm
  obtain ⟨t, ht, rfl, hname⟩ := h.stored _ (get_eq_some.mp hget) (isTmpName_snapshotName v)
  have hsame := (h.history.load_writeSnapshot ht hload).2
  rw [← hsame.version]
  exact (snapshotName_inj hv (h.history.nameable ht) hname).symm

variable {opts : Options} {m : MultiTree}

/-- What `Load` with a target version gives: the trees of the newest snapshot that is not
behind the target, caught up with the log if they are before it. -/
theorem planClean_target_ok {steps : List FsStep}
    (hpos : 0 < opts.targetVersion) (h : d.planClean opts = .ok (m, steps)) :
    ∃ v m₀, d.seekSnapshot opts.targetVersion = .ok v ∧ d.openTrees (snapshotName v) = .ok m₀ ∧
      if (opts.targetVersion : Int) > m₀.version then
        m₀.catchupWAL d.wal opts.targetVersion = .ok m
      else m = m₀ := by
  obtain ⟨name, l, hsel, hl, hm, -⟩ := planClean_ok h
  obtain ⟨v, hseek, rfl⟩ := selectSnapshot_target hpos hsel
  simp only [hpos.ne', false_or] at hm
  exact ⟨v, l, hseek, hl, hm⟩

def opened (d : Directory P) (opts : Options) : Except LoadDBError MultiTree := do
  let e := if opts.readOnly then d else d.clean
  let snapshot ← e.selectSnapshot opts.targetVersion
  e.openTrees snapshot

theorem load_planClean (h : d.load opts = .ok (m, d')) :
    ∃ steps, (if opts.readOnly then d else d.clean).planClean opts = .ok (m, steps) := by
  by_cases hro : opts.readOnly = true
  · rw [load, plan] at h
    split at h
    · cases h
    · rename_i m' steps hplan
      split at hplan
      · cases hplan
      rw [if_pos hro]
      split at h <;> cases h
      exact ⟨steps, hplan⟩
  · obtain ⟨steps, hplan, -⟩ := load_planned (Bool.eq_false_iff.mpr hro) h
    rw [if_neg hro]
    exact ⟨steps, hplan⟩

omit [WALCodec P] in
theorem openTrees_initialVersion_le {name : Name} (h : d.openTrees name = .ok m) :
    m.initialVersion ≤ maxUint32 := by
  obtain ⟨content, -, hload⟩ := openTrees_eq_ok.mp h
  obtain ⟨-, -, -, hle, -⟩ := loadMultiTree_eq_ok hload
  exact hle

omit [WALCodec P] in
/-- Names of negative versions are read as the name of version zero. -/
theorem Named.version_of_seek (h : d.Named) {target : Nat} (htarget : target ≤ maxUint32) {v : Int}
    (hseek : d.seekSnapshot target = .ok v) (hm : d.openTrees (snapshotName v) = .ok m) :
    0 ≤ m.version ∧ m.version ≤ target := by
  have hle := seekSnapshot_le hseek
  have hmax : target ≤ 4294967295 := htarget
  by_cases hneg : v < 0
  · have hzero : snapshotName v = snapshotName 0 := by
      unfold snapshotName
      rw [Int.toNat_of_nonpos (by omega)]
      rfl
    rw [hzero] at hm
    have hver := h 0 m (by unfold Nameable; omega) hm
    omega
  · have hver := h v m (by unfold Nameable; omega) hm
    omega

theorem load_le_iff (hnamed : d.Named) (hpos : 0 < opts.targetVersion)
    (htarget : opts.targetVersion ≤ maxUint32) (h : d.load opts = .ok (m, d')) :
    ∃ m₀, d.opened opts = .ok m₀ ∧
      (m.version ≤ opts.targetVersion ↔ ¬m₀.Overshoots d.wal opts.targetVersion) := by
  have hmax : opts.targetVersion ≤ 4294967295 := htarget
  obtain ⟨steps, hplan⟩ := load_planClean h
  obtain ⟨e, he, hnamed', hwal⟩ : ∃ e, (if opts.readOnly then d else d.clean) = e ∧ e.Named ∧
      e.wal = d.wal := by
    refine ⟨_, rfl, ?_⟩
    split
    · exact ⟨hnamed, rfl⟩
    · exact ⟨hnamed.clean, rfl⟩
  rw [he] at hplan
  obtain ⟨v, m₀, hseek, hopen, hm⟩ := planClean_target_ok hpos hplan
  obtain ⟨h0, hle⟩ := hnamed'.version_of_seek htarget hseek hopen
  refine ⟨m₀, ?_, ?_⟩
  · unfold opened selectSnapshot
    rw [he]
    simp only [if_pos hpos, hseek]
    exact hopen
  · rw [hwal] at hm
    split at hm
    · rename_i hgt
      have hiff := MultiTree.catchupWAL_le_iff (by omega) (openTrees_initialVersion_le hopen)
        (by omega) (by omega) hm
      rwa [max_eq_right (by omega)] at hiff
    · -- the snapshot of the target itself: nothing is replayed, and nothing wraps around
      subst hm
      refine iff_of_true hle ?_
      rintro ⟨hwrap, hcond⟩
      rw [if_neg (by omega)] at hcond
      omega

end Directory

section Bounded

variable [Sha256] {P : Type} [WALCodec P]

/-- Catching up to a target leaves the version at or below the target exactly if the target
does not wrap around, and `Load` with a target version likewise. -/
theorem catchup_bounded :
    (∀ (t t' : MultiTree) (log : IndexedLog P) (endVersion : Int),
      (-2 ^ 63 ≤ t.version ∧ t.version < 2 ^ 63) → t.initialVersion ≤ maxUint32 →
      0 < endVersion → endVersion < 2 ^ 63 → t.catchupWAL log endVersion = .ok t' →
      (t'.version ≤ max t.version endVersion ↔ ¬t.Overshoots log endVersion)) ∧
    ∀ (d d' : Directory P) (opts : Options) (m : MultiTree), d.Named → 0 < opts.targetVersion →
      opts.targetVersion ≤ maxUint32 → d.load opts = .ok (m, d') →
      ∃ m₀, d.opened opts = .ok m₀ ∧
        (m.version ≤ opts.targetVersion ↔ ¬m₀.Overshoots d.wal opts.targetVersion) :=
  ⟨fun _ _ _ _ hv hiv hpos hend h => MultiTree.catchupWAL_le_iff hv hiv hpos hend h,
    fun _ _ _ _ hnamed hpos htarget h => Directory.load_le_iff hnamed hpos htarget h⟩

end Bounded

def threeBlocks [Sha256] : Option (Process WALEntry) :=
  (Process.init ⟨-1, 0, 1000⟩ (.fresh 100)).runAll Process.CrashSafe [.commit (putBlock true 7), .finishCommit,
    .commit (putBlock false 8), .finishCommit, .commit (putBlock false 9), .finishCommit]

/-- The target is one block back. -/
theorem catchup_bounded_initial :
    letI := Sha256.zero
    ∃ (σ : Process WALEntry) (m : MultiTree) (d' : Directory WALEntry),
      Process.Run Process.CrashSafe (.init ⟨-1, 0, 1000⟩ (.fresh 100)) σ ∧
      σ.db.mtree.version = 102 ∧ σ.dir.load ⟨101, true, false⟩ = .ok (m, d') ∧ m.version ≤ 101 := by
  let _ := Sha256.zero
  have hend : (threeBlocks.map fun σ =>
      (σ.db.mtree.version, (σ.dir.load ⟨101, true, false⟩).toOption.isSome,
        (σ.dir.opened ⟨101, true, false⟩).toOption.map
          fun m₀ => decide (m₀.Overshoots σ.dir.wal 101))) = some (102, true, some false) := by
    decide
  obtain ⟨σ, hrun, hend⟩ := Process.exists_run hend
  simp only [Prod.mk.injEq] at hend
  obtain ⟨hv, hload, hover⟩ := hend
  obtain ⟨⟨m, d'⟩, hload⟩ := Option.isSome_iff_exists.mp hload
  have hload := Results.toOption_eq_some.mp hload
  obtain ⟨entries, hsound, -⟩ := hrun.sound (Process.base_fresh (by decide)) (.refl σ)
  obtain ⟨m₀, hm0, hiff⟩ := catchup_bounded.2 σ.dir d' ⟨101, true, false⟩ m hsound.named (by decide)
    (by decide) hload
  rw [hm0] at hover
  have hnot : ¬m₀.Overshoots σ.dir.wal 101 := of_decide_eq_false (Option.some.inj hover)
  exact ⟨σ, m, d', hrun, hv, hload, hiff.mpr hnot⟩

/-- A target below the first version replays every block of the log. -/
theorem exists_catchup_overshoot :
    letI := Sha256.zero
    ∃ (σ : Process WALEntry) (m m' : MultiTree) (d' : Directory WALEntry),
      Process.Run Process.CrashSafe (.init ⟨-1, 0, 1000⟩ (.fresh 100)) σ ∧
      (MultiTree.fresh 100).catchupWAL σ.dir.wal 50 = .ok m ∧ (MultiTree.fresh 100).version = 0 ∧
      m.version = 102 ∧ σ.dir.load ⟨50, true, false⟩ = .ok (m', d') ∧ m'.version = 102 := by
  let _ := Sha256.zero
  have hend : (threeBlocks.map fun σ =>
      (((MultiTree.fresh 100).catchupWAL σ.dir.wal 50).toOption.map MultiTree.version,
        (σ.dir.load ⟨50, true, false⟩).toOption.map fun r => r.1.version)) =
      some (some 102, some 102) := by
    decide
  obtain ⟨σ, hrun, hend⟩ := Process.exists_run hend
  simp only [Prod.mk.injEq, Option.map_eq_some_iff, Results.toOption_eq_some] at hend
  obtain ⟨⟨m, hm, hv⟩, ⟨m', d'⟩, hload, hv'⟩ := hend
  exact ⟨σ, m, m', d', hrun, hm, rfl, hv, hload, hv'⟩

end CronosStore.Memiavl
