import CronosStore.Foundation.Steps
import CronosStore.Memiavl.Crash

/-!
# Rollback

`Load` with `LoadForOverwriting` goes back to a target version in several steps on the
directory. Up to the last one, the cut of the log, `Load` still finds the latest version:
the link only moves to another snapshot, and the snapshots that go are not linked. The cut
makes the target the latest version, and no snapshot is newer than the log then.
-/

namespace CronosStore.Memiavl

open Foundation List Directory Option

namespace Directory

variable {P : Type} {d d' : Directory P}

/-- There are no temporary directories. -/
def NoTmp (d : Directory P) : Prop := ∀ name ∈ d.names, isTmpName name = false

theorem NoTmp.removeAll (h : d.NoTmp) (name : Name) : (d.removeAll name).NoTmp :=
  fun n hn => h n (mem_names_removeAll.mp hn).1

theorem noTmp_clean (d : Directory P) : d.clean.NoTmp := by
  intro name hn
  obtain ⟨content, hmem⟩ := mem_names.mp hn
  exact (mem_clean.mp hmem).2

theorem NoTmp.notMem (h : d.NoTmp) (name : Name) : name ++ tmpSuffix ∉ d.names := fun hmem => by
  have := h _ hmem
  rw [isTmpName_tmp] at this
  cases this

/-- A snapshot that is renamed first and deleted then. -/
theorem NoTmp.removeAll_put (h : d.NoTmp) (name : Name) (content : MultiTreeDir) :
    ((d.removeAll name).put (name ++ tmpSuffix) content).removeAll (name ++ tmpSuffix) =
      d.removeAll name := by
  refine ext rfl rfl (SortedAssoc.erase_insert fun e he heq => h.notMem name ?_) rfl
  exact mem_names.mpr ⟨e.2, heq ▸ (mem_removeAll.mp he).1⟩

/-! ## Directories that differ in temporary things -/

structure Alike (d d' : Directory P) : Prop where
  current : d'.current = d.current
  wal : d'.wal = d.wal
  dirs : ∀ e : Name × MultiTreeDir, isTmpName e.1 = false → (e ∈ d'.dirs ↔ e ∈ d.dirs)

theorem Alike.refl (d : Directory P) : d.Alike d := ⟨rfl, rfl, fun _ _ => Iff.rfl⟩

theorem Alike.mem_names (h : d.Alike d') {v : Int} :
    snapshotName v ∈ d'.names ↔ snapshotName v ∈ d.names := by
  simp only [Directory.mem_names]
  exact exists_congr fun content => h.dirs _ (isTmpName_snapshotName v)

theorem Alike.removeAll_tmp (h : d.Alike d') {name : Name} (htmp : isTmpName name = true) :
    d.Alike (d'.removeAll name) := by
  refine ⟨h.current, h.wal, fun e he => ?_⟩
  rw [mem_removeAll, h.dirs e he]
  refine and_iff_left fun heq => ?_
  rw [heq, htmp] at he
  cases he

theorem throughout_cleanup (d : Directory P) :
    Throughout FsStep.apply d.Alike d.cleanupSteps d d.clean := by
  have hremove : ∀ (names : List Name) (d₁ : Directory P), (∀ name ∈ names, isTmpName name = true) →
      d.Alike d₁ → ∃ d₂, Throughout FsStep.apply d.Alike (names.map .removeAll) d₁ d₂ := by
    intro names
    induction names with
    | nil => exact fun d₁ _ h1 => ⟨d₁, .nil h1⟩
    | cons name names ih =>
      intro d₁ hall h1
      obtain ⟨hname, hall⟩ := forall_mem_cons.mp hall
      obtain ⟨d₂, hd2⟩ := ih _ hall (h1.removeAll_tmp hname)
      exact ⟨d₂, .cons h1 rfl hd2⟩
  obtain ⟨d₁, h1⟩ := hremove (d.names.filter isTmpName) d
    (fun name hname => (mem_filter.mp hname).2) (.refl d)
  obtain ⟨d₂, h2⟩ : ∃ d₂, Throughout FsStep.apply d.Alike d.cleanupSteps d d₂ := by
    unfold cleanupSteps
    have hend := h1.last
    by_cases ht : d.currentTmp.isSome
    · rw [if_pos ht]
      exact ⟨_, h1.append (.cons hend rfl (.nil ⟨hend.current, hend.wal, hend.dirs⟩))⟩
    · rw [if_neg ht, append_nil]
      exact ⟨d₁, h1⟩
  have heq : runSteps d.cleanupSteps d = some d₂ := h2.foldlM_eq
  rw [runSteps_cleanup] at heq
  cases heq
  exact h2

/-! ## The steps of a rollback -/

structure Rolling [Sha256] [WALCodec P] (wal : IndexedLog P) (states : List MultiTree)
    (entries : List WALEntry) (d : Directory P) : Prop where
  sound : d.Sound states entries
  logged : d.Logged states
  wal_eq : d.wal = wal

section Steps

variable [Sha256] [WALCodec P] {states : List MultiTree} {entries : List WALEntry} {wal : IndexedLog P}

theorem Rolling.alike (h : d.Rolling wal states entries) (ha : d.Alike d') :
    d'.Rolling wal states entries := by
  obtain ⟨⟨hh, hle, hcov, hst, hload, hwin, hcur⟩, hl, rfl⟩ := h
  have hwal := ha.wal
  refine ⟨⟨hh, hwal ▸ hle, hwal ▸ hcov, fun e he htmp => hst e ((ha.dirs e htmp).mp he) htmp,
    fun t ht hn => hload t ht (ha.mem_names.mp hn), fun i t ht hn => ?_, ?_⟩, ?_, hwal⟩
  · rw [hwal]
    exact hwin i t ht (ha.mem_names.mp hn)
  · obtain ⟨t, ht, hc, hn⟩ := hcur
    exact ⟨t, ht, ha.current.trans hc, ha.mem_names.mpr hn⟩
  · obtain ⟨t, ht, hc, hle⟩ := hl
    exact ⟨t, ht, ha.current.trans hc, hwal ▸ hle⟩

variable {t m : MultiTree} {versions : List Int} {target : Nat} {steps : List FsStep}

section

variable (h : d.Rolling wal states entries)
include h

theorem Rolling.link (ht : t ∈ states)
    (hn : snapshotName t.version ∈ d.names) (hle : t.logIndex ≤ wal.lastIndex) :
    Rolling wal states entries
      { d with current := some (snapshotName t.version), currentTmp := none } where
  sound := { h.sound with current := ⟨t, ht, rfl, hn⟩ }
  logged := ⟨t, ht, rfl, h.wal_eq ▸ hle⟩
  wal_eq := h.wal_eq

theorem throughout_link (hc : d.currentTmp = none)
    (ht : t ∈ states) (hn : snapshotName t.version ∈ d.names) (hle : t.logIndex ≤ wal.lastIndex) :
    Throughout FsStep.apply (Rolling wal states entries)
      [.symlink (snapshotName t.version), .renameLink] d
      { d with current := some (snapshotName t.version), currentTmp := none } := by
  have hlink : d.Alike { d with currentTmp := some (snapshotName t.version) } :=
    ⟨rfl, rfl, fun _ _ => Iff.rfl⟩
  refine .cons h ?_ (.cons (h.alike hlink) rfl (.nil (h.link ht hn hle)))
  rw [FsStep.apply]
  simp only [hc]

theorem Rolling.removeAll {name : Name}
    (hcur : d.current ≠ some name) : (d.removeAll name).Rolling wal states entries := by
  obtain ⟨⟨hh, hle, hcov, hst, hload, hwin, hc⟩, hl, hwal⟩ := h
  refine ⟨⟨hh, hle, hcov, fun e he => hst e (mem_removeAll.mp he).1,
    fun t ht hn => hload t ht (mem_names_removeAll.mp hn).1,
    fun i t ht hn => hwin i t ht (mem_names_removeAll.mp hn).1, ?_⟩, hl, hwal⟩
  obtain ⟨t, ht, hct, hn⟩ := hc
  refine ⟨t, ht, hct, mem_names_removeAll.mpr ⟨hn, fun heq => hcur ?_⟩⟩
  rw [hct, heq]

theorem throughout_remove (htmp : d.NoTmp) {v : Int}
    (hn : snapshotName v ∈ d.names) (hcur : d.current ≠ some (snapshotName v)) :
    Throughout FsStep.apply (Rolling wal states entries) (removeSteps (snapshotName v)) d
      (d.removeAll (snapshotName v)) := by
  obtain ⟨content, hmem⟩ := mem_names.mp hn
  have hfree := htmp.notMem (snapshotName v)
  have hrename : d.rename (snapshotName v) (snapshotName v ++ tmpSuffix) =
      some ((d.removeAll (snapshotName v)).put (snapshotName v ++ tmpSuffix) content) := by
    have hnone : d.get (snapshotName v ++ tmpSuffix) = none := by
      rw [eq_none_iff_forall_not_mem]
      exact fun c hc => hfree (mem_names.mpr ⟨c, get_eq_some.mp hc⟩)
    rw [rename, get_eq_some.mpr hmem]
    simp only [hnone]
  have hgone := h.removeAll hcur
  have halike : (d.removeAll (snapshotName v)).Alike
      ((d.removeAll (snapshotName v)).put (snapshotName v ++ tmpSuffix) content) := by
    refine ⟨rfl, rfl, fun e he => ?_⟩
    have hne : e.1 ≠ snapshotName v ++ tmpSuffix := fun heq => by
      rw [heq, isTmpName_tmp] at he
      cases he
    rw [mem_put]
    constructor
    · rintro (heq | ⟨hmem, -⟩)
      · exact absurd (congrArg Prod.fst heq) hne
      · exact hmem
    · exact fun hmem => .inr ⟨hmem, hne⟩
  -- the temporary directory was not there before
  exact .cons h hrename (.cons (hgone.alike halike) (congrArg some (htmp.removeAll_put _ _)) (.nil hgone))

theorem throughout_removes (htmp : d.NoTmp)
    (hv : ∀ v ∈ versions, Nameable v ∧ snapshotName v ∈ d.names ∧ d.current ≠ some (snapshotName v))
    (hnd : versions.Nodup) :
    ∃ d', Throughout FsStep.apply (Rolling wal states entries)
        (versions.flatMap fun v => removeSteps (snapshotName v)) d d' ∧
      d'.current = d.current ∧ d'.currentTmp = d.currentTmp ∧
      ∀ e, e ∈ d'.dirs ↔ e ∈ d.dirs ∧ ∀ v ∈ versions, e.1 ≠ snapshotName v := by
  induction versions generalizing d with
  | nil => exact ⟨d, .nil h, rfl, rfl, fun e => by simp⟩
  | cons v versions ih =>
    obtain ⟨⟨hname, hn, hcur⟩, hv⟩ := forall_mem_cons.mp hv
    obtain ⟨hfresh, hnd⟩ := nodup_cons.mp hnd
    have hfirst := throughout_remove h htmp hn hcur
    obtain ⟨d', hrest, hc, ht, hdirs⟩ := ih hfirst.last (htmp.removeAll _) (fun w hw => by
      obtain ⟨hwn, hmem, hwc⟩ := hv w hw
      refine ⟨hwn, mem_names_removeAll.mpr ⟨hmem, fun heq => hfresh ?_⟩, hwc⟩
      exact snapshotName_inj hwn hname heq ▸ hw) hnd
    refine ⟨d', hfirst.append hrest, hc, ht, fun e => ?_⟩
    rw [hdirs, mem_removeAll, forall_mem_cons, and_assoc]

theorem Rolling.cut {j : Nat} {wal' : IndexedLog P}
    (hw : wal.truncateBack j = some wal')
    (hold : ∀ t ∈ states, snapshotName t.version ∈ d.names → t.logIndex ≤ j) :
    Rolling wal' (states.take (j + 1)) (entries.take j) { d with wal := wal' } := by
  obtain ⟨⟨hh, hle, hcov, hst, hload, hwin, hcur⟩, hl, rfl⟩ := h
  obtain ⟨hlast, hdrop, hread⟩ := IndexedLog.truncateBack_eq_some hw
  have hj : j ≤ d.wal.lastIndex := by
    unfold IndexedLog.truncateBack at hw
    split_ifs at hw with hr
    exact hr.2.2
  -- snapshots that are left are of states before the cut
  have htake {t : MultiTree} (ht : t ∈ states) (hn : snapshotName t.version ∈ d.names) :
      t ∈ states.take (j + 1) := by
    obtain ⟨i, hi⟩ := mem_iff_getElem?.mp ht
    have hidx := (hh.atIndex i t hi).logIndex_eq
    have := hold t ht hn
    refine mem_of_getElem? (i := i) ?_
    rw [getElem?_take_of_lt (by omega), hi]
  refine ⟨⟨hh.take (hj.trans hle), ?_, fun k e hk hlt he => ?_, fun e he htmp => ?_,
    fun t ht => hload t (mem_of_mem_take ht), fun i t ht hn => ?_, ?_⟩, ?_, rfl⟩
  · simp only [hlast, length_take]
    omega
  · rw [hlast] at hlt
    rw [hdrop] at hk
    rw [getElem?_take_of_lt hlt] at he
    rw [MultiTree.LogHolds, hread _ (by omega)]
    exact hcov k e hk (by omega) he
  · obtain ⟨t, ht, hcontent, hname⟩ := hst e he htmp
    exact ⟨t, htake ht (hname ▸ mem_map.mpr ⟨e, he, rfl⟩), hcontent, hname⟩
  · rw [getElem?_take] at ht
    split_ifs at ht
    rw [hdrop]
    exact hwin i t ht hn
  · obtain ⟨t, ht, hc, hn⟩ := hcur
    exact ⟨t, htake ht hn, hc, hn⟩
  · obtain ⟨t, ht, hc, hn⟩ := hcur
    exact ⟨t, htake ht hn, hc, hlast.symm ▸ hold t ht hn⟩

/-! ## What a rollback decides -/

end

def rollbackTo (v : Int) (cur : Name) (newer : List Int) (index : Nat) : List FsStep :=
  (if snapshotName v ≠ cur then [.symlink (snapshotName v), .renameLink] else []) ++
    newer.reverse.flatMap (fun w => removeSteps (snapshotName w)) ++ [.truncateBack index]

theorem Lists.planClean_rollback (h : d.Lists versions) (hpos : 0 < target) :
    d.planClean ⟨target, false, true⟩ = .ok (m, steps) ↔
      ∃ (older : List Int) (v : Int) (newer : List Int) (l : MultiTree) (cur : Name),
        versions = older ++ v :: newer ∧ v ≤ target ∧ v < 2 ^ 31 ∧
        (∀ w ∈ newer, (target : Int) < w ∧ w < 2 ^ 31) ∧ d.openTrees (snapshotName v) = .ok l ∧
        d.wal.InRange (walIndex target l.initialVersion) ∧
        (if (target : Int) > l.version then l.catchupWAL d.wal target else .ok l) = .ok m ∧
        d.current = some cur ∧
        steps = rollbackTo v cur newer (walIndex target l.initialVersion) := by
  constructor
  · intro hplan
    obtain ⟨name, l, hsel, hl, hm, hroll⟩ := planClean_ok hplan
    obtain ⟨v, hseek, rfl⟩ := selectSnapshot_target hpos hsel
    simp only [hpos.ne', false_or, Bool.true_and, decide_eq_true hpos, if_true] at hm hroll
    obtain ⟨hr, hsteps⟩ := hroll
    obtain ⟨older, newer, heq, hv, hv', hnewer⟩ := h.seekSnapshot_ok.mp hseek
    have hcaught : (if (target : Int) > l.version then l.catchupWAL d.wal target else .ok l) = .ok m := by
      split_ifs at hm ⊢ with hgt
      · exact hm
      · rw [hm]
    unfold rollbackSteps at hsteps
    split at hsteps
    · cases hsteps
    · rename_i cur hcur
      rw [h.newerSnapshots_ok heq hv hv' hnewer] at hsteps
      exact ⟨older, v, newer, l, cur, heq, hv, hv', hnewer, hl, hr, hcaught, hcur,
        (Except.ok.inj hsteps).symm⟩
  · rintro ⟨older, v, newer, l, cur, heq, hv, hv', hnewer, hl, hr, hm, hcur, rfl⟩
    have hseek := h.seekSnapshot_ok.mpr ⟨older, newer, heq, hv, hv', hnewer⟩
    have hsteps : d.rollbackSteps (snapshotName v) target (walIndex target l.initialVersion) =
        .ok (rollbackTo v cur newer (walIndex target l.initialVersion)) := by
      simp only [rollbackSteps, hcur, h.newerSnapshots_ok heq hv hv' hnewer, rollbackTo]
    unfold planClean selectSnapshot
    by_cases hgt : (target : Int) > l.version
    · rw [if_pos hgt] at hm
      simp [hpos, hpos.ne', hseek, hl, hr, hgt, hm, hsteps, Except.map, Except.mapError, Results.ok_bind]
    · rw [if_neg hgt] at hm
      cases hm
      simp [hpos, hpos.ne', hseek, hl, hr, hgt, hsteps, Except.map, Results.ok_bind]

theorem exists_target (h : History 0 states entries) {iv : Nat}
    (hiv : ∀ t ∈ states, t.initialVersion = iv) (h32 : (target : Int) ≤ maxUint32)
    (hj : walIndex target iv ≤ entries.length) (h0 : walIndex target iv ≠ 0) :
    ∃ b, states[walIndex target iv]? = some b ∧ b.version = target := by
  have hlen := h.length
  obtain ⟨b, hb⟩ : ∃ b, states[walIndex target iv]? = some b :=
    ⟨_, getElem?_eq_getElem (by omega)⟩
  refine ⟨b, hb, ?_⟩
  obtain ⟨hver, hlt⟩ := h.atIndex _ b hb
  rw [hiv b (mem_of_getElem? hb)] at hver
  simp only [maxUint32] at h32
  revert hver h0
  unfold walVersion walIndex
  split_ifs <;> omega

omit [Sha256] [WALCodec P] in
theorem clean_eq_self (htmp : d.NoTmp) (hc : d.currentTmp = none) : d.clean = d := by
  refine ext rfl hc.symm ?_ rfl
  refine filter_eq_self.mpr fun e he => ?_
  rw [htmp e.1 (mem_map.mpr ⟨e, he, rfl⟩)]
  rfl

omit [Sha256] [WALCodec P] in
theorem cleanupSteps_eq_nil (htmp : d.NoTmp) (hc : d.currentTmp = none) : d.cleanupSteps = [] := by
  have hnames : d.names.filter isTmpName = [] :=
    filter_eq_nil_iff.mpr fun name hn => by simp [htmp name hn]
  simp [cleanupSteps, hnames, hc]

theorem Sound.exists_lists (h : d.Sound states entries) (htmp : d.NoTmp) :
    ∃ versions, d.Lists versions ∧ ∀ v ∈ versions, ∃ t ∈ states, t.version = v := by
  refine Directory.exists_lists h.history fun name hn _ => ?_
  obtain ⟨content, hmem⟩ := Directory.mem_names.mp hn
  obtain ⟨t, ht, -, hname⟩ := h.stored _ hmem (htmp name hn)
  exact ⟨t, ht, hname⟩

theorem throughout_before_cut (h : d.Rolling wal states entries) (htmp : d.NoTmp)
    (hc : d.currentTmp = none) {older newer : List Int} {v : Int} {cur : Name}
    (hlists : d.Lists versions) (heq : versions = older ++ v :: newer) (hcur : d.current = some cur)
    (ht : t ∈ states) (hv : t.version = v) (hle : t.logIndex ≤ wal.lastIndex) :
    ∃ d', Throughout FsStep.apply (Rolling wal states entries)
        ((if snapshotName v ≠ cur then [.symlink (snapshotName v), .renameLink] else []) ++
          newer.reverse.flatMap fun w => removeSteps (snapshotName w)) d d' ∧
      d'.current = some (snapshotName v) ∧ d'.currentTmp = none ∧
      ∀ e, e ∈ d'.dirs ↔ e ∈ d.dirs ∧ ∀ w ∈ newer, e.1 ≠ snapshotName w := by
  subst hv
  have hmem (w : Int) (hw : w ∈ versions) : Nameable w ∧ snapshotName w ∈ d.names :=
    ⟨hlists.nameable w hw, (hlists.mem_iff (hlists.nameable w hw)).mp hw⟩
  obtain ⟨d₁, hlink, hc1, ht1, hd1⟩ : ∃ d₁, Throughout FsStep.apply (Rolling wal states entries)
      (if snapshotName t.version ≠ cur then [.symlink (snapshotName t.version), .renameLink] else [])
        d d₁ ∧ d₁.current = some (snapshotName t.version) ∧ d₁.currentTmp = none ∧ d₁.dirs = d.dirs := by
    by_cases hne : snapshotName t.version ≠ cur
    · rw [if_pos hne]
      exact ⟨_, throughout_link h hc ht (hmem _ (by simp [heq])).2 hle, rfl, rfl, rfl⟩
    · rw [if_neg hne]
      exact ⟨d, .nil h, hcur.trans (by rw [not_not.mp hne]), hc, rfl⟩
  have hnames : d₁.names = d.names := congrArg (List.map Prod.fst) hd1
  have hsorted := hlists.sorted
  rw [heq, pairwise_append, pairwise_cons] at hsorted
  obtain ⟨d', hremove, hc', ht', hd'⟩ := throughout_removes hlink.last
    (fun name hn => htmp name (hnames ▸ hn)) (fun w hw => by
      have hw := mem_reverse.mp hw
      obtain ⟨hwn, hwm⟩ := hmem w (by simp [heq, hw])
      refine ⟨hwn, hnames ▸ hwm, fun hcw => ?_⟩
      rw [hc1] at hcw
      have hvw := snapshotName_inj (h.sound.history.nameable ht) hwn (Option.some.inj hcw)
      exact absurd (hsorted.2.1.1 w hw) (by omega))
    (nodup_reverse.mpr (hsorted.2.1.2.imp fun hlt => hlt.ne))
  refine ⟨d', hlink.append hremove, hc'.trans hc1, ht'.trans ht1, fun e => ?_⟩
  rw [hd', hd1]
  simp only [mem_reverse]

structure RolledBack (states : List MultiTree) (entries : List WALEntry) (j : Nat) (b : MultiTree)
    (d : Directory P) : Prop where
  rolling : d.Rolling d.wal (states.take (j + 1)) (entries.take j)
  lastIndex : d.wal.lastIndex = j
  noTmp : d.NoTmp
  currentTmp : d.currentTmp = none
  target : states[j]? = some b
  inRange : d.wal.InRange j
  current : ∃ t ∈ states.take (j + 1), d.current = some (snapshotName t.version) ∧
    snapshotName t.version ∈ d.names ∧ t.version < 2 ^ 31 ∧ t.version ≤ b.version ∧
    ∀ s ∈ states, snapshotName s.version ∈ d.names → s.version ≤ t.version

/-- What an accepted rollback does: up to the cut of the log the directory is one of the old
history, and the cut ends it at the target. -/
theorem Rolling.rollback (h : d.Rolling wal states entries) (htmp : d.NoTmp)
    (hc : d.currentTmp = none) (hpos : 0 < target) (h32 : (target : Int) ≤ maxUint32)
    (hplan : d.planClean ⟨target, false, true⟩ = .ok (m, steps)) :
    ∃ (j : Nat) (b : MultiTree) (before : List FsStep) (d₁ d' : Directory P),
      states[j]? = some b ∧ b.version = target ∧ b.Same m ∧
      steps = before ++ [.truncateBack j] ∧
      Throughout FsStep.apply (Rolling wal states entries) before d d₁ ∧
      FsStep.apply d₁ (.truncateBack j) = some d' ∧ d'.RolledBack states entries j b := by
  obtain ⟨versions, hlists, hstates⟩ := h.sound.exists_lists htmp
  obtain ⟨older, v, newer, l, cur, heq, hv, hv31, hnewer, hl, hr, hm, hcur, rfl⟩ :=
    (hlists.planClean_rollback hpos).mp hplan
  obtain ⟨t, ht, htv⟩ := hstates v (by simp [heq])
  have hh := h.sound.history
  have hn : snapshotName t.version ∈ d.names :=
    (hlists.mem_iff (hh.nameable ht)).mp (by simp [heq, htv])
  obtain ⟨l', hl', hsame⟩ := h.sound.openTrees ht hn
  rw [htv] at hl'
  cases hl.symm.trans hl'
  obtain ⟨hjd, hjl⟩ := IndexedLog.inRange_iff.mp hr
  have hle := h.sound.lastIndex_le
  obtain ⟨b, hb, hbv⟩ := exists_target hh
    (fun s hs => (hh.initialVersion s hs t ht).trans hsame.initialVersion) h32 (by omega) (by omega)
  generalize hj : walIndex target l.initialVersion = j at hr hjd hjl hb
  obtain ⟨i, hi⟩ := mem_iff_getElem?.mp ht
  have hidx : t.logIndex = i := by simpa using (hh.atIndex i t hi).logIndex_eq
  have hij : i ≤ j := by
    by_contra hlt
    have := (hh.index_lt hb hi).mp (by omega)
    omega
  have hbm : b.Same m := by
    obtain ⟨m', hm', hbm'⟩ := h.sound.catchup hi hn hb hij hjl hsame
    rw [hbv, hm] at hm'
    cases hm'
    exact hbm'
  obtain ⟨d₁, hbefore, hc1, ht1, hd1⟩ := throughout_before_cut h htmp hc hlists heq hcur ht htv
    (by rw [hidx, ← h.wal_eq]; omega)
  obtain ⟨wal', hw'⟩ := IndexedLog.truncateBack_isSome hr
  rw [h.wal_eq, ← hbefore.last.wal_eq] at hw'
  obtain ⟨hlast, hdrop, -⟩ := IndexedLog.truncateBack_eq_some hw'
  have hmem1 {s : MultiTree} (hs : s ∈ states) (hsn : snapshotName s.version ∈ d₁.names) :
      s.version ≤ v := by
    obtain ⟨content, hcontent⟩ := mem_names.mp hsn
    obtain ⟨hold, hnot⟩ := (hd1 _).mp hcontent
    have hin := (hlists.mem_iff (hh.nameable hs)).mpr (mem_names.mpr ⟨content, hold⟩)
    rw [heq, mem_append, mem_cons] at hin
    have hsorted := hlists.sorted
    rw [heq, pairwise_append] at hsorted
    rcases hin with hin | hin | hin
    · exact (hsorted.2.2 _ hin v mem_cons_self).le
    · exact hin.le
    · exact absurd rfl (hnot _ hin)
  have hcut := hbefore.last.cut (hbefore.last.wal_eq ▸ hw') fun s hs hsn => by
    obtain ⟨k, hk⟩ := mem_iff_getElem?.mp hs
    have hkidx : s.logIndex = k := by simpa using (hh.atIndex k s hk).logIndex_eq
    by_contra hlt
    have := (hh.index_lt hb hk).mp (by omega)
    have := hmem1 hs hsn
    omega
  refine ⟨j, b, _, d₁, { d₁ with wal := wal' }, hb, hbv, hbm, rfl, hbefore, ?_,
    ⟨hcut, hlast, ?_, ht1, hb, ?_, t, ?_, ?_⟩⟩
  · rw [FsStep.apply, hw']
  · intro name hname
    obtain ⟨content, hcontent⟩ := mem_names.mp hname
    exact htmp name (mem_names.mpr ⟨content, ((hd1 _).mp hcontent).1⟩)
  · rw [IndexedLog.inRange_iff, hlast, hdrop, hbefore.last.wal_eq, ← h.wal_eq]
    exact ⟨hjd, le_rfl⟩
  · refine mem_of_getElem? (i := i) ?_
    rw [getElem?_take_of_lt (by omega), hi]
  · rw [htv]
    refine ⟨hc1, ?_, hv31, hbv ▸ hv, fun s hs hsn => hmem1 hs hsn⟩
    obtain ⟨content, hcontent⟩ := mem_names.mp hn
    rw [htv] at hcontent
    refine mem_names.mpr ⟨content, (hd1 _).mpr ⟨hcontent, fun w hw heqw => ?_⟩⟩
    have hvw := snapshotName_inj (htv ▸ hh.nameable ht) (hlists.nameable w (by simp [heq, hw])) heqw
    have := (hnewer w hw).1
    omega

variable {j : Nat} {b : MultiTree}

section

variable (h : d.RolledBack states entries j b)
include h

theorem RolledBack.load_latest :
    ∃ m, d.load ⟨0, false, false⟩ = .ok (m, d) ∧ b.Same m := by
  obtain ⟨m, c, hm, hc, hcm⟩ := h.rolling.sound.load_logged h.rolling.logged
  rw [clean_eq_self h.noTmp h.currentTmp] at hm
  rw [h.lastIndex, getElem?_take_of_lt (Nat.lt_succ_self j), h.target] at hc
  cases hc
  exact ⟨m, hm, hcm⟩

theorem RolledBack.names {name : Name} (hn : name ∈ d.names) :
    ∃ v, name = snapshotName v ∧ 0 ≤ v ∧ v ≤ b.version := by
  obtain ⟨content, hmem⟩ := mem_names.mp hn
  obtain ⟨s, hs, -, hname⟩ := h.rolling.sound.stored _ hmem (h.noTmp name hn)
  obtain ⟨t, -, -, -, -, htb, hmax⟩ := h.current
  have hs' := mem_of_mem_take hs
  simp only at hname
  refine ⟨s.version, hname, (h.rolling.sound.history.nameable hs).1, ?_⟩
  exact (hmax s hs' (hname ▸ hn)).trans htb

theorem RolledBack.rerun (hpos : 0 < target)
    (hbv : b.version = target) : ∃ m, d.load ⟨target, false, true⟩ = .ok (m, d) ∧ b.Same m := by
  have hsound := h.rolling.sound
  obtain ⟨versions, hlists, hstates⟩ := hsound.exists_lists h.noTmp
  obtain ⟨t, htake, hcur, hn, h31, htb, hmax⟩ := h.current
  have hb : (states.take (j + 1))[j]? = some b := by
    rw [getElem?_take_of_lt (Nat.lt_succ_self j), h.target]
  obtain ⟨l, hl, hsame⟩ := hsound.openTrees htake hn
  obtain ⟨i, hi⟩ := mem_iff_getElem?.mp htake
  have hat := hsound.history.atIndex j b hb
  rw [Nat.zero_add] at hat
  have hiv : b.initialVersion = l.initialVersion :=
    (hsound.history.initialVersion b (mem_of_getElem? hb) t htake).trans hsame.initialVersion
  have hindex : walIndex target l.initialVersion = j := by
    rw [← hbv, ← hiv]
    exact hat.walIndex_eq h.inRange.1
  have hij : i ≤ j := by
    by_contra hlt
    have := (hsound.history.index_lt hb hi).mp (by omega)
    omega
  obtain ⟨m, hm, hbm⟩ := hsound.catchup hi hn hb hij h.lastIndex.ge hsame
  rw [hbv] at hm
  -- the snapshot of the link is the last one of the listing
  obtain ⟨older, newer, heq⟩ := append_of_mem
    ((hlists.mem_iff (hsound.history.nameable htake)).mpr hn)
  have hnil : newer = [] := by
    refine eq_nil_iff_forall_not_mem.mpr fun w hw => ?_
    have hsorted := hlists.sorted
    rw [heq, pairwise_append, pairwise_cons] at hsorted
    have hmem : w ∈ versions := by simp [heq, hw]
    obtain ⟨s, hs, rfl⟩ := hstates w hmem
    have := hmax s (mem_of_mem_take hs)
      ((hlists.mem_iff (hsound.history.nameable hs)).mp hmem)
    have := hsorted.2.1.1 _ hw
    omega
  subst hnil
  have hplan : d.planClean ⟨target, false, true⟩ = .ok (m, [.truncateBack j]) := by
    refine (hlists.planClean_rollback hpos).mpr ⟨older, t.version, [], l, snapshotName t.version, heq,
      hbv ▸ htb, h31, fun w hw => absurd hw not_mem_nil, hl, hindex.symm ▸ h.inRange, hm, hcur, ?_⟩
    simp [rollbackTo, hindex]
  have hcut : d.wal.truncateBack j = some d.wal := by
    have hr := h.inRange
    rw [← h.lastIndex] at hr ⊢
    exact IndexedLog.truncateBack_lastIndex hr
  refine ⟨m, ?_, hbm⟩
  have hsteps := cleanupSteps_eq_nil h.noTmp h.currentTmp
  have hrun : runSteps [.truncateBack j] d = some d := by
    simp [runSteps, FsStep.apply, hcut]
  rw [load, plan, if_neg (by simp), if_neg (by simp), runSteps_cleanup,
    clean_eq_self h.noTmp h.currentTmp]
  simp only [hplan, Except.map, hsteps, nil_append, hrun]

end

theorem Sound.rollback (h : d.Sound states entries) (hl : d.Logged states) (hpos : 0 < target)
    (h32 : (target : Int) ≤ maxUint32) (hplan : d.plan ⟨target, false, true⟩ = .ok (m, steps)) :
    ∃ (j : Nat) (b : MultiTree) (before : List FsStep) (d₁ d' : Directory P),
      states[j]? = some b ∧ b.version = target ∧ b.Same m ∧ steps = before ++ [.truncateBack j] ∧
      Throughout FsStep.apply (Rolling d.wal states entries) before d d₁ ∧
      FsStep.apply d₁ (.truncateBack j) = some d' ∧ d'.RolledBack states entries j b := by
  have hroll : d.Rolling d.wal states entries := ⟨h, hl, rfl⟩
  have hclean := (throughout_cleanup d).mono fun d' ha => hroll.alike ha
  unfold plan at hplan
  rw [if_neg (by simp), if_neg (by simp), runSteps_cleanup] at hplan
  cases hp : d.clean.planClean ⟨target, false, true⟩ with
  | error e => simp [hp, Except.map] at hplan
  | ok r =>
    obtain ⟨m', steps'⟩ := r
    simp only [hp, Except.map, Except.ok.injEq, Prod.mk.injEq] at hplan
    obtain ⟨rfl, rfl⟩ := hplan
    obtain ⟨j, b, before, d₁, d', hb, hbv, hbm, rfl, hbefore, hcut, hdone⟩ :=
      hclean.last.rollback (noTmp_clean d) rfl hpos h32 hp
    exact ⟨j, b, d.cleanupSteps ++ before, d₁, d', hb, hbv, hbm, (append_assoc ..).symm,
      hclean.append hbefore, hcut, hdone⟩

end Steps

end Directory

namespace Process

variable {P : Type} [Sha256] [WALCodec P] {σ : Process P} {config : Config} {t : MultiTree}

/-- A rollback of what any process left behind, stopped after any number of its steps: `Load`
gives the latest version as before, or the target. After all of its steps it gives the
target, no snapshot is newer, and the same rollback once more gives the same. -/
theorem rollback_crashSafe (ht : Base t) (hrun : Run CrashSafe (init config t) σ) {d : Directory P}
    (hd : σ.Stopped d) {target : Nat} (hpos : 0 < target) (h32 : (target : Int) ≤ maxUint32)
    {m : MultiTree} {steps : List FsStep} (hplan : d.plan ⟨target, false, true⟩ = .ok (m, steps)) :
    ∃ latest ∈ σ.history, ∃ b ∈ σ.history, b.version = target ∧ b.Same m ∧
      (∃ m₀, d.load ⟨0, false, false⟩ = .ok (m₀, d.clean) ∧ latest.Same m₀) ∧
      (∀ pre, pre <+: steps → ∃ d₁, Directory.runSteps pre d = some d₁ ∧
        ∃ m₁ d₂, d₁.load ⟨0, false, false⟩ = .ok (m₁, d₂) ∧ (latest.Same m₁ ∨ b.Same m₁)) ∧
      ∃ d', Directory.runSteps steps d = some d' ∧
        (∃ m₁, d'.load ⟨0, false, false⟩ = .ok (m₁, d') ∧ b.Same m₁) ∧
        (∀ name ∈ d'.names, ∃ v, name = snapshotName v ∧ 0 ≤ v ∧ v ≤ target) ∧
        ∃ m₂, d'.load ⟨target, false, true⟩ = .ok (m₂, d') ∧ b.Same m₂ := by
  obtain ⟨entries, hsound, hlogged⟩ := hrun.sound ht hd
  obtain ⟨m₀, latest, hm0, hlatest, hsame0⟩ := hsound.load_logged hlogged
  obtain ⟨j, b, before, d₁, d', hb, hbv, hbm, rfl, hbefore, hcut, hdone⟩ :=
    hsound.rollback hlogged hpos h32 hplan
  obtain ⟨m₁, hm1, hsame1⟩ := hdone.load_latest
  -- before the cut `Load` ends at the end of the old log
  have hold : ∀ d₁ : Directory P, d₁.Rolling d.wal σ.history entries →
      ∃ m₁ d₂, d₁.load ⟨0, false, false⟩ = .ok (m₁, d₂) ∧ (latest.Same m₁ ∨ b.Same m₁) := by
    intro d₁ hr
    obtain ⟨m₁, c, hm1, hc, hsame⟩ := hr.sound.load_logged hr.logged
    rw [hr.wal_eq, hlatest] at hc
    cases hc
    exact ⟨m₁, _, hm1, .inl hsame⟩
  have hall : Throughout FsStep.apply (fun d₁ : Directory P => ∃ m₁ d₂,
      d₁.load ⟨0, false, false⟩ = .ok (m₁, d₂) ∧ (latest.Same m₁ ∨ b.Same m₁))
      (before ++ [.truncateBack j]) d d' :=
    (hbefore.mono hold).append (.cons (hold _ hbefore.last) hcut (.nil ⟨m₁, d', hm1, .inr hsame1⟩))
  refine ⟨latest, mem_of_getElem? hlatest, b, mem_of_getElem? hb, hbv, hbm,
    ⟨m₀, hm0, hsame0⟩, fun pre hp => hall.of_isPrefix hp, d', hall.foldlM_eq, ⟨m₁, hm1, hsame1⟩,
    fun name hn => ?_, hdone.rerun hpos hbv⟩
  rw [← hbv]
  exact hdone.names hn

end Process

/-- Back from version 2, with a snapshot of it, to version 1. -/
theorem rollback_crashSafe_first :
    ∃ (σ : Process WALEntry) (m m₁ : MultiTree) (steps : List FsStep) (d' : Directory WALEntry),
      @Directory.plan _ Sha256.zero _ σ.dir ⟨1, false, true⟩ = .ok (m, steps) ∧ steps.length = 5 ∧
      Directory.runSteps steps σ.dir = some d' ∧
      @Directory.load _ Sha256.zero _ d' ⟨0, false, false⟩ = .ok (m₁, d') ∧ m₁.version = 1 := by
  let _ := Sha256.zero
  have hend : ((Process.init ⟨-1, 0, 1000⟩ (.fresh 0) : Process WALEntry).runAll Process.CrashSafe
      ([.commit (putBlock true 7), .finishCommit, .commit (putBlock false 8), .finishCommit] ++
        Action.rewritten)).map (fun σ =>
      (σ.dir.plan ⟨1, false, true⟩).toOption.map fun r => r.2.length) = some (some 5) := by
    decide
  obtain ⟨σ, hrun, hend⟩ := Process.exists_run hend
  simp only [map_eq_some_iff, Results.toOption_eq_some] at hend
  obtain ⟨⟨m, steps⟩, hplan, hlen⟩ := hend
  obtain ⟨-, -, b, -, hbv, -, -, -, d', hd', ⟨m₁, hm1, hsame⟩, -⟩ := Process.rollback_crashSafe
    (Process.base_fresh (by decide)) hrun (.refl σ) (by decide) (by decide) hplan
  exact ⟨σ, m, m₁, steps, d', hplan, hlen, hd', hm1, hsame.version ▸ hbv⟩

/-- The log holds the entries of versions 1 and 2, the entry of version 3 is with the writer,
and the link is at the snapshot of version 3 when the process stops: `Load` gives version 3.
A rollback to version 1 that is stopped when it has moved the link leaves a directory
whose latest version is 2, which is neither. -/
theorem exists_rollback_between :
    ∃ (σ : Process WALEntry) (m m₀ m₁ : MultiTree) (steps : List FsStep)
      (d₀ d₁ d₂ : Directory WALEntry),
      @Process.Run _ Sha256.zero _ (fun _ _ => True) (.init ⟨0, 0, 1000⟩ (.fresh 0)) σ ∧
      σ.Stopped σ.dir ∧ @Directory.load _ Sha256.zero _ σ.dir ⟨0, false, false⟩ = .ok (m₀, d₀) ∧
      m₀.version = 3 ∧ @Directory.plan _ Sha256.zero _ σ.dir ⟨1, false, true⟩ = .ok (m, steps) ∧
      m.version = 1 ∧ Directory.runSteps (steps.take 2) σ.dir = some d₁ ∧
      @Directory.load _ Sha256.zero _ d₁ ⟨0, false, false⟩ = .ok (m₁, d₂) ∧ m₁.version = 2 := by
  let _ := Sha256.zero
  have hend : (Process.fresh ⟨0, 0, 1000⟩
      ([.commit (putBlock true 7), .finishCommit, .writeBatch, .commit (putBlock false 8),
        .finishCommit, .writeBatch, .commit (putBlock false 9), .finishCommit] ++ Action.rewritten)).map (fun σ => do
      let latest ← (σ.dir.load ⟨0, false, false⟩).toOption
      let plan ← (σ.dir.plan ⟨1, false, true⟩).toOption
      let d₁ ← Directory.runSteps (plan.2.take 2) σ.dir
      let stopped ← (d₁.load ⟨0, false, false⟩).toOption
      pure (latest.1.version, plan.1.version, stopped.1.version)) = some (some (3, 1, 2)) := by
    decide
  obtain ⟨σ, hrun, hend⟩ := Process.exists_run hend
  simp only [Option.bind_eq_bind, Option.bind_eq_some_iff, Results.toOption_eq_some, Option.pure_def,
    Option.some.injEq, Prod.mk.injEq] at hend
  obtain ⟨⟨m₀, d₀⟩, h₀, ⟨m, steps⟩, hplan, d₁, hd1, ⟨m₁, d₂⟩, h1, hv0, hv, hv1⟩ := hend
  exact ⟨σ, m, m₀, m₁, steps, d₀, d₁, d₂, hrun, .refl σ, h₀, hv0, hplan, hv, hd1,
    h1, hv1⟩

end CronosStore.Memiavl
