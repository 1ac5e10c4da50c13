import CronosStore.Memiavl.OpenBlock

/-!
# Reloading the trees

`Reload` of `memiavl/db.go` opens the snapshot that the link leads to and applies the pending log to
it. The log on disk is not read, while the switch after a rewrite in the background catches up with
it first. So a reload keeps the state of the database if and only if the snapshot is of the last
commit (`reload_same_iff`); else the database goes back to the version of the snapshot, and what was
committed since is missing (`exists_reload_behind`).
-/

namespace CronosStore.Memiavl

open Foundation Option

section Model

variable {P : Type} [Sha256] [WALCodec P]

def Directory.linkedVersion (d : Directory P) : Option Int := do
  let name ← d.current
  let content ← d.get name
  let metadata ← content.metadata
  let commitInfo ← metadata.commitInfo
  pure commitInfo.version

def Process.reload (σ : Process P) : Option (Process P) :=
  match σ.dir.current with
  | none => none
  | some name =>
    match σ.dir.openTrees name with
    | .error _ => none
    | .ok mtree => σ.reloadMultiTree mtree

inductive ReloadAction
  | act (a : OpenAction)
  | reload
deriving DecidableEq

namespace OpenProcess

def nextOrReload (s : OpenProcess P) : ReloadAction → Option (OpenProcess P)
  | .act a => s.next a
  | .reload =>
    if s.process.phase = .idle ∧ s.process.foreground = none then
      s.process.reload.map (⟨·, s.calls⟩)
    else none

def AtLink (s : OpenProcess P) : Prop :=
  s.process.dir.linkedVersion = some s.process.db.mtree.version

instance (s : OpenProcess P) : Decidable s.AtLink := inferInstanceAs (Decidable (_ = _))

/-- Calls succeed, and upgrades are the first call of their block or leave alone what it has written.
A rewrite is asked for when nothing was applied since the last commit, and a reload when the link leads
to a snapshot of it. -/
def Orderly (s : OpenProcess P) : ReloadAction → Prop
  | .act (.apply a) => (s.process.db.apply a).isOk = true ∧ (s.calls = [] ∨ s.process.db.Separate a)
  | .act .commit => True
  | .act (.act a) => Starts a → s.calls = []
  | .reload => s.AtLink

abbrev ReloadRun (config : Config) (t : MultiTree) : OpenProcess P → Prop :=
  Runs nextOrReload Orderly (init config t)

end OpenProcess

end Model

/-! ## The pending log as the record of a block -/

namespace DB

variable {db db' : DB} {t : MultiTree}

theorem PendingFrom.initialVersion (h : db.PendingFrom t) :
    db.mtree.initialVersion = t.initialVersion := by
  obtain ⟨m, hm, -, hp⟩ := h
  rw [hp.mtree]
  exact (MultiTree.applyUpgrades_fields hm).1

theorem PendingFrom.version (h : db.PendingFrom t) : db.mtree.version = t.version := by
  obtain ⟨m, hm, -, hp⟩ := h
  rw [hp.mtree]
  exact congrArg CommitInfo.version (MultiTree.applyUpgrades_fields hm).2.1

theorem PendingFrom.rebase (h : db.PendingFrom t) {m m' : MultiTree} (hi : m.Indexed)
    (hm : m.applyWALEntry db.pendingLog.entry = .ok m') :
    DB.PendingFrom { db with mtree := m' } m := by
  obtain ⟨_, _, _, hp⟩ := h
  obtain ⟨u, hu, hcs⟩ := MultiTree.applyWALEntry_ok.mp hm
  have hui := hi.applyUpgrades hu
  obtain ⟨hall, rfl⟩ := hui.applyChangeSets_ok.mp hcs
  exact ⟨u, hu, hui, hp.toLogValid.withTrees _, rfl, hall⟩

theorem AtBoundary.apply (hb : db.AtBoundary) (hi : db.mtree.Indexed) {a : Apply}
    (hok : db.apply a = .ok db') : db'.PendingFrom db.mtree := by
  cases a with
  | upgrades upgrades => exact hb.applyUpgrades hi hok
  | changeSets c => exact (hb.pendingFrom hi).apply (a := .changeSets c) trivial hok

variable [Sha256]

theorem PendingFrom.commit {entry : WalEntry} (h : db.PendingFrom t)
    (hok : db.commitBlock ⟨[], []⟩ = .ok (entry, db')) :
    t.commitEntry entry.data = .ok db'.mtree ∧ db'.AtBoundary ∧
      entry.index = walIndex db'.mtree.version db'.mtree.initialVersion := by
  obtain ⟨d, t', hd, ht', rfl, rfl⟩ := commitBlock_eq_ok hok
  have hsame : d = db := by
    unfold DB.applyBlock at hd
    cases hu : db.applyUpgrades [] with
    | error f => simp only [hu] at hd; cases hd
    | ok db1 =>
      obtain ⟨-, -, hro, -⟩ := applyUpgrades_ok hu
      cases hu.symm.trans (applyUpgrades_nil hro)
      simp only [hu] at hd
      cases hd
      rfl
  subst hsame
  exact ⟨MultiTree.commitEntry_ok.mpr ⟨_, h.applyWALEntry, ht'⟩, ⟨rfl, rfl⟩, rfl⟩

end DB

section Steps

variable {P : Type} [Sha256] [WALCodec P] {σ σ' : Process P} {entries : List WALEntry}

omit [WALCodec P] in
theorem Directory.linkedVersion_eq {d : Directory P} {name : Name} {m : MultiTree}
    (hcur : d.current = some name) (hm : d.openTrees name = .ok m) :
    d.linkedVersion = some m.version := by
  obtain ⟨content, hget, hload⟩ := Directory.openTrees_eq_ok.mp hm
  obtain ⟨md, ci, hread, rfl, -⟩ := loadMultiTree_eq_ok_iff.mp hload
  obtain ⟨hmd, hci, -, -⟩ := readMetadata_eq_ok.mp hread
  simp only [Directory.linkedVersion, hcur, hget, hmd, hci, Results.some_bind,
    pure_def, Option.some.injEq]
  unfold loadedTrees MultiTree.setInitialVersion
  split_ifs <;> rfl

omit [WALCodec P] in
theorem Process.reload_eq_some (h : σ.reload = some σ') :
    ∃ name m m', σ.dir.current = some name ∧ σ.dir.openTrees name = .ok m ∧
      m.applyWALEntry σ.db.pendingLog.entry = .ok m' ∧
      σ' = { σ with db := { σ.db with mtree := m' } } := by
  unfold Process.reload at h
  cases hcur : σ.dir.current with
  | none => simp only [hcur] at h; cases h
  | some name =>
    simp only [hcur] at h
    cases hm : σ.dir.openTrees name with
    | error e => simp only [hm] at h; cases h
    | ok m =>
      simp only [hm, Process.reloadMultiTree] at h
      cases hm' : m.applyWALEntry σ.db.pendingLog.entry with
      | error f => simp only [hm'] at h; cases h
      | ok m' =>
        simp only [hm'] at h
        cases h
        exact ⟨name, m, m', rfl, hm, hm', rfl⟩

namespace OpenProcess

variable {s s' : OpenProcess P}

structure Within (σ : Process P) (s : OpenProcess P) : Prop where
  process : s.process = { σ with db := s.process.db }
  boundary : s.calls = [] → s.process = σ
  idle : s.calls ≠ [] → σ.phase = .idle ∧ σ.foreground = none
  pending : s.process.db.PendingFrom σ.db.mtree

theorem Within.of_boundary (hc : σ.Consistent entries) (calls : List Apply) (hcalls : calls = []) :
    Within σ ⟨σ, calls⟩ :=
  ⟨rfl, fun _ => rfl, fun hne => absurd hcalls hne, hc.boundary.pendingFrom hc.indexed⟩

theorem Within.apply (h : Within σ s) (hc : σ.Consistent entries) {a : Apply}
    (hmeets : s.Orderly (.act (.apply a))) (hs : s.next (.apply a) = some s') : Within σ s' := by
  obtain ⟨hok, hsep⟩ := hmeets
  simp only [next] at hs
  split_ifs at hs with hidle
  cases hs
  have hcalls : s.calls ++ [a] ≠ [] := List.concat_ne_nil _ _
  rw [h.process] at hidle
  refine ⟨?_, fun hnil => absurd hnil hcalls, fun _ => hidle, ?_⟩
  · simp only
    rw [h.process]
  · cases happ : s.process.db.apply a with
    | error f =>
      rw [happ] at hok
      cases hok
    | ok db =>
      rw [stateAfter_ok]
      rcases hsep with hnil | hsep
      · rw [h.boundary hnil] at happ
        exact hc.boundary.apply hc.indexed happ
      · exact h.pending.apply hsep happ

theorem Within.commit (h : Within σ s) (hc : σ.Consistent entries) (hs : s.next .commit = some s') :
    ∃ σ' entries, Process.Consistent σ' entries ∧ Within σ' s' := by
  obtain ⟨σ', hσ', rfl⟩ := map_eq_some_iff.mp hs
  simp only [Process.step, Process.commit] at hσ'
  split_ifs at hσ'
  split at hσ'
  · cases hσ'
  · rename_i entry db hcommit
    split_ifs at hσ' with hlt
    obtain ⟨hentry, hb, hindex⟩ := h.pending.commit hcommit
    rw [h.process] at hσ'
    have hc' : σ'.Consistent (entries ++ [entry.data]) := hc.handOver hentry hb hindex hlt hσ'
    exact ⟨σ', _, hc', .of_boundary hc' [] rfl⟩

theorem Within.act (h : Within σ s) (hc : σ.Consistent entries) {a : Action}
    (hstart : Starts a → s.calls = []) (hs : s.next (.act a) = some s') :
    ∃ σ' entries, Process.Consistent σ' entries ∧ Within σ' s' := by
  obtain ⟨hcommit, σ1, hσ1, rfl⟩ := next_act hs
  by_cases hcalls : s.calls = []
  · rw [h.boundary hcalls] at hσ1
    obtain ⟨new, hc'⟩ := hc.step hσ1
    exact ⟨σ1, _, hc', .of_boundary hc' _ hcalls⟩
  · obtain ⟨hphase, hfg⟩ := h.idle hcalls
    have hno : ¬Starts a := fun hs => hcalls (hstart hs)
    rw [h.process, Process.step_withDB h.pending.initialVersion hphase hfg hcommit hno] at hσ1
    obtain ⟨σ', hσ', rfl⟩ := map_eq_some_iff.mp hσ1
    obtain ⟨hphase', hfg', hdb⟩ := Process.step_caller hphase hfg hcommit hno hσ'
    obtain ⟨new, hc'⟩ := hc.step hσ'
    exact ⟨σ', _, hc', rfl, fun hnil => absurd hnil hcalls, fun _ => ⟨hphase', hfg'⟩, hdb ▸ h.pending⟩

/-- The trees that a reload installs are those of the snapshot with the pending log. -/
theorem nextOrReload_reload (hs : s.nextOrReload .reload = some s') :
    s.process.phase = .idle ∧ s.process.foreground = none ∧
      ∃ name m m', s.process.dir.current = some name ∧ s.process.dir.openTrees name = .ok m ∧
        m.applyWALEntry s.process.db.pendingLog.entry = .ok m' ∧
        s' = ⟨{ s.process with db := { s.process.db with mtree := m' } }, s.calls⟩ := by
  simp only [nextOrReload] at hs
  split_ifs at hs with hidle
  obtain ⟨σ', hσ', rfl⟩ := map_eq_some_iff.mp hs
  obtain ⟨name, m, m', hcur, hm, hm', rfl⟩ := Process.reload_eq_some hσ'
  exact ⟨hidle.1, hidle.2, name, m, m', hcur, hm, hm', rfl⟩

end OpenProcess

/-- The process with trees that were loaded from a snapshot of the last commit. -/
theorem Process.Consistent.reloaded (h : σ.Consistent entries) (hphase : σ.phase = .idle) {name : Name}
    {m : MultiTree} (hm : σ.dir.openTrees name = .ok m) (hv : m.version = σ.db.mtree.version) :
    σ.db.mtree.Same m ∧ Process.Consistent { σ with db := { σ.db with mtree := m } } entries := by
  obtain ⟨t, ht, hsame⟩ := h.openTrees hm
  obtain ⟨live, hlive, hlsame⟩ := h.live
  obtain rfl : t = live := by
    apply h.history.eq_of_version ht (List.mem_of_getElem? hlive)
    rw [hsame.version, hlsame.version, hv]
  obtain ⟨content, -, hload⟩ := Directory.openTrees_eq_ok.mp hm
  obtain ⟨-, -, -, -, -, hsnap⟩ := loadMultiTree_eq_ok hload
  refine ⟨hlsame.symm.trans hsame, { h with
    live := ⟨t, hlive, hsame⟩
    boundary := ⟨h.boundary.changesets, h.boundary.upgrades⟩
    unswitched := ?_ }⟩
  intro _ v hv
  cases hsnap.symm.trans hv
  exact ⟨le_rfl, fun hsent => absurd (hphase.symm.trans hsent) (by decide)⟩

end Steps

namespace OpenProcess

variable {P : Type} [Sha256] [WALCodec P] {s s' : OpenProcess P} {σ : Process P} {config : Config}
  {t : MultiTree} {entries : List WALEntry}

theorem Within.reload (h : Within σ s) (hc : σ.Consistent entries) (hlink : s.AtLink)
    (hs : s.nextOrReload .reload = some s') : s.process.db.mtree.Same s'.process.db.mtree ∧
      ∃ σ' entries, Process.Consistent σ' entries ∧ Within σ' s' := by
  obtain ⟨hphase, hfg, name, m, m', hcur, hm, hm', rfl⟩ := nextOrReload_reload hs
  have hv : m.version = σ.db.mtree.version := by
    have hlinked : some m.version = some s.process.db.mtree.version :=
      (Directory.linkedVersion_eq hcur hm).symm.trans hlink
    rw [← h.pending.version]
    exact Option.some.inj hlinked
  rw [h.process] at hphase hfg hm
  obtain ⟨hsame, hc'⟩ := hc.reloaded hphase hm hv
  obtain ⟨m1, hm1, hsame'⟩ := hsame.applyWALEntry hc.indexed h.pending.applyWALEntry
  cases hm'.symm.trans hm1
  refine ⟨hsame', _, _, hc', ?_, fun hnil => ?_, fun _ => ⟨hphase, hfg⟩, ?_⟩
  · simp only
    rw [h.process]
  · -- nothing is pending, so what was loaded is installed as it is
    rw [h.boundary hnil] at hm' ⊢
    rw [hc.boundary.applyWALEntry] at hm'
    cases hm'
    rfl
  · exact h.pending.rebase (hsame.indexed hc.indexed) hm'

theorem ReloadRun.within (ht : Process.Base t) (hrun : ReloadRun config t s) :
    ∃ σ entries, Process.Consistent σ entries ∧ Within σ s := by
  refine Runs.invariant (I := fun s => ∃ σ entries, Process.Consistent σ entries ∧ Within σ s) ?_ ?_ hrun
  · have hc := Process.consistent_init (P := P) config ht
    exact ⟨_, _, hc, .of_boundary hc [] rfl⟩
  · rintro s a s' ⟨σ, entries, hc, h⟩ hmeets hs
    match a with
    | .act (.apply a) => exact ⟨σ, entries, hc, h.apply hc hmeets hs⟩
    | .act .commit => exact h.commit hc hs
    | .act (.act a) => exact h.act hc hmeets hs
    | .reload => exact (h.reload hc hmeets hs).2

/-- In every state of an orderly run, of all the goroutines in any order and with or without pending
changes: a reload that returns without an error keeps the version, the commit info, the names and the
trees, node by node and so with their contents and versions, if and only if the link leads to a
snapshot of the last commit. -/
theorem reload_same_iff (ht : Process.Base t) (hrun : ReloadRun config t s)
    (hs : s.nextOrReload .reload = some s') :
    s.process.db.mtree.Same s'.process.db.mtree ↔ s.AtLink := by
  obtain ⟨σ, entries, hc, h⟩ := hrun.within ht
  constructor
  · intro hsame
    obtain ⟨-, -, name, m, m', hcur, hm, hm', rfl⟩ := nextOrReload_reload hs
    obtain ⟨content, -, hload⟩ := Directory.openTrees_eq_ok.mp hm
    obtain ⟨hi, -⟩ := loadMultiTree_eq_ok hload
    -- the pending log does not change the version of what was loaded
    have hkept : m'.version = m.version :=
      congrArg CommitInfo.version (MultiTree.applyWALEntry_lastCommitInfo hi hm')
    rw [AtLink, Directory.linkedVersion_eq hcur hm, hsame.version, ← hkept]
  · intro hlink
    exact (h.reload hc hlink hs).1

end OpenProcess

open OpenProcess Option

instance (u : TreeNameUpgrade) (S : Name → Prop) [DecidablePred S] : Decidable (u.Spares S) :=
  inferInstanceAs (Decidable (if u.delete then ¬S u.name else u.renameFrom ≠ [] → ¬S u.renameFrom))

instance (db : DB) : DecidablePred db.Written := fun name =>
  inferInstanceAs (Decidable (∃ cs ∈ db.pendingLog.deref, cs.name = name))

instance (db : DB) : ∀ a, Decidable (db.Separate a)
  | .upgrades _ => inferInstanceAs (Decidable (_ ∧ _))
  | .changeSets _ => inferInstanceAs (Decidable True)

instance [Sha256] (s : OpenProcess WALEntry) : ∀ a, Decidable (s.Orderly a)
  | .act (.apply _) => inferInstanceAs (Decidable (_ ∧ _))
  | .act .commit => inferInstanceAs (Decidable True)
  | .act (.act _) => inferInstanceAs (Decidable (_ → _))
  | .reload => inferInstanceAs (Decidable (AtLink _))

def writtenAfterSnapshot : List OpenAction :=
  openBlock.take 4 ++ [.act .writeBatch] ++ rewriteUpToLink ++
    [.act .foregroundStep, .apply (.changeSets (.applyChangeSet [1] [⟨false, [8], some [8]⟩]))]

/-- A reload while key 8 is pending. -/
theorem reload_same_pending :
    letI := Sha256.padded
    ∃ s s' : OpenProcess WALEntry, ReloadRun ⟨0, 0, 1000⟩ (.fresh 0) s ∧ s.calls ≠ [] ∧
      s.nextOrReload .reload = some s' ∧ s.process.db.mtree.Same s'.process.db.mtree := by
  let _ := Sha256.padded
  have hend : (runActions (nextOrReload (P := WALEntry)) Orderly (init ⟨0, 0, 1000⟩ (.fresh 0))
      (writtenAfterSnapshot.map .act)).any fun s => decide (s.calls ≠ []) && decide s.AtLink &&
        (s.nextOrReload .reload).isSome := by
    decide +kernel
  obtain ⟨s, hs, hstate⟩ := (any_eq_true _ _).mp hend
  simp only [Bool.and_eq_true, decide_eq_true_eq] at hstate
  obtain ⟨⟨hcalls, hlink⟩, hnext⟩ := hstate
  obtain ⟨s', hs'⟩ := isSome_iff_exists.mp hnext
  have hrun : ReloadRun ⟨0, 0, 1000⟩ (.fresh 0) s := Runs.init.runActions hs
  exact ⟨s, s', hrun, hcalls, hs', (reload_same_iff (Process.base_fresh (by decide)) hrun hs').mpr hlink⟩

/-- Key 8 is committed too, at version 2; a reload goes back to version 1. -/
theorem exists_reload_behind :
    letI := Sha256.padded
    ∃ s s' : OpenProcess WALEntry, ReloadRun ⟨0, 0, 1000⟩ (.fresh 0) s ∧ s.calls = [] ∧
      s.nextOrReload .reload = some s' ∧ s.process.db.mtree.version = 2 ∧
      s'.process.db.mtree.version = 1 ∧ ¬s.process.db.mtree.Same s'.process.db.mtree := by
  let _ := Sha256.padded
  have hend : (runActions (nextOrReload (P := WALEntry)) Orderly (init ⟨0, 0, 1000⟩ (.fresh 0))
      (writtenAfterSnapshot.map .act ++ [.act .commit, .act (.act .finishCommit)])).any fun s =>
        decide (s.calls = []) && decide (s.process.db.mtree.version = 2) &&
          (s.nextOrReload .reload).any fun s' => decide (s'.process.db.mtree.version = 1) := by
    decide +kernel
  obtain ⟨s, hs, hstate⟩ := (any_eq_true _ _).mp hend
  simp only [Bool.and_eq_true, decide_eq_true_eq] at hstate
  obtain ⟨⟨hcalls, hversion⟩, hnext⟩ := hstate
  obtain ⟨s', hs', hversion'⟩ := (any_eq_true _ _).mp hnext
  rw [decide_eq_true_eq] at hversion'
  refine ⟨s, s', Runs.init.runActions hs, hcalls, hs', hversion, hversion', fun hsame => ?_⟩
  have heq := hsame.version
  rw [hversion, hversion'] at heq
  revert heq
  decide

end CronosStore.Memiavl
