import CronosStore.Foundation.Transitions
import CronosStore.Memiavl.Calls
import CronosStore.Memiavl.Crash

/-!
# Snapshots of a block that is not committed

`RewriteSnapshot` takes the trees as they are and the commit info of the last commit. Inside
a block they do not belong together, and what is published then cannot be loaded
(`exists_published_unloadable`). So here the caller of a process may be between the calls of
a block. As long as rewrites are asked for between blocks, this adds nothing to the runs of
`Process`, where a block is one step (`Simulates`), and what is published is what was
committed (`published_loads`).
-/

namespace CronosStore.Memiavl

open Foundation Option

structure OpenProcess (P : Type) where
  process : Process P
  calls : List Apply

inductive OpenAction
  | apply (a : Apply)
  | commit
  | act (a : Action)
deriving DecidableEq

namespace OpenProcess

variable {P : Type} [Sha256] [WALCodec P]

def init (config : Config) (t : MultiTree) : OpenProcess P := ⟨.init config t, []⟩

/-- A call may fail and leave the database as far as it came. `Commit` is the commit of a
block without further calls. -/
def next (s : OpenProcess P) : OpenAction → Option (OpenProcess P)
  | .apply a =>
    if s.process.phase = .idle ∧ s.process.foreground = none then
      some ⟨{ s.process with db := stateAfter (s.process.db.apply a) }, s.calls ++ [a]⟩
    else none
  | .commit => (s.process.step (.commit ⟨[], []⟩)).map (⟨·, []⟩)
  | .act (.commit _) => none
  | .act a => (s.process.step a).map (⟨·, s.calls⟩)

def Starts (a : Action) : Prop := a = .rewriteSnapshot ∨ a = .rewriteSnapshotBackground

instance (a : Action) : Decidable (Starts a) := instDecidableOr

/-- Calls succeed, and upgrades are the first call of their block. A rewrite is asked for
when nothing was applied since the last commit, while no other one runs, and at a version
that the metadata may have. -/
def Settled (s : OpenProcess P) : OpenAction → Prop
  | .apply a => (s.process.db.apply a).isOk = true ∧ ((∃ us, a = .upgrades us) → s.calls = [])
  | .commit => True
  | .act a => (Starts a → s.calls = []) ∧ s.process.OneRewrite a ∧
    s.process.PublishesUpTo maxUint32 a

abbrev Run (G : OpenProcess P → OpenAction → Prop) (config : Config) (t : MultiTree) :
    OpenProcess P → Prop :=
  Runs next G (init config t)

end OpenProcess

/-! ## The calls of a block -/

namespace DB

variable {db db' d : DB}

theorem applyCalls_append {calls calls' : List Call} (h : db.applyCalls calls = .ok d) :
    db.applyCalls (calls ++ calls') = d.applyCalls calls' := by
  induction calls generalizing db with
  | nil =>
    cases h
    rfl
  | cons c calls ih =>
    rw [DB.applyCalls] at h
    rw [List.cons_append, DB.applyCalls]
    cases hc : db.call c with
    | error f => simp only [hc] at h; cases h
    | ok db1 =>
      simp only [hc] at h ⊢
      exact ih h

def Began (db : DB) (us : List TreeNameUpgrade) (cs : List Call) (db' : DB) : Prop :=
  ∃ u, (us = [] ∧ u = db ∨ db.applyUpgrades us = .ok u) ∧ u.applyCalls cs = .ok db'

variable {us : List TreeNameUpgrade} {cs : List Call}

theorem Began.call (h : db.Began us cs d) {c : Call} (hc : d.call c = .ok db') :
    db.Began us (cs ++ [c]) db' := by
  obtain ⟨u, hu, hcs⟩ := h
  refine ⟨u, hu, ?_⟩
  rw [applyCalls_append hcs, DB.applyCalls, hc]
  rfl

theorem Began.fields (h : db.Began us cs db') (hb : db.AtBoundary) (hi : db.mtree.Indexed) :
    db'.mtree.initialVersion = db.mtree.initialVersion ∧ db'.readOnly = db.readOnly := by
  obtain ⟨u, hu, hcs⟩ := h
  have hu' : u.pendingLog.changesets = [] ∧ u.mtree.Indexed ∧
      u.mtree.initialVersion = db.mtree.initialVersion ∧ u.readOnly = db.readOnly := by
    rcases hu with ⟨-, rfl⟩ | hu
    · exact ⟨hb.changesets, hi, rfl, rfl⟩
    · obtain ⟨t, ht, -, rfl⟩ := applyUpgrades_ok hu
      exact ⟨hb.changesets, hi.applyUpgrades ht, (MultiTree.applyUpgrades_fields ht).1, rfl⟩
  obtain ⟨hnil, hui, hiv, hro⟩ := hu'
  obtain ⟨hp, -, hr⟩ := (pending_of_nil hnil).applyCalls hui hcs
  refine ⟨?_, hr.trans hro⟩
  rw [hp.mtree]
  exact hiv

theorem applyUpgrades_nil (hro : db.readOnly = false) : db.applyUpgrades [] = .ok db := by
  unfold DB.applyUpgrades
  rw [hro, if_neg Bool.false_ne_true]
  simp [MultiTree.applyUpgrades, onTrees]

theorem Began.commitBlock [Sha256] (h : db.Began us cs db') (hb : db.AtBoundary) (hi : db.mtree.Indexed)
    (hro : db'.readOnly = false) : db.commitBlock ⟨us, cs⟩ = db'.commitBlock ⟨[], []⟩ := by
  have hro0 := (h.fields hb hi).2.symm.trans hro
  obtain ⟨u, hu, hcs⟩ := h
  have happ : db.applyUpgrades us = .ok u := by
    rcases hu with ⟨rfl, rfl⟩ | hu
    · exact applyUpgrades_nil hro0
    · exact hu
  simp only [DB.commitBlock, DB.applyBlock, happ, hcs, applyUpgrades_nil hro, DB.applyCalls]

end DB

/-! ## Steps inside a block -/

namespace Process

variable {P : Type} [Sha256] [WALCodec P] {σ σ' : Process P} {db : DB}

omit [Sha256] [WALCodec P] in
theorem pruneName_withDB (current : Int) (counter : Nat) (name : Name) (names : List Name) :
    ({ σ with db := db } : Process P).pruneName current counter name names =
      { σ.pruneName current counter name names with db := db } := by
  unfold pruneName
  by_cases hname : isSnapshotName name = true
  · rw [if_pos hname, if_pos hname]
    cases parseVersion name with
    | none => rfl
    | some version =>
      by_cases hcur : version ≥ current
      · simp only [if_pos hcur]
      · by_cases hcount : counter > 0
        · simp only [if_neg hcur, if_pos hcount]
        · simp only [if_neg hcur, if_neg hcount]
          cases σ.dir.rename (snapshotName version) (snapshotName version ++ tmpSuffix) <;> rfl
  · rw [if_neg hname, if_neg hname]

variable {a : Action}

/-- The goroutines do not see that the caller is inside a block. -/
theorem step_withDB (hiv : db.mtree.initialVersion = σ.db.mtree.initialVersion)
    (hphase : σ.phase = .idle) (hfg : σ.foreground = none)
    (hcommit : ∀ block, a ≠ .commit block) (hstart : ¬OpenProcess.Starts a) :
    ({ σ with db := db } : Process P).step a = (σ.step a).map fun σ => { σ with db := db } := by
  cases a with
  | commit block => exact absurd rfl (hcommit block)
  | finishCommit => simp [step, finishCommit, hphase]
  | abandonSwitch => simp [step, abandonSwitch, hphase]
  | startPrune => simp [step, startPrune, hphase]
  | receive _ | failWriter =>
    simp only [step, receive]
    split_ifs <;> rfl
  | writeBatch =>
    simp only [step, writeBatch]
    split_ifs
    · cases writeEntries σ.dir.wal σ.batch <;> rfl
    · rfl
  | rewriteSnapshot => exact absurd (.inl rfl) hstart
  | foregroundStep => simp [step, foregroundStep, hfg]
  | foregroundFail => simp [step, foregroundFail, hfg]
  | rewriteSnapshotBackground => exact absurd (.inr rfl) hstart
  | backgroundStep =>
    simp only [step, backgroundStep]
    cases σ.background with
    | publishing p =>
      simp only
      cases p.step σ.dir <;> rfl
    | loading =>
      simp only
      cases σ.dir.current with
      | none => rfl
      | some snapshot =>
        simp only
        cases σ.dir.openTrees snapshot <;> rfl
    | catchingUp m =>
      simp only
      cases m.catchupWAL σ.dir.wal 0 <;> rfl
    | idle | ready m | ended failed => rfl
  | backgroundFail =>
    simp only [step, backgroundFail]
    split <;> simp_all
  | pruneStep =>
    simp only [step, pruneStep, hiv]
    cases σ.prune with
    | idle => rfl
    | starting =>
      simp only
      cases σ.dir.currentVersion <;> rfl
    | listing current => rfl
    | removing current counter names =>
      cases names with
      | nil => rfl
      | cons name names =>
        exact congrArg some (pruneName_withDB current counter name names)
    | deleting tmpName current counter names => rfl
    | finishing =>
      simp only
      cases σ.dir.firstSnapshotVersion <;> rfl
    | truncating earliest =>
      simp only
      cases σ.dir.wal.truncateFront (walIndex (earliest + 1) σ.db.mtree.initialVersion) <;> rfl
  | earliestLoad =>
    simp only [step, earliestLoad]
    split_ifs <;> rfl
  | earliestList i =>
    have hsame : ({ σ with db := db } : Process P).firstQueryable = σ.firstQueryable := by
      simp only [firstQueryable, hiv]
    simp only [step, earliestList, hsame]
    split
    · cases σ.firstQueryable <;> rfl
    · rfl
  | earliestStore i =>
    simp only [step, earliestStore]
    split <;> rfl

theorem step_caller (hphase : σ.phase = .idle) (hfg : σ.foreground = none)
    (hcommit : ∀ block, a ≠ .commit block) (hstart : ¬OpenProcess.Starts a)
    (hs : σ.step a = some σ') : σ'.phase = .idle ∧ σ'.foreground = none ∧ σ'.db = σ.db := by
  suffices h : (σ'.phase, σ'.foreground, σ'.db) = (σ.phase, σ.foreground, σ.db) by
    rw [hphase, hfg] at h
    simpa only [Prod.mk.injEq] using h
  cases a with
  | commit block => exact absurd rfl (hcommit block)
  | rewriteSnapshot => exact absurd (.inl rfl) hstart
  | rewriteSnapshotBackground => exact absurd (.inr rfl) hstart
  | finishCommit => simp [step, finishCommit, hphase] at hs
  | abandonSwitch => simp [step, abandonSwitch, hphase] at hs
  | startPrune => simp [step, startPrune, hphase] at hs
  | foregroundStep => simp [step, foregroundStep, hfg] at hs
  | foregroundFail => simp [step, foregroundFail, hfg] at hs
  | receive _ | failWriter =>
    simp only [step, receive] at hs
    split_ifs at hs
    cases hs
    rfl
  | writeBatch =>
    simp only [step, writeBatch] at hs
    split_ifs at hs
    split at hs <;> cases hs <;> rfl
  | backgroundStep | backgroundFail =>
    simp only [step, backgroundStep, backgroundFail] at hs
    repeat' split at hs
    all_goals cases hs <;> rfl
  | pruneStep =>
    simp only [step, pruneStep] at hs
    repeat' split at hs
    all_goals cases hs
    all_goals try rfl
    rename_i current counter name names _
    obtain ⟨-, -, heq⟩ | ⟨c, heq⟩ | ⟨version, dir, -, -, -, -, heq⟩ :=
      pruneName_cases σ current counter name names <;> rw [heq]
  | earliestLoad => obtain rfl | rfl := earliestLoad_cases hs <;> rfl
  | earliestList i => obtain ⟨version, -, rfl⟩ | rfl := earliestList_cases hs <;> rfl
  | earliestStore i =>
    obtain ⟨version, -, rfl⟩ := earliestStore_eq hs
    rfl

theorem commit_writable {block : Block} (hs : σ.commit block = some σ') : σ.db.readOnly = false := by
  unfold commit at hs
  split_ifs at hs
  cases hu : σ.db.applyUpgrades block.upgrades with
  | error f => simp [DB.commitBlock, DB.applyBlock, hu] at hs
  | ok db =>
    obtain ⟨-, -, hro, -⟩ := DB.applyUpgrades_ok hu
    exact hro

variable {entries : List WALEntry}

theorem published (hc : Consistent σ entries) (ho : Ordered σ) (hup : UpTo maxUint32 σ)
    {p : Publication} (hp : σ.moved a = some p) {dir : Directory P}
    (hdone : p.step σ.dir = .done dir) :
    dir.current = some p.name ∧ ∃ m, dir.openTrees p.name = .ok m ∧
      ∃ t ∈ σ.history, t.version = p.mtree.version ∧ t.Same m := by
  obtain ⟨rfl, hhas⟩ := (ho.moved hp).done hdone
  refine ⟨rfl, ?_⟩
  obtain ⟨content, hmem⟩ := Directory.mem_names.mp hhas.2
  obtain ⟨t, ht, hcontent, hname⟩ := hc.stored _ hmem
  have hversion : t.version = p.mtree.version := by
    rcases hname with hname | hname
    · exact (snapshotName_inj hhas.1 (hc.history.nameable ht) hname).symm
    · exact absurd hname (snapshotName_ne_tmp _ _)
  have hle : t.version ≤ maxUint32 := hversion ▸ hup _ hhas
  have hload := loadMultiTree_writeSnapshot (hc.history.committed t ht hle) hle
  refine ⟨{ t with metadata := ⟨some t.lastCommitInfo, t.initialVersion⟩ }, ?_, t, ht, hversion,
    ⟨⟨rfl, rfl, rfl, rfl⟩, rfl⟩⟩
  have hget : σ.dir.get p.name = some (t.writeSnapshot .empty) := by
    simp only at hcontent
    rw [← hcontent]
    exact Directory.get_eq_some.mpr hmem
  have hget' : ({ σ.dir with current := some p.name, currentTmp := none } : Directory P).get p.name =
      some (t.writeSnapshot .empty) := hget
  simp only [Directory.openTrees, hget', hload]
  rfl

end Process

namespace OpenProcess

variable {P : Type} [Sha256] [WALCodec P] {s s' : OpenProcess P} {σ : Process P} {config : Config}
  {t : MultiTree}

def Publishes (σ : Process P) (a : Action) : Prop :=
  σ.OneRewrite a ∧ σ.PublishesUpTo maxUint32 a

instance (σ : Process P) (a : Action) : Decidable (Publishes σ a) :=
  inferInstanceAs (Decidable (_ ∧ _))

structure Inside (σ : Process P) (s : OpenProcess P) : Prop where
  process : s.process = { σ with db := s.process.db }
  calls : s.calls ≠ []
  phase : σ.phase = .idle
  foreground : σ.foreground = none
  began : ∃ us cs, σ.db.Began us cs s.process.db

def Simulates (σ : Process P) (s : OpenProcess P) : Prop :=
  s.calls = [] ∧ s.process = σ ∨ Inside σ s

theorem Simulates.apply (h : Simulates σ s) {a : Apply} (hmeets : s.Settled (.apply a))
    (hs : s.next (.apply a) = some s') : Simulates σ s' := by
  obtain ⟨hok, hfirst⟩ := hmeets
  simp only [next] at hs
  split_ifs at hs with hidle
  cases hs
  cases happ : s.process.db.apply a with
  | error f =>
    rw [happ] at hok
    cases hok
  | ok db =>
    have hcalls : s.calls ++ [a] ≠ [] := List.concat_ne_nil _ _
    rcases h with ⟨-, rfl⟩ | hin
    · refine .inr ⟨rfl, hcalls, hidle.1, hidle.2, ?_⟩
      cases a with
      | upgrades us => exact ⟨us, [], db, .inr happ, rfl⟩
      | changeSets c =>
        refine ⟨[], [c], _, .inl ⟨rfl, rfl⟩, ?_⟩
        have hc : s.process.db.call c = .ok db := happ
        rw [DB.applyCalls, hc]
        rfl
    · refine .inr ⟨?_, hcalls, hin.phase, hin.foreground, ?_⟩
      · rw [hin.process]
      · obtain ⟨us, cs, hbegan⟩ := hin.began
        cases a with
        | upgrades us' => exact absurd (hfirst ⟨us', rfl⟩) hin.calls
        | changeSets c => exact ⟨us, cs ++ [c], hbegan.call happ⟩

theorem Simulates.commit (h : Simulates σ s) (hb : σ.db.AtBoundary) (hi : σ.db.mtree.Indexed)
    (hs : s.next .commit = some s') :
    s'.calls = [] ∧ ∃ block, σ.step (.commit block) = some s'.process := by
  obtain ⟨σ', hσ', rfl⟩ := map_eq_some_iff.mp hs
  refine ⟨rfl, ?_⟩
  rcases h with ⟨-, rfl⟩ | hin
  · exact ⟨_, hσ'⟩
  · obtain ⟨us, cs, hbegan⟩ := hin.began
    refine ⟨⟨us, cs⟩, ?_⟩
    have hro : s.process.db.readOnly = false := Process.commit_writable hσ'
    rw [hin.process] at hσ'
    simp only [Process.step, Process.commit] at hσ' ⊢
    rw [hbegan.commitBlock hb hi hro]
    exact hσ'

theorem next_act {a : Action} (hs : s.next (.act a) = some s') :
    (∀ block, a ≠ .commit block) ∧ ∃ σ', s.process.step a = some σ' ∧ s' = ⟨σ', s.calls⟩ := by
  have hcommit : ∀ block, a ≠ .commit block := by
    rintro block rfl
    cases hs
  have hstep : (s.process.step a).map (OpenProcess.mk · s.calls) = some s' := by
    cases a with
    | commit block => exact absurd rfl (hcommit block)
    | _ => exact hs
  obtain ⟨σ', hσ', rfl⟩ := map_eq_some_iff.mp hstep
  exact ⟨hcommit, σ', hσ', rfl⟩

theorem Simulates.act (h : Simulates σ s) (hb : σ.db.AtBoundary) (hi : σ.db.mtree.Indexed) {a : Action}
    (hmeets : s.Settled (.act a)) (hs : s.next (.act a) = some s') :
    ∃ σ', Publishes σ a ∧ σ.step a = some σ' ∧ Simulates σ' s' := by
  obtain ⟨hstart, hpub⟩ := hmeets
  obtain ⟨hcommit, σ1, hσ1, rfl⟩ := next_act hs
  rcases h with ⟨hcalls, rfl⟩ | hin
  · exact ⟨σ1, hpub, hσ1, .inl ⟨hcalls, rfl⟩⟩
  · obtain ⟨us, cs, hbegan⟩ := hin.began
    obtain ⟨hiv, -⟩ := hbegan.fields hb hi
    have hno : ¬Starts a := fun hs => hin.calls (hstart hs)
    rw [hin.process] at hpub
    rw [hin.process, Process.step_withDB hiv hin.phase hin.foreground hcommit hno] at hσ1
    obtain ⟨σ', hσ', rfl⟩ := map_eq_some_iff.mp hσ1
    obtain ⟨hphase, hfg, hdb⟩ := Process.step_caller hin.phase hin.foreground hcommit hno hσ'
    exact ⟨σ', hpub, hσ', .inr ⟨rfl, hin.calls, hphase, hfg, us, cs, hdb ▸ hbegan⟩⟩

/-- In a settled run blocks may be taken as one step. -/
theorem Run.simulated (ht : Process.Base t) (h : Run Settled config t s) :
    ∃ σ, Process.Run Publishes (.init config t) σ ∧ Simulates σ s := by
  induction h with
  | init => exact ⟨_, .init, .inl ⟨rfl, rfl⟩⟩
  | @step s s' a _ hmeets hs ih =>
    obtain ⟨σ, hrun, hsim⟩ := ih
    obtain ⟨entries, hc⟩ := hrun.consistent (Process.consistent_init config ht)
    have hi := hc.indexed
    cases a with
    | apply a => exact ⟨σ, hrun, hsim.apply hmeets hs⟩
    | commit =>
      obtain ⟨hcalls, block, hstep⟩ := hsim.commit hc.boundary hi hs
      exact ⟨s'.process, hrun.step (a := .commit block) ⟨nofun, nofun⟩ hstep, .inl ⟨hcalls, rfl⟩⟩
    | act a =>
      obtain ⟨σ', hpub, hstep, hsim'⟩ := hsim.act hc.boundary hi hmeets hs
      exact ⟨σ', hrun.step hpub hstep, hsim'⟩

/-- In a settled run, of all the goroutines in any order: when a rewrite has moved the link,
in the foreground or in the background, it leads to a snapshot that can be loaded and is the
state that was committed at the version of the trees it was made of. -/
theorem published_loads (ht : Process.Base t) (hrun : Run Settled config t s) {a : Action}
    {p : Publication} (hp : s.process.moved a = some p) {dir : Directory P}
    (hdone : p.step s.process.dir = .done dir) :
    dir.current = some p.name ∧ ∃ m, dir.openTrees p.name = .ok m ∧
      ∃ b ∈ s.process.history, b.version = p.mtree.version ∧ b.Same m := by
  obtain ⟨σ, hσ, hsim⟩ := hrun.simulated ht
  have hc0 := Process.consistent_init (P := P) config ht
  have ho0 := Process.ordered_init (P := P) config ht
  obtain ⟨entries, hc, ho⟩ := hσ.ordered hc0 ho0 fun _ _ hG => hG.1
  have hup : Process.UpTo maxUint32 σ := hσ.upTo hc0 ho0 (fun _ _ hG => hG)
    (Process.upTo_init ht)
  rcases hsim with ⟨-, rfl⟩ | hin
  · exact Process.published hc ho hup hp hdone
  · rw [hin.process] at hp hdone ⊢
    exact Process.published hc ho hup hp hdone

end OpenProcess

open OpenProcess Option

def openBlock : List OpenAction :=
  [.apply (.upgrades [⟨[1], [], false⟩]),
    .apply (.changeSets (.applyChangeSet [1] [⟨false, [7], some [7]⟩])), .commit,
    .act .finishCommit, .apply (.changeSets (.applyChangeSet [1] [⟨false, [8], some [8]⟩]))]

def rewriteUpToLink : List OpenAction :=
  [.act .rewriteSnapshot, .act .foregroundStep, .act .foregroundStep, .act .foregroundStep]

def OpenProcess.linksLoadable [Sha256] (s : OpenProcess WALEntry) : Option Bool :=
  match s.process.foreground with
  | none => none
  | some p =>
    match p.step s.process.dir with
    | .done dir => dir.current.map fun name => (dir.openTrees name).isOk
    | _ => none

theorem OpenProcess.linksLoadable_eq_some [Sha256] {s : OpenProcess WALEntry} {loadable : Bool}
    (h : s.linksLoadable = some loadable) :
    ∃ p dir name, s.process.moved .foregroundStep = some p ∧ p.step s.process.dir = .done dir ∧
      dir.current = some name ∧ (dir.openTrees name).isOk = loadable := by
  unfold OpenProcess.linksLoadable at h
  cases hp : s.process.foreground with
  | none =>
    rw [hp] at h
    cases h
  | some p =>
    simp only [hp] at h
    cases hstep : p.step s.process.dir with
    | more p' dir => simp [hstep] at h
    | failed dir => simp [hstep] at h
    | done dir =>
      simp only [hstep] at h
      obtain ⟨name, hname, hok⟩ := map_eq_some_iff.mp h
      exact ⟨p, dir, name, hp, hstep, hname, hok⟩

/-- A rewrite inside a block is published and cannot be loaded: the hash of the store in the
metadata is not that of its tree. -/
theorem exists_published_unloadable :
    letI := Sha256.padded
    ∃ (s : OpenProcess WALEntry) (p : Publication) (dir : Directory WALEntry) (name : Name)
      (e : LoadDBError), Run (fun _ _ => True) ⟨0, 0, 1000⟩ (.fresh 0) s ∧
      s.process.moved .foregroundStep = some p ∧ p.step s.process.dir = .done dir ∧
      dir.current = some name ∧ dir.openTrees name = .error e := by
  let _ := Sha256.padded
  have hend : (runActions next (fun _ _ => True) (init ⟨0, 0, 1000⟩ (.fresh 0))
      (openBlock ++ rewriteUpToLink)).bind linksLoadable = some false := by
    decide +kernel
  obtain ⟨s, hs, hload⟩ := bind_eq_some_iff.mp hend
  obtain ⟨p, dir, name, hp, hstep, hname, hok⟩ := linksLoadable_eq_some hload
  cases hopen : dir.openTrees name with
  | ok m =>
    rw [hopen] at hok
    cases hok
  | error e => exact ⟨s, p, dir, name, e, Runs.init.runActions hs, hp, hstep, hname, hopen⟩

instance [Sha256] (s : OpenProcess WALEntry) : ∀ a, Decidable (s.Settled a)
  | .apply (.upgrades us) => decidable_of_iff
      ((s.process.db.apply (.upgrades us)).isOk = true ∧ s.calls = [])
      ⟨fun h => ⟨h.1, fun _ => h.2⟩, fun h => ⟨h.1, h.2 ⟨us, rfl⟩⟩⟩
  | .apply (.changeSets c) => decidable_of_iff ((s.process.db.apply (.changeSets c)).isOk = true)
      ⟨fun h => ⟨h, nofun⟩, fun h => h.1⟩
  | .commit => inferInstanceAs (Decidable True)
  | .act _ => inferInstanceAs (Decidable ((_ → _) ∧ _ ∧ _))

/-- The same rewrite after the block was committed. -/
theorem published_loads_committed :
    letI := Sha256.padded
    ∃ (s : OpenProcess WALEntry) (p : Publication) (dir : Directory WALEntry) (m : MultiTree),
      s.process.moved .foregroundStep = some p ∧ p.step s.process.dir = .done dir ∧
      dir.openTrees p.name = .ok m ∧ ∃ b ∈ s.process.history, b.version = p.mtree.version ∧
        b.Same m := by
  let _ := Sha256.padded
  have hend : ((runActions next Settled (init ⟨0, 0, 1000⟩ (.fresh 0))
      (openBlock ++ [.act .writeBatch, .commit, .act .finishCommit] ++ rewriteUpToLink)).bind
        linksLoadable).isSome := by
    decide +kernel
  obtain ⟨loadable, hend⟩ := isSome_iff_exists.mp hend
  obtain ⟨s, hs, hload⟩ := bind_eq_some_iff.mp hend
  obtain ⟨p, dir, name, hp, hstep, -, -⟩ := linksLoadable_eq_some hload
  obtain ⟨-, m, hm, hb⟩ := published_loads (Process.base_fresh (by decide))
    (Runs.init.runActions hs) hp hstep
  exact ⟨s, p, dir, m, hp, hstep, hm, hb⟩

end CronosStore.Memiavl
