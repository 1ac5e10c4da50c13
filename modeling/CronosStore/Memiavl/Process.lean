import CronosStore.Memiavl.Directory
import CronosStore.Memiavl.Recovery

/-!
# A database and its goroutines

A database that is open for writing, as a transition system over its directory. Beside the
caller of the database there are the writer of the log, which takes entries from a channel
and writes them in batches, the goroutine that rewrites the snapshot in the background, and
the goroutine that prunes. Each step below is one operation on shared state: a send or a
receive on a channel, one change of the directory, one access to the log. What happens
under the mutex of the database between two of them is one step with the first.

A block is applied and committed in one step up to the hand-over of its entry: its calls
succeed, upgrades come first, and snapshots are taken between blocks. A log that is written
synchronously is one with a negative `walChanSize`. `EarliestVersion` holds no lock, so its
reads and its write are steps of their own, and any number of queries may be under way.

A process may stop anywhere, and its directory may be opened again (`reopen`). The state keeps
the trees after every commit in `history`; no step reads it.
-/

namespace CronosStore.Memiavl

open Foundation

/-- The next step of a publication. -/
inductive Stage
  | write
  | rename
  | symlink
  | link
deriving DecidableEq

/-- A snapshot on its way to the link. -/
structure Publication where
  mtree : MultiTree
  stage : Stage
deriving DecidableEq

namespace Publication

def name (p : Publication) : Name := snapshotName p.mtree.version

def tmpName (p : Publication) : Name := p.name ++ tmpSuffix

inductive Outcome (P : Type)
  | more (p : Publication) (dir : Directory P)
  | done (dir : Directory P)
  | failed (dir : Directory P)

variable {P : Type}

def step (p : Publication) (dir : Directory P) : Outcome P :=
  match p.stage with
  | .write =>
    .more { p with stage := .rename }
      (dir.put p.tmpName (p.mtree.writeSnapshot ((dir.get p.tmpName).getD .empty)))
  | .rename =>
    match dir.rename p.tmpName p.name with
    | none => .failed dir
    | some dir => .more { p with stage := .symlink } dir
  | .symlink =>
    match FsStep.apply dir (.symlink p.name) with
    | none => .failed dir
    | some dir => .more { p with stage := .link } dir
  | .link =>
    match FsStep.apply dir .renameLink with
    | none => .failed dir
    | some dir => .done dir

end Publication

/-- Where a background rewrite is. -/
inductive Rewrite
  | idle
  | publishing (p : Publication)
  | loading
  | catchingUp (mtree : MultiTree)
  | ready (mtree : MultiTree)
  | ended (failed : Bool)
deriving DecidableEq

/-- Where `pruneSnapshots` is. -/
inductive Prune
  | idle
  | starting
  | listing (current : Int)
  | removing (current : Int) (counter : Nat) (names : List Name)
  /-- The directory was renamed and is deleted now. -/
  | deleting (tmpName : Name) (current : Int) (counter : Nat) (names : List Name)
  | finishing
  | truncating (earliest : Int)
deriving DecidableEq

/-- A query for the earliest version that found nothing in the cache. -/
inductive Query
  | missed
  /-- The directory was listed, and the cache is written next. -/
  | listed (version : Int)
deriving DecidableEq

/-- Where `Commit` is. -/
inductive Phase
  | idle
  | sent
  /-- The trees are switched, and the lock of the pruning is waited for. -/
  | switched
deriving DecidableEq

/-- The options that the steps depend on. -/
structure Config where
  walChanSize : Int
  snapshotKeepRecent : Nat
  snapshotInterval : Nat
deriving DecidableEq

/-- What the goroutines share, and the history. -/
structure Process (P : Type) where
  config : Config
  dir : Directory P
  db : DB
  walChan : List WalEntry
  /-- What the writer has received and not written. -/
  batch : List WalEntry
  walErr : Bool
  phase : Phase
  foreground : Option Publication
  background : Rewrite
  prune : Prune
  earliestSnapshotCache : Int
  queries : List Query
  history : List MultiTree

inductive Action
  | commit (block : Block)
  | finishCommit
  /-- The wait for the log fails, by its timeout or an error of the writer. -/
  | abandonSwitch
  | startPrune
  | receive (n : Nat)
  | writeBatch
  | failWriter
  | rewriteSnapshot
  | foregroundStep
  | foregroundFail
  | rewriteSnapshotBackground
  | backgroundStep
  | backgroundFail
  | pruneStep
  | earliestLoad
  | earliestList (i : Nat)
  | earliestStore (i : Nat)
deriving DecidableEq

def committedVersionAt (lastIndex initialVersion : Nat) (snapshotVersion : Int) : Int :=
  if lastIndex = 0 then snapshotVersion else walVersion lastIndex initialVersion

namespace Process

variable {P : Type} [Sha256] [WALCodec P]

/-! ## Commits and the log -/

section

variable (σ : Process P)

/-- The entry goes to the log, to the channel, or right to a writer that waits for it. The
step is not possible while the channel is full. -/
def handOver (entry : WalEntry) : Option (Process P) :=
  if σ.config.walChanSize < 0 then
    match writeEntries σ.dir.wal [entry] with
    | none => none
    | some wal => some { σ with dir := { σ.dir with wal := wal } }
  else if σ.walChan.length < σ.config.walChanSize then
    some { σ with walChan := σ.walChan ++ [entry] }
  else if σ.config.walChanSize = 0 ∧ σ.batch = [] then some { σ with batch := [entry] }
  else none

def commit (block : Block) : Option (Process P) :=
  if σ.phase = .idle ∧ σ.foreground = none ∧ σ.walErr = false then
    match σ.db.commitBlock block with
    | .error _ => none
    | .ok (entry, db) =>
      if db.mtree.version < 2 ^ 63 then
        { σ with db := db, phase := .sent, history := σ.history ++ [db.mtree] }.handOver entry
      else none
  else none

def startBackground : Process P :=
  match σ.background with
  | .idle => { σ with background := .publishing ⟨σ.db.mtree, .write⟩ }
  | _ => σ

def rewriteIfApplicable : Process P :=
  if σ.db.mtree.version % σ.config.snapshotInterval = 0 then σ.startBackground else σ

def caughtUp : Bool :=
  let version := σ.db.mtree.version
  let initialVersion := σ.db.mtree.initialVersion
  match σ.db.mtree.snapshotVersion with
  | none => false
  | some snapshotVersion =>
    -- no entry of the log is below the initial version
    !σ.walErr && (version < initialVersion || version ≤ 0 ||
      committedVersionAt σ.dir.wal.lastIndex initialVersion snapshotVersion ≥ version)

def reloadMultiTree (mtree : MultiTree) : Option (Process P) :=
  match mtree.applyWALEntry σ.db.pendingLog.entry with
  | .error _ => none
  | .ok mtree => some { σ with db := { σ.db with mtree := mtree } }

def finishCommit : Option (Process P) :=
  if σ.phase = .sent then
    match σ.background with
    | .ready mtree =>
      if σ.caughtUp then
        let ended := { σ with phase := .idle, background := .idle }
        match mtree.catchupWAL σ.dir.wal 0 with
        | .error _ => some ended
        | .ok mtree =>
          match { σ with phase := .switched, background := .idle }.reloadMultiTree mtree with
          | none => some ended
          | some σ => some σ
      else none
    | .ended failed =>
      let σ := { σ with phase := .idle, background := .idle }
      some (if failed || σ.walErr then σ else σ.rewriteIfApplicable)
    | _ =>
      let σ := { σ with phase := .idle }
      some (if σ.walErr then σ else σ.rewriteIfApplicable)
  else none

def abandonSwitch : Option (Process P) :=
  match σ.phase, σ.background with
  | .sent, .ready _ => some { σ with phase := .idle, background := .idle }
  | _, _ => none

def startPrune : Option (Process P) :=
  if σ.phase = .switched ∧ σ.prune = .idle then
    let σ := { σ with phase := .idle, prune := .starting }
    some (if σ.walErr then σ else σ.rewriteIfApplicable)
  else none

/-! ## The writer of the log -/

def receive (n : Nat) : Option (Process P) :=
  if σ.batch = [] ∧ σ.walErr = false ∧ 0 < n ∧ n ≤ σ.walChan.length then
    some { σ with batch := σ.walChan.take n, walChan := σ.walChan.drop n }
  else none

def writeBatch : Option (Process P) :=
  if σ.walErr = false then
    match writeEntries σ.dir.wal σ.batch with
    | none => some { σ with walErr := true }
    | some wal => some { σ with dir := { σ.dir with wal := wal }, batch := [] }
  else none

def foregroundStep : Option (Process P) :=
  match σ.foreground with
  | none => none
  | some p =>
    match p.step σ.dir with
    | .more p dir => some { σ with foreground := some p, dir := dir }
    | .done dir => some { σ with foreground := none, dir := dir }
    | .failed dir => some { σ with foreground := none, dir := dir }

def foregroundFail : Option (Process P) :=
  match σ.foreground with
  | some ⟨mtree, .write⟩ =>
    some { σ with
      foreground := none
      dir := σ.dir.removeAll (Publication.tmpName ⟨mtree, .write⟩) }
  | _ => none

def backgroundStep : Option (Process P) :=
  match σ.background with
  | .publishing p =>
    match p.step σ.dir with
    | .more p dir => some { σ with background := .publishing p, dir := dir }
    | .done dir => some { σ with background := .loading, dir := dir }
    | .failed dir => some { σ with background := .ended false, dir := dir }
  | .loading =>
    match σ.dir.current with
    | none => some { σ with background := .ended true }
    | some snapshot =>
      match σ.dir.openTrees snapshot with
      | .error _ => some { σ with background := .ended true }
      | .ok mtree => some { σ with background := .catchingUp mtree }
  | .catchingUp mtree =>
    match mtree.catchupWAL σ.dir.wal 0 with
    | .error _ => some { σ with background := .ended true }
    | .ok mtree => some { σ with background := .ready mtree }
  | _ => none

def backgroundFail : Option (Process P) :=
  match σ.background with
  | .publishing ⟨mtree, .write⟩ =>
    some { σ with
      background := .ended false
      dir := σ.dir.removeAll (Publication.tmpName ⟨mtree, .write⟩) }
  | _ => none

def pruneName (current : Int) (counter : Nat) (name : Name) (names : List Name) :
    Process P :=
  if isSnapshotName name then
    match parseVersion name with
    | none => { σ with prune := .idle }
    | some version =>
      if version ≥ current then { σ with prune := .removing current counter names }
      else if counter > 0 then { σ with prune := .removing current (counter - 1) names }
      else
        let tmpName := snapshotName version ++ tmpSuffix
        match σ.dir.rename (snapshotName version) tmpName with
        | none => { σ with prune := .removing current counter names }
        | some dir => { σ with prune := .deleting tmpName current counter names, dir := dir }
  else { σ with prune := .removing current counter names }

def pruneStep : Option (Process P) :=
  match σ.prune with
  | .idle => none
  | .starting =>
    match σ.dir.currentVersion with
    | none => some { σ with prune := .idle }
    | some current => some { σ with prune := .listing current }
  | .listing current =>
    some { σ with prune := .removing current σ.config.snapshotKeepRecent σ.dir.names.reverse }
  | .removing current counter (name :: names) => some (σ.pruneName current counter name names)
  | .removing _ _ [] => some { σ with prune := .finishing }
  | .deleting tmpName current counter names =>
    some { σ with prune := .removing current counter names, dir := σ.dir.removeAll tmpName }
  | .finishing =>
    match σ.dir.firstSnapshotVersion with
    | .error _ => some { σ with prune := .idle }
    | .ok earliest =>
      some { σ with
        earliestSnapshotCache := earliest
        -- the index below would be negative for the snapshot of an empty database
        prune := if earliest + 1 < σ.db.mtree.initialVersion then .idle else .truncating earliest }
  | .truncating earliest =>
    match σ.dir.wal.truncateFront (walIndex (earliest + 1) σ.db.mtree.initialVersion) with
    | none => some { σ with prune := .idle }
    | some wal => some { σ with prune := .idle, dir := { σ.dir with wal := wal } }

/-! ## Queries -/

/-- What `EarliestVersion` finds in the directory. -/
def firstQueryable : Except LoadDBError Int :=
  match σ.dir.firstSnapshotVersion with
  | .error e => .error e
  | .ok version =>
    .ok (if version = 0 then
      if σ.db.mtree.initialVersion = 0 then 1 else σ.db.mtree.initialVersion
    else version)

/-- The cache is read; a version in it is returned. -/
def earliestLoad : Process P :=
  if σ.earliestSnapshotCache > 0 then σ else { σ with queries := σ.queries ++ [.missed] }

def earliestList (i : Nat) : Option (Process P) :=
  match σ.queries[i]? with
  | some .missed =>
    match σ.firstQueryable with
    | .error _ => some { σ with queries := σ.queries.eraseIdx i }
    | .ok version => some { σ with queries := σ.queries.set i (.listed version) }
  | _ => none

def earliestStore (i : Nat) : Option (Process P) :=
  match σ.queries[i]? with
  | some (.listed version) =>
    some { σ with queries := σ.queries.eraseIdx i, earliestSnapshotCache := version }
  | _ => none

def step : Action → Option (Process P)
  | .commit block => σ.commit block
  | .finishCommit => σ.finishCommit
  | .abandonSwitch => σ.abandonSwitch
  | .startPrune => σ.startPrune
  | .receive n => σ.receive n
  | .writeBatch => σ.writeBatch
  | .failWriter => if σ.config.walChanSize < 0 then none else some { σ with walErr := true }
  | .rewriteSnapshot =>
    if σ.phase = .idle ∧ σ.foreground = none then
      some { σ with foreground := some ⟨σ.db.mtree, .write⟩ }
    else none
  | .foregroundStep => σ.foregroundStep
  | .foregroundFail => σ.foregroundFail
  | .rewriteSnapshotBackground =>
    if σ.phase = .idle ∧ σ.foreground = none then some σ.startBackground else none
  | .backgroundStep => σ.backgroundStep
  | .backgroundFail => σ.backgroundFail
  | .pruneStep => σ.pruneStep
  | .earliestLoad => some σ.earliestLoad
  | .earliestList i => σ.earliestList i
  | .earliestStore i => σ.earliestStore i

/-! ## Runs -/

/-- A process that has opened a directory for writing. -/
def opened (config : Config) (dir : Directory P) (mtree : MultiTree) (history : List MultiTree) :
    Process P where
  config := config
  dir := dir
  db := .new mtree false
  walChan := []
  batch := []
  walErr := false
  phase := .idle
  foreground := none
  background := .idle
  prune := .idle
  earliestSnapshotCache := 0
  queries := []
  history := history

def init (config : Config) (t : MultiTree) : Process P :=
  let mtree := { t with metadata := ⟨some t.lastCommitInfo, t.initialVersion⟩ }
  let dir := {
    current := some (snapshotName t.version)
    currentTmp := none
    dirs := [(snapshotName t.version, t.writeSnapshot .empty)]
    sorted := List.pairwise_singleton _ _
    wal := .empty }
  opened config dir mtree [mtree]

/-- What is found in place of a process that has stopped. The log may have got a part of the
batch. Temporary directories may be half written or half deleted. -/
structure Stopped (σ : Process P) (d : Directory P) : Prop where
  current : d.current = σ.dir.current
  dirs : ∀ e : Name × MultiTreeDir, isTmpName e.1 = false → (e ∈ d.dirs ↔ e ∈ σ.dir.dirs)
  wal : ∃ k, writeEntries σ.dir.wal (σ.batch.take k) = some d.wal

/-- `Load` of what a process has left, for writing. The history then ends with the version that is
loaded. -/
def reopen (config : Config) (d : Directory P) (targetVersion : Nat) : Except LoadDBError (Process P) :=
  match d.load ⟨targetVersion, false, false⟩ with
  | .error e => .error e
  | .ok (mtree, dir) => .ok (opened config dir mtree (σ.history.take (mtree.logIndex + 1)))

end

/-- The next process goes on where the log ends, and no snapshot of a later version is left. -/
def Resumes (σ σ' : Process P) : Prop :=
  σ'.db.mtree.logIndex = σ'.dir.wal.lastIndex ∧
    ∀ s ∈ σ.history, snapshotName s.version ∈ σ'.dir.names → s.version ≤ σ'.db.mtree.version

instance (σ σ' : Process P) : Decidable (σ.Resumes σ') :=
  inferInstanceAs (Decidable (_ ∧ _))

/-- Steps in any order, each under the condition `G`, and stops after any of them, with `Load`
by the next process at the last version of the log. -/
inductive Run (G : Process P → Action → Prop) (σ0 : Process P) : Process P → Prop
  | init : Run G σ0 σ0
  | step {σ σ' : Process P} {a : Action} (run : Run G σ0 σ) (meets : G σ a)
      (taken : σ.step a = some σ') : Run G σ0 σ'
  | reopen {σ σ' : Process P} {config : Config} {d : Directory P} {targetVersion : Nat}
      (run : Run G σ0 σ) (stopped : σ.Stopped d)
      (loaded : σ.reopen config d targetVersion = .ok σ') (resumes : σ.Resumes σ') : Run G σ0 σ'

def runAll (G : Process P → Action → Prop) [∀ σ a, Decidable (G σ a)] (σ : Process P) :
    List Action → Option (Process P)
  | [] => some σ
  | a :: actions =>
    if G σ a then
      match σ.step a with
      | none => none
      | some σ => σ.runAll G actions
    else none

theorem Run.runAll {G : Process P → Action → Prop} [∀ σ a, Decidable (G σ a)] {σ0 σ σ' : Process P}
    (h : Run G σ0 σ) {actions : List Action} (hs : σ.runAll G actions = some σ') : Run G σ0 σ' := by
  induction actions generalizing σ with
  | nil =>
    cases hs
    exact h
  | cons a actions ih =>
    rw [Process.runAll] at hs
    split_ifs at hs with hG
    split at hs
    · cases hs
    · rename_i σ1 hstep
      exact ih (h.step hG hstep) hs

theorem exists_run {G : Process P → Action → Prop} [∀ σ a, Decidable (G σ a)] {σ0 : Process P}
    {actions : List Action} {α : Type} {f : Process P → α} {x : α}
    (h : (σ0.runAll G actions).map f = some x) : ∃ σ, Run G σ0 σ ∧ f σ = x := by
  obtain ⟨σ, hσ, hf⟩ := Option.map_eq_some_iff.mp h
  exact ⟨σ, Run.init.runAll hσ, hf⟩

end Process

end CronosStore.Memiavl
