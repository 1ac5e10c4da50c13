import CronosStore.Foundation.Decimal
import CronosStore.Memiavl.History

/-!
# The directory of a database

The directory holds one subdirectory for each snapshot, the link `current` to one of them,
and the log. Snapshots are written under a name with the suffix `-tmp` and then renamed; the
link is replaced by a new one, `current-tmp`, which is renamed over it. `Load` of
`memiavl/db.go` is split in two: what it decides (`plan`) and the changes of the
directory it makes for that, as a list of steps (`FsStep`), so that it can be stopped
between any two of them.

The lock file is left out. So are the calls of `fsync`: a step that was made is durable.
-/

namespace CronosStore.Memiavl

open Foundation SortedAssoc List

/-! ## Names of snapshots -/

def snapshotPrefix : Bytes := [115, 110, 97, 112, 115, 104, 111, 116, 45]

def tmpSuffix : Bytes := [45, 116, 109, 112]

def snapshotDirLen : Nat := snapshotPrefix.length + 20

/-- `snapshotName`, for versions that are not negative. -/
def snapshotName (version : Int) : Name := snapshotPrefix ++ padDecimal 20 version.toNat

def isSnapshotName (name : Name) : Bool :=
  snapshotPrefix.isPrefixOf name && name.length = snapshotDirLen

/-- `parseVersion`. The number is parsed with 32 bits, one of them for the sign. -/
def parseVersion (name : Name) : Option Int :=
  if isSnapshotName name then parseInt 32 (name.drop snapshotPrefix.length) else none

def isTmpName (name : Name) : Bool := tmpSuffix.isSuffixOf name

def Nameable (version : Int) : Prop := 0 ≤ version ∧ version < 10 ^ 20

theorem isSnapshotName_snapshotName (v : Int) : isSnapshotName (snapshotName v) = true := by
  simp [isSnapshotName, snapshotName, snapshotDirLen]

variable {v w : Int}

theorem parseVersion_snapshotName (h : Nameable v) :
    parseVersion (snapshotName v) = if v < 2 ^ 31 then some v else none := by
  obtain ⟨h0, hlt⟩ := h
  rw [parseVersion, if_pos (isSnapshotName_snapshotName v), snapshotName, drop_left,
    parseInt_padDecimal (by omega) (by omega), Int.toNat_of_nonneg h0]
  split_ifs <;> first | rfl | omega

theorem snapshotName_lt (hv : 0 ≤ v) (hw : Nameable w) (h : v < w) :
    snapshotName v < snapshotName w := by
  have hlt := padDecimal_lt 20 (show v.toNat < w.toNat by omega) (by have := hw.2; omega)
  exact append_left_lt hlt

theorem lt_of_snapshotName_lt (hv : Nameable v) (hw : Nameable w)
    (h : snapshotName v < snapshotName w) : v < w := by
  rcases lt_trichotomy v w with hlt | rfl | hgt
  · exact hlt
  · exact absurd h (lt_irrefl _)
  · exact absurd h (snapshotName_lt hw.1 hv hgt).not_gt

theorem snapshotName_inj (hv : Nameable v) (hw : Nameable w)
    (h : snapshotName v = snapshotName w) : v = w := by
  have hpad := append_cancel_left h
  have := padDecimal_inj (by have := hv.2; omega) (by have := hw.2; omega) hpad
  have := hv.1
  have := hw.1
  omega

theorem length_snapshotName (v : Int) : (snapshotName v).length = 29 := by
  simp [snapshotName, snapshotPrefix]

theorem snapshotName_ne_tmp (v w : Int) : snapshotName v ≠ snapshotName w ++ tmpSuffix := by
  intro heq
  have := congrArg List.length heq
  simp [length_snapshotName, tmpSuffix] at this

theorem isSnapshotName_tmp (v : Int) : isSnapshotName (snapshotName v ++ tmpSuffix) = false := by
  simp [isSnapshotName, snapshotDirLen, length_snapshotName, tmpSuffix, snapshotPrefix]

theorem isTmpName_tmp (name : Name) : isTmpName (name ++ tmpSuffix) = true := by
  simp [isTmpName]

theorem isTmpName_snapshotName (v : Int) : isTmpName (snapshotName v) = false := by
  rw [Bool.eq_false_iff]
  intro h
  obtain ⟨t, ht⟩ := isSuffixOf_iff_suffix.mp h
  -- the last byte would be a digit and a letter
  have hlast := congrArg List.getLast? ht
  rw [snapshotName, getLast?_append_of_ne_nil _ (by simp [tmpSuffix]),
    getLast?_append_of_ne_nil _ (by simp [padDecimal])] at hlast
  have hmem := mem_of_getLast? hlast.symm
  have := le_of_mem_padDecimal hmem
  exact absurd this (by decide)

/-! ## Directories -/

structure Directory (P : Type) where
  current : Option Name
  currentTmp : Option Name
  dirs : List (Name × MultiTreeDir)
  sorted : SortedAssoc.Sorted dirs
  wal : IndexedLog P

namespace Directory

variable {P : Type}

section

variable (d : Directory P)

def names : List Name := d.dirs.map Prod.fst

def get (name : Name) : Option MultiTreeDir := d.dirs.lookup name

def put (name : Name) (content : MultiTreeDir) : Directory P :=
  { d with
    dirs := SortedAssoc.insert name content d.dirs
    sorted := sorted_insert d.sorted }

def removeAll (name : Name) : Directory P :=
  { d with
    dirs := SortedAssoc.erase name d.dirs
    sorted := sorted_erase d.sorted }

/-- `os.Rename` of a directory. A directory that is there already must be empty. -/
def rename (old new : Name) : Option (Directory P) :=
  match d.get old with
  | none => none
  | some content =>
    match d.get new with
    | none => some ((d.removeAll old).put new content)
    | some c => if c = .empty then some ((d.removeAll old).put new content) else none

end

variable {d : Directory P} {name : Name} {content : MultiTreeDir}

theorem get_eq_some :
    d.get name = some content ↔ (name, content) ∈ d.dirs :=
  lookup_eq_some_iff d.sorted

theorem mem_put {e : Name × MultiTreeDir} :
    e ∈ (d.put name content).dirs ↔ e = (name, content) ∨ e ∈ d.dirs ∧ e.1 ≠ name :=
  mem_insert d.sorted

theorem mem_removeAll {e : Name × MultiTreeDir} :
    e ∈ (d.removeAll name).dirs ↔ e ∈ d.dirs ∧ e.1 ≠ name :=
  mem_erase

theorem get_put_self :
    (d.put name content).get name = some content :=
  lookup_insert_self d.sorted

theorem get_put_of_ne {name' : Name} (h : name' ≠ name) :
    (d.put name content).get name' = d.get name' :=
  lookup_insert_of_ne d.sorted h

theorem get_removeAll_of_ne {name' : Name} (h : name' ≠ name) :
    (d.removeAll name).get name' = d.get name' :=
  lookup_erase_of_ne d.sorted h

theorem rename_eq_some {d' : Directory P} {old new : Name} (h : d.rename old new = some d') :
    ∃ content, (old, content) ∈ d.dirs ∧ d' = (d.removeAll old).put new content := by
  unfold rename at h
  split at h
  · cases h
  · rename_i content hold
    refine ⟨content, get_eq_some.mp hold, ?_⟩
    split at h
    · exact (Option.some.inj h).symm
    · split_ifs at h
      exact (Option.some.inj h).symm

/-- The loop of `traverseSnapshots`; the callback says if the loop stops. The error is the
name that could not be parsed. -/
def traverse {σ : Type} (callback : Int → σ → Bool × σ) : List Name → σ → Except Name σ
  | [], s => .ok s
  | name :: names, s =>
    if isSnapshotName name then
      match parseVersion name with
      | none => .error name
      | some version =>
        match callback version s with
        | (true, s) => .ok s
        | (false, s) => traverse callback names s
    else traverse callback names s

/-- `traverseSnapshots`. The listing is sorted by name. -/
def traverseSnapshots {σ : Type} (d : Directory P) (ascending : Bool)
    (callback : Int → σ → Bool × σ) (s : σ) : Except Name σ :=
  traverse callback (if ascending then d.names else d.names.reverse) s

end Directory

inductive LoadDBError
  | invalidOptions
  | invalidSnapshotName (name : Name)
  | targetPruned (targetVersion : Nat)
  | emptyDB
  | readLink
  | mtree (error : LoadError)
  | outOfRange
  | catchup (error : CatchupError)
  | fileSystem
deriving DecidableEq

namespace Directory

variable {P : Type}

def seekSnapshot (d : Directory P) (targetVersion : Nat) : Except LoadDBError Int :=
  match d.traverseSnapshots false
    (fun version found => if version ≤ targetVersion then (true, some version) else (false, found))
    none with
  | .error name => .error (.invalidSnapshotName name)
  | .ok none => .error (.targetPruned targetVersion)
  | .ok (some version) => .ok version

def firstSnapshotVersion (d : Directory P) : Except LoadDBError Int :=
  match d.traverseSnapshots true (fun version _ => (true, some version)) none with
  | .error name => .error (.invalidSnapshotName name)
  | .ok none => .error .emptyDB
  | .ok (some version) => .ok version

def newerSnapshots (d : Directory P) (targetVersion : Nat) : Except LoadDBError (List Int) :=
  match d.traverseSnapshots false
    (fun version newer => if version ≤ targetVersion then (true, newer) else (false, newer ++ [version]))
    [] with
  | .error name => .error (.invalidSnapshotName name)
  | .ok newer => .ok newer

def currentVersion (d : Directory P) : Option Int := do
  let name ← d.current
  parseVersion name

end Directory

/-- A change of the directory. -/
inductive FsStep
  | removeAll (name : Name)
  | removeCurrentTmp
  | symlink (snapshot : Name)
  | renameLink
  | rename (old new : Name)
  | truncateBack (index : Nat)
deriving DecidableEq

def FsStep.apply {P : Type} (d : Directory P) : FsStep → Option (Directory P)
  | .removeAll name => some (d.removeAll name)
  | .removeCurrentTmp => some { d with currentTmp := none }
  | .symlink snapshot =>
    match d.currentTmp with
    | some _ => none
    | none => some { d with currentTmp := some snapshot }
  | .renameLink =>
    match d.currentTmp with
    | none => none
    | some snapshot => some { d with current := some snapshot, currentTmp := none }
  | .rename old new => d.rename old new
  | .truncateBack index =>
    match d.wal.truncateBack index with
    | none => none
    | some wal => some { d with wal := wal }

structure Options where
  targetVersion : Nat
  readOnly : Bool
  loadForOverwriting : Bool
deriving DecidableEq

namespace Directory

variable {P : Type}

def runSteps (steps : List FsStep) (d : Directory P) : Option (Directory P) :=
  steps.foldlM FsStep.apply d

def cleanupSteps (d : Directory P) : List FsStep :=
  (d.names.filter isTmpName).map .removeAll ++
    if d.currentTmp.isSome then [.removeCurrentTmp] else []

def removeSteps (name : Name) : List FsStep :=
  [.rename name (name ++ tmpSuffix), .removeAll (name ++ tmpSuffix)]

/-- The rollback: the link is moved first, then the newer snapshots are removed, newest
first, and the log is cut last. -/
def rollbackSteps (d : Directory P) (snapshot : Name) (targetVersion targetIndex : Nat) :
    Except LoadDBError (List FsStep) :=
  match d.current with
  | none => .error .readLink
  | some currentSnapshot =>
    match d.newerSnapshots targetVersion with
    | .error e => .error e
    | .ok newer =>
      .ok ((if snapshot ≠ currentSnapshot then [.symlink snapshot, .renameLink] else []) ++
        newer.flatMap (fun version => removeSteps (snapshotName version)) ++
        [.truncateBack targetIndex])

variable [Sha256] [WALCodec P]

def openTrees (d : Directory P) (snapshot : Name) : Except LoadDBError MultiTree :=
  match d.get snapshot with
  | none => .error (.mtree .notExist)
  | some content => (loadMultiTree content).mapError .mtree

omit [WALCodec P] in
theorem openTrees_eq_ok {d : Directory P} {snapshot : Name} {m : MultiTree} :
    d.openTrees snapshot = .ok m ↔ ∃ content, d.get snapshot = some content ∧
      loadMultiTree content = .ok m := by
  unfold openTrees
  cases d.get snapshot with
  | none => simp
  | some content =>
    cases hload : loadMultiTree content with
    | error e => simp [Except.mapError, hload]
    | ok l => simp [Except.mapError, hload]

def selectSnapshot (d : Directory P) (targetVersion : Nat) : Except LoadDBError Name :=
  if targetVersion > 0 then (d.seekSnapshot targetVersion).map snapshotName
  else
    match d.current with
    | none => .error .readLink
    | some snapshot => .ok snapshot

def planClean (d : Directory P) (opts : Options) : Except LoadDBError (MultiTree × List FsStep) := do
  let snapshot ← d.selectSnapshot opts.targetVersion
  let mtree ← d.openTrees snapshot
  let rollback := opts.loadForOverwriting && opts.targetVersion > 0
  let targetIndex := walIndex opts.targetVersion mtree.initialVersion
  if rollback ∧ ¬d.wal.InRange targetIndex then throw .outOfRange
  let caught ←
    if opts.targetVersion = 0 ∨ (opts.targetVersion : Int) > mtree.version then
      (mtree.catchupWAL d.wal opts.targetVersion).mapError .catchup
    else pure mtree
  let steps ← if rollback then d.rollbackSteps snapshot opts.targetVersion targetIndex else pure []
  pure (caught, steps)

def plan (d : Directory P) (opts : Options) : Except LoadDBError (MultiTree × List FsStep) :=
  if opts.readOnly && opts.loadForOverwriting then .error .invalidOptions
  else if opts.readOnly then d.planClean opts
  else
    match runSteps d.cleanupSteps d with
    | none => .error .fileSystem
    | some clean => (clean.planClean opts).map fun r => (r.1, d.cleanupSteps ++ r.2)

def load (d : Directory P) (opts : Options) : Except LoadDBError (MultiTree × Directory P) :=
  match d.plan opts with
  | .error e => .error e
  | .ok (mtree, steps) =>
    match runSteps steps d with
    | none => .error .fileSystem
    | some d' => .ok (mtree, d')

end Directory

end CronosStore.Memiavl
