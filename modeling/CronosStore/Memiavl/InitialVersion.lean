import CronosStore.Memiavl.Load
import Mathlib.Tactic.IntervalCases

/-!
# Setting the initial version

`SetInitialVersion` of `memiavl/multitree.go` and of `memiavl/db.go`. The value is kept with the trees
and folded into the version of each of them, but a tree that has a version keeps it, and the number
is cut to 32 bits with nothing done about its sign. So a second value does not replace the first one
in the trees (`saves_at_iff`).

The database writes the new value into the snapshot that the link designates, in place. Between the
truncation of the metadata and its write, the file is empty, and an empty file decodes to metadata
without a commit info, which is then followed. At every other crash point the next `Load` succeeds
(`crash_safe_iff`).
-/

namespace CronosStore.Memiavl

open Foundation List

inductive InitialVersionError
  | versionOverflows (version : Int)
  | multiTreeNotEmpty (version : Int)
  | treeNotEmpty (name : Name)
  | readOnly
  /-- The initial version can only be set before any commit. -/
  | committed
deriving DecidableEq

namespace MultiTree

def setInitialVersionChecked (t : MultiTree) (initialVersion : Int) :
    Update InitialVersionError MultiTree :=
  if initialVersion ≥ maxUint32 then .error ⟨.versionOverflows initialVersion, t⟩
  else if t.version ≠ 0 then .error ⟨.multiTreeNotEmpty t.version, t⟩
  else
    match t.trees.find? fun entry => entry.tree.root.isSome with
    | some entry => .error ⟨.treeNotEmpty entry.name, t⟩
    | none => .ok (t.setInitialVersion (initialVersion % 2 ^ 32).toNat)

def afterCalls (t : MultiTree) (initialVersions : List Int) : MultiTree :=
  initialVersions.foldl (fun t initialVersion => stateAfter (t.setInitialVersionChecked initialVersion)) t

def SavesAt [Sha256] (t : MultiTree) (version : Int) : Prop :=
  ∀ updateCommitInfo, ∃ t', t.saveVersion updateCommitInfo = .ok t' ∧ t'.version = version ∧
    ∀ entry ∈ t'.trees, (entry.tree.version : Int) = version

theorem setInitialVersionChecked_error {t : MultiTree} {initialVersion : Int}
    {f : Failure InitialVersionError MultiTree} (h : t.setInitialVersionChecked initialVersion = .error f) :
    f.state = t := by
  unfold setInitialVersionChecked at h
  split_ifs at h
  · cases h
    rfl
  · cases h
    rfl
  · split at h
    · cases h
      rfl
    · cases h

theorem setInitialVersionChecked_ok {t t' : MultiTree} {initialVersion : Int}
    (h : t.setInitialVersionChecked initialVersion = .ok t') :
    initialVersion < maxUint32 ∧ t.version = 0 ∧
      t' = t.setInitialVersion (initialVersion % 2 ^ 32).toNat := by
  unfold setInitialVersionChecked at h
  split_ifs at h with hlt hversion
  split at h
  · cases h
  · cases h
    exact ⟨not_le.mp hlt, not_ne_iff.mp hversion, rfl⟩

theorem version_setInitialVersion (t : MultiTree) (iv : Nat) :
    (t.setInitialVersion iv).version = t.version := by
  unfold MultiTree.setInitialVersion
  split_ifs <;> rfl

theorem initialVersion_setInitialVersion (t : MultiTree) (iv : Nat) :
    (t.setInitialVersion iv).initialVersion = iv := by
  unfold MultiTree.setInitialVersion
  split_ifs <;> rfl

theorem forall_version_setInitialVersion (t : MultiTree) (iv : Nat) (p : Nat → Prop) :
    (∀ entry ∈ (t.setInitialVersion iv).trees, p entry.tree.version) ↔
      ∀ entry ∈ t.trees, p (if iv > 1 ∧ entry.tree.version = 0 then iv - 1 else entry.tree.version) := by
  unfold MultiTree.setInitialVersion
  by_cases hiv : iv > 1
  · have hset : ∀ tree : Tree, (tree.setInitialVersion iv).version =
        if iv > 1 ∧ tree.version = 0 then iv - 1 else tree.version := by
      intro tree
      unfold Tree.setInitialVersion
      rw [if_neg (show ¬iv < 1 by omega)]
      split_ifs <;> first | rfl | omega
    rw [if_pos hiv, mapTrees, forall_mem_map]
    simp only [hset]
  · rw [if_neg hiv]
    simp only [hiv, false_and, if_false]

section Save

variable [Sha256]

/-- The version that is saved is that of the trees, and each of them goes on by one. -/
theorem savesAt_iff (t : MultiTree) (version : Int) :
    t.SavesAt version ↔ nextVersion t.version t.initialVersion = version ∧
      ∀ entry ∈ t.trees, entry.tree.version ≠ maxUint32 ∧ (entry.tree.version : Int) + 1 = version := by
  constructor
  · intro h
    obtain ⟨t', hsave, hversion, htrees⟩ := h false
    unfold saveVersion at hsave
    split at hsave
    · cases hsave
    · rename_i hnone
      cases hsave
      refine ⟨hversion, fun entry he => ⟨?_, ?_⟩⟩
      · simpa using find?_eq_none.mp hnone entry he
      · exact_mod_cast htrees _ (mem_map_of_mem he)
  · rintro ⟨hversion, htrees⟩ updateCommitInfo
    have hnone : t.trees.find? (fun entry => entry.tree.version = maxUint32) = none :=
      find?_eq_none.mpr fun entry he => by simpa using (htrees entry he).1
    unfold saveVersion
    rw [hnone]
    refine ⟨_, rfl, ?_, fun entry he => ?_⟩
    · cases updateCommitInfo <;> exact hversion
    · obtain ⟨e, hmem, rfl⟩ := mem_map.mp he
      exact_mod_cast (htrees e hmem).2

theorem setInitialVersion_savesAt_iff {t : MultiTree} (hversion : t.version = 0) {a : Int}
    (ha : a < maxUint32) :
    (t.setInitialVersion (a % 2 ^ 32).toNat).SavesAt (max 1 a) ↔
      (0 ≤ a ∨ a % 2 ^ 32 ≤ 1) ∧
        ∀ entry ∈ t.trees, entry.tree.version = 0 ∨ (entry.tree.version : Int) + 1 = a := by
  rw [savesAt_iff, version_setInitialVersion, initialVersion_setInitialVersion, hversion,
    forall_version_setInitialVersion t _ fun v => v ≠ maxUint32 ∧ (v : Int) + 1 = max 1 a]
  unfold maxUint32 at *
  have hnext : nextVersion 0 (a % 2 ^ 32).toNat = max 1 a ↔ 0 ≤ a ∨ a % 2 ^ 32 ≤ 1 := by
    unfold nextVersion
    split_ifs <;> omega
  rw [hnext]
  refine and_congr_right fun hsign => forall₂_congr fun entry he => ?_
  split_ifs <;> omega

/-- After any calls, a call fails and changes nothing, or the next version is the one that was asked for,
in all trees, if and only if the argument is not negative, up to a multiple of `2 ^ 32`, and no tree
has been given another initial version above 1 before. -/
theorem saves_at_iff (t : MultiTree) (initialVersions : List Int) (a : Int) :
    (∃ e, (t.afterCalls initialVersions).setInitialVersionChecked a =
      .error ⟨e, t.afterCalls initialVersions⟩) ∨
    ∃ t', (t.afterCalls initialVersions).setInitialVersionChecked a = .ok t' ∧
      (t'.SavesAt (max 1 a) ↔ (0 ≤ a ∨ a % 2 ^ 32 ≤ 1) ∧
        ∀ entry ∈ (t.afterCalls initialVersions).trees,
          entry.tree.version = 0 ∨ (entry.tree.version : Int) + 1 = a) := by
  cases h : (t.afterCalls initialVersions).setInitialVersionChecked a with
  | error f =>
    obtain ⟨e, state⟩ := f
    obtain rfl := setInitialVersionChecked_error h
    exact .inl ⟨e, rfl⟩
  | ok t' =>
    obtain ⟨ha, hversion, rfl⟩ := setInitialVersionChecked_ok h
    exact .inr ⟨_, rfl, setInitialVersion_savesAt_iff hversion ha⟩

end Save

/-- The second of two values does not reach a tree, and a negative one is taken for a large one. -/
theorem exists_initial_version_ignored :
    letI := Sha256.zero
    (∃ t t' s, (newEmptyMultiTree 0).applyUpgrades [⟨[97], [], false⟩] = .ok t ∧
      (t.afterCalls [5]).setInitialVersionChecked 10 = .ok t' ∧ t'.saveVersion false = .ok s ∧
      s.version = 10 ∧ s.trees.map (fun entry => entry.tree.version) = [5]) ∧
    ∃ t s, (newEmptyMultiTree 0).setInitialVersionChecked (-5) = .ok t ∧
      t.saveVersion false = .ok s ∧ s.version = 2 ^ 32 - 5 := by
  refine ⟨⟨_, _, _, rfl, rfl, rfl, rfl, rfl⟩, _, _, rfl, rfl, rfl⟩

end MultiTree

/-- What an empty file of metadata decodes to: no field is set. -/
def emptyMetadata : MultiTreeMetadata := ⟨none, 0⟩

inductive InitStep
  | mkdirAll (dir : Name)
  | truncateMetadata (dir : Name)
  | writeMetadata (dir : Name) (metadata : MultiTreeMetadata)
  | link (step : FsStep)
deriving DecidableEq

def Directory.setMetadata {P : Type} (d : Directory P) (dir : Name) (metadata : MultiTreeMetadata) :
    Option (Directory P) :=
  (d.get dir).map fun content => d.put dir { content with metadata := some metadata }

def InitStep.apply {P : Type} (d : Directory P) : InitStep → Option (Directory P)
  | .mkdirAll dir => some (if (d.get dir).isSome then d else d.put dir .empty)
  | .truncateMetadata dir => d.setMetadata dir emptyMetadata
  | .writeMetadata dir metadata => d.setMetadata dir metadata
  | .link step => step.apply d

def runInit {P : Type} (steps : List InitStep) (d : Directory P) : Option (Directory P) :=
  steps.foldlM InitStep.apply d

/-- `initEmptyDB`. The snapshot has no trees, and its metadata is written by `WriteFileSync`, which
truncates a file that is there. -/
def initEmptySteps (initialVersion : Nat) : List InitStep :=
  let tmp := MultiTree.newEmptyMultiTree initialVersion
  let snapshotDir := snapshotName 0
  [.mkdirAll snapshotDir, .truncateMetadata snapshotDir,
    .writeMetadata snapshotDir ⟨some tmp.lastCommitInfo, tmp.initialVersion⟩,
    .link (.symlink snapshotDir), .link .renameLink]

namespace DB

def setInitialVersion (db : DB) (initialVersion : Int) : Update InitialVersionError DB :=
  if db.readOnly then .error ⟨.readOnly, db⟩
  else if db.mtree.lastCommitInfo.version > 0 then .error ⟨.committed, db⟩
  else
    match db.mtree.setInitialVersionChecked initialVersion with
    | .error f => .error ⟨f.error, { db with mtree := f.state }⟩
    | .ok mtree => .ok { db with mtree := mtree }

def setInitialVersionSteps (db : DB) (initialVersion : Int) : List InitStep :=
  match db.setInitialVersion initialVersion with
  | .error _ => []
  | .ok db => initEmptySteps db.mtree.initialVersion

end DB

namespace Directory

variable {P : Type}

def genesis (initialVersion : Nat) : MultiTreeDir :=
  (MultiTree.newEmptyMultiTree initialVersion).writeSnapshot .empty

/-- A database without commits, when it is open: the link leads to the first snapshot, and the log is
empty. Other directories may be there, as one that a failed rewrite has left. -/
structure Uncommitted (d : Directory P) (initialVersion : Nat) : Prop where
  current : d.current = some (snapshotName 0)
  currentTmp : d.currentTmp = none
  snapshot : d.get (snapshotName 0) = some (genesis initialVersion)
  wal : d.wal = .empty
  inRange : initialVersion ≤ maxUint32

def blank : Directory P := ⟨none, none, [], .nil, .empty⟩

def LoadsEmpty [Sha256] [WALCodec P] (d : Directory P) (old new : Nat) : Prop :=
  ∀ opts : Options, opts.targetVersion = 0 → (opts.readOnly && opts.loadForOverwriting) = false →
    ∃ m d', d.load opts = .ok (m, d') ∧ m.version = 0 ∧
      (m.initialVersion = old ∨ m.initialVersion = new)

section Loading

variable [Sha256] [WALCodec P] {d : Directory P}

theorem catchupWAL_empty (m : MultiTree) (hversion : m.version = 0) (hiv : m.initialVersion ≤ maxUint32) :
    m.catchupWAL (IndexedLog.empty : IndexedLog P) 0 = .ok m := by
  have hfirst : walIndex (nextVersion m.version m.initialVersion) m.initialVersion > 0 := by
    unfold walIndex nextVersion maxUint32 at *
    rw [hversion]
    split_ifs <;> omega
  rw [MultiTree.catchupWAL, if_neg (by decide)]
  exact if_pos hfirst

omit [WALCodec P] in
theorem openTrees_genesis {iv : Nat} (hiv : iv ≤ maxUint32)
    (hget : d.get (snapshotName 0) = some (genesis iv)) :
    ∃ m, d.openTrees (snapshotName 0) = .ok m ∧ m.version = 0 ∧ m.initialVersion = iv := by
  let t := MultiTree.newEmptyMultiTree iv
  have hmeta : readMetadata (genesis iv) = .ok (⟨some t.lastCommitInfo, iv⟩, t.lastCommitInfo) :=
    readMetadata_eq_ok.mpr ⟨rfl, rfl, Int.natCast_nonneg _, Int.ofNat_le.mpr hiv⟩
  have htrees := loadedTrees_writeSnapshot (t := t) ⟨.nil, rfl⟩
    (fun _ e he => absurd he not_mem_nil) hiv
  refine ⟨_, openTrees_eq_ok.mpr ⟨_, hget, loadMultiTree_eq_ok_iff.mpr ⟨_, _, hmeta, htrees.symm, rfl⟩⟩,
    rfl, rfl⟩

theorem loadsEmpty_of_genesis {iv old new : Nat} (hc : d.current = some (snapshotName 0))
    (hget : d.get (snapshotName 0) = some (genesis iv)) (hwal : d.wal = .empty) (hiv : iv ≤ maxUint32)
    (heq : iv = old ∨ iv = new) : d.LoadsEmpty old new := by
  intro opts hopts hvalid
  obtain ⟨m, hopen, hversion, hinit⟩ := openTrees_genesis hiv hget
  refine ⟨m, if opts.readOnly then d else d.clean, ?_, hversion, by rwa [hinit]⟩
  rw [load_untargeted hc (isTmpName_snapshotName 0) hopts hvalid, hopen, hwal]
  simp only [catchupWAL_empty m hversion (hinit ▸ hiv)]

/-- An empty file of metadata makes every `Load` follow a nil pointer. -/
theorem load_truncated {content : MultiTreeDir} (hc : d.current = some (snapshotName 0))
    (hget : d.get (snapshotName 0) = some content) (hmeta : content.metadata = some emptyMetadata)
    {opts : Options} (hopts : opts.targetVersion = 0)
    (hvalid : (opts.readOnly && opts.loadForOverwriting) = false) :
    d.load opts = .error (.mtree .panic) := by
  have hopen : d.openTrees (snapshotName 0) = .error (.mtree .panic) := by
    rw [openTrees, hget]
    simp [loadMultiTree, readMetadata, hmeta, emptyMetadata, Except.mapError]
  rw [load_untargeted hc (isTmpName_snapshotName 0) hopts hvalid, hopen]

end Loading

section Crash

variable {d : Directory P} {old new : Nat}

def truncated (d : Directory P) : Directory P :=
  d.put (snapshotName 0) ⟨some emptyMetadata, [], MultiTreeDir.empty.sorted⟩

def rewritten (d : Directory P) (new : Nat) : Directory P := d.truncated.put (snapshotName 0) (genesis new)

/-- The directory at each crash point, by the number of steps that were made. The first one finds the
directory of the snapshot or makes it. -/
def crashed (d : Directory P) (new : Nat) : Nat → Directory P
  | 0 | 1 => d
  | 2 => d.truncated
  | 3 => d.rewritten new
  | 4 => { d.rewritten new with currentTmp := some (snapshotName 0) }
  | _ => { d.rewritten new with current := some (snapshotName 0), currentTmp := none }

variable {k : Nat}

theorem runInit_crashed {d1 : Directory P} (hmkdir : InitStep.apply d (.mkdirAll (snapshotName 0)) = some d1)
    (htmp : d1.currentTmp = none) {content : MultiTreeDir} (hget : d1.get (snapshotName 0) = some content)
    (htrees : content.trees = []) (new : Nat) (hpos : 0 < k) (hk : k ≤ 5) :
    runInit ((initEmptySteps new).take k) d = some (d1.crashed new k) := by
  have hset : ∀ metadata, d1.setMetadata (snapshotName 0) metadata =
      some (d1.put (snapshotName 0) ⟨some metadata, [], .nil⟩) := by
    intro metadata
    obtain ⟨_, trees, _⟩ := content
    subst htrees
    rw [setMetadata, hget]
    rfl
  have hwrite : InitStep.apply d1.truncated (.writeMetadata (snapshotName 0) ⟨some ⟨0, []⟩, new⟩) =
      some (d1.rewritten new) := by
    rw [InitStep.apply, setMetadata, truncated, get_put_self]
    rfl
  have htruncate : InitStep.apply d1 (.truncateMetadata (snapshotName 0)) = some d1.truncated := hset _
  have hlink : InitStep.apply (d1.rewritten new) (.link (.symlink (snapshotName 0))) =
      some (d1.crashed new 4) := by
    rw [InitStep.apply, FsStep.apply, show (d1.rewritten new).currentTmp = none from htmp]
    rfl
  have hmove : InitStep.apply (d1.crashed new 4) (.link .renameLink) = some (d1.crashed new 5) := rfl
  have hsteps : initEmptySteps new = [.mkdirAll (snapshotName 0), .truncateMetadata (snapshotName 0),
    .writeMetadata (snapshotName 0) ⟨some ⟨0, []⟩, new⟩, .link (.symlink (snapshotName 0)),
    .link .renameLink] := rfl
  rw [hsteps]
  unfold runInit
  interval_cases k
  · simp [hmkdir, crashed]
  · simp [hmkdir, htruncate, crashed]
  · simp [hmkdir, htruncate, hwrite, crashed]
  · simp [hmkdir, htruncate, hwrite, hlink]
  · simp [hmkdir, htruncate, hwrite, hlink, hmove]

theorem Uncommitted.runInit_take (h : d.Uncommitted old) (new : Nat) (hk : k ≤ 5) :
    runInit ((initEmptySteps new).take k) d = some (d.crashed new k) := by
  have hmkdir : InitStep.apply d (.mkdirAll (snapshotName 0)) = some d := by
    rw [InitStep.apply, h.snapshot]
    rfl
  rcases Nat.eq_zero_or_pos k with rfl | hpos
  · rfl
  · exact runInit_crashed hmkdir h.currentTmp h.snapshot rfl new hpos hk

theorem uncommitted_initEmpty {iv : Nat} (hiv : iv ≤ maxUint32) :
    ∃ d : Directory P, runInit (initEmptySteps iv) .blank = some d ∧ d.Uncommitted iv := by
  have hmkdir : InitStep.apply (blank : Directory P) (.mkdirAll (snapshotName 0)) =
      some (blank.put (snapshotName 0) .empty) := rfl
  have hrun := runInit_crashed hmkdir rfl get_put_self rfl iv (k := 5) (by decide) le_rfl
  exact ⟨_, hrun, rfl, rfl, get_put_self, rfl, hiv⟩

variable [Sha256] [WALCodec P]

/-- A crash leaves a directory that loads with the old or the new initial version, unless it comes
between the truncation and the write of the metadata. -/
theorem Uncommitted.loadsEmpty_iff (h : d.Uncommitted old) (hnew : new ≤ maxUint32) (hk : k ≤ 5) :
    (∃ d', runInit ((initEmptySteps new).take k) d = some d' ∧ d'.LoadsEmpty old new) ↔ k ≠ 2 := by
  rw [h.runInit_take new hk]
  simp only [Option.some.injEq, exists_eq_left']
  have hold : ∀ d' : Directory P, d'.current = some (snapshotName 0) →
      d'.get (snapshotName 0) = some (genesis old) → d'.wal = .empty → d'.LoadsEmpty old new :=
    fun d' hc hget hwal => loadsEmpty_of_genesis hc hget hwal h.inRange (.inl rfl)
  have hrewritten : ∀ d' : Directory P, d'.current = some (snapshotName 0) →
      d'.dirs = (d.rewritten new).dirs → d'.wal = d.wal → d'.LoadsEmpty old new := by
    intro d' hc hdirs hwal
    have hget : d'.get (snapshotName 0) = some (genesis new) := by
      rw [get, hdirs]
      exact get_put_self
    exact loadsEmpty_of_genesis hc hget (hwal.trans h.wal) hnew (.inr rfl)
  interval_cases k
  · exact iff_of_true (hold d h.current h.snapshot h.wal) (by decide)
  · exact iff_of_true (hold d h.current h.snapshot h.wal) (by decide)
  · refine iff_of_false (fun hload => ?_) (by decide)
    obtain ⟨m, d', hok, -⟩ := hload ⟨0, false, false⟩ rfl rfl
    cases (load_truncated (d := d.truncated) h.current get_put_self rfl rfl rfl).symm.trans hok
  · exact iff_of_true (hrewritten _ h.current rfl rfl) (by decide)
  · exact iff_of_true (hrewritten _ h.current rfl rfl) (by decide)
  · exact iff_of_true (hrewritten _ rfl rfl rfl) (by decide)

end Crash

end Directory

namespace DB

theorem setInitialVersion_ok {db db' : DB} {a : Int} (h : db.setInitialVersion a = .ok db') :
    db'.mtree.initialVersion = (a % 2 ^ 32).toNat := by
  unfold setInitialVersion at h
  split_ifs at h
  split at h
  · cases h
  · rename_i m hm
    cases h
    obtain ⟨-, -, rfl⟩ := MultiTree.setInitialVersionChecked_ok hm
    exact MultiTree.initialVersion_setInitialVersion _ _

/-- `SetInitialVersion` of a database without commits is crash safe at every crash point but the one
between the truncation and the write of the metadata. -/
theorem crash_safe_iff {P : Type} [Sha256] [WALCodec P] {d : Directory P} {db : DB} {a : Int}
    (hd : d.Uncommitted db.mtree.initialVersion) {k : Nat} (hk : k ≤ (db.setInitialVersionSteps a).length) :
    (∃ d', runInit ((db.setInitialVersionSteps a).take k) d = some d' ∧
      d'.LoadsEmpty db.mtree.initialVersion (stateAfter (db.setInitialVersion a)).mtree.initialVersion) ↔
    k ≠ 2 := by
  unfold setInitialVersionSteps at hk ⊢
  cases h : db.setInitialVersion a with
  | error f =>
    simp only [h, length_nil, Nat.le_zero] at hk
    subst hk
    refine iff_of_true ⟨d, rfl, ?_⟩ (by decide)
    exact Directory.loadsEmpty_of_genesis hd.current hd.snapshot hd.wal hd.inRange (.inl rfl)
  | ok db' =>
    rw [h] at hk
    refine hd.loadsEmpty_iff ?_ hk
    have hbits := setInitialVersion_ok h
    show db'.mtree.initialVersion ≤ maxUint32
    rw [hbits, maxUint32]
    omega

theorem crash_safe_new_database :
    letI := Sha256.zero
    ∃ d : Directory WALEntry, runInit (initEmptySteps 0) .blank = some d ∧
      ((∃ d', runInit (((DB.new (.newEmptyMultiTree 0) false).setInitialVersionSteps 5).take 4) d = some d' ∧
        d'.LoadsEmpty 0 5) ↔ 4 ≠ 2) := by
  obtain ⟨d, hd, huncommitted⟩ := @Directory.uncommitted_initEmpty WALEntry 0 (by decide)
  let db := DB.new (.newEmptyMultiTree 0) false
  have hd0 : d.Uncommitted db.mtree.initialVersion := huncommitted
  exact ⟨d, hd, @crash_safe_iff _ Sha256.zero _ d db 5 hd0 4 (by decide)⟩

/-- A new database whose metadata was truncated and not written makes `Load` panic. -/
theorem exists_crash_panics :
    letI := Sha256.zero
    ∃ d d' : Directory WALEntry, runInit (initEmptySteps 0) .blank = some d ∧
      runInit (((DB.new (.newEmptyMultiTree 0) false).setInitialVersionSteps 5).take 2) d = some d' ∧
      d'.load ⟨0, false, false⟩ = .error (.mtree .panic) := by
  exact ⟨_, _, rfl, rfl, rfl⟩

end DB

end CronosStore.Memiavl
