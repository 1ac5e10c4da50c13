import CronosStore.Memiavl.OpenBlock
import CronosStore.Memiavl.RoundTrip

/-!
# A snapshot file by file

`RewriteSnapshotWithContext` down to the files: the writers of the trees run side by side in
the temporary directory and may fail or be canceled at any point; if all of them succeed the
metadata file follows, and the directory is renamed and linked. Here the directories of a
disk hold files, whole or in part.

A writer that has come to its end has left the files of its tree (`Tree.snapshotDir`), and
only then the rest happens. So up to the renaming nothing but the temporary directory
changes, and from there on every step is one of `Process` (`Follows`): wherever the steps end,
the database can be loaded as it was committed, and the link leads to whole snapshots
(`rewrite_crash_atomic`).
-/

namespace CronosStore.Memiavl

open Foundation List SortedAssoc Directory

namespace SnapshotDir

def none : SnapshotDir := ⟨.none, .none, .none, .none⟩

def file (dir : SnapshotDir) : SnapshotFile → Option Bytes
  | .metadata => dir.metadata
  | .nodes => dir.nodes
  | .leaves => dir.leaves
  | .kvs => dir.kvs

def setFile (dir : SnapshotDir) (file : SnapshotFile) (content : Bytes) : SnapshotDir :=
  match file with
  | .metadata => { dir with metadata := some content }
  | .nodes => { dir with nodes := some content }
  | .leaves => { dir with leaves := some content }
  | .kvs => { dir with kvs := some content }

end SnapshotDir

structure SnapshotFiles where
  metadata : Option (Option MultiTreeMetadata)
  trees : List (Name × SnapshotDir)
  sorted : SortedAssoc.Sorted trees

namespace SnapshotFiles

def empty : SnapshotFiles := ⟨none, [], List.Pairwise.nil⟩

def isEmpty (files : SnapshotFiles) : Bool := files.metadata.isNone && files.trees.isEmpty

def tree (files : SnapshotFiles) (name : Name) : Option SnapshotDir := files.trees.lookup name

def setTree (files : SnapshotFiles) (name : Name) (dir : SnapshotDir) : SnapshotFiles where
  metadata := files.metadata
  trees := SortedAssoc.insert name dir files.trees
  sorted := sorted_insert files.sorted

structure Complete [Sha256] (files : SnapshotFiles) (t : MultiTree) : Prop where
  metadata : files.metadata = some (some ⟨some t.lastCommitInfo, t.initialVersion⟩)
  trees : files.trees = t.trees.map fun entry => (entry.name, entry.tree.snapshotDir)

end SnapshotFiles

/-- A directory down to its files. -/
structure Disk (P : Type) where
  current : Option Name
  currentTmp : Option Name
  dirs : List (Name × SnapshotFiles)
  sorted : SortedAssoc.Sorted dirs
  wal : IndexedLog P

namespace Disk

variable {P : Type}

def get (D : Disk P) (name : Name) : Option SnapshotFiles := D.dirs.lookup name

def put (D : Disk P) (name : Name) (files : SnapshotFiles) : Disk P :=
  { D with
    dirs := SortedAssoc.insert name files D.dirs
    sorted := sorted_insert D.sorted }

def removeAll (D : Disk P) (name : Name) : Disk P :=
  { D with
    dirs := SortedAssoc.erase name D.dirs
    sorted := sorted_erase D.sorted }

def rename (D : Disk P) (old new : Name) : Option (Disk P) :=
  match D.get old with
  | none => none
  | some files =>
    match D.get new with
    | none => some ((D.removeAll old).put new files)
    | some other => if other.isEmpty then some ((D.removeAll old).put new files) else none

variable {D : Disk P} {name name' : Name} {files : SnapshotFiles}

theorem get_put_self : (D.put name files).get name = some files :=
  lookup_insert_self D.sorted

theorem get_put_of_ne (h : name' ≠ name) : (D.put name files).get name' = D.get name' :=
  lookup_insert_of_ne D.sorted h

theorem get_removeAll_of_ne (h : name' ≠ name) : (D.removeAll name).get name' = D.get name' :=
  lookup_erase_of_ne D.sorted h

end Disk

/-! ## What the files stand for -/

section Shows

variable {P : Type} [Sha256]

def MultiTreeDir.files (dir : MultiTreeDir) : SnapshotFiles where
  metadata := dir.metadata.map some
  trees := dir.trees.map fun entry => (entry.1, entry.2.snapshotDir)
  sorted := sorted_map _ dir.sorted

def Directory.disk (d : Directory P) : Disk P where
  current := d.current
  currentTmp := d.currentTmp
  dirs := d.dirs.map fun entry => (entry.1, entry.2.files)
  sorted := sorted_map _ d.sorted
  wal := d.wal

structure Disk.Shows (D : Disk P) (d : Directory P) : Prop where
  current : D.current = d.current
  currentTmp : D.currentTmp = d.currentTmp
  wal : D.wal = d.wal
  dirs : ∀ name, isTmpName name = false → D.get name = (d.get name).map MultiTreeDir.files

/-- `Load` as in `Directory.load`, which looks at no file of a temporary directory. -/
def Disk.Loads [WALCodec P] (D : Disk P) (m : MultiTree) : Prop :=
  ∃ d d', D.Shows d ∧ d.load ⟨0, false, false⟩ = .ok (m, d')

theorem Directory.get_disk (d : Directory P) (name : Name) :
    d.disk.get name = (d.get name).map MultiTreeDir.files :=
  lookup_map MultiTreeDir.files d.dirs name

theorem Directory.disk_shows (d : Directory P) : d.disk.Shows d :=
  ⟨rfl, rfl, rfl, fun name _ => d.get_disk name⟩

theorem MultiTree.Indexed.files_writeSnapshot {t : MultiTree} (ht : t.Indexed) :
    (t.writeSnapshot .empty).files.Complete t where
  metadata := rfl
  trees := by
    have hdir : (t.writeSnapshot .empty).trees = t.trees.map fun e => (e.name, e.tree) :=
      MultiTree.foldl_writeTree ht.sorted fun p hp => absurd hp not_mem_nil
    simp only [MultiTreeDir.files, hdir, map_map]
    rfl

end Shows

/-! ## The steps of a rewrite -/

inductive TreeWriter
  | waiting
  | running (created : Nat)
  | done
  | failed
deriving DecidableEq

def fileOrder : List SnapshotFile := [.nodes, .leaves, .kvs, .metadata]

inductive RewriteStage
  | create
  | trees
  | metadata
  | fill
  | sync
  | rename
  | symlink
  | link
  /-- After an error the temporary directory is removed. -/
  | removing
  | ended
deriving DecidableEq

/-- A rewrite under way. -/
structure Rewriting (P : Type) where
  mtree : MultiTree
  disk : Disk P
  writers : List TreeWriter
  canceled : Bool
  stage : RewriteStage

inductive RewriteStep
  | mkdir
  /-- A worker takes up the tree at the position `i`. -/
  | start (i : Nat)
  | createFile (i : Nat)
  | append (i : Nat) (file : SnapshotFile) (n : Nat)
  | finish (i : Nat)
  | fail (i : Nat)
  | cancel
  | wait
  | createMetadata
  | fillMetadata
  | sync
  | rename
  | symlink
  | link
  | error
  /-- `os.RemoveAll` has come so far that `left` is left of the directory. -/
  | remove (left : Option SnapshotFiles)

namespace Rewriting

variable {P : Type}

section

variable (r : Rewriting P)

def name : Name := snapshotName r.mtree.version

def tmpName : Name := r.name ++ tmpSuffix

def treeDir (name : Name) : SnapshotDir :=
  ((r.disk.get r.tmpName).bind fun files => files.tree name).getD .none

def edit (f : SnapshotFiles → SnapshotFiles) : Rewriting P :=
  { r with disk := r.disk.put r.tmpName (f ((r.disk.get r.tmpName).getD .empty)) }

def editTree (i : Nat) (writer : TreeWriter) (name : Name) (dir : SnapshotDir) :
    Rewriting P :=
  { r.edit (fun files => files.setTree name dir) with writers := r.writers.set i writer }

end

variable [Sha256]

def task (r : Rewriting P) (i : Nat) : Option (NamedTree × TreeWriter) :=
  if r.stage = .trees then
    match r.mtree.trees[i]?, r.writers[i]? with
    | some entry, some writer => some (entry, writer)
    | _, _ => none
  else none

def next (r : Rewriting P) : RewriteStep → Option (Rewriting P)
  | .mkdir => if r.stage = .create then some { r.edit id with stage := .trees } else none
  | .start i =>
    match r.task i with
    | some (entry, .waiting) =>
      if r.canceled then some { r with writers := r.writers.set i .failed }
      else some (r.editTree i (.running 0) entry.name (r.treeDir entry.name))
    | _ => none
  | .createFile i =>
    match r.task i with
    | some (entry, .running created) =>
      match fileOrder[created]? with
      | none => none
      | some file =>
        -- the other files are flushed before the metadata file is created
        if file = .metadata ∧ ¬∀ other ∈ fileOrder.take created,
            (r.treeDir entry.name).file other = entry.tree.snapshotDir.file other then none
        else some (r.editTree i (.running (created + 1)) entry.name
          ((r.treeDir entry.name).setFile file []))
    | _ => none
  | .append i file n =>
    match r.task i with
    | some (entry, .running created) =>
      if file ∈ fileOrder.take created then
        let written := ((r.treeDir entry.name).file file).getD []
        let content := (entry.tree.snapshotDir.file file).getD []
        some (r.editTree i (.running created) entry.name
          ((r.treeDir entry.name).setFile file (content.take (written.length + n))))
      else none
    | _ => none
  | .finish i =>
    match r.task i with
    | some (entry, .running _) =>
      if r.treeDir entry.name = entry.tree.snapshotDir then
        some { r with writers := r.writers.set i .done }
      else none
    | _ => none
  | .fail i =>
    match r.task i with
    | some (_, .running _) => some { r with writers := r.writers.set i .failed, canceled := true }
    | _ => none
  | .cancel => some { r with canceled := true }
  | .wait =>
    if r.stage = .trees ∧ ∀ writer ∈ r.writers, writer = .done ∨ writer = .failed then
      if (∀ writer ∈ r.writers, writer = .done) ∧ r.canceled = false then
        some { r with stage := .metadata }
      else some { r with stage := .removing }
    else none
  | .createMetadata =>
    if r.stage = .metadata then
      some { r.edit (fun files => { files with metadata := some none }) with stage := .fill }
    else none
  | .fillMetadata =>
    if r.stage = .fill then
      some { r.edit (fun files => { files with
          metadata := some (some ⟨some r.mtree.lastCommitInfo, r.mtree.initialVersion⟩) }) with
        stage := .sync }
    else none
  | .sync => if r.stage = .sync then some { r with stage := .rename } else none
  | .rename =>
    if r.stage = .rename then
      match r.disk.rename r.tmpName r.name with
      | none => some { r with stage := .ended }
      | some disk => some { r with disk := disk, stage := .symlink }
    else none
  | .symlink =>
    if r.stage = .symlink then
      match r.disk.currentTmp with
      | some _ => some { r with stage := .ended }
      | none => some { r with disk := { r.disk with currentTmp := some r.name }, stage := .link }
    else none
  | .link =>
    if r.stage = .link then
      match r.disk.currentTmp with
      | none => some { r with stage := .ended }
      | some name =>
        some { r with
          disk := { r.disk with current := some name, currentTmp := none }
          stage := .ended }
    else none
  | .error =>
    match r.stage with
    | .create | .metadata | .fill | .sync => some { r with stage := .removing }
    | .rename | .symlink | .link => some { r with stage := .ended }
    | _ => none
  | .remove left =>
    if r.stage = .removing then
      match left with
      | some files => some { r with disk := r.disk.put r.tmpName files }
      | none => some { r with disk := r.disk.removeAll r.tmpName, stage := .ended }
    else none

def start (σ : Process P) : Rewriting P where
  mtree := σ.db.mtree
  disk := σ.dir.disk
  writers := σ.db.mtree.trees.map fun _ => .waiting
  canceled := false
  stage := .create

abbrev Reached (σ : Process P) : Rewriting P → Prop := Runs next (fun _ _ => True) (start σ)

end Rewriting

/-! ## Files and directories -/

namespace SnapshotFiles

variable [Sha256] {files files' : SnapshotFiles} {t : MultiTree}

theorem Complete.unique (h : files.Complete t) (h' : files'.Complete t) : files = files' := by
  obtain ⟨metadata, trees, sorted⟩ := files
  obtain ⟨metadata', trees', sorted'⟩ := files'
  obtain ⟨hm, ht⟩ := h
  obtain ⟨hm', ht'⟩ := h'
  simp only at hm ht hm' ht'
  subst hm ht hm' ht'
  rfl

theorem trees_eq (hi : t.Indexed) (hwithin : ∀ e ∈ files.trees, ∃ entry ∈ t.trees, entry.name = e.1)
    (hall : ∀ entry ∈ t.trees, files.tree entry.name = some entry.tree.snapshotDir) :
    files.trees = t.trees.map fun entry => (entry.name, entry.tree.snapshotDir) := by
  have hsorted : SortedAssoc.Sorted (t.trees.map fun e => (e.name, e.tree.snapshotDir)) :=
    pairwise_map.mpr hi.sorted
  have : Std.Irrefl fun a b : Name × SnapshotDir => a.1 < b.1 := ⟨fun a => lt_irrefl a.1⟩
  refine List.Pairwise.eq_of_mem_iff files.sorted hsorted fun e => ?_
  rw [mem_map]
  constructor
  · intro he
    obtain ⟨entry, hentry, hname⟩ := hwithin e he
    have hlook := (lookup_eq_some_iff files.sorted).mpr he
    have htree := hall entry hentry
    rw [tree, hname, hlook] at htree
    refine ⟨entry, hentry, ?_⟩
    rw [hname, ← Option.some.inj htree]
  · rintro ⟨entry, hentry, rfl⟩
    exact (lookup_eq_some_iff files.sorted).mp (hall entry hentry)

end SnapshotFiles

theorem MultiTreeDir.files_isEmpty [Sha256] (dir : MultiTreeDir) :
    dir.files.isEmpty = true ↔ dir = .empty := by
  constructor
  · intro h
    simp only [SnapshotFiles.isEmpty, MultiTreeDir.files, Bool.and_eq_true, Option.isNone_map,
      Option.isNone_iff_eq_none, List.isEmpty_map, List.isEmpty_iff] at h
    exact MultiTreeDir.ext h.1 h.2
  · rintro rfl
    rfl

theorem ne_of_isTmpName {name name' : Name} (h : isTmpName name = false) (h' : isTmpName name' = true) :
    name ≠ name' := by
  rintro rfl
  rw [h] at h'
  cases h'

namespace Disk.Shows

variable {P : Type} [Sha256] {D D' : Disk P} {d d' : Directory P}

variable {name : Name}

theorem put_tmp (h : D.Shows d) (hname : isTmpName name = true) (files : SnapshotFiles) :
    (D.put name files).Shows d :=
  ⟨h.current, h.currentTmp, h.wal, fun _ hn =>
    (get_put_of_ne (ne_of_isTmpName hn hname)).trans (h.dirs _ hn)⟩

theorem removeAll_tmp (h : D.Shows d) (hname : isTmpName name = true) :
    (D.removeAll name).Shows d :=
  ⟨h.current, h.currentTmp, h.wal, fun _ hn =>
    (get_removeAll_of_ne (ne_of_isTmpName hn hname)).trans (h.dirs _ hn)⟩

theorem put_tmp_right (h : D.Shows d) (hname : isTmpName name = true)
    (content : MultiTreeDir) : D.Shows (d.put name content) :=
  ⟨h.current, h.currentTmp, h.wal, fun n hn => by
    rw [Directory.get_put_of_ne (ne_of_isTmpName hn hname)]
    exact h.dirs n hn⟩

theorem rename (h : D.Shows d) {old new : Name} (hold : isTmpName old = true)
    (hnew : isTmpName new = false) {content : MultiTreeDir} (hd : d.get old = some content)
    (hD : D.get old = some content.files) (hr : D.rename old new = some D') :
    ∃ d', d.rename old new = some d' ∧ D'.Shows d' := by
  have hshows : ((D.removeAll old).put new content.files).Shows ((d.removeAll old).put new content) := by
    refine ⟨h.current, h.currentTmp, h.wal, fun n hn => ?_⟩
    by_cases hne : n = new
    · rw [hne, get_put_self, Directory.get_put_self]
      rfl
    · have hold' := ne_of_isTmpName hn hold
      rw [get_put_of_ne hne, Directory.get_put_of_ne hne, get_removeAll_of_ne hold',
        Directory.get_removeAll_of_ne hold']
      exact h.dirs n hn
  have htarget := h.dirs new hnew
  unfold Disk.rename at hr
  rw [hD] at hr
  simp only [htarget] at hr
  unfold Directory.rename
  rw [hd]
  cases hn : d.get new with
  | none =>
    simp only [hn, Option.map_none, Option.some.injEq] at hr
    exact ⟨_, rfl, hr ▸ hshows⟩
  | some other =>
    simp only [hn, Option.map_some] at hr
    split_ifs at hr with hempty
    refine ⟨_, if_pos ((MultiTreeDir.files_isEmpty other).mp hempty), ?_⟩
    exact Option.some.inj hr ▸ hshows

end Disk.Shows

/-! ## Following a rewrite -/

namespace Process.Run

variable {P : Type} [Sha256] [WALCodec P] {σ0 σ : Process P} {p p' : Publication} {dir : Directory P}

theorem publication_more (h : Run OpenProcess.Publishes σ0 σ) (hfg : σ.foreground = some p)
    (hv : p.mtree.version ≤ maxUint32) (hs : p.step σ.dir = .more p' dir) :
    Run OpenProcess.Publishes σ0 { σ with foreground := some p', dir := dir } := by
  refine h.step (a := .foregroundStep) ⟨nofun, ?_⟩ ?_
  · intro q hq
    cases hfg.symm.trans hq
    exact hv
  · simp [Process.step, Process.foregroundStep, hfg, hs]

theorem publication_done (h : Run OpenProcess.Publishes σ0 σ) (hfg : σ.foreground = some p)
    (hv : p.mtree.version ≤ maxUint32) (hs : p.step σ.dir = .done dir) :
    Run OpenProcess.Publishes σ0 { σ with foreground := none, dir := dir } := by
  refine h.step (a := .foregroundStep) ⟨nofun, ?_⟩ ?_
  · intro q hq
    cases hfg.symm.trans hq
    exact hv
  · simp [Process.step, Process.foregroundStep, hfg, hs]

end Process.Run

namespace Rewriting

variable {P : Type} {r r' : Rewriting P} {files : SnapshotFiles}

theorem isTmpName_tmpName (r : Rewriting P) : isTmpName r.tmpName = true := isTmpName_tmp _

variable {i : Nat} {entry : NamedTree} {writer : TreeWriter} {σ : Process P}

theorem task_eq_some (h : r.task i = some (entry, writer)) :
    r.stage = .trees ∧ r.mtree.trees[i]? = some entry ∧ r.writers[i]? = some writer := by
  unfold task at h
  split_ifs at h with hstage
  split at h
  · cases h
    exact ⟨hstage, ‹_›, ‹_›⟩
  · cases h

variable [Sha256]

structure Filling (r : Rewriting P) (files : SnapshotFiles) : Prop where
  get : r.disk.get r.tmpName = some files
  within : ∀ e ∈ files.trees, ∃ entry ∈ r.mtree.trees, entry.name = e.1
  length : r.writers.length = r.mtree.trees.length
  done : ∀ (i : Nat) (entry : NamedTree), r.mtree.trees[i]? = some entry → r.writers[i]? = some .done →
    files.tree entry.name = some entry.tree.snapshotDir

section

variable (h : r.Filling files)
include h

theorem Filling.editTree (hi : r.mtree.Indexed)
    (hentry : r.mtree.trees[i]? = some entry) (created : Nat) (dir : SnapshotDir) :
    (r.editTree i (.running created) entry.name dir).Filling (files.setTree entry.name dir) where
  get := by
    have hget : (r.edit fun files => files.setTree entry.name dir).disk.get r.tmpName =
        some (((r.disk.get r.tmpName).getD .empty).setTree entry.name dir) := Disk.get_put_self
    rw [h.get] at hget
    exact hget
  within e he := by
    rcases (mem_insert files.sorted).mp he with rfl | ⟨he, -⟩
    · exact ⟨entry, mem_of_getElem? hentry, rfl⟩
    · exact h.within e he
  length := by
    show (r.writers.set i (.running created)).length = _
    rw [length_set]
    exact h.length
  done j other hother hdone := by
    have hdone' : (r.writers.set i (.running created))[j]? = some .done := hdone
    have hij : j ≠ i := by
      rintro rfl
      rw [getElem?_set_self'] at hdone'
      obtain ⟨w, -, hw⟩ := Option.map_eq_some_iff.mp hdone'
      cases hw
    rw [getElem?_set_ne (Ne.symm hij)] at hdone'
    have hne : other.name ≠ entry.name := by
      intro heq
      have hnodup : (r.mtree.trees.map NamedTree.name).Nodup :=
        (pairwise_map.mpr hi.sorted).imp ne_of_lt
      have hj : j < (r.mtree.trees.map NamedTree.name).length := by
        rw [length_map]
        exact (List.getElem?_eq_some_iff.mp hother).1
      refine hij ((getElem?_inj hj hnodup).mp ?_)
      rw [getElem?_map, getElem?_map, hentry]
      have hother' : r.mtree.trees[j]? = some other := hother
      rw [hother', Option.map_some, Option.map_some, heq]
    exact (lookup_insert_of_ne files.sorted hne).trans (h.done j other hother hdone')

theorem Filling.setWriter {canceled : Bool}
    (hw : ∀ entry, r.mtree.trees[i]? = some entry → writer = .done →
      files.tree entry.name = some entry.tree.snapshotDir) :
    Filling { r with writers := r.writers.set i writer, canceled := canceled } files where
  get := h.get
  within := h.within
  length := by
    show (r.writers.set i writer).length = _
    rw [length_set]
    exact h.length
  done j other hother hdone := by
    have hdone' : (r.writers.set i writer)[j]? = some .done := hdone
    by_cases hij : j = i
    · subst hij
      rw [getElem?_set_self'] at hdone'
      obtain ⟨w, -, hw'⟩ := Option.map_eq_some_iff.mp hdone'
      exact hw other hother hw'
    · rw [getElem?_set_ne (Ne.symm hij)] at hdone'
      exact h.done j other hother hdone'

theorem Filling.treeDir_eq (heq : r.treeDir entry.name = entry.tree.snapshotDir) :
    files.tree entry.name = some entry.tree.snapshotDir := by
  unfold treeDir at heq
  rw [h.get, Option.bind_some] at heq
  cases htree : files.tree entry.name with
  | none =>
    rw [htree] at heq
    cases heq
  | some dir =>
    rw [htree] at heq
    exact congrArg some heq

theorem Filling.trees_eq (hi : r.mtree.Indexed)
    (hall : ∀ writer ∈ r.writers, writer = .done) :
    files.trees = r.mtree.trees.map fun entry => (entry.name, entry.tree.snapshotDir) := by
  refine SnapshotFiles.trees_eq hi h.within fun entry hentry => ?_
  obtain ⟨i, hi⟩ := mem_iff_getElem?.mp hentry
  have hlt : i < r.writers.length := by
    rw [h.length]
    exact (List.getElem?_eq_some_iff.mp hi).1
  refine h.done i entry hi ?_
  rw [getElem?_eq_getElem hlt, hall _ (getElem_mem hlt)]

end

def At (r : Rewriting P) (σ : Process P) : Prop :=
  match r.stage with
  | .create => σ.foreground = some ⟨r.mtree, .write⟩ ∧
    r.writers = r.mtree.trees.map (fun _ => .waiting) ∧
    ∀ files, r.disk.get r.tmpName = some files → files.Complete r.mtree
  | .trees => σ.foreground = some ⟨r.mtree, .write⟩ ∧ ∃ files, r.Filling files
  | .metadata | .fill => σ.foreground = some ⟨r.mtree, .write⟩ ∧
    ∃ files, r.disk.get r.tmpName = some files ∧
      files.trees = r.mtree.trees.map fun entry => (entry.name, entry.tree.snapshotDir)
  | .sync => σ.foreground = some ⟨r.mtree, .write⟩ ∧
    ∃ files, r.disk.get r.tmpName = some files ∧ files.Complete r.mtree
  | .rename => σ.foreground = some ⟨r.mtree, .rename⟩ ∧
    r.disk.get r.tmpName = some (r.mtree.writeSnapshot .empty).files ∧
    σ.dir.get r.tmpName = some (r.mtree.writeSnapshot .empty)
  | .symlink => σ.foreground = some ⟨r.mtree, .symlink⟩
  | .link => σ.foreground = some ⟨r.mtree, .link⟩
  | .removing | .ended => True

theorem at_trees (hstage : r.stage = .trees) :
    r.At σ ↔ σ.foreground = some ⟨r.mtree, .write⟩ ∧ ∃ files, r.Filling files := by
  rw [At, hstage]

theorem at_removing (hstage : r.stage = .removing) : r.At σ := by
  rw [At, hstage]
  trivial

theorem at_canceled (h : r.At σ) : At { r with canceled := true } σ := by
  by_cases hstage : r.stage = .trees
  · obtain ⟨hfg, files, hfill⟩ := (at_trees hstage).mp h
    exact (at_trees (r := { r with canceled := true }) hstage).mpr
      ⟨hfg, files, hfill.get, hfill.within, hfill.length, hfill.done⟩
  · obtain ⟨mtree, disk, writers, canceled, stage⟩ := r
    cases stage with
    | trees => exact absurd rfl hstage
    | _ => exact h

variable [WALCodec P]

structure Follows (σ0 σ : Process P) (r : Rewriting P) (σ' : Process P) : Prop where
  run : Process.Run OpenProcess.Publishes σ0 σ'
  history : σ'.history = σ.history
  db : σ'.db = σ.db
  batch : σ'.batch = σ.batch
  walChan : σ'.walChan = σ.walChan
  mtree : r.mtree = σ.db.mtree
  shows : r.disk.Shows σ'.dir
  at_ : r.At σ'

variable {σ0 σ σ' : Process P}

section

variable (h : Follows σ0 σ r σ')
include h

theorem Follows.inTmp (hm : r'.mtree = r.mtree)
    (hshows : r'.disk.Shows σ'.dir) (hat : r'.At σ') : Follows σ0 σ r' σ' :=
  { h with mtree := hm.trans h.mtree, shows := hshows, at_ := hat }

theorem Follows.filling (hstage : r.stage = .trees) :
    σ'.foreground = some ⟨r.mtree, .write⟩ ∧ ∃ files, r.Filling files :=
  (at_trees hstage).mp h.at_

theorem Follows.editTree (hi : r.mtree.Indexed)
    (htask : r.task i = some (entry, writer)) (created : Nat)
    (dir : SnapshotDir) : Follows σ0 σ (r.editTree i (.running created) entry.name dir) σ' := by
  obtain ⟨hstage, hentry, -⟩ := task_eq_some htask
  obtain ⟨hfg, files, hfill⟩ := h.filling hstage
  refine h.inTmp rfl (h.shows.put_tmp r.isTmpName_tmpName _) ?_
  exact (at_trees (r := r.editTree i _ _ _) hstage).mpr ⟨hfg, _, hfill.editTree hi hentry created dir⟩

theorem Follows.setWriter
    {writer' : TreeWriter} (htask : r.task i = some (entry, writer)) {canceled : Bool}
    (hw : writer' = .done → r.treeDir entry.name = entry.tree.snapshotDir) :
    Follows σ0 σ { r with writers := r.writers.set i writer', canceled := canceled } σ' := by
  obtain ⟨hstage, hentry, -⟩ := task_eq_some htask
  obtain ⟨hfg, files, hfill⟩ := h.filling hstage
  refine h.inTmp rfl h.shows ?_
  have hfill' : Filling { r with writers := r.writers.set i writer', canceled := canceled } files :=
    hfill.setWriter fun other hother hdone => by
      cases hentry.symm.trans hother
      exact hfill.treeDir_eq (hw hdone)
  exact (at_trees (r := { r with writers := r.writers.set i writer', canceled := canceled })
    hstage).mpr ⟨hfg, files, hfill'⟩

theorem Follows.task_step (hi : r.mtree.Indexed) {step : RewriteStep}
    (hstep : step = .start i ∨ step = .createFile i ∨ (∃ file n, step = .append i file n) ∨
      step = .finish i ∨ step = .fail i) (hs : r.next step = some r') : Follows σ0 σ r' σ' := by
  rcases hstep with rfl | rfl | ⟨file, n, rfl⟩ | rfl | rfl
  · simp only [next] at hs
    split at hs
    · rename_i entry htask
      split_ifs at hs with hcancel
      · cases hs
        exact h.setWriter htask nofun
      · cases hs
        exact h.editTree hi htask _ _
    · cases hs
  · simp only [next] at hs
    split at hs
    · rename_i entry created htask
      split at hs
      · cases hs
      · split_ifs at hs
        cases hs
        exact h.editTree hi htask _ _
    · cases hs
  · simp only [next] at hs
    split at hs
    · rename_i entry created htask
      split_ifs at hs
      cases hs
      exact h.editTree hi htask _ _
    · cases hs
  · simp only [next] at hs
    split at hs
    · rename_i entry created htask
      split_ifs at hs with heq
      cases hs
      exact h.setWriter htask fun _ => heq
    · cases hs
  · simp only [next] at hs
    split at hs
    · rename_i entry created htask
      cases hs
      exact h.setWriter htask nofun
    · cases hs

end

structure Sane (σ : Process P) (m : MultiTree) : Prop where
  indexed : m.Indexed
  version_le : m.version ≤ maxUint32
  leftover : ∀ content, σ.dir.get (snapshotName m.version ++ tmpSuffix) = some content →
    content = m.writeSnapshot .empty

section

variable (h : Follows σ0 σ r σ')
include h

section

variable (hs : Sane σ' r.mtree)
include hs

theorem Follows.sync (hstage : r.stage = .sync) :
    ∃ σ'', Follows σ0 σ { r with stage := .rename } σ'' := by
  have hat := h.at_
  rw [At, hstage] at hat
  obtain ⟨hfg, files, hget, hcomplete⟩ := hat
  have hwrite : r.mtree.writeSnapshot ((σ'.dir.get r.tmpName).getD .empty) =
      r.mtree.writeSnapshot .empty := by
    cases hc : σ'.dir.get r.tmpName with
    | none => rfl
    | some content =>
      rw [hs.leftover content hc]
      exact hs.indexed.writeSnapshot_idem
  have hstep : Publication.step ⟨r.mtree, .write⟩ σ'.dir = .more ⟨r.mtree, .rename⟩
      (σ'.dir.put r.tmpName (r.mtree.writeSnapshot .empty)) := by
    rw [← hwrite]
    rfl
  refine ⟨_, h.run.publication_more hfg hs.version_le hstep, h.history, h.db, h.batch, h.walChan,
    h.mtree, h.shows.put_tmp_right r.isTmpName_tmpName _, rfl, ?_, get_put_self⟩
  rw [← hcomplete.unique hs.indexed.files_writeSnapshot]
  exact hget

theorem Follows.rename (hstage : r.stage = .rename)
    {disk : Disk P} (hr : r.disk.rename r.tmpName r.name = some disk) :
    ∃ σ'', Follows σ0 σ { r with disk := disk, stage := .symlink } σ'' := by
  have hat := h.at_
  rw [At, hstage] at hat
  obtain ⟨hfg, hdisk, hdir⟩ := hat
  obtain ⟨d', hd', hshows⟩ := h.shows.rename r.isTmpName_tmpName (isTmpName_snapshotName _) hdir
    hdisk hr
  have hstep : Publication.step ⟨r.mtree, .rename⟩ σ'.dir = .more ⟨r.mtree, .symlink⟩ d' := by
    have hd'' : σ'.dir.rename (Publication.tmpName ⟨r.mtree, .rename⟩)
        (Publication.name ⟨r.mtree, .rename⟩) = some d' := hd'
    simp only [Publication.step, hd'']
  exact ⟨_, h.run.publication_more hfg hs.version_le hstep, h.history, h.db, h.batch, h.walChan,
    h.mtree, hshows, rfl⟩

theorem Follows.symlink (hstage : r.stage = .symlink)
    (hnone : r.disk.currentTmp = none) :
    ∃ σ'', Follows σ0 σ
      { r with disk := { r.disk with currentTmp := some r.name }, stage := .link } σ'' := by
  have hfg := h.at_
  rw [At, hstage] at hfg
  have hstep : Publication.step ⟨r.mtree, .symlink⟩ σ'.dir =
      .more ⟨r.mtree, .link⟩ { σ'.dir with currentTmp := some r.name } := by
    have hnone' : σ'.dir.currentTmp = none := h.shows.currentTmp ▸ hnone
    simp only [Publication.step, FsStep.apply, hnone']
    rfl
  exact ⟨_, h.run.publication_more hfg hs.version_le hstep, h.history, h.db, h.batch, h.walChan,
    h.mtree, ⟨h.shows.current, rfl, h.shows.wal, h.shows.dirs⟩, rfl⟩

theorem Follows.link (hstage : r.stage = .link)
    {name : Name} (hsome : r.disk.currentTmp = some name) :
    ∃ σ'', Follows σ0 σ { r with
      disk := { r.disk with current := some name, currentTmp := none }
      stage := .ended } σ'' := by
  have hfg := h.at_
  rw [At, hstage] at hfg
  have hstep : Publication.step ⟨r.mtree, .link⟩ σ'.dir =
      .done { σ'.dir with current := some name, currentTmp := none } := by
    have hsome' : σ'.dir.currentTmp = some name := h.shows.currentTmp ▸ hsome
    simp only [Publication.step, FsStep.apply, hsome']
  exact ⟨_, h.run.publication_done hfg hs.version_le hstep, h.history, h.db, h.batch, h.walChan,
    h.mtree, ⟨rfl, rfl, h.shows.wal, h.shows.dirs⟩, trivial⟩

end

theorem Follows.giveUp {stage : RewriteStage}
    (hstage : stage = .removing ∨ stage = .ended) : Follows σ0 σ { r with stage := stage } σ' := by
  refine h.inTmp rfl h.shows ?_
  rcases hstage with rfl | rfl
  · trivial
  · trivial

theorem Follows.next (hsane : Sane σ' r.mtree) {step : RewriteStep}
    (hs : r.next step = some r') : ∃ σ'', Follows σ0 σ r' σ'' := by
  cases step with
  | start i => exact ⟨σ', h.task_step hsane.indexed (.inl rfl) hs⟩
  | createFile i => exact ⟨σ', h.task_step hsane.indexed (.inr (.inl rfl)) hs⟩
  | append i file n => exact ⟨σ', h.task_step hsane.indexed (.inr (.inr (.inl ⟨file, n, rfl⟩))) hs⟩
  | finish i => exact ⟨σ', h.task_step hsane.indexed (.inr (.inr (.inr (.inl rfl)))) hs⟩
  | fail i => exact ⟨σ', h.task_step hsane.indexed (.inr (.inr (.inr (.inr rfl)))) hs⟩
  | mkdir =>
    simp only [Rewriting.next] at hs
    split_ifs at hs with hstage
    cases hs
    have hat := h.at_
    rw [At, hstage] at hat
    obtain ⟨hfg, hwriters, hleft⟩ := hat
    refine ⟨σ', h.inTmp rfl (h.shows.put_tmp r.isTmpName_tmpName _)
      ⟨hfg, _, Disk.get_put_self, ?_, ?_, ?_⟩⟩
    · intro e he
      cases hget : r.disk.get r.tmpName with
      | none =>
        rw [hget] at he
        cases he
      | some files =>
        rw [hget, Option.getD_some, id, (hleft files hget).trees] at he
        obtain ⟨entry, hentry, rfl⟩ := mem_map.mp he
        exact ⟨entry, hentry, rfl⟩
    · show r.writers.length = r.mtree.trees.length
      rw [hwriters, length_map]
    · intro i entry hentry hdone
      have hdone' : r.writers[i]? = some .done := hdone
      rw [hwriters, getElem?_map] at hdone'
      obtain ⟨_, -, hw⟩ := Option.map_eq_some_iff.mp hdone'
      cases hw
  | cancel =>
    cases hs
    exact ⟨σ', h.inTmp rfl h.shows (at_canceled h.at_)⟩
  | wait =>
    simp only [Rewriting.next] at hs
    split_ifs at hs with hends hok
    · cases hs
      obtain ⟨hfg, files, hfill⟩ := h.filling hends.1
      exact ⟨σ', h.inTmp rfl h.shows ⟨hfg, files, hfill.get, hfill.trees_eq hsane.indexed hok.1⟩⟩
    · cases hs
      exact ⟨σ', h.giveUp (.inl rfl)⟩
  | createMetadata =>
    simp only [Rewriting.next] at hs
    split_ifs at hs with hstage
    cases hs
    have hat := h.at_
    rw [At, hstage] at hat
    obtain ⟨hfg, files, hget, htrees⟩ := hat
    refine ⟨σ', h.inTmp rfl (h.shows.put_tmp r.isTmpName_tmpName _) ⟨hfg, _, Disk.get_put_self, ?_⟩⟩
    rw [hget]
    exact htrees
  | fillMetadata =>
    simp only [Rewriting.next] at hs
    split_ifs at hs with hstage
    cases hs
    have hat := h.at_
    rw [At, hstage] at hat
    obtain ⟨hfg, files, hget, htrees⟩ := hat
    refine ⟨σ', h.inTmp rfl (h.shows.put_tmp r.isTmpName_tmpName _)
      ⟨hfg, _, Disk.get_put_self, rfl, ?_⟩⟩
    rw [hget]
    exact htrees
  | sync =>
    simp only [Rewriting.next] at hs
    split_ifs at hs with hstage
    cases hs
    exact h.sync hsane hstage
  | rename =>
    simp only [Rewriting.next] at hs
    split_ifs at hs with hstage
    split at hs
    · cases hs
      exact ⟨σ', h.giveUp (.inr rfl)⟩
    · rename_i disk hr
      cases hs
      exact h.rename hsane hstage hr
  | symlink =>
    simp only [Rewriting.next] at hs
    split_ifs at hs with hstage
    split at hs
    · cases hs
      exact ⟨σ', h.giveUp (.inr rfl)⟩
    · rename_i hnone
      cases hs
      exact h.symlink hsane hstage hnone
  | link =>
    simp only [Rewriting.next] at hs
    split_ifs at hs with hstage
    split at hs
    · cases hs
      exact ⟨σ', h.giveUp (.inr rfl)⟩
    · rename_i name hsome
      cases hs
      exact h.link hsane hstage hsome
  | error =>
    simp only [Rewriting.next] at hs
    split at hs <;> cases hs
    · exact ⟨σ', h.giveUp (.inl rfl)⟩
    · exact ⟨σ', h.giveUp (.inl rfl)⟩
    · exact ⟨σ', h.giveUp (.inl rfl)⟩
    · exact ⟨σ', h.giveUp (.inl rfl)⟩
    · exact ⟨σ', h.giveUp (.inr rfl)⟩
    · exact ⟨σ', h.giveUp (.inr rfl)⟩
    · exact ⟨σ', h.giveUp (.inr rfl)⟩
  | remove left =>
    simp only [Rewriting.next] at hs
    split_ifs at hs with hstage
    cases left with
    | some files =>
      cases hs
      exact ⟨σ', h.inTmp rfl (h.shows.put_tmp r.isTmpName_tmpName _) (at_removing hstage)⟩
    | none =>
      cases hs
      exact ⟨σ', h.inTmp rfl (h.shows.removeAll_tmp r.isTmpName_tmpName) trivial⟩

end

variable {config : Config} {t : MultiTree}

theorem Follows.sane (h : Follows (.init config t) σ r σ') (ht : Process.Base t)
    (hv : σ.db.mtree.version ≤ maxUint32) : Sane σ' r.mtree := by
  obtain ⟨entries, hc⟩ := h.run.consistent (Process.consistent_init config ht)
  have hm : r.mtree = σ'.db.mtree := h.mtree.trans (congrArg DB.mtree h.db.symm)
  have hrec := hc.recorded
  rw [← hm] at hrec
  refine ⟨?_, h.mtree ▸ hv, fun content hget => hc.stored.leftover_eq hc.history hrec hget⟩
  obtain ⟨b, hb, hsame⟩ := hrec
  exact hsame.indexed (hc.history.indexed b hb)

theorem Reached.follows (ht : Process.Base t)
    (hrun : Process.Run OpenProcess.Publishes (.init config t) σ) (hphase : σ.phase = .idle)
    (hfg : σ.foreground = none) (hbg : σ.background.publication = none)
    (hv : σ.db.mtree.version ≤ maxUint32) (h : Reached σ r) :
    ∃ σ', Follows (.init config t) σ r σ' := by
  induction h with
  | init =>
    refine ⟨{ σ with foreground := some ⟨σ.db.mtree, .write⟩ }, ?_, rfl, rfl, rfl, rfl, rfl,
      σ.dir.disk_shows, rfl, rfl, ?_⟩
    · refine hrun.step (a := .rewriteSnapshot) ⟨fun _ => hbg, nofun⟩ ?_
      rw [Process.step, if_pos ⟨hphase, hfg⟩]
    · intro files hget
      obtain ⟨entries, hc⟩ := hrun.consistent (Process.consistent_init config ht)
      have hget' : σ.dir.disk.get (snapshotName σ.db.mtree.version ++ tmpSuffix) = some files := hget
      rw [get_disk] at hget'
      obtain ⟨content, hcontent, rfl⟩ := Option.map_eq_some_iff.mp hget'
      obtain ⟨b, hb, hsame⟩ := hc.recorded
      rw [hc.stored.leftover_eq hc.history ⟨b, hb, hsame⟩ hcontent]
      exact (hsame.indexed (hc.history.indexed b hb)).files_writeSnapshot
  | step _ _ hs ih =>
    obtain ⟨σ', hfollows⟩ := ih
    exact hfollows.next (hfollows.sane ht hv) hs

end Rewriting

/-- Wherever the steps of a rewrite end, with any of the writers failed or canceled: if the
rewrite began between blocks and the log has all entries, `Load` gives the committed trees,
and the link leads to a snapshot of which all files are whole. -/
theorem rewrite_crash_atomic {P : Type} [Sha256] [WALCodec P] {config : Config} {t : MultiTree}
    {σ : Process P} {r : Rewriting P} (ht : Process.Base t)
    (hrun : Process.Run OpenProcess.Publishes (.init config t) σ) (hphase : σ.phase = .idle)
    (hfg : σ.foreground = none) (hbg : σ.background.publication = none)
    (hqueue : σ.batch = [] ∧ σ.walChan = []) (hv : σ.db.mtree.version ≤ maxUint32)
    (h : Rewriting.Reached σ r) :
    (∃ m, r.disk.Loads m ∧ σ.db.mtree.Same m) ∧
      ∃ name files b, r.disk.current = some name ∧ r.disk.get name = some files ∧
        b ∈ σ.history ∧ files.Complete b := by
  obtain ⟨σ', hf⟩ := h.follows ht hrun hphase hfg hbg hv
  have hc0 := Process.consistent_init (P := P) config ht
  have ho0 := Process.ordered_init (P := P) config ht
  obtain ⟨entries, hc, ho⟩ := hf.run.ordered hc0 ho0 fun _ _ hG => hG.1
  have hup : Process.UpTo maxUint32 σ' := hf.run.upTo hc0 ho0 (fun _ _ hG => hG)
    (Process.upTo_init ht)
  have hsound := ho.sound hc hup (.refl σ')
  have hlast : σ'.dir.wal.lastIndex = entries.length := by
    have hlen := hc.log.length
    rw [hf.batch, hf.walChan, hqueue.1, hqueue.2] at hlen
    exact hlen
  obtain ⟨b, hb, hcur, hhas⟩ := ho.dir.current
  constructor
  · have hlogged : σ'.dir.Logged σ'.history := by
      refine ⟨b, hb, hcur, ?_⟩
      obtain ⟨i, hi⟩ := mem_iff_getElem?.mp hb
      have hlt := (List.getElem?_eq_some_iff.mp hi).1
      have := (hc.history.atIndex i b hi).logIndex_eq
      have := hc.history.length
      omega
    obtain ⟨m, last, hload, hm, hsame⟩ := hsound.load_logged hlogged
    obtain ⟨live, hlive, hlsame⟩ := hc.live
    rw [hlast, hlive] at hm
    cases hm
    refine ⟨m, ⟨σ'.dir, _, hf.shows, hload⟩, ?_⟩
    rw [← hf.db]
    exact hlsame.symm.trans hsame
  · obtain ⟨content, hmem⟩ := mem_names.mp hhas.2
    obtain ⟨s, hs, hcontent, -⟩ := hc.stored _ hmem
    simp only at hcontent
    refine ⟨_, content.files, s, hf.shows.current.trans hcur, ?_, hf.history ▸ hs, ?_⟩
    · rw [hf.shows.dirs _ (isTmpName_snapshotName _), get_eq_some.mpr hmem]
      rfl
    · rw [hcontent]
      exact (hc.history.indexed s hs).files_writeSnapshot

def oneStoreRewrite : List RewriteStep :=
  [.mkdir, .start 0, .createFile 0, .createFile 0, .createFile 0, .append 0 .leaves 20,
    .append 0 .kvs 100, .append 0 .leaves 100, .createFile 0, .append 0 .metadata 12, .finish 0, .wait,
    .createMetadata, .fillMetadata, .sync, .rename, .symlink, .link]

/-- The whole rewrite of version 1 of a database with one store. -/
theorem rewrite_crash_atomic_linked :
    letI := Sha256.zero
    ∃ (σ : Process WALEntry) (r : Rewriting WALEntry) (m : MultiTree) (files : SnapshotFiles)
      (b : MultiTree), σ.db.mtree.version = 1 ∧ r.disk.current = some (snapshotName 1) ∧
      r.disk.Loads m ∧ σ.db.mtree.Same m ∧ r.disk.get (snapshotName 1) = some files ∧
      files.Complete b := by
  let _ := Sha256.zero
  have hend : ((Process.runAll OpenProcess.Publishes (.init ⟨-1, 0, 1000⟩ (.fresh 0))
      [.commit (putBlock true 7), .finishCommit] : Option (Process WALEntry)).bind fun σ =>
        (runActions Rewriting.next (fun _ _ => True) (.start σ) oneStoreRewrite).map fun r =>
          decide (σ.phase = .idle ∧ σ.foreground = none ∧ σ.background.publication = none ∧
            (σ.batch.isEmpty ∧ σ.walChan.isEmpty) ∧ σ.db.mtree.version = 1 ∧
            r.disk.current = some (snapshotName 1))) = some true := by
    decide +kernel
  obtain ⟨σ, hσ, hend⟩ := Option.bind_eq_some_iff.mp hend
  obtain ⟨r, hr, hend⟩ := Option.map_eq_some_iff.mp hend
  obtain ⟨hphase, hfg, hbg, hqueue, hversion, hcur⟩ := of_decide_eq_true hend
  rw [List.isEmpty_iff, List.isEmpty_iff] at hqueue
  obtain ⟨⟨m, hm, hsame⟩, name, files, b, hname, hfiles, -, hcomplete⟩ :=
    rewrite_crash_atomic (Process.base_fresh (by decide)) (Process.Run.init.runAll hσ) hphase hfg hbg
      hqueue (by rw [hversion]; decide) (Runs.init.runActions hr)
  cases hcur.symm.trans hname
  exact ⟨σ, r, m, files, b, hversion, hcur, hm, hsame, hfiles, hcomplete⟩

theorem Disk.not_loads {P : Type} [Sha256] [WALCodec P] {D : Disk P} {name : Name}
    {files : SnapshotFiles} {info : CommitInfo} {iv : Int} (hv : (maxUint32 : Int) < info.version)
    (hcur : D.current = some name) (hname : isTmpName name = false) (hget : D.get name = some files)
    (hmeta : files.metadata = some (some ⟨some info, iv⟩)) (m : MultiTree) : ¬D.Loads m := by
  rintro ⟨d, d', hshows, hload⟩
  have hdir := hshows.dirs name hname
  rw [hget] at hdir
  obtain ⟨content, hcontent, rfl⟩ := Option.map_eq_some_iff.mp hdir.symm
  obtain ⟨md, hmd, heq⟩ := Option.map_eq_some_iff.mp hmeta
  cases heq
  have hread : readMetadata content = .error (.commitInfoOverflow info.version) := by
    unfold readMetadata
    simp only [hmd, if_pos hv]
  have hopen : d.openTrees name = .error (.mtree (.commitInfoOverflow info.version)) := by
    simp only [Directory.openTrees, hcontent, loadMultiTree, hread]
    rfl
  rw [load_latest (hshows.current ▸ hcur) hname, hopen] at hload
  cases hload

def passedMaxUint32 : List Action :=
  [.commit ⟨[], []⟩, .finishCommit, .commit ⟨[], []⟩, .finishCommit, .commit ⟨[], []⟩, .finishCommit]

def emptyRewrite : List RewriteStep :=
  [.mkdir, .wait, .createMetadata, .fillMetadata, .sync, .rename, .symlink, .link]

/-- A snapshot with a version that does not fit is published, and `Load` has no result. -/
theorem exists_rewrite_unloadable :
    letI := Sha256.zero
    ∃ (σ : Process WALEntry) (r : Rewriting WALEntry),
      Process.Run OpenProcess.Publishes (.init ⟨-1, 0, 1000⟩ (.fresh (maxUint32 - 1))) σ ∧
      σ.phase = .idle ∧ σ.foreground = none ∧ σ.background.publication = none ∧
      (σ.batch = [] ∧ σ.walChan = []) ∧ Rewriting.Reached σ r ∧ ¬∃ m, r.disk.Loads m := by
  let _ := Sha256.zero
  have hend : ((Process.runAll OpenProcess.Publishes (.init ⟨-1, 0, 1000⟩ (.fresh (maxUint32 - 1)))
      passedMaxUint32 : Option (Process WALEntry)).bind fun σ =>
        (runActions Rewriting.next (fun _ _ => True) (.start σ) emptyRewrite).map fun r =>
          decide (σ.phase = .idle ∧ σ.foreground = none ∧ σ.background.publication = none ∧
            (σ.batch.isEmpty ∧ σ.walChan.isEmpty) ∧ r.disk.current = some (snapshotName (2 ^ 32)) ∧
            (r.disk.get (snapshotName (2 ^ 32))).map SnapshotFiles.metadata =
              some (some (some ⟨some ⟨2 ^ 32, []⟩, maxUint32 - 1⟩)))) = some true := by
    decide +kernel
  obtain ⟨σ, hσ, hend⟩ := Option.bind_eq_some_iff.mp hend
  obtain ⟨r, hr, hend⟩ := Option.map_eq_some_iff.mp hend
  obtain ⟨hphase, hfg, hbg, hqueue, hcur, hget⟩ := of_decide_eq_true hend
  rw [List.isEmpty_iff, List.isEmpty_iff] at hqueue
  obtain ⟨files, hfiles, hmeta⟩ := Option.map_eq_some_iff.mp hget
  refine ⟨σ, r, Process.Run.init.runAll hσ, hphase, hfg, hbg, hqueue,
    Runs.init.runActions hr, ?_⟩
  rintro ⟨m, hm⟩
  exact Disk.not_loads (by decide) hcur (isTmpName_snapshotName _) hfiles hmeta m hm

end CronosStore.Memiavl
