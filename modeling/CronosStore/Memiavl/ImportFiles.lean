import CronosStore.Memiavl.MultiTreeImport
import CronosStore.Memiavl.RewriteFiles

/-!
# An import file by file

`MultiTreeImporter` down to the files of the temporary directory. An import that fails leaves
that directory as it is, and the next import of the same height goes on in it: the files of
the trees it writes are truncated (`createFile`), but `updateMetadataFile` lists whatever
directories it finds.

Two imports of one stream, one of them on top of leftovers, go through the same states but for
the trees that were left and not written yet (`Alongside`). So they publish the same snapshot
exactly if every tree that was left is written again (`importSnapshot_eq_clean_iff`).
-/

namespace CronosStore.Memiavl

open Foundation SortedAssoc List Option

/-! ## The importer -/

def Snapshot.rootHash [Sha256] (s : Snapshot) : Option Bytes :=
  match s.rootNode with
  | none => some (Sha256.sum256 [])
  | some p => p.hash

namespace SnapshotFiles

variable [Sha256]

def storeInfo (height : Int) (entry : Name × SnapshotDir) : Except MultiTreeImportError StoreInfo :=
  match openSnapshot entry.2 with
  | .error e => .error (.openSnapshot e)
  | .ok snapshot =>
    match snapshot.rootHash with
    | none => .error .malformed
    | some hash => .ok ⟨entry.1, height, hash⟩

def updateMetadataFile (files : SnapshotFiles) (height : Int) :
    Except MultiTreeImportError SnapshotFiles := do
  let storeInfos ← files.trees.mapM (storeInfo height)
  pure { files with metadata := some (some ⟨some ⟨height, storeInfos⟩, height + 1⟩) }

end SnapshotFiles

namespace Disk

variable {P : Type}

def content (D : Disk P) (name : Name) : SnapshotFiles := (D.get name).getD .empty

def putTree (D : Disk P) (dir name : Name) (files : SnapshotDir) : Disk P :=
  D.put dir ((D.content dir).setTree name files)

def updateCurrentSymlink (D : Disk P) (name : Name) : Option (Disk P) :=
  if D.currentTmp.isSome then none else some { D with current := some name }

end Disk

inductive ImportItem
  | tree (name : Name)
  | node (n : ExportNode)

def importedStores (items : List ImportItem) : List Name :=
  items.filterMap fun
    | .tree name => some name
    | .node _ => none

structure DiskImporter (P : Type) where
  disk : Disk P
  height : Nat
  /-- The tree that is imported, with the nodes that were added. -/
  importer : Option (Name × List ExportNode)

namespace DiskImporter

variable {P : Type}

def tmpDir (mti : DiskImporter P) : Name := snapshotName mti.height ++ tmpSuffix

def pending (mti : DiskImporter P) : List Name := (mti.importer.map Prod.fst).toList

variable [Sha256] (cut : Name → SnapshotDir)

/-- `Close` of the importer of a tree. An error comes with the disk as it is left; `cut` is
what an import that fails has written of the files of its tree. -/
def closeTree (mti : DiskImporter P) :
    Except (MultiTreeImportError × Disk P) (DiskImporter P) :=
  match mti.importer with
  | none => .ok mti
  | some (name, nodes) =>
    match doImport mti.height nodes with
    | .error e => .error (.tree e, mti.disk.putTree mti.tmpDir name (cut name))
    | .ok files =>
      .ok { mti with disk := mti.disk.putTree mti.tmpDir name files, importer := none }

def add (mti : DiskImporter P) : ImportItem →
    Except (MultiTreeImportError × Disk P) (DiskImporter P)
  | .tree name => do
    let mti ← mti.closeTree cut
    pure { mti with importer := some (name, []) }
  | .node n =>
    match mti.importer with
    | none => .error (.nodeBeforeTree, mti.disk)
    | some (name, nodes) => .ok { mti with importer := some (name, nodes ++ [n]) }

def publish (D : Disk P) (height : Nat) : Except (MultiTreeImportError × Disk P) (Disk P) :=
  let tmpDir := snapshotName height ++ tmpSuffix
  match D.get tmpDir with
  | none => .error (.notExist, D)
  | some files =>
    match files.updateMetadataFile height with
    | .error e => .error (e, D)
    | .ok files =>
      let D := D.put tmpDir files
      match D.rename tmpDir (snapshotName height) with
      | none => .error (.fileSystem, D)
      | some D =>
        match D.updateCurrentSymlink (snapshotName height) with
        | none => .error (.fileSystem, D)
        | some D => .ok D

def finalize (mti : DiskImporter P) : Except (MultiTreeImportError × Disk P) (Disk P) := do
  let mti ← mti.closeTree cut
  publish mti.disk mti.height

end DiskImporter

def importSnapshot {P : Type} [Sha256] (cut : Name → SnapshotDir) (D : Disk P) (height : Nat)
    (items : List ImportItem) : Except (MultiTreeImportError × Disk P) (Disk P) :=
  if height > maxUint32 then .error (.versionOverflow height, D)
  else do
    let mti ← items.foldlM (DiskImporter.add cut) ⟨D, height, none⟩
    mti.finalize cut

namespace Disk

variable {P : Type} {D D' : Disk P} {old new : Name}

theorem rename_eq_some : D.rename old new = some D' ↔
    ∃ files, D.get old = some files ∧
      (∀ other, D.get new = some other → other.isEmpty = true) ∧
      D' = (D.removeAll old).put new files := by
  rw [rename]
  cases D.get old with
  | none => simp
  | some files =>
    cases D.get new with
    | none => simp [@eq_comm _ D']
    | some other => cases other.isEmpty <;> simp [@eq_comm _ D']

theorem get_removeAll_self {name : Name} : (D.removeAll name).get name = none :=
  lookup_erase_self D.sorted

theorem content_putTree {dir name : Name} {files : SnapshotDir} :
    (D.putTree dir name files).content dir = (D.content dir).setTree name files := by
  rw [content, putTree, get_put_self]
  rfl

theorem updateCurrentSymlink_eq_some : D.updateCurrentSymlink new = some D' ↔
    D.currentTmp = none ∧ D' = { D with current := some new } := by
  unfold updateCurrentSymlink
  cases D.currentTmp <;> simp [@eq_comm _ D']

end Disk

namespace DiskImporter

variable {P : Type} [Sha256] {D D' : Disk P} {height : Nat}

omit [Sha256] in
def published (D : Disk P) (height : Nat) (files : SnapshotFiles) : Disk P :=
  let tmpDir := snapshotName height ++ tmpSuffix
  { ((D.put tmpDir files).removeAll tmpDir).put (snapshotName height) files with
    current := some (snapshotName height) }

omit [Sha256] in
theorem get_published (D : Disk P) (height : Nat) (files : SnapshotFiles) :
    (published D height files).get (snapshotName height) = some files :=
  Disk.get_put_self

theorem publish_ok : publish D height = .ok D' ↔
    ∃ files files', D.get (snapshotName height ++ tmpSuffix) = some files ∧
      files.updateMetadataFile height = .ok files' ∧
      (∀ other, D.get (snapshotName height) = some other → other.isEmpty = true) ∧
      D.currentTmp = none ∧ D' = published D height files' := by
  have hne := snapshotName_ne_tmp height height
  constructor
  · intro h
    simp only [publish] at h
    split at h
    · cases h
    · rename_i files hget
      split at h
      · cases h
      · rename_i files' hmeta
        split at h
        · cases h
        · rename_i D1 hrename
          split at h
          · cases h
          · rename_i D2 hlink
            cases h
            obtain ⟨content, hcontent, hfree, rfl⟩ := Disk.rename_eq_some.mp hrename
            obtain ⟨htmp, rfl⟩ := Disk.updateCurrentSymlink_eq_some.mp hlink
            rw [Disk.get_put_self, Option.some.injEq] at hcontent
            subst hcontent
            rw [Disk.get_put_of_ne hne] at hfree
            exact ⟨files, files', hget, hmeta, hfree, htmp, rfl⟩
  · rintro ⟨files, files', hget, hmeta, hfree, htmp, rfl⟩
    have hrename := Disk.rename_eq_some.mpr ⟨files', Disk.get_put_self (D := D), by
      rwa [Disk.get_put_of_ne hne], rfl⟩
    have hlink : Disk.updateCurrentSymlink (((D.put (snapshotName height ++ tmpSuffix) files').removeAll
        (snapshotName height ++ tmpSuffix)).put (snapshotName height) files') (snapshotName height) =
        some (published D height files') :=
      Disk.updateCurrentSymlink_eq_some.mpr ⟨htmp, rfl⟩
    simp only [publish, hget, hmeta, hrename, hlink]

end DiskImporter

/-! ## Two imports of one stream -/

namespace SnapshotFiles

variable {files : SnapshotFiles} {name : Name}

theorem eq_of_tree {files' : SnapshotFiles} (h : ∀ name, files.tree name = files'.tree name) :
    files.trees = files'.trees :=
  eq_of_lookup files.sorted files'.sorted h

theorem tree_setTree_self {dir : SnapshotDir} :
    (files.setTree name dir).tree name = some dir :=
  lookup_insert_self files.sorted

theorem tree_setTree_of_ne {name' : Name} {dir : SnapshotDir}
    (h : name' ≠ name) : (files.setTree name dir).tree name' = files.tree name' :=
  lookup_insert_of_ne files.sorted h

theorem tree_isSome_iff :
    (files.tree name).isSome ↔ ∃ entry ∈ files.trees, entry.1 = name := by
  rw [isSome_iff_exists]
  constructor
  · rintro ⟨dir, hdir⟩
    exact ⟨_, (lookup_eq_some_iff files.sorted).mp hdir, rfl⟩
  · rintro ⟨⟨_, dir⟩, hentry, rfl⟩
    exact ⟨dir, (lookup_eq_some_iff files.sorted).mpr hentry⟩

variable [Sha256] {files files' : SnapshotFiles} {height : Int}

theorem updateMetadataFile_congr (h : files.trees = files'.trees) :
    files.updateMetadataFile height = files'.updateMetadataFile height := by
  obtain ⟨m, trees, sorted⟩ := files
  obtain ⟨m', trees', sorted'⟩ := files'
  cases h
  rfl

theorem trees_updateMetadataFile (h : files.updateMetadataFile height = .ok files') :
    files'.trees = files.trees := by
  rw [updateMetadataFile, Results.bind_eq_ok] at h
  obtain ⟨infos, -, h⟩ := h
  cases h
  rfl

end SnapshotFiles

namespace DiskImporter

variable {P : Type}

/-- The states of two imports of one stream. `b` started in a clean directory and `a` where
`left` was left; since then the trees `done` were written. -/
structure Alongside (height : Nat) (left : SnapshotFiles) (done : List Name) (a b : DiskImporter P) :
    Prop where
  fixed : a.height = height
  height : b.height = a.height
  importer : b.importer = a.importer
  currentTmp : b.disk.currentTmp = a.disk.currentTmp
  dirs : ∀ name ≠ a.tmpDir, b.disk.get name = a.disk.get name
  made : (b.disk.get a.tmpDir).isSome ↔ done ≠ []
  written : ∀ name ∈ done, (b.disk.content a.tmpDir).tree name = (a.disk.content a.tmpDir).tree name
  clean : ∀ name ∉ done, (b.disk.content a.tmpDir).tree name = none
  left : ∀ name ∉ done, (a.disk.content a.tmpDir).tree name = left.tree name

namespace Alongside

variable {height : Nat} {left : SnapshotFiles} {done : List Name} {a a' b : DiskImporter P}

theorem start {D : Disk P} (height : Nat) :
    Alongside height (D.content (snapshotName height ++ tmpSuffix)) [] ⟨D, height, none⟩
      ⟨D.removeAll (snapshotName height ++ tmpSuffix), height, none⟩ where
  fixed := rfl
  height := rfl
  importer := rfl
  currentTmp := rfl
  dirs name h := Disk.get_removeAll_of_ne h
  made := by simp [tmpDir, Disk.get_removeAll_self]
  written name h := absurd h not_mem_nil
  clean name _ := by simp only [Disk.content, tmpDir, Disk.get_removeAll_self]; rfl
  left _ _ := rfl

section

variable (h : Alongside height left done a b)
include h

theorem putTree (name : Name) (files : SnapshotDir) :
    Alongside height left (done ++ [name])
      { a with disk := a.disk.putTree a.tmpDir name files, importer := none }
      { b with disk := b.disk.putTree a.tmpDir name files, importer := none } where
  fixed := h.fixed
  height := h.height
  importer := rfl
  currentTmp := h.currentTmp
  dirs other hother := by
    show (b.disk.putTree a.tmpDir name files).get other = (a.disk.putTree a.tmpDir name files).get other
    have hne : other ≠ a.tmpDir := hother
    rw [Disk.putTree, Disk.putTree, Disk.get_put_of_ne hne, Disk.get_put_of_ne hne]
    exact h.dirs other hne
  made := by simp [Disk.putTree, tmpDir, Disk.get_put_self]
  written other hother := by
    show ((b.disk.putTree a.tmpDir name files).content a.tmpDir).tree other =
      ((a.disk.putTree a.tmpDir name files).content a.tmpDir).tree other
    rw [Disk.content_putTree, Disk.content_putTree]
    by_cases heq : other = name
    · rw [heq, SnapshotFiles.tree_setTree_self, SnapshotFiles.tree_setTree_self]
    · rw [SnapshotFiles.tree_setTree_of_ne heq, SnapshotFiles.tree_setTree_of_ne heq]
      refine h.written other ?_
      simpa [heq] using hother
  clean other hother := by
    obtain ⟨hdone, hne⟩ : other ∉ done ∧ other ≠ name := by simpa using hother
    show ((b.disk.putTree a.tmpDir name files).content a.tmpDir).tree other = none
    rw [Disk.content_putTree, SnapshotFiles.tree_setTree_of_ne hne]
    exact h.clean other hdone
  left other hother := by
    obtain ⟨hdone, hne⟩ : other ∉ done ∧ other ≠ name := by simpa using hother
    show ((a.disk.putTree a.tmpDir name files).content a.tmpDir).tree other = left.tree other
    rw [Disk.content_putTree, SnapshotFiles.tree_setTree_of_ne hne]
    exact h.left other hdone

theorem tmpDir_eq : b.tmpDir = a.tmpDir := by
  rw [tmpDir, tmpDir, h.height]

/-- The two directories hold the same trees if all that was left is written. -/
theorem trees_eq_iff :
    (b.disk.content a.tmpDir).trees = (a.disk.content a.tmpDir).trees ↔
      ∀ entry ∈ left.trees, entry.1 ∈ done := by
  constructor
  · intro heq entry hentry
    by_contra hnot
    have hleft : (left.tree entry.1).isSome := SnapshotFiles.tree_isSome_iff.mpr ⟨entry, hentry, rfl⟩
    rw [← h.left entry.1 hnot, SnapshotFiles.tree, ← heq] at hleft
    have hclean := h.clean entry.1 hnot
    rw [SnapshotFiles.tree] at hclean
    rw [hclean] at hleft
    cases hleft
  · intro hall
    refine SnapshotFiles.eq_of_tree fun name => ?_
    by_cases hname : name ∈ done
    · exact h.written name hname
    · rw [h.clean name hname, h.left name hname]
      cases hleft : left.tree name with
      | none => rfl
      | some dir =>
        have hmem := (lookup_eq_some_iff left.sorted).mp hleft
        exact absurd (hall _ hmem) hname

end

variable [Sha256] {cut : Name → SnapshotDir}

section

variable (h : Alongside height left done a b)
include h

theorem closeTree (ha : a.closeTree cut = .ok a') :
    ∃ b', b.closeTree cut = .ok b' ∧ Alongside height left (done ++ a.pending) a' b' ∧ a'.importer = none := by
  unfold DiskImporter.closeTree at ha ⊢
  rw [h.importer, h.height]
  cases himp : a.importer with
  | none =>
    rw [himp] at ha
    cases ha
    refine ⟨b, rfl, ?_, himp⟩
    rw [pending, himp]
    simpa using h
  | some tree =>
    obtain ⟨name, nodes⟩ := tree
    rw [himp] at ha
    simp only at ha ⊢
    cases hfiles : doImport a.height nodes with
    | error e =>
      rw [hfiles] at ha
      cases ha
    | ok files =>
      rw [hfiles] at ha
      cases ha
      refine ⟨_, rfl, ?_, rfl⟩
      have hput := h.putTree name files
      rw [h.height] at hput
      rw [h.tmpDir_eq, pending, himp]
      exact hput

/-- The tree that is imported now counts as written once it is closed. -/
theorem add {item : ImportItem} (ha : a.add cut item = .ok a') :
    ∃ b' done', b.add cut item = .ok b' ∧ Alongside height left done' a' b' ∧
      done' ++ a'.pending = done ++ a.pending ++ importedStores [item] := by
  cases item with
  | tree name =>
    rw [DiskImporter.add, Results.bind_eq_ok] at ha
    obtain ⟨a1, ha1, ha⟩ := ha
    obtain ⟨b1, hb1, hclosed, -⟩ := h.closeTree ha1
    cases ha
    refine ⟨{ b1 with importer := some (name, []) }, done ++ a.pending, ?_, ?_, ?_⟩
    · rw [DiskImporter.add, Results.bind_eq_ok]
      exact ⟨b1, hb1, rfl⟩
    · exact { hclosed with importer := rfl }
    · rfl
  | node n =>
    rw [DiskImporter.add] at ha ⊢
    rw [h.importer]
    cases himp : a.importer with
    | none =>
      rw [himp] at ha
      cases ha
    | some tree =>
      rw [himp] at ha
      cases ha
      refine ⟨_, done, rfl, { h with importer := rfl }, ?_⟩
      simp [pending, himp, importedStores]

theorem foldlM_add {items : List ImportItem}
    (ha : items.foldlM (DiskImporter.add cut) a = .ok a') :
    ∃ b' done', items.foldlM (DiskImporter.add cut) b = .ok b' ∧ Alongside height left done' a' b' ∧
      done' ++ a'.pending = done ++ a.pending ++ importedStores items := by
  induction items generalizing a b done with
  | nil =>
    cases ha
    exact ⟨b, done, rfl, h, by simp [importedStores]⟩
  | cons item items ih =>
    rw [foldlM_cons, Results.bind_eq_ok] at ha
    obtain ⟨a1, ha1, ha⟩ := ha
    obtain ⟨b1, done1, hb1, h1, hdone1⟩ := h.add ha1
    obtain ⟨b', done', hb', h', hdone'⟩ := ih h1 ha
    refine ⟨b', done', ?_, h', ?_⟩
    · rw [foldlM_cons, Results.bind_eq_ok]
      exact ⟨b1, hb1, hb'⟩
    · rw [hdone', hdone1, append_assoc]
      congr 1
      simp only [importedStores, ← filterMap_append, singleton_append]

theorem publish {D : Disk P} (ha : publish a.disk a.height = .ok D) :
    (∃ D', DiskImporter.publish b.disk b.height = .ok D' ∧ D'.current = D.current ∧
      D'.get (snapshotName a.height) = D.get (snapshotName a.height)) ↔
    done ≠ [] ∧ ∀ entry ∈ left.trees, entry.1 ∈ done := by
  obtain ⟨files, files', hget, hmeta, hfree, htmp, rfl⟩ := publish_ok.mp ha
  have hcontent : a.disk.content a.tmpDir = files := by
    rw [Disk.content, tmpDir, hget]
    rfl
  have hname : snapshotName a.height ≠ a.tmpDir := snapshotName_ne_tmp a.height a.height
  rw [h.height, ← h.made, ← h.trees_eq_iff, hcontent]
  constructor
  · rintro ⟨D', hb, -, hsame⟩
    obtain ⟨clean, clean', hclean, hmeta', -, -, rfl⟩ := publish_ok.mp hb
    rw [get_published, get_published, Option.some.injEq] at hsame
    have hclean : b.disk.get a.tmpDir = some clean := hclean
    refine ⟨by rw [hclean]; rfl, ?_⟩
    rw [Disk.content, hclean, getD_some, ← SnapshotFiles.trees_updateMetadataFile hmeta,
      ← SnapshotFiles.trees_updateMetadataFile hmeta', hsame]
  · rintro ⟨hmade, htrees⟩
    obtain ⟨clean, hclean⟩ := isSome_iff_exists.mp hmade
    rw [Disk.content, hclean, getD_some] at htrees
    refine ⟨_, publish_ok.mpr ⟨clean, files', hclean, ?_, ?_, ?_, rfl⟩, rfl, ?_⟩
    · rw [SnapshotFiles.updateMetadataFile_congr htrees, hmeta]
    · rwa [h.dirs _ hname]
    · rw [h.currentTmp, htmp]
    · rw [get_published, get_published]

end

end Alongside

end DiskImporter

/-- On top of leftovers an import that succeeds publishes what it publishes in a clean
directory, exactly if the stream has a tree and every tree that was left is in the stream. -/
theorem importSnapshot_eq_clean_iff {P : Type} [Sha256] {cut : Name → SnapshotDir} {D D' : Disk P}
    {height : Nat} {items : List ImportItem} (h : importSnapshot cut D height items = .ok D') :
    (∃ D'', importSnapshot cut (D.removeAll (snapshotName height ++ tmpSuffix)) height items = .ok D'' ∧
      D''.current = D'.current ∧
      D''.get (snapshotName height) = D'.get (snapshotName height)) ↔
    importedStores items ≠ [] ∧
      ∀ entry ∈ (D.content (snapshotName height ++ tmpSuffix)).trees, entry.1 ∈ importedStores items := by
  unfold importSnapshot at h ⊢
  by_cases hheight : height > maxUint32
  · rw [if_pos hheight] at h
    cases h
  rw [if_neg hheight] at h ⊢
  simp only [DiskImporter.finalize, Results.bind_eq_ok] at h ⊢
  obtain ⟨a, ha, a', hclose, hpublish⟩ := h
  obtain ⟨b, done, hb, halong, hdone⟩ := (DiskImporter.Alongside.start height).foldlM_add ha
  obtain ⟨b', hclose', halong', -⟩ := halong.closeTree hclose
  have hstores : done ++ a.pending = importedStores items := hdone
  rw [hstores] at halong'
  rw [← halong'.publish hpublish, halong'.fixed]
  constructor
  · rintro ⟨D'', ⟨b1, hb1, b1', hclose1, hpublish1⟩, hsame⟩
    obtain rfl : b = b1 := Except.ok.inj (hb.symm.trans hb1)
    obtain rfl : b' = b1' := Except.ok.inj (hclose'.symm.trans hclose1)
    exact ⟨D'', hpublish1, hsame⟩
  · rintro ⟨D'', hpublish1, hsame⟩
    exact ⟨D'', ⟨b, hb, b', hclose', hpublish1⟩, hsame⟩

def brokenStream : List ImportItem :=
  [.tree [97], .node ⟨[1], some [2], 1, 0⟩, .tree [98], .node ⟨[1], none, 1, 1⟩]

def storeStream (name : Name) : List ImportItem := [.tree name, .node ⟨[1], some [2], 1, 0⟩]

def unflushed (_ : Name) : SnapshotDir := ⟨none, some [], some [], some []⟩

def emptyDisk : Disk WALEntry := ⟨none, none, [], .nil, .empty⟩

def publishedNext [Sha256] (clean : Disk WALEntry → Disk WALEntry) (items : List ImportItem) :
    Option (Disk WALEntry × Disk WALEntry) :=
  match importSnapshot unflushed emptyDisk 5 brokenStream with
  | .ok _ => none
  | .error (_, D) =>
    match importSnapshot unflushed (clean D) 5 items with
    | .ok D' => some (D, D')
    | .error _ => none

theorem publishedNext_eq_some [Sha256] {clean : Disk WALEntry → Disk WALEntry}
    {items : List ImportItem} {D D' : Disk WALEntry} (h : publishedNext clean items = some (D, D')) :
    (∃ e, importSnapshot unflushed emptyDisk 5 brokenStream = .error (e, D)) ∧
      importSnapshot unflushed (clean D) 5 items = .ok D' := by
  unfold publishedNext at h
  split at h
  · cases h
  · rename_i e left hleft
    split at h
    · rename_i D1 hD1
      cases h
      exact ⟨⟨e, hleft⟩, hD1⟩
    · cases h

/-- The store `a` of an import that failed is published with the next one, which has only the
store `b`. -/
theorem exists_leftover_published :
    letI := Sha256.zero
    ∃ (e : MultiTreeImportError) (D D' D'' : Disk WALEntry),
      importSnapshot unflushed emptyDisk 5 brokenStream = .error (e, D) ∧
      importSnapshot unflushed D 5 (storeStream [98]) = .ok D' ∧
      importSnapshot unflushed (D.removeAll (snapshotName 5 ++ tmpSuffix)) 5 (storeStream [98]) =
        .ok D'' ∧
      D''.get (snapshotName 5) ≠ D'.get (snapshotName 5) := by
  let _ := Sha256.zero
  have hleft : (publishedNext id (storeStream [98])).map
      (fun r => (r.2.content (snapshotName 5)).trees.map Prod.fst) = some [[97], [98]] := by
    decide +kernel
  have hclean : (publishedNext (fun D => D.removeAll (snapshotName 5 ++ tmpSuffix))
      (storeStream [98])).map (fun r => (r.2.content (snapshotName 5)).trees.map Prod.fst) =
        some [[98]] := by
    decide +kernel
  obtain ⟨⟨D, D'⟩, hD', htrees⟩ := map_eq_some_iff.mp hleft
  obtain ⟨⟨D1, D''⟩, hD'', htrees'⟩ := map_eq_some_iff.mp hclean
  obtain ⟨⟨e, he⟩, hok⟩ := publishedNext_eq_some hD'
  obtain ⟨⟨e1, he1⟩, hok'⟩ := publishedNext_eq_some hD''
  obtain ⟨rfl, rfl⟩ : e = e1 ∧ D = D1 := Prod.mk.inj (Except.error.inj (he.symm.trans he1))
  refine ⟨e, D, D', D'', he, hok, hok', fun hsame => ?_⟩
  have hsame : D''.content (snapshotName 5) = D'.content (snapshotName 5) :=
    congrArg (·.getD SnapshotFiles.empty) hsame
  rw [hsame, htrees] at htrees'
  exact absurd htrees' (by decide)

/-- A stream with both of the stores publishes the same as without leftovers. -/
theorem importSnapshot_eq_clean_retry :
    letI := Sha256.zero
    ∃ (e : MultiTreeImportError) (D D' D'' : Disk WALEntry),
      importSnapshot unflushed emptyDisk 5 brokenStream = .error (e, D) ∧
      importSnapshot unflushed D 5 (storeStream [98] ++ storeStream [97]) = .ok D' ∧
      importSnapshot unflushed (D.removeAll (snapshotName 5 ++ tmpSuffix)) 5
        (storeStream [98] ++ storeStream [97]) = .ok D'' ∧
      D''.current = D'.current ∧ D''.get (snapshotName 5) = D'.get (snapshotName 5) := by
  let _ := Sha256.zero
  have hend : (publishedNext id (storeStream [98] ++ storeStream [97])).map
      (fun r => decide (∀ entry ∈ (r.1.content (snapshotName 5 ++ tmpSuffix)).trees,
        entry.1 ∈ importedStores (storeStream [98] ++ storeStream [97]))) = some true := by
    decide +kernel
  obtain ⟨⟨D, D'⟩, hD', hall⟩ := map_eq_some_iff.mp hend
  obtain ⟨⟨e, he⟩, hok⟩ := publishedNext_eq_some hD'
  obtain ⟨D'', hclean, hsame⟩ := (importSnapshot_eq_clean_iff hok).mpr
    ⟨by decide, of_decide_eq_true hall⟩
  exact ⟨e, D, D', D'', he, hok, hclean, hsame⟩

end CronosStore.Memiavl
