import CronosStore.Memiavl.Crash
import CronosStore.Memiavl.Import

/-!
# Importing the trees of a snapshot

`MultiTreeImporter` of `memiavl/import.go`. The trees of a stream are written one after
another into the temporary directory of the snapshot; `Finalize` adds the metadata, renames
the directory and moves the link. The importer touches nothing else: what is in the
temporary directory already stays there, and so does the log.

The nodes of a tree are handed over a channel to a goroutine that imports them. Its error
comes back with a later `Add` or at the latest with `Close`, so the import of a tree is one
computation here, made when the importer of the tree is closed. An entry of a directory
stands for the tree that is read back from its files; files that cannot be opened make
`Finalize` fail, and are an error here as soon as they are written.
-/

namespace CronosStore.Memiavl

open Foundation List

/-! ## The tree of a snapshot -/

section ReadBack

variable [Sha256]

def Snapshot.tree (s : Snapshot) : Option Tree :=
  match s.rootNode with
  | none => some ⟨s.version, none⟩
  | some p => do
    let height ← p.height
    let root ← persistedInterface.read (height + 1) p
    pure ⟨s.version, some root⟩

theorem Tree.Persistable.tree_snapshot {v : Tree} (hv : v.Persistable)
    (hsize : v.kvsSize ≤ maxFileSize) : v.snapshot.tree = some v := by
  have hroot := hv.rootDenotes hsize
  have hversion : v.snapshot.version = v.version := rfl
  obtain ⟨version, root⟩ := v
  rw [Snapshot.tree]
  cases root with
  | none =>
    cases hs : Snapshot.rootNode (Tree.snapshot ⟨version, none⟩) with
    | none => exact congrArg some (Tree.mk.injEq .. ▸ ⟨hversion, rfl⟩)
    | some p =>
      rw [hs] at hroot
      exact hroot.elim
  | some n =>
    cases hs : Snapshot.rootNode (Tree.snapshot ⟨version, some n⟩) with
    | none =>
      rw [hs] at hroot
      exact hroot.elim
    | some p =>
      rw [hs] at hroot
      have hheight : p.height = some n.height := (NodeInterface.Denotes.shows hroot).height
      have hread := NodeInterface.Denotes.read_eq hroot (hv.valid n rfl).balanced
        (Nat.lt_succ_self n.height)
      simp only [hheight, hread, Results.some_bind, Option.pure_def]
      exact congrArg some (Tree.mk.injEq .. ▸ ⟨hversion, rfl⟩)

def Node.interface : NodeInterface Node where
  height n := some n.height
  isLeaf n := some n.isLeaf
  size n := some n.size
  version n := some n.version
  key n := some n.key
  value
    | .leaf _ _ x => some x
    | .branch .. => some none
  left
    | .leaf .. => none
    | .branch _ _ _ _ l _ => some l
  right
    | .leaf .. => none
    | .branch _ _ _ _ _ r => some r
  hash n := some n.hashNode

theorem Node.interface_denotes (n : Node) : Node.interface.Denotes n n := by
  induction n with
  | leaf v k x => exact ⟨⟨rfl, rfl, rfl, rfl, rfl, rfl⟩, rfl⟩
  | branch h s v k l r ihl ihr =>
    exact ⟨⟨rfl, rfl, rfl, rfl, rfl, rfl⟩, l, r, rfl, rfl, ihl, ihr⟩

omit [Sha256] in
theorem Node.Fits.versionsLE {n : Node} (h : n.Fits) : n.VersionsLE maxUint32 := by
  induction n with
  | leaf v k x => exact Nat.le_of_lt_succ h.1
  | branch ht s v k l r ihl ihr => exact ⟨Nat.le_of_lt_succ h.1, ihl h.2.1, ihr h.2.2⟩

/-- A stream of a tree is imported as the snapshot of the tree, if the file of the pairs has
room for them. -/
theorem Tree.Persistable.doImport_eq {v : Tree} (hv : v.Persistable) {es : List ExportNode}
    (he : v.Exports es) : doImport v.version es =
      if v.kvsSize ≤ maxFileSize then .ok v.snapshotDir else .error (.write (.fileTooLarge .kvs)) := by
  have hroot : Node.interface.RootDenotes v.root v.root := by
    cases v.root with
    | none => trivial
    | some n => exact n.interface_denotes
  have hsize : ∀ n, v.root = some n → n.size < 2 ^ 63 := by
    intro n hn
    have hlen := hv.length
    rw [Tree.toList, hn] at hlen
    have hlen : n.toList.length < 2 ^ 32 := hlen
    rw [(hv.valid n hn).sized.size_eq]
    omega
  rw [doImport_eq_writeSnapshot hroot hv.valid (Nat.le_of_lt_succ hv.version)
    (fun n hn => (hv.fits n hn).versionsLE) hsize he, hv.writeSnapshot_eq (fun _ => rfl) hroot]
  split_ifs <;> rfl

end ReadBack

/-! ## The importer -/

def updateMetadataFile [Sha256] (dir : MultiTreeDir) (height : Int) : MultiTreeDir :=
  { dir with
    metadata := some
      ⟨some ⟨height, dir.trees.map fun entry => ⟨entry.1, height, entry.2.rootHash⟩⟩, height + 1⟩ }

inductive MultiTreeImportError
  | versionOverflow (height : Nat)
  | nodeBeforeTree
  | tree (error : ImportError)
  | openSnapshot (error : SnapshotError)
  /-- The nodes of the files do not make a tree. -/
  | malformed
  | notExist
  | fileSystem
deriving DecidableEq

structure MultiTreeImporter (P : Type) where
  dir : Directory P
  height : Nat
  /-- The tree that is imported, with the nodes that were added. -/
  importer : Option (Name × List ExportNode)

def newMultiTreeImporter {P : Type} (dir : Directory P) (height : Nat) :
    Except MultiTreeImportError (MultiTreeImporter P) :=
  if height > maxUint32 then .error (.versionOverflow height) else .ok ⟨dir, height, none⟩

namespace Directory

variable {P : Type}

def content (d : Directory P) (name : Name) : MultiTreeDir := (d.get name).getD .empty

def putTree (d : Directory P) (dir name : Name) (tree : Tree) : Directory P :=
  d.put dir ((d.content dir).writeTree name tree)

end Directory

def finalizeSteps (height : Nat) : List FsStep :=
  [.rename (snapshotName height ++ tmpSuffix) (snapshotName height), .symlink (snapshotName height),
    .renameLink]

namespace MultiTreeImporter

variable {P : Type} [Sha256]

section

variable (mti : MultiTreeImporter P)

omit [Sha256] in
def tmpDir : Name := snapshotName mti.height ++ tmpSuffix

/-- Files of nodes whose heights do not fit are `malformed` here; the code keeps them. -/
def closeTree : Except MultiTreeImportError (MultiTreeImporter P) :=
  match mti.importer with
  | none => .ok mti
  | some (name, nodes) =>
    match doImport mti.height nodes with
    | .error e => .error (.tree e)
    | .ok files =>
      match openSnapshot files with
      | .error e => .error (.openSnapshot e)
      | .ok snapshot =>
        match snapshot.tree with
        | none => .error .malformed
        | some tree => .ok { mti with dir := mti.dir.putTree mti.tmpDir name tree, importer := none }

def addTree (name : Name) :
    Except MultiTreeImportError (MultiTreeImporter P) := do
  let mti ← mti.closeTree
  pure { mti with importer := some (name, []) }

omit [Sha256] in
def addNode (node : ExportNode) :
    Except MultiTreeImportError (MultiTreeImporter P) :=
  match mti.importer with
  | none => .error .nodeBeforeTree
  | some (name, nodes) => .ok { mti with importer := some (name, nodes ++ [node]) }

def finalize : Except MultiTreeImportError (Directory P) := do
  let mti ← mti.closeTree
  match mti.dir.get mti.tmpDir with
  | none => throw .notExist
  | some content =>
    match Directory.runSteps (finalizeSteps mti.height)
        (mti.dir.put mti.tmpDir (updateMetadataFile content mti.height)) with
    | none => throw .fileSystem
    | some dir => pure dir

end

/-! ## What the importer leaves -/

/-- A tree whose stream was added is written, if the file of its pairs has room for them. -/
theorem closeTree_eq {mti : MultiTreeImporter P} {name : Name} {es : List ExportNode} {v : Tree}
    (hi : mti.importer = some (name, es)) (hv : v.Persistable) (hver : v.version = mti.height)
    (he : v.Exports es) : mti.closeTree =
      if v.kvsSize ≤ maxFileSize then
        .ok { mti with dir := mti.dir.putTree mti.tmpDir name v, importer := none }
      else .error (.tree (.write (.fileTooLarge .kvs))) := by
  rw [closeTree, hi]
  simp only
  rw [← hver, hv.doImport_eq he]
  by_cases hsize : v.kvsSize ≤ maxFileSize
  · simp only [if_pos hsize, hv.openSnapshot_eq, hv.tree_snapshot hsize]
  · simp only [if_neg hsize]

theorem height_closeTree {mti mti' : MultiTreeImporter P} (h : mti.closeTree = .ok mti') :
    mti'.height = mti.height := by
  unfold closeTree at h
  split at h
  · cases h
    rfl
  · split at h
    · cases h
    · split at h
      · cases h
      · split at h
        · cases h
        · cases h
          rfl

end MultiTreeImporter

namespace Directory

variable {P : Type} {d d' : Directory P}

/-- The last steps of an import: the link leads to the content of the temporary directory,
and the log is what it was. -/
theorem runSteps_finalize {height : Nat} {content : MultiTreeDir}
    (h : runSteps (finalizeSteps height) (d.put (snapshotName height ++ tmpSuffix) content) = some d') :
    d'.current = some (snapshotName height) ∧ d'.get (snapshotName height) = some content ∧
      d'.wal = d.wal := by
  simp only [runSteps, finalizeSteps, foldlM_cons, foldlM_nil, FsStep.apply,
    Option.bind_eq_bind, Option.bind_eq_some_iff] at h
  obtain ⟨d1, hrename, d2, hlink, d3, hmove, hend⟩ := h
  obtain ⟨c, hc, rfl⟩ := rename_eq_some hrename
  obtain rfl : content = c :=
    Option.some.inj (get_put_self.symm.trans (get_eq_some.mpr hc))
  split at hlink
  · cases hlink
  · cases hlink
    cases hmove
    cases hend
    exact ⟨rfl, get_put_self, rfl⟩

end Directory

/-! ## Loading what was imported -/

namespace MultiTree

variable [Sha256] {P : Type} [WALCodec P]

variable {t : MultiTree} {log : IndexedLog P}

theorem Indexed.replayed {m s : MultiTree} {entry : WALEntry} (hi : t.Indexed)
    (hm : t.applyWALEntry entry = .ok m) (hs : m.saveVersion false = .ok s) :
    s.Indexed ∧ t.version < s.version := by
  obtain ⟨u, hu, hm⟩ := applyWALEntry_ok.mp hm
  obtain ⟨-, hinfo, -⟩ := applyUpgrades_fields hu
  have hiu := hi.applyUpgrades hu
  obtain ⟨-, rfl⟩ := hiu.applyChangeSets_ok.mp hm
  obtain ⟨-, rfl⟩ := saveVersion_ok.mp hs
  have hbump := (hiu.applyPairs fun n => pairsFor n entry.changesets).mapTrees
    fun e => { e.tree with version := e.tree.version + 1 }
  refine ⟨⟨hbump.sorted, hbump.index⟩, ?_⟩
  have hlt := lt_nextVersion u.lastCommitInfo.version u.initialVersion
  rw [hinfo] at hlt
  show t.lastCommitInfo.version < nextVersion u.lastCommitInfo.version u.initialVersion
  rw [hinfo]
  exact hlt

theorem replay_version {n index : Nat} {t' : MultiTree} (hi : t.Indexed)
    (h : replay log n index t = .ok t') : t.version + n ≤ t'.version := by
  induction n generalizing index t with
  | zero =>
    cases h
    simp
  | succ n ih =>
    rw [replay] at h
    split at h
    · cases h
    · split at h
      · cases h
      · split at h
        · cases h
        · rename_i hm
          split at h
          · cases h
          · rename_i hs
            obtain ⟨his, hsv⟩ := hi.replayed hm hs
            have hle := ih his h
            push_cast
            omega

theorem version_updateCommitInfo (t : MultiTree) : t.updateCommitInfo.version = t.version := rfl

/-- Trees at the index 0 of the log stay as they are only if the log is empty. -/
theorem catchupWAL_eq_version {m : MultiTree} (hi : t.Indexed)
    (hat : t.AtIndex 0) (h : t.catchupWAL log 0 = .ok m) :
    log.lastIndex = 0 ∧ m = t ∨ log.lastIndex ≠ 0 ∧ t.version < m.version := by
  have hfirst := hat.walIndex_next
  unfold catchupWAL at h
  rw [if_neg (by decide), hfirst] at h
  by_cases hlast : 0 + 1 > log.lastIndex
  · rw [if_pos hlast] at h
    exact .inl ⟨by omega, (Except.ok.inj h).symm⟩
  · rw [if_neg hlast] at h
    simp only [if_true, min_self] at h
    rw [if_neg (by omega)] at h
    split at h
    · cases h
    · rename_i m' hm'
      cases h
      have hle := replay_version hi hm'
      refine .inr ⟨by omega, ?_⟩
      rw [version_updateCommitInfo]
      omega

theorem catchupWAL_empty (hat : t.AtIndex 0)
    (hlast : log.lastIndex = 0) : t.catchupWAL log 0 = .ok t := by
  unfold catchupWAL
  rw [if_neg (by decide), hat.walIndex_next, if_pos (by omega)]

end MultiTree

/-- A block whose calls succeed is committed, if the next version is one the trees can have. -/
theorem DB.commitBlock_of_applyBlock [Sha256] {m : MultiTree} {block : Block} {db : DB} (hi : m.Indexed)
    (hpos : 0 < nextVersion m.version m.initialVersion)
    (hle : nextVersion m.version m.initialVersion ≤ maxUint32)
    (hal : MultiTree.Aligned (nextVersion m.version m.initialVersion) m.trees)
    (h : (DB.new m false).applyBlock block = .ok db) :
    ∃ entry db', (DB.new m false).commitBlock block = .ok (entry, db') := by
  have hsave : ∃ entry db', db.saveVersion = .ok (entry, db') := by
    unfold applyBlock at h
    cases hu : (DB.new m false).applyUpgrades block.upgrades with
    | error f =>
      rw [hu] at h
      cases h
    | ok db1 =>
      rw [hu] at h
      obtain ⟨u, hu', -, rfl⟩ := applyUpgrades_ok hu
      have hiu := hi.applyUpgrades hu'
      have hp1 : DB.Pending { DB.new m false with
          mtree := u
          pendingLog := { (DB.new m false).pendingLog with
            upgrades := (DB.new m false).pendingLog.upgrades ++ block.upgrades } } u :=
        pending_of_nil rfl
      obtain ⟨hp, -, hro⟩ := hp1.applyCalls hiu h
      have halu : MultiTree.Aligned (nextVersion m.version m.initialVersion) u.trees :=
        (MultiTree.applyUpgrades_fields hu').2.2 hpos (fun _ => hle) hal
      obtain ⟨t, ht⟩ : ∃ t, db.mtree.saveVersion true = .ok t := by
        refine ⟨_, MultiTree.saveVersion_ok.mpr ⟨fun e he => ?_, rfl⟩⟩
        rw [hp.mtree] at he
        obtain ⟨f, hf, rfl⟩ := mem_map.mp he
        have hf := halu f hf
        simp only [Tree.applyChangeSet_version]
        omega
      rw [DB.saveVersion, if_neg (by rw [hro]; exact Bool.false_ne_true), ht]
      exact ⟨_, _, rfl⟩
  obtain ⟨entry, db', hs⟩ := hsave
  refine ⟨entry, db'.clearPending, ?_⟩
  rw [commitBlock, h]
  simp only [hs]

section Imported

variable [Sha256]

structure ImportedTrees (content : MultiTreeDir) (height : Nat) (t : MultiTree) : Prop where
  indexed : t.Indexed
  version : t.version = height
  initialVersion : t.initialVersion = height + 1
  names : t.trees.map NamedTree.name = content.trees.map Prod.fst

theorem loadMultiTree_updateMetadataFile {content : MultiTreeDir} {height : Nat} {t : MultiTree}
    (h : loadMultiTree (updateMetadataFile content height) = .ok t) :
    height < maxUint32 ∧ ImportedTrees content height t := by
  obtain ⟨hi, -, -, -, -, -⟩ := loadMultiTree_eq_ok h
  obtain ⟨md, ci, hm, rfl, -⟩ := loadMultiTree_eq_ok_iff.mp h
  obtain ⟨hmd, hci, -, hiv⟩ := readMetadata_eq_ok.mp hm
  cases hmd
  cases hci
  have hlt : height < maxUint32 := by
    simp only at hiv
    omega
  have hmod : (((height : Int) + 1) % 2 ^ 32).toNat = height + 1 := by
    rw [maxUint32] at hlt
    omega
  refine ⟨hlt, hi, ?_, ?_, ?_⟩
  all_goals
    unfold loadedTrees MultiTree.setInitialVersion
    simp only [hmod]
    split_ifs
  · rfl
  · rfl
  · rfl
  · rfl
  · simp only [MultiTree.mapTrees, map_map]
    rfl
  · simp only [map_map]
    rfl

theorem exists_loadMultiTree_updateMetadataFile {content : MultiTreeDir} {height : Nat}
    (hlt : height < maxUint32) (hver : ∀ e ∈ content.trees, e.2.version = height) :
    ∃ t, loadMultiTree (updateMetadataFile content height) = .ok t ∧
      t.trees = content.trees.map fun e => ⟨e.1, e.2⟩ := by
  have hmod : (((height : Int) + 1) % 2 ^ 32).toNat = height + 1 := by
    rw [maxUint32] at hlt
    omega
  obtain ⟨md, hmd⟩ : ∃ md, md = MultiTreeMetadata.mk
    (some ⟨height, content.trees.map fun e => ⟨e.1, height, e.2.rootHash⟩⟩) (height + 1) := ⟨_, rfl⟩
  obtain ⟨ci, hci⟩ : ∃ ci, ci = CommitInfo.mk height
    (content.trees.map fun e => ⟨e.1, height, e.2.rootHash⟩) := ⟨_, rfl⟩
  have htrees : (loadedTrees (updateMetadataFile content height) md ci).trees =
      content.trees.map fun e => ⟨e.1, e.2⟩ := by
    unfold loadedTrees MultiTree.setInitialVersion
    simp only [hmd, hmod]
    split_ifs with hiv
    · simp only [MultiTree.mapTrees, map_map]
      refine map_congr_left fun e he => ?_
      simp only [Function.comp_apply, Tree.setInitialVersion]
      rw [if_pos (by rw [hver e he]; omega)]
    · rfl
  refine ⟨_, loadMultiTree_eq_ok_iff.mpr ⟨md, ci, readMetadata_eq_ok.mpr
    ⟨hmd ▸ rfl, by rw [hmd, hci], ?_, ?_⟩, rfl, ?_⟩, htrees⟩
  · rw [hci]
    simp only
    omega
  · rw [hmd]
    simp only
    omega
  · rw [htrees, MultiTree.buildCommitInfo, htrees, hci, CommitInfo.mk.injEq]
    constructor
    · cases hc : content.trees with
      | nil => rfl
      | cons e trees =>
        have := hver e (hc ▸ mem_cons_self)
        simp only [map_cons]
        omega
    · rw [map_map]
      refine map_congr_left fun e he => ?_
      simp only [Function.comp_apply, hver e he]

end Imported

end CronosStore.Memiavl
