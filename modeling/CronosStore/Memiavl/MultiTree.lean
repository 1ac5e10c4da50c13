import CronosStore.Foundation.Results
import CronosStore.Foundation.SortedAssoc
import CronosStore.Memiavl.Node

/-!
# Many trees under one version

`MultiTree` of `memiavl/multitree.go`: trees with names, an index of the names, and the
commit info of the last version. The trees are values (`Memiavl.World` says why a copy may
be treated as one). A method that changes the trees in place and fails leaves them as far
as it came, which is the state of its `Failure`.

A snapshot of the trees is a directory with one entry for each name and a metadata file;
an entry stands for the tree that is read back from it (`writeSnapshot_roundTrip`). Names
are taken to be single path components. The fields `zeroCopy`, `cacheSize` and `chainId`
are left out.
-/

namespace CronosStore.Memiavl

open Foundation

abbrev Name := Bytes

structure CommitID where
  version : Int
  hash : Bytes
deriving DecidableEq

structure StoreInfo where
  name : Name
  commitId : CommitID
deriving DecidableEq

structure CommitInfo where
  version : Int
  storeInfos : List StoreInfo
deriving DecidableEq

structure MultiTreeMetadata where
  commitInfo : Option CommitInfo
  initialVersion : Int
deriving DecidableEq

structure NamedTree where
  name : Name
  tree : Tree
deriving DecidableEq

structure MultiTree where
  initialVersion : Nat
  trees : List NamedTree
  treesByName : List (Name × Nat)
  lastCommitInfo : CommitInfo
  /-- The metadata of the snapshot the trees were loaded from. -/
  metadata : MultiTreeMetadata
deriving DecidableEq

structure TreeNameUpgrade where
  name : Name
  renameFrom : Name
  delete : Bool
deriving DecidableEq

structure NamedChangeSet where
  name : Name
  changeset : ChangeSet
deriving DecidableEq

inductive MultiTreeError
  | unknownTreeName (name : Name)
  | treeNameConflicts (name : Name)
  | versionOverflow (version : Nat)
deriving DecidableEq

def nextVersion (v : Int) (initialVersion : Nat) : Int :=
  if v = 0 ∧ initialVersion > 1 then initialVersion else v + 1

/-- `walIndex`: the index of a version in the log, in the arithmetic of `uint64`. -/
def walIndex (v : Int) (initialVersion : Nat) : Nat :=
  if initialVersion > 1 then ((v - initialVersion + 1) % 2 ^ 64).toNat else (v % 2 ^ 64).toNat

def walVersion (index : Nat) (initialVersion : Nat) : Int :=
  if initialVersion > 1 then index + initialVersion - 1 else index

namespace Tree

def newWithInitialVersion (initialVersion : Nat) : Tree :=
  if initialVersion ≤ 1 then ⟨0, none⟩ else ⟨initialVersion - 1, none⟩

def setInitialVersion (t : Tree) (initialVersion : Nat) : Tree :=
  if t.version > 0 then t
  else if initialVersion < 1 then { t with version := 0 }
  else { t with version := initialVersion - 1 }

end Tree

namespace MultiTree

def newEmptyMultiTree (initialVersion : Nat) : MultiTree where
  initialVersion := initialVersion
  trees := []
  treesByName := []
  lastCommitInfo := ⟨0, []⟩
  metadata := ⟨none, 0⟩

def version (t : MultiTree) : Int := t.lastCommitInfo.version

def snapshotVersion (t : MultiTree) : Option Int := t.metadata.commitInfo.map CommitInfo.version

def treeByName (t : MultiTree) (name : Name) : Option Tree := do
  let i ← t.treesByName.lookup name
  let entry ← t.trees[i]?
  pure entry.tree

def mapTrees (t : MultiTree) (f : NamedTree → Tree) : MultiTree :=
  { t with trees := t.trees.map fun entry => { entry with tree := f entry } }

def setInitialVersion (t : MultiTree) (initialVersion : Nat) : MultiTree :=
  let t := { t with initialVersion := initialVersion }
  if initialVersion > 1 then t.mapTrees fun entry => entry.tree.setInitialVersion initialVersion
  else t

def applyUpgrade (next : Int) (trees : List NamedTree) (upgrade : TreeNameUpgrade) :
    Except MultiTreeError (List NamedTree) :=
  if upgrade.delete then
    match trees.findIdx? (fun entry => entry.name = upgrade.name), trees.getLast? with
    -- swap deletion
    | some i, some last => .ok (trees.set i last).dropLast
    | _, _ => .error (.unknownTreeName upgrade.name)
  else if upgrade.renameFrom ≠ [] then
    match trees.findIdx? (fun entry => entry.name = upgrade.renameFrom) with
    | some i => .ok (trees.modify i fun entry => { entry with name := upgrade.name })
    | none => .error (.unknownTreeName upgrade.renameFrom)
  else
    .ok (trees ++ [⟨upgrade.name, .newWithInitialVersion (next % 2 ^ 32).toNat⟩])

def applyUpgradeList (next : Int) :
    List TreeNameUpgrade → List NamedTree → Update MultiTreeError (List NamedTree)
  | [], trees => .ok trees
  | upgrade :: upgrades, trees =>
    match applyUpgrade next trees upgrade with
    | .ok trees => applyUpgradeList next upgrades trees
    | .error e => .error ⟨e, trees⟩

def sortByName (trees : List NamedTree) : List NamedTree :=
  trees.insertionSort fun a b => a.name ≤ b.name

/-- Enter the trees from position `i` on into the index of names. A name that is in it
already is an error, and the index stays as it is then. -/
def indexTrees : Nat → List NamedTree → List (Name × Nat) → Update Name (List (Name × Nat))
  | _, [], index => .ok index
  | i, entry :: trees, index =>
    match index.lookup entry.name with
    | some _ => .error ⟨entry.name, index⟩
    | none => indexTrees (i + 1) trees (index ++ [(entry.name, i)])

def applyUpgrades (t : MultiTree) (upgrades : List TreeNameUpgrade) :
    Update MultiTreeError MultiTree :=
  if upgrades = [] then .ok t
  else
    match applyUpgradeList (nextVersion t.version t.initialVersion) upgrades t.trees with
    | .error f => .error ⟨f.error, { t with trees := f.state, treesByName := [] }⟩
    | .ok trees =>
      let trees := sortByName trees
      match indexTrees 0 trees [] with
      | .error f =>
        .error ⟨.treeNameConflicts f.error, { t with trees := trees, treesByName := f.state }⟩
      | .ok index => .ok { t with trees := trees, treesByName := index }

def applyChangeSet (t : MultiTree) (name : Name) (changeSet : ChangeSet) :
    Update MultiTreeError MultiTree :=
  match t.treesByName.lookup name with
  | none => .error ⟨.unknownTreeName name, t⟩
  | some i =>
    .ok { t with trees := t.trees.modify i fun entry =>
            { entry with tree := entry.tree.applyChangeSet changeSet } }

def applyChangeSets (t : MultiTree) : List NamedChangeSet → Update MultiTreeError MultiTree
  | [] => .ok t
  | cs :: changeSets =>
    match t.applyChangeSet cs.name cs.changeset with
    | .ok t => t.applyChangeSets changeSets
    | .error f => .error f

section Hash

variable [Sha256]

def buildCommitInfo (t : MultiTree) (version : Int) : CommitInfo where
  version := version
  storeInfos := t.trees.map fun entry => ⟨entry.name, entry.tree.version, entry.tree.rootHash⟩

def updateCommitInfo (t : MultiTree) : MultiTree :=
  { t with lastCommitInfo := t.buildCommitInfo t.lastCommitInfo.version }

def workingCommitInfo (t : MultiTree) : CommitInfo :=
  t.buildCommitInfo (nextVersion t.lastCommitInfo.version t.initialVersion)

def saveVersion (t : MultiTree) (updateCommitInfo : Bool) : Update MultiTreeError MultiTree :=
  match t.trees.find? fun entry => entry.tree.version = maxUint32 with
  | some entry => .error ⟨.versionOverflow entry.tree.version, t⟩
  | none =>
    let version := nextVersion t.lastCommitInfo.version t.initialVersion
    let t := t.mapTrees fun entry => { entry.tree with version := entry.tree.version + 1 }
    .ok { t with
      lastCommitInfo := if updateCommitInfo then t.buildCommitInfo version
        -- clear the dirty information
        else ⟨version, []⟩ }

end Hash

end MultiTree

/-- What `LoadMultiTree` finds. A store is under its name, which is taken to be that of a
directory: not empty, without a slash, and other than `__metadata`. -/
structure MultiTreeDir where
  metadata : Option MultiTreeMetadata
  trees : List (Name × Tree)
  sorted : SortedAssoc.Sorted trees
deriving DecidableEq

namespace MultiTreeDir

def empty : MultiTreeDir := ⟨none, [], List.Pairwise.nil⟩

def writeTree (dir : MultiTreeDir) (name : Name) (tree : Tree) : MultiTreeDir where
  metadata := dir.metadata
  trees := SortedAssoc.insert name tree dir.trees
  sorted := SortedAssoc.sorted_insert dir.sorted

end MultiTreeDir

def MultiTree.writeSnapshot (t : MultiTree) (dir : MultiTreeDir) : MultiTreeDir :=
  { t.trees.foldl (fun dir entry => dir.writeTree entry.name entry.tree) dir with
    metadata := some ⟨some t.lastCommitInfo, t.initialVersion⟩ }

inductive LoadError
  | notExist
  /-- A nil commit info is followed. -/
  | panic
  | commitInfoOverflow (version : Int)
  | initialVersionOverflow (version : Int)
  | versionMismatch (trusted actual : Int)
  | storeCountMismatch (trusted actual : Nat)
  | storeNameMismatch (index : Nat) (trusted actual : Name)
  | storeVersionMismatch (name : Name) (trusted actual : Int)
  | storeHashMismatch (name : Name) (trusted actual : Bytes)
deriving DecidableEq

def readMetadata (dir : MultiTreeDir) : Except LoadError (MultiTreeMetadata × CommitInfo) :=
  match dir.metadata with
  | none => .error .notExist
  | some metadata =>
    match metadata.commitInfo with
    | none => .error .panic
    | some commitInfo =>
      if commitInfo.version > maxUint32 then .error (.commitInfoOverflow commitInfo.version)
      else if metadata.initialVersion > maxUint32 then
        .error (.initialVersionOverflow metadata.initialVersion)
      else .ok (metadata, commitInfo)

def storeInfosEqual : Nat → List StoreInfo → List StoreInfo → Except LoadError Unit
  | index, want :: trusted, got :: actual =>
    if want.name ≠ got.name then .error (.storeNameMismatch index want.name got.name)
    else if want.commitId.version ≠ got.commitId.version then
      .error (.storeVersionMismatch want.name want.commitId.version got.commitId.version)
    else if want.commitId.hash ≠ got.commitId.hash then
      .error (.storeHashMismatch want.name want.commitId.hash got.commitId.hash)
    else storeInfosEqual (index + 1) trusted actual
  | _, _, _ => .ok ()

def commitInfoEqual (trusted actual : CommitInfo) : Except LoadError Unit :=
  if trusted.version ≠ actual.version then
    .error (.versionMismatch trusted.version actual.version)
  else if trusted.storeInfos.length ≠ actual.storeInfos.length then
    .error (.storeCountMismatch trusted.storeInfos.length actual.storeInfos.length)
  else storeInfosEqual 0 trusted.storeInfos actual.storeInfos

def indexFrom : Nat → List NamedTree → List (Name × Nat)
  | _, [] => []
  | i, entry :: trees => (entry.name, i) :: indexFrom (i + 1) trees

/-- `LoadMultiTree`. The listing of the directory is sorted by name already. -/
def loadMultiTree [Sha256] (dir : MultiTreeDir) : Except LoadError MultiTree := do
  let (metadata, commitInfo) ← readMetadata dir
  let trees := dir.trees.map fun entry => ⟨entry.1, entry.2⟩
  let mtree : MultiTree :=
    { initialVersion := 0, trees := trees, treesByName := indexFrom 0 trees,
      lastCommitInfo := commitInfo, metadata := metadata }
  let mtree := mtree.setInitialVersion (metadata.initialVersion % 2 ^ 32).toNat
  -- the commit info has to match the trees that were loaded
  let actualVersion := match mtree.trees with
    | entry :: _ => entry.tree.version
    | [] => commitInfo.version
  commitInfoEqual commitInfo (mtree.buildCommitInfo actualVersion)
  pure mtree

end CronosStore.Memiavl
