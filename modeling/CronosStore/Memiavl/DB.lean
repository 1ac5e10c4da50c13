import CronosStore.Foundation.Search
import CronosStore.Memiavl.History

/-!
# The database in memory

The part of `DB` of `memiavl/db.go` that a block works on: the trees and the pending log,
which `Commit` writes as one entry. The change sets of the pending log are pointers, and
`cachedPendingChangesets` points to the same ones, so that pairs for a store that has some
already are appended in place; `cells` are the change sets that were allocated.
-/

namespace CronosStore.Memiavl

open Foundation

/-- What the block writes to the log. -/
structure PendingLog where
  cells : List NamedChangeSet
  changesets : List Nat
  upgrades : List TreeNameUpgrade
deriving DecidableEq

structure DB where
  mtree : MultiTree
  pendingLog : PendingLog
  cachedPendingChangesets : Option (List (Name × Nat))
  readOnly : Bool
deriving DecidableEq

inductive DBError
  | readOnly
  | mtree (error : MultiTreeError)
deriving DecidableEq

structure WalEntry where
  index : Nat
  data : WALEntry
deriving DecidableEq

namespace PendingLog

def empty : PendingLog := ⟨[], [], []⟩

def alloc (p : PendingLog) (cs : NamedChangeSet) : Nat × PendingLog :=
  (p.cells.length, { p with cells := p.cells ++ [cs] })

def follow (cells : List NamedChangeSet) (ptrs : List Nat) : List NamedChangeSet :=
  ptrs.filterMap fun ptr => cells[ptr]?

def deref (p : PendingLog) : List NamedChangeSet := follow p.cells p.changesets

def nameAt (p : PendingLog) (i : Nat) : Option Name := do
  let ptr ← p.changesets[i]?
  let cs ← p.cells[ptr]?
  pure cs.name

def entry (p : PendingLog) : WALEntry := ⟨p.deref, p.upgrades⟩

end PendingLog

namespace DB

def new (mtree : MultiTree) (readOnly : Bool) : DB := ⟨mtree, .empty, none, readOnly⟩

def onTrees (db : DB) : Update MultiTreeError MultiTree → Update DBError DB
  | .ok mtree => .ok { db with mtree := mtree }
  | .error f => .error ⟨.mtree f.error, { db with mtree := f.state }⟩

def applyUpgrades (db : DB) (upgrades : List TreeNameUpgrade) : Update DBError DB :=
  if db.readOnly then .error ⟨.readOnly, db⟩
  else
    match db.onTrees (db.mtree.applyUpgrades upgrades) with
    | .error f => .error f
    | .ok db =>
      .ok { db with pendingLog :=
        { db.pendingLog with upgrades := db.pendingLog.upgrades ++ upgrades } }

/-! ## The pending change sets -/

def clearPendingChangesetMap (db : DB) : DB :=
  { db with cachedPendingChangesets := db.cachedPendingChangesets.map fun _ => [] }

def rebuildPendingChangesetMap (db : DB) : DB :=
  { db with cachedPendingChangesets := some (db.pendingLog.changesets.foldl (fun m ptr =>
      match db.pendingLog.cells[ptr]? with
      | some cs => (cs.name, ptr) :: m
      | none => m) []) }

def setPendingChangeSets (db : DB) (changeSets : List NamedChangeSet) : DB :=
  let db := { db with pendingLog :=
    { db.pendingLog with
      cells := db.pendingLog.cells ++ changeSets
      changesets := List.range' db.pendingLog.cells.length changeSets.length } }
  if changeSets = [] then db.clearPendingChangesetMap else db.rebuildPendingChangesetMap

def ensurePendingChangesetMap (db : DB) : DB :=
  if db.pendingLog.changesets = [] then db.clearPendingChangesetMap
  else if db.cachedPendingChangesets.isSome then db
  else db.rebuildPendingChangesetMap

/-- `insertPendingChangeSet`: behind the last one if its name is the greatest, else where a
binary search on the names ends. -/
def insertPendingChangeSet (db : DB) (cs : NamedChangeSet) : DB :=
  let (ptr, p) := db.pendingLog.alloc cs
  let m := (cs.name, ptr) :: db.cachedPendingChangesets.getD []
  let oldLen := p.changesets.length
  let last := p.nameAt (oldLen - 1)
  let changesets :=
    if oldLen = 0 ∨ last.any (· < cs.name) then p.changesets ++ [ptr]
    else
      let idx := search oldLen fun i => (p.nameAt i).any (cs.name ≤ ·)
      -- those from `idx` on move one place back
      p.changesets.take idx ++ ptr :: p.changesets.drop idx
  { db with pendingLog := { p with changesets := changesets }, cachedPendingChangesets := some m }

def applyChangeSet (db : DB) (name : Name) (changeSet : ChangeSet) : Update DBError DB :=
  if changeSet = [] then .ok db
  else if db.readOnly then .error ⟨.readOnly, db⟩
  else
    let db := db.ensurePendingChangesetMap
    let db := match (db.cachedPendingChangesets.getD []).lookup name with
      | some ptr =>
        { db with pendingLog := { db.pendingLog with
            cells := db.pendingLog.cells.modify ptr fun cs =>
              { cs with changeset := cs.changeset ++ changeSet } } }
      | none => db.insertPendingChangeSet ⟨name, changeSet⟩
    db.onTrees (db.mtree.applyChangeSet name changeSet)

def applyEach (db : DB) : List NamedChangeSet → Update DBError DB
  | [] => .ok db
  | cs :: changeSets =>
    match db.applyChangeSet cs.name cs.changeset with
    | .error f => .error f
    | .ok db => db.applyEach changeSets

def applyChangeSets (db : DB) (changeSets : List NamedChangeSet) : Update DBError DB :=
  if changeSets = [] then .ok db
  else if db.readOnly then .error ⟨.readOnly, db⟩
  else if db.pendingLog.changesets = [] then
    let db := db.setPendingChangeSets changeSets
    db.onTrees (db.mtree.applyChangeSets changeSets)
  else db.applyEach changeSets

section Commit

variable [Sha256]

/-- The first half of `Commit`: the trees get their version, and the pending log becomes
the entry of that version. -/
def saveVersion (db : DB) : Except (Failure DBError DB) (WalEntry × DB) :=
  if db.readOnly then .error ⟨.readOnly, db⟩
  else
    match db.onTrees (db.mtree.saveVersion true) with
    | .error f => .error f
    | .ok db => .ok (⟨walIndex db.mtree.version db.mtree.initialVersion, db.pendingLog.entry⟩, db)

def clearPending (db : DB) : DB :=
  { db.clearPendingChangesetMap with pendingLog := .empty }

end Commit

end DB

/-- `writeEntry` for a batch of entries, and `WriteBatch`. An entry that the log has already
is left out. -/
def writeEntries {P : Type} [WALCodec P] (log : IndexedLog P) (entries : List WalEntry) :
    Option (IndexedLog P) :=
  log.writeBatch ((entries.filter fun e => log.lastIndex < e.index).map fun e =>
    (e.index, marshal e.data))

end CronosStore.Memiavl
