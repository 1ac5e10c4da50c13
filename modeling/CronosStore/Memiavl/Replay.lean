import CronosStore.Foundation.IndexedLog
import CronosStore.Memiavl.Lockstep

/-!
# The write-ahead log and its replay

A block is written to the log as one `WALEntry`: the store upgrades, then the change sets.
`catchupWAL` brings trees forward by the entries after their version. It replays without
computing hashes, so on the way the trees only agree with the live ones up to the commit
info and the metadata (`Agree`); the commit info is rebuilt at the end.

The bytes of an entry are of a type `P` with the two conversions of `WALCodec`.
-/

namespace CronosStore.Memiavl

open Foundation

structure WALEntry where
  changesets : List NamedChangeSet
  upgrades : List TreeNameUpgrade
deriving DecidableEq

structure KVPair.Alike (p q : KVPair) : Prop where
  delete : p.delete = q.delete
  key : p.key = q.key
  value : p.value.getD [] = q.value.getD []

structure NamedChangeSet.Alike (c d : NamedChangeSet) : Prop where
  name : c.name = d.name
  changeset : List.Forall₂ KVPair.Alike c.changeset d.changeset

structure WALEntry.Alike (e f : WALEntry) : Prop where
  changesets : List.Forall₂ NamedChangeSet.Alike e.changesets f.changesets
  upgrades : e.upgrades = f.upgrades

/-- The protobuf encoding of entries. What is decoded differs from what was encoded at most
in nil and empty byte slices. -/
class WALCodec (P : Type) where
  marshal : WALEntry → P
  unmarshal : P → Option WALEntry
  unmarshal_marshal : ∀ entry, ∃ entry', unmarshal (marshal entry) = some entry' ∧
    WALEntry.Alike entry entry'

export WALCodec (marshal unmarshal)

theorem NamedChangeSet.Alike.refl (c : NamedChangeSet) : c.Alike c :=
  ⟨rfl, List.forall₂_same.mpr fun _ _ => ⟨rfl, rfl, rfl⟩⟩

instance : WALCodec WALEntry where
  marshal := id
  unmarshal := some
  unmarshal_marshal entry :=
    ⟨entry, rfl, List.forall₂_same.mpr fun c _ => NamedChangeSet.Alike.refl c, rfl⟩

inductive CatchupError
  | invalidEndVersion (endVersion : Int)
  | targetPruned (endIndex : Nat)
  | readFailed (index : Nat)
  | unmarshalFailed
  | replayEntryFailed (error : MultiTreeError)
  | replayChangeSetFailed (error : MultiTreeError)
deriving DecidableEq

namespace MultiTree

def applyWALEntry (t : MultiTree) (entry : WALEntry) : Update MultiTreeError MultiTree :=
  match t.applyUpgrades entry.upgrades with
  | .error f => .error f
  | .ok t => t.applyChangeSets entry.changesets

variable [Sha256] {P : Type} [WALCodec P]

def replay (log : IndexedLog P) : Nat → Nat → MultiTree → Except CatchupError MultiTree
  | 0, _, t => .ok t
  | n + 1, index, t =>
    match log.read index with
    | none => .error (.readFailed index)
    | some bz =>
      match unmarshal bz with
      | none => .error .unmarshalFailed
      | some entry =>
        match t.applyWALEntry entry with
        | .error f => .error (.replayEntryFailed f.error)
        | .ok t =>
          match t.saveVersion false with
          | .error f => .error (.replayChangeSetFailed f.error)
          | .ok t => replay log n (index + 1) t

/-- `catchupWAL`; the end version 0 is the latest one. -/
def catchupWAL (t : MultiTree) (log : IndexedLog P) (endVersion : Int) :
    Except CatchupError MultiTree :=
  if endVersion < 0 then .error (.invalidEndVersion endVersion)
  else
    let lastIndex := log.lastIndex
    let firstIndex := walIndex (nextVersion t.version t.initialVersion) t.initialVersion
    -- already up-to-date
    if firstIndex > lastIndex then .ok t
    else
      let endIndex := if endVersion = 0 then lastIndex else walIndex endVersion t.initialVersion
      if endIndex < firstIndex then .error (.targetPruned endIndex)
      else
        let endIndex := min endIndex lastIndex
        match replay log (endIndex + 1 - firstIndex) firstIndex t with
        | .error e => .error e
        | .ok t => .ok t.updateCommitInfo

/-! ## What replay depends on -/

/-- The same trees at the same version; the commit info and the metadata may differ. -/
structure Agree (a b : MultiTree) : Prop where
  initialVersion : a.initialVersion = b.initialVersion
  trees : a.trees = b.trees
  treesByName : a.treesByName = b.treesByName
  version : a.version = b.version

structure Same (a b : MultiTree) : Prop extends Agree a b where
  lastCommitInfo : a.lastCommitInfo = b.lastCommitInfo

section Agree

variable {a b a' b' c : MultiTree}

section

omit [Sha256]

theorem Agree.refl (a : MultiTree) : a.Agree a := ⟨rfl, rfl, rfl, rfl⟩

theorem Agree.trans (h : a.Agree b) (h' : b.Agree c) : a.Agree c :=
  ⟨h.initialVersion.trans h'.initialVersion, h.trees.trans h'.trees,
    h.treesByName.trans h'.treesByName, h.version.trans h'.version⟩

theorem Agree.symm (h : a.Agree b) : b.Agree a :=
  ⟨h.initialVersion.symm, h.trees.symm, h.treesByName.symm, h.version.symm⟩

theorem Same.refl (a : MultiTree) : a.Same a := ⟨.refl a, rfl⟩

theorem Same.trans (h : a.Same b) (h' : b.Same c) : a.Same c :=
  ⟨h.toAgree.trans h'.toAgree, h.lastCommitInfo.trans h'.lastCommitInfo⟩

theorem Same.symm (h : a.Same b) : b.Same a := ⟨h.toAgree.symm, h.lastCommitInfo.symm⟩

theorem Agree.indexed (h : a.Agree b) (ha : a.Indexed) : b.Indexed :=
  ⟨h.trees ▸ ha.sorted, h.trees ▸ h.treesByName ▸ ha.index⟩

theorem Agree.applyUpgrades (h : a.Agree b) {upgrades : List TreeNameUpgrade}
    (ha : a.applyUpgrades upgrades = .ok a') :
    ∃ b', b.applyUpgrades upgrades = .ok b' ∧ a'.Agree b' := by
  unfold MultiTree.applyUpgrades at ha ⊢
  rw [← h.trees, ← h.initialVersion, ← h.version]
  split_ifs at ha ⊢
  · cases ha
    exact ⟨b, rfl, h⟩
  · split at ha
    · cases ha
    · simp only at ha ⊢
      split at ha
      · cases ha
      · cases ha
        exact ⟨_, rfl, rfl, rfl, rfl, h.version⟩

theorem Agree.applyChangeSets (h : a.Agree b) (hi : a.Indexed) {changeSets : List NamedChangeSet}
    (ha : a.applyChangeSets changeSets = .ok a') :
    ∃ b', b.applyChangeSets changeSets = .ok b' ∧ a'.Agree b' := by
  obtain ⟨hall, rfl⟩ := hi.applyChangeSets_ok.mp ha
  refine ⟨_, (h.indexed hi).applyChangeSets_ok.mpr ⟨fun cs hcs => ?_, rfl⟩, h.initialVersion, ?_,
    h.treesByName, h.version⟩
  · obtain ⟨e, he, hn⟩ := hall cs hcs
    exact ⟨e, h.trees ▸ he, hn⟩
  · simp only [applyPairs, mapTrees, h.trees]

theorem applyWALEntry_ok {entry : WALEntry} :
    a.applyWALEntry entry = .ok a' ↔ ∃ m, a.applyUpgrades entry.upgrades = .ok m ∧
      m.applyChangeSets entry.changesets = .ok a' := by
  unfold applyWALEntry
  cases a.applyUpgrades entry.upgrades with
  | error f => simp
  | ok m => simp

end

theorem Agree.saveVersion (h : a.Agree b) {update update' : Bool}
    (ha : a.saveVersion update = .ok a') : ∃ b', b.saveVersion update' = .ok b' ∧ a'.Agree b' := by
  obtain ⟨hmax, rfl⟩ := saveVersion_ok.mp ha
  refine ⟨_, saveVersion_ok.mpr ⟨h.trees ▸ hmax, rfl⟩, h.initialVersion, ?_, h.treesByName, ?_⟩
  · simp only [bump, mapTrees, h.trees]
  · simp only [MultiTree.version, buildCommitInfo]
    rw [show a.lastCommitInfo.version = b.lastCommitInfo.version from h.version, h.initialVersion]
    cases update <;> cases update' <;> rfl

theorem Agree.updateCommitInfo (h : a.Agree b) : a.updateCommitInfo.Same b.updateCommitInfo := by
  refine ⟨⟨h.initialVersion, h.trees, h.treesByName, h.version⟩, ?_⟩
  simp only [MultiTree.updateCommitInfo, buildCommitInfo, h.trees]
  rw [show a.lastCommitInfo.version = b.lastCommitInfo.version from h.version]

end Agree

/-! ## What is decoded has the same effect -/

section Alike

omit [Sha256]

theorem applyChangeSet_alike {c d : ChangeSet} (h : List.Forall₂ KVPair.Alike c d) (t : Tree) :
    t.applyChangeSet c = t.applyChangeSet d := by
  unfold Tree.applyChangeSet
  induction h generalizing t with
  | nil => rfl
  | @cons p q c d hpq _ ih =>
    have hp : t.applyPair p = t.applyPair q := by
      simp only [Tree.applyPair, Tree.set, hpq.delete, hpq.key, hpq.value]
    rw [List.foldl_cons, List.foldl_cons, hp, ih]

theorem applyChangeSets_alike {l l' : List NamedChangeSet}
    (h : List.Forall₂ NamedChangeSet.Alike l l') (t : MultiTree) {t' : MultiTree}
    (ht : t.applyChangeSets l = .ok t') : t.applyChangeSets l' = .ok t' := by
  induction h generalizing t with
  | nil => exact ht
  | @cons c d l l' hcd _ ih =>
    have hc : t.applyChangeSet c.name c.changeset = t.applyChangeSet d.name d.changeset := by
      simp only [MultiTree.applyChangeSet, hcd.name, applyChangeSet_alike hcd.changeset]
    rw [MultiTree.applyChangeSets] at ht ⊢
    rw [← hc]
    cases h1 : t.applyChangeSet c.name c.changeset with
    | error f => simp only [h1] at ht; cases ht
    | ok t1 =>
      simp only [h1] at ht ⊢
      exact ih t1 ht

theorem applyWALEntry_alike {e e' : WALEntry} (h : e.Alike e') {t t' : MultiTree}
    (ht : t.applyWALEntry e = .ok t') : t.applyWALEntry e' = .ok t' := by
  obtain ⟨m, hm, ht⟩ := applyWALEntry_ok.mp ht
  exact applyWALEntry_ok.mpr ⟨m, h.upgrades ▸ hm, applyChangeSets_alike h.changesets m ht⟩

end Alike

/-! ## Chains of blocks -/

def commitEntry (t : MultiTree) (entry : WALEntry) : Update MultiTreeError MultiTree :=
  match t.applyWALEntry entry with
  | .error f => .error f
  | .ok t => t.saveVersion true

omit [WALCodec P] in
theorem commitEntry_ok {t t' : MultiTree} {entry : WALEntry} :
    t.commitEntry entry = .ok t' ↔
      ∃ m, t.applyWALEntry entry = .ok m ∧ m.saveVersion true = .ok t' := by
  unfold commitEntry
  cases t.applyWALEntry entry with
  | error f => simp
  | ok m => simp

def LogHolds (log : IndexedLog P) (index : Nat) (entry : WALEntry) : Prop :=
  log.read index = some (marshal entry)

theorem replay_succ {log : IndexedLog P} {index : Nat} {entry : WALEntry}
    (hlog : LogHolds log index entry) {a a' b : MultiTree} (hi : a.Indexed) (h : a.Agree b)
    (ha : a.commitEntry entry = .ok a') :
    ∃ b', a'.Agree b' ∧ ∀ n, replay log (n + 1) index b = replay log n (index + 1) b' := by
  obtain ⟨m, hm, ha⟩ := commitEntry_ok.mp ha
  obtain ⟨entry', hdec, halike⟩ := WALCodec.unmarshal_marshal (P := P) entry
  obtain ⟨u, hu, hm⟩ := applyWALEntry_ok.mp hm
  obtain ⟨u', hu', hagree⟩ := h.applyUpgrades hu
  obtain ⟨m', hm', hagree'⟩ := hagree.applyChangeSets (hi.applyUpgrades hu) hm
  obtain ⟨b', hb', hagree''⟩ : ∃ b', m'.saveVersion false = .ok b' ∧ a'.Agree b' :=
    hagree'.saveVersion ha
  have hentry := applyWALEntry_alike halike (applyWALEntry_ok.mpr ⟨u', hu', hm'⟩)
  refine ⟨b', hagree'', fun n => ?_⟩
  simp only [replay, show log.read index = _ from hlog, hdec, hentry, hb']

end MultiTree

end CronosStore.Memiavl
