import CronosStore.Foundation.StableSort
import CronosStore.Memiavl.ImportFiles
import CronosStore.VersionDB.Verify

/-!
# Verification from a snapshot

The command `verify` of `versiondb/client/verify.go`: the stores are replayed by tasks that end
in any order, each from the tree of its name in the snapshot that was loaded, or from an empty
one. The trees can be saved as a snapshot for the next run.

A run up to a version and a second one from its snapshot come to the result of a single run:
the second run skips what the first one has applied (`foldl_replayAt_resume`), and a store that
starts later is not in the snapshot.
-/

namespace CronosStore.Memiavl

open Foundation List SortedAssoc

section Files

variable [Sha256]

def Tree.writeSnapshot (t : Tree) : Except WriteError SnapshotDir :=
  Memiavl.writeSnapshot Node.interface (fun _ => false) t.version t.root

inductive LoadFilesError
  | openSnapshot (error : SnapshotError)
  /-- The records of a tree are out of range. -/
  | panic
  | mtree (error : LoadError)
deriving DecidableEq

omit [Sha256] in
def openTree (dir : MultiTreeDir) (entry : Name × SnapshotDir) : Except LoadFilesError MultiTreeDir :=
  match openSnapshot entry.2 with
  | .error e => .error (.openSnapshot e)
  | .ok snapshot =>
    match snapshot.tree with
    | none => .error .panic
    | some tree => .ok (dir.writeTree entry.1 tree)

def SnapshotFiles.load (files : SnapshotFiles) : Except LoadFilesError MultiTree :=
  match files.trees.foldlM openTree { MultiTreeDir.empty with metadata := files.metadata.join } with
  | .error e => .error e
  | .ok dir =>
    match loadMultiTree dir with
    | .error e => .error (.mtree e)
    | .ok mtree => .ok mtree

end Files

end CronosStore.Memiavl

namespace CronosStore.VersionDB

open Foundation Memiavl List SortedAssoc

inductive VerifyCmdError
  | load (error : LoadFilesError)
  | verify (error : VerifyError)
  | write (error : WriteError)
deriving DecidableEq

structure Verification where
  storeInfos : List StoreInfo
  lastestVersion : Int
  saved : SnapshotFiles

section Definitions

variable [Sha256]

def verifyTask (mtree : MultiTree) (changeSetDir : Name → List Bytes) (saveSnapshot : Bool)
    (targetVersion : Int) (v : Verification) (store : Name) : Except VerifyCmdError Verification :=
  let tree := (mtree.treeByName store).getD ⟨0, none⟩
  match verifyOneStore tree store (changeSetDir store) targetVersion with
  | .error e => .error (.verify e)
  -- the store does not exist before the target version
  | .ok (none, _) => .ok v
  | .ok (some info, tree) =>
    match if saveSnapshot then tree.writeSnapshot.map (v.saved.setTree store) else .ok v.saved with
    | .error e => .error (.write e)
    | .ok saved => .ok {
        storeInfos := v.storeInfos ++ [info]
        lastestVersion :=
          if info.commitId.version > v.lastestVersion then info.commitId.version else v.lastestVersion
        saved := saved }

def buildCommitInfo (storeInfos : List StoreInfo) (version : Int) : CommitInfo :=
  ⟨version, sortBy StoreInfo.name storeInfos⟩

def startTrees : Option SnapshotFiles → Except LoadFilesError MultiTree
  | none => .ok (.newEmptyMultiTree 0)
  | some loadSnapshot => loadSnapshot.load

/-- `VerifyChangeSetCmd`, where the tasks of the stores end in the given order: the commit info
that is put out, and what is saved. -/
def verifyChangeSet (loadSnapshot : Option SnapshotFiles) (saveSnapshot : Bool)
    (changeSetDir : Name → List Bytes) (targetVersion : Int) (order : List Name) :
    Except VerifyCmdError (CommitInfo × SnapshotFiles) :=
  match startTrees loadSnapshot with
  | .error e => .error (.load e)
  | .ok mtree =>
    match order.foldlM (verifyTask mtree changeSetDir saveSnapshot targetVersion) ⟨[], 0, .empty⟩ with
    | .error e => .error e
    | .ok v =>
      let commitInfo := buildCommitInfo v.storeInfos v.lastestVersion
      let metadata : MultiTreeMetadata := ⟨some commitInfo, 0⟩
      .ok (commitInfo,
        { v.saved with metadata := if saveSnapshot then some (some metadata) else none })

end Definitions

/-! ## Resuming a replay -/

def replayAt (t : Tree) (e : Int × ChangeSet) : Tree :=
  if e.1 ≤ t.version then t else applyAt t e

section Replay

variable {t : Tree} {target : Int} {l : List (Int × ChangeSet)}

variable {e : Int × ChangeSet} {v : Int}

theorem replayChangeSet_replayAt (hle : e.1 ≤ maxUint32) :
    replayChangeSet target e.1 e.2 t =
      .ok (decide (e.1 ≤ t.version ∨ target = 0 ∨ e.1 < target), replayAt t e) := by
  by_cases h : e.1 ≤ t.version
  · simp [replayChangeSet, replayAt, h]
  · rw [replayChangeSet_ok e.2 (by omega) hle, replayAt, if_neg h]
    simp [h]

theorem le_version_replayAt (t : Tree) (e : Int × ChangeSet) :
    t.version ≤ (replayAt t e).version ∧ e.1 ≤ (replayAt t e).version := by
  rw [replayAt]
  split_ifs with h
  · exact ⟨le_rfl, h⟩
  · rw [applyAt_version]
    omega

theorem replayAt_of_le (h : e.1 ≤ t.version) : replayAt t e = t := if_pos h

theorem foldl_replayAt_of_le (h : ∀ e ∈ l, e.1 ≤ t.version) : l.foldl replayAt t = t := by
  induction l with
  | nil => rfl
  | cons e l ih =>
    obtain ⟨he, h⟩ := forall_mem_cons.mp h
    rw [foldl_cons, replayAt_of_le he, ih h]

theorem iterateList_all (hle : ∀ e ∈ l, e.1 ≤ maxUint32) :
    iterateList .read (replayChangeSet 0) (.read .eof) l t = .ok (l.foldl replayAt t) := by
  induction l generalizing t with
  | nil => rfl
  | cons e l ih =>
    obtain ⟨he, hle⟩ := forall_mem_cons.mp hle
    rw [iterateList, replayChangeSet_replayAt he]
    simp only [true_or, or_true, decide_true, if_true]
    exact ih hle

theorem replayFiles_all {files : List FileWithVersion}
    (heof : ∀ f ∈ files, (fileChangeSets f.content).2 = .read .eof)
    (hle : ∀ e ∈ changeSetsOf files, e.1 ≤ maxUint32) :
    replayFiles 0 files t = .ok ((changeSetsOf files).foldl replayAt t) := by
  induction files generalizing t with
  | nil => rfl
  | cons f files ih =>
    obtain ⟨heof1, heof⟩ := forall_mem_cons.mp heof
    have hsplit : changeSetsOf (f :: files) = (fileChangeSets f.content).1 ++ changeSetsOf files :=
      flatMap_cons
    rw [hsplit] at hle
    have hone := iterateList_all (t := t) fun e he => hle e (mem_append_left _ he)
    rw [← heof1] at hone
    rw [replayFiles, if_neg (by simp), iterateChangeSets_result, hone]
    simp only [gt_iff_lt, lt_self_iff_false, false_and, if_false]
    rw [ih heof fun e he => hle e (mem_append_right _ he), hsplit, foldl_append]

def Consecutive : Int → List (Int × ChangeSet) → Prop
  | _, [] => True
  | v, e :: l => e.1 = v ∧ Consecutive (v + 1) l

theorem consecutive_append {l l' : List (Int × ChangeSet)} :
    Consecutive v (l ++ l') ↔ Consecutive v l ∧ Consecutive (v + l.length) l' := by
  induction l generalizing v with
  | nil => simp [Consecutive]
  | cons e l ih =>
    have hlen : v + ((e :: l).length : Nat) = v + 1 + (l.length : Nat) := by
      rw [length_cons]
      omega
    rw [cons_append, Consecutive, Consecutive, ih, hlen, and_assoc]

theorem Consecutive.le (h : Consecutive v l) (he : e ∈ l) :
    v ≤ e.1 ∧ e.1 < v + l.length := by
  induction l generalizing v with
  | nil => cases he
  | cons f l ih =>
    obtain ⟨hf, h⟩ := h
    rw [length_cons]
    rcases mem_cons.mp he with rfl | he
    · omega
    · have := ih h he
      omega

def upTo (target : Int) (l : List (Int × ChangeSet)) : List (Int × ChangeSet) :=
  l.filter fun e => e.1 ≤ target

theorem upTo_append (target : Int) (l l' : List (Int × ChangeSet)) :
    upTo target (l ++ l') = upTo target l ++ upTo target l' := filter_append ..

theorem upTo_eq_nil (h : ∀ e ∈ l, target < e.1) : upTo target l = [] := by
  refine filter_eq_nil_iff.mpr fun e he => ?_
  have := h e he
  simp only [decide_eq_true_eq, not_le]
  exact this

theorem iterateList_upTo (htarget : 0 < target) (hl : Consecutive v l)
    (hstart : v ≤ t.version + 1) (ht : (t.version : Int) < target) (hle : ∀ e ∈ l, e.1 ≤ maxUint32) :
    iterateList .read (replayChangeSet target) (.read .eof) l t = .ok ((upTo target l).foldl replayAt t) ∧
      ((((upTo target l).foldl replayAt t).version : Int) = target ∧ target < v + l.length ∨
        (((upTo target l).foldl replayAt t).version : Int) < target ∧
          v + l.length ≤ ((upTo target l).foldl replayAt t).version + 1) := by
  induction l generalizing v t with
  | nil => exact ⟨rfl, .inr ⟨ht, by simpa [upTo] using hstart⟩⟩
  | cons e l ih =>
    obtain ⟨rfl, hl⟩ := hl
    obtain ⟨he, hle⟩ := forall_mem_cons.mp hle
    have hkeep : upTo target (e :: l) = e :: upTo target l :=
      filter_cons_of_pos (by simp only [decide_eq_true_eq]; omega)
    have hlen : e.1 + ((e :: l).length : Nat) = e.1 + 1 + (l.length : Nat) := by
      rw [length_cons]
      omega
    rw [iterateList, replayChangeSet_replayAt he, hkeep, foldl_cons, hlen]
    simp only [decide_eq_true_eq]
    obtain ⟨hmono, hreach⟩ := le_version_replayAt t e
    by_cases hstop : e.1 = target
    · -- the rest of the file is behind the target
      have hnil : upTo target l = [] := upTo_eq_nil fun f hf => by
        have := (hl.le hf).1
        omega
      have hver : ((replayAt t e).version : Int) = target := by
        rw [replayAt, if_neg (by omega), applyAt_version]
        omega
      rw [if_neg (by omega), hnil]
      exact ⟨rfl, .inl ⟨hver, by omega⟩⟩
    · have hver : ((replayAt t e).version : Int) < target := by
        rw [replayAt]
        split_ifs
        · exact ht
        · rw [applyAt_version]
          omega
      rw [if_pos (by omega)]
      exact ih hl (by omega) hver hle

theorem version_eq_first {f : FileWithVersion} (hf : readFirstVersion f.content = .ok f.version)
    (hl : (fileChangeSets f.content).1 = e :: l) (hpos : 0 ≤ e.1) : (f.version : Int) = e.1 := by
  have hfirst := first_fileChangeSets hf hl
  have hlt := readFirstVersion_lt hf
  rw [← hfirst] at hpos ⊢
  unfold toInt64 at hpos ⊢
  split_ifs at hpos ⊢ <;> omega

theorem replayFiles_upTo {files : List FileWithVersion}
    (hversion : ∀ f ∈ files, readFirstVersion f.content = .ok f.version)
    (hnonempty : ∀ f ∈ files, (fileChangeSets f.content).1 ≠ [])
    (heof : ∀ f ∈ files, (fileChangeSets f.content).2 = .read .eof)
    (hl : Consecutive v (changeSetsOf files)) (hpos : 0 ≤ v) (hstart : v ≤ t.version + 1)
    (ht : (t.version : Int) < target) (hle : ∀ e ∈ changeSetsOf files, e.1 ≤ maxUint32) :
    replayFiles target files t = .ok ((upTo target (changeSetsOf files)).foldl replayAt t) ∧
      ((((upTo target (changeSetsOf files)).foldl replayAt t).version : Int) = target ∨
        v + (changeSetsOf files).length ≤ target) := by
  induction files generalizing t v with
  | nil => exact ⟨rfl, .inr (by simp only [changeSetsOf, flatMap_nil, length_nil]; omega)⟩
  | cons f files ih =>
    obtain ⟨hversion1, hversion⟩ := forall_mem_cons.mp hversion
    obtain ⟨hnonempty1, hnonempty⟩ := forall_mem_cons.mp hnonempty
    obtain ⟨heof1, heof⟩ := forall_mem_cons.mp heof
    have hsplit : changeSetsOf (f :: files) = (fileChangeSets f.content).1 ++ changeSetsOf files :=
      flatMap_cons
    rw [hsplit] at hl hle ⊢
    obtain ⟨hl1, hl⟩ := consecutive_append.mp hl
    have hopen : (f.version : Int) = v := by
      cases hc : (fileChangeSets f.content).1 with
      | nil => exact absurd hc hnonempty1
      | cons e l =>
        rw [hc] at hl1
        obtain ⟨rfl, -⟩ := hl1
        exact version_eq_first hversion1 hc hpos
    obtain ⟨hone, hend⟩ := iterateList_upTo (by omega) hl1 hstart ht
      fun e he => hle e (mem_append_left _ he)
    rw [← heof1] at hone
    rw [replayFiles, if_neg (by omega), iterateChangeSets_result, hone, upTo_append, foldl_append]
    simp only
    rcases hend with ⟨hver, hlast⟩ | ⟨hver, hnext⟩
    · -- the target is reached in this file
      have hnil : upTo target (changeSetsOf files) = [] := upTo_eq_nil fun e he => by
        have := (hl.le he).1
        omega
      rw [if_pos (by omega), hnil]
      exact ⟨rfl, .inl hver⟩
    · rw [if_neg (by omega), length_append]
      obtain ⟨hrest, hend⟩ := ih hversion hnonempty heof hl (by omega) hnext hver
        fun e he => hle e (mem_append_right _ he)
      refine ⟨hrest, hend.imp_right fun h => ?_⟩
      omega

/-- What was applied up to the target is skipped, and the rest follows. -/
theorem foldl_replayAt_resume (hl : Consecutive v l)
    (htarget : (((upTo target l).foldl replayAt t).version : Int) = target) :
    l.foldl replayAt ((upTo target l).foldl replayAt t) = l.foldl replayAt t := by
  have hsplit : ∃ r, l = upTo target l ++ r := by
    clear htarget
    induction l generalizing v with
    | nil => exact ⟨[], rfl⟩
    | cons e l ih =>
      obtain ⟨rfl, hl⟩ := hl
      by_cases he : e.1 ≤ target
      · obtain ⟨r, hr⟩ := ih hl
        refine ⟨r, ?_⟩
        rw [upTo, filter_cons_of_pos (by simpa using he), cons_append]
        exact congrArg (e :: ·) hr
      · refine ⟨e :: l, ?_⟩
        rw [upTo_eq_nil, nil_append]
        intro f hf
        rcases mem_cons.mp hf with rfl | hf
        · omega
        · have := (hl.le hf).1
          omega
  obtain ⟨r, hr⟩ := hsplit
  have hskip : (upTo target l).foldl replayAt ((upTo target l).foldl replayAt t) =
      (upTo target l).foldl replayAt t := by
    refine foldl_replayAt_of_le fun e he => ?_
    rw [htarget]
    simpa using (mem_filter.mp he).2
  calc l.foldl replayAt ((upTo target l).foldl replayAt t)
      = (upTo target l ++ r).foldl replayAt ((upTo target l).foldl replayAt t) := by rw [← hr]
    _ = r.foldl replayAt ((upTo target l).foldl replayAt t) := by rw [foldl_append, hskip]
    _ = (upTo target l ++ r).foldl replayAt t := by rw [foldl_append]
    _ = l.foldl replayAt t := by rw [← hr]

end Replay

structure EveryVersion (files : List Bytes) (sorted : List FileWithVersion) (first last : Int) : Prop where
  sorted_eq : sortFilesByFirstVersion files = .ok sorted
  nonempty : ∀ f ∈ sorted, (fileChangeSets f.content).1 ≠ []
  eof : ∀ f ∈ sorted, (fileChangeSets f.content).2 = .read .eof
  consecutive : Consecutive first (changeSetsOf sorted)
  length : first + (changeSetsOf sorted).length = last + 1
  le : first ≤ last

def startTree (first : Int) : Tree := Tree.setInitialVersion ⟨0, none⟩ (first % 2 ^ 32).toNat

def treeAt (first target : Int) (files : List FileWithVersion) : Tree :=
  (upTo target (changeSetsOf files)).foldl replayAt (startTree first)

theorem Tree.Sound.replayAt {t : Tree} (ht : t.Sound) {e : Int × ChangeSet} (he : e.1 < maxUint32) :
    (VersionDB.replayAt t e).Sound := by
  rw [VersionDB.replayAt]
  split_ifs with hle
  · exact ht
  · have hpair : ∀ (s : Tree) (p : KVPair), s.Sound → (s.applyPair p).Sound := by
      intro s p hs
      unfold Tree.applyPair
      split_ifs
      · exact hs.remove p.key
      · exact hs.set p.key p.value
    have hset : ∀ (cs : ChangeSet) (s : Tree), s.Sound → (s.applyChangeSet cs).Sound := by
      intro cs
      induction cs with
      | nil => exact fun s hs => hs
      | cons p cs ih => exact fun s hs => ih _ (hpair s p hs)
    have hversions : Tree.VersionsLE (e.1.toNat - 1 + 1) ⟨e.1.toNat - 1, t.root⟩ := by
      intro n hn
      exact (ht.versions n hn).mono (by omega)
    have hnew := hset e.2 ⟨e.1.toNat - 1, t.root⟩
      ⟨ht.valid, by simp only; omega, hversions, ht.mono⟩
    refine ⟨hnew.valid, by rw [applyAt_version]; omega, fun n hn => ?_, hnew.mono⟩
    refine (hnew.versions n hn).mono ?_
    rw [applyAt_version, Tree.applyChangeSet_version]
    simp only
    omega

theorem sound_treeAt {first target : Int} {files : List FileWithVersion} (htarget : target < maxUint32) :
    (treeAt first target files).Sound := by
  have hstart : (startTree first).Sound := by
    have hroot : (startTree first).root = none := by
      rw [startTree, Tree.setInitialVersion]
      split_ifs <;> rfl
    refine ⟨?_, ?_, ?_, ?_⟩
    · intro n hn
      rw [hroot] at hn
      cases hn
    · rw [startTree, Tree.setInitialVersion, maxUint32]
      split_ifs <;> simp only <;> omega
    · intro n hn
      rw [hroot] at hn
      cases hn
    · intro n hn
      rw [hroot] at hn
      cases hn
  have hfold : ∀ (l : List (Int × ChangeSet)) (t : Tree), (∀ e ∈ l, e.1 < maxUint32) → t.Sound →
      (l.foldl replayAt t).Sound := by
    intro l
    induction l with
    | nil => exact fun t _ ht => ht
    | cons e l ih =>
      intro t hl ht
      obtain ⟨he, hl⟩ := forall_mem_cons.mp hl
      exact ih _ hl (Tree.Sound.replayAt ht he)
  refine hfold _ _ (fun e he => ?_) hstart
  have hle : e.1 ≤ target := by simpa using (mem_filter.mp he).2
  omega

section Store

variable {files : List Bytes} {sorted : List FileWithVersion} {first last target : Int} {store : Name}

theorem EveryVersion.le_last (h : EveryVersion files sorted first last) {e : Int × ChangeSet}
    (he : e ∈ changeSetsOf sorted) : e.1 ≤ last := by
  have hlt := (h.consecutive.le he).2
  have hlen := h.length
  omega

theorem EveryVersion.head (h : EveryVersion files sorted first last) :
    ∃ f fs, sorted = f :: fs ∧ toInt64 f.version = first ∧ (0 ≤ first → (f.version : Int) = first) ∧
      f.version < 2 ^ 64 := by
  have hlen := h.length
  have hle := h.le
  cases sorted with
  | nil =>
    simp only [changeSetsOf, flatMap_nil, length_nil] at hlen
    omega
  | cons f fs =>
    have hread := (sortFiles_eq h.sorted_eq).1 f mem_cons_self
    have hcons := h.consecutive
    cases hc : (fileChangeSets f.content).1 with
    | nil => exact absurd hc (h.nonempty f mem_cons_self)
    | cons e l =>
      rw [changeSetsOf, flatMap_cons, hc, cons_append] at hcons
      obtain ⟨rfl, -⟩ := hcons
      exact ⟨f, fs, rfl, first_fileChangeSets hread hc, version_eq_first hread hc,
        readFirstVersion_lt hread⟩

variable [Sha256]

section

variable (h : EveryVersion files sorted first last)
include h

theorem EveryVersion.verifyOneStore_all
    (hfirst : first < maxUint32) (hlast : last ≤ maxUint32) (tree : Tree) :
    verifyOneStore tree store files 0 =
      let t := (changeSetsOf sorted).foldl replayAt (tree.setInitialVersion (first % 2 ^ 32).toNat)
      .ok (some ⟨store, lastCommitID t⟩, t) := by
  obtain ⟨f, fs, rfl, hint, -⟩ := h.head
  have hall := replayFiles_all (t := tree.setInitialVersion (first % 2 ^ 32).toNat) h.eof
    fun e he => (h.le_last he).trans hlast
  rw [verifyOneStore, h.sorted_eq]
  simp only [gt_iff_lt, lt_self_iff_false, false_and, if_false]
  rw [hint, setInitialVersion, if_neg (by omega)]
  simp only [hall]

theorem EveryVersion.verifyOneStore_before
    (htarget : 0 < target) (hmax : target < 2 ^ 63) (hnot : ¬(0 ≤ first ∧ first ≤ target)) (tree : Tree) :
    verifyOneStore tree store files target = .ok (none, tree) := by
  obtain ⟨f, fs, rfl, hint, hnat, hlt⟩ := h.head
  have hgt : (f.version : Int) > target := by
    unfold toInt64 at hint
    split_ifs at hint
    · have := hnat (by omega)
      omega
    · omega
  rw [verifyOneStore, h.sorted_eq]
  simp only
  rw [if_pos ⟨htarget, hgt⟩]

theorem EveryVersion.verifyOneStore_at (htarget : 0 < target)
    (hfirst : 0 ≤ first ∧ first ≤ target) (hle : target ≤ last) (hmax : first < maxUint32)
    (hlast : last ≤ maxUint32) :
    verifyOneStore ⟨0, none⟩ store files target =
        .ok (some ⟨store, lastCommitID (treeAt first target sorted)⟩, treeAt first target sorted) ∧
      ((treeAt first target sorted).version : Int) = target := by
  have hstart : first ≤ (startTree first).version + 1 ∧ ((startTree first).version : Int) < target := by
    have hmod : (first % 2 ^ 32).toNat = first.toNat := by
      rw [maxUint32] at hmax
      omega
    rw [startTree, Tree.setInitialVersion, hmod, if_neg (Nat.lt_irrefl 0)]
    split_ifs <;> simp only <;> omega
  have hlen := h.length
  obtain ⟨hrep, hend⟩ := replayFiles_upTo (sortFiles_eq h.sorted_eq).1 h.nonempty h.eof h.consecutive
    hfirst.1 hstart.1 hstart.2 fun e he => (h.le_last he).trans hlast
  have hver : ((treeAt first target sorted).version : Int) = target := by
    rcases hend with hver | hbehind
    · exact hver
    · omega
  refine ⟨?_, hver⟩
  obtain ⟨f, fs, rfl, hint, hnat, -⟩ := h.head
  have hadv : advanceTreeVersion (treeAt first target (f :: fs)) target =
      .ok (treeAt first target (f :: fs)) := by
    rw [advanceTreeVersion, show (target - ((treeAt first target (f :: fs)).version : Int)).toNat = 0 by
      omega]
    rfl
  have hrep : replayFiles target (f :: fs) (Tree.setInitialVersion ⟨0, none⟩ (first % 2 ^ 32).toNat) =
      .ok (treeAt first target (f :: fs)) := hrep
  rw [verifyOneStore, h.sorted_eq]
  simp only
  rw [hnat hfirst.1, if_neg (by omega), hint, setInitialVersion, if_neg (by omega)]
  simp only [hrep, if_pos (show target > 0 from htarget), hadv]

theorem EveryVersion.verifyOneStore_resume
    (htarget : 0 < target) (hfirst : first < maxUint32) (hlast : last ≤ maxUint32)
    (hver : ((treeAt first target sorted).version : Int) = target) :
    verifyOneStore (treeAt first target sorted) store files 0 = verifyOneStore ⟨0, none⟩ store files 0 := by
  have hkept : (treeAt first target sorted).setInitialVersion (first % 2 ^ 32).toNat =
      treeAt first target sorted := by
    rw [Tree.setInitialVersion, if_pos (by omega)]
  have hresume : (changeSetsOf sorted).foldl replayAt (treeAt first target sorted) =
      (changeSetsOf sorted).foldl replayAt (startTree first) := foldl_replayAt_resume h.consecutive hver
  rw [h.verifyOneStore_all hfirst hlast, h.verifyOneStore_all hfirst hlast, hkept, hresume]
  rfl

end

end Store

structure Writable (t : Tree) : Prop where
  length : t.toList.length < 2 ^ 32
  pairs : ∀ p ∈ t.toList, p.1.length < 2 ^ 32 ∧ (p.2.getD []).length < 2 ^ 32
  kvsSize : t.kvsSize ≤ maxFileSize

def savedDir (tree : Name → Tree) (stores : List Name) : MultiTreeDir :=
  stores.foldl (fun dir store => dir.writeTree store (tree store)) .empty

variable {tree : Name → Tree} {stores : List Name}

theorem mem_foldl_writeTree {dir : MultiTreeDir} {p : Name × Tree} :
    p ∈ (stores.foldl (fun dir store => dir.writeTree store (tree store)) dir).trees ↔
      p.1 ∈ stores ∧ p.2 = tree p.1 ∨ p.1 ∉ stores ∧ p ∈ dir.trees := by
  induction stores generalizing dir with
  | nil => simp
  | cons store stores ih =>
    rw [foldl_cons, ih, MultiTreeDir.writeTree]
    simp only [mem_insert dir.sorted, mem_cons]
    by_cases hs : p.1 = store
    · by_cases hmem : p.1 ∈ stores
      · simp [hmem]
      · subst hs
        simp [hmem, Prod.ext_iff]
    · have hne : p ≠ (store, tree store) := fun h => hs (congrArg Prod.fst h)
      simp [hs, hne]

theorem mem_savedDir {p : Name × Tree} :
    p ∈ (savedDir tree stores).trees ↔ p.1 ∈ stores ∧ p.2 = tree p.1 := by
  rw [savedDir, mem_foldl_writeTree]
  simp [MultiTreeDir.empty]

theorem trees_savedDir (h : stores.Nodup) :
    (savedDir tree stores).trees = sortBy Prod.fst (stores.map fun s => (s, tree s)) := by
  have hkeys : ((stores.map fun s => (s, tree s)).map Prod.fst).Nodup := by
    rw [map_map]
    exact (map_id stores).symm ▸ h
  refine eq_of_lookup (savedDir tree stores).sorted (pairwise_sortBy_lt hkeys) fun k => ?_
  refine Option.ext fun t => ?_
  rw [lookup_eq_some_iff (savedDir tree stores).sorted,
    lookup_eq_some_iff (pairwise_sortBy_lt hkeys), mem_savedDir, mem_sortBy, mem_map]
  constructor
  · rintro ⟨hk, ht⟩
    exact ⟨k, hk, Prod.ext rfl ht.symm⟩
  · rintro ⟨s, hs, heq⟩
    cases heq
    exact ⟨hs, rfl⟩

section Load

variable [Sha256]

variable {dir : MultiTreeDir}

theorem trees_setTree {files : SnapshotFiles} (h : files.trees = dir.files.trees)
    (name : Name) (tree : Tree) :
    (files.setTree name tree.snapshotDir).trees = (dir.writeTree name tree).files.trees := by
  refine SnapshotFiles.eq_of_tree fun k => ?_
  have hdir : ∀ d : MultiTreeDir, d.files.tree k = (d.trees.lookup k).map Tree.snapshotDir :=
    fun d => lookup_map Tree.snapshotDir d.trees k
  rw [hdir, MultiTreeDir.writeTree]
  by_cases hk : k = name
  · subst hk
    rw [SnapshotFiles.tree_setTree_self, lookup_insert_self dir.sorted]
    rfl
  · rw [SnapshotFiles.tree_setTree_of_ne hk, lookup_insert_of_ne dir.sorted hk, ← hdir,
      SnapshotFiles.tree, h]
    rfl

theorem Writable.openTree {t : Tree} (h : Writable t) (ht : t.Sound) (dir : MultiTreeDir) (name : Name) :
    t.writeSnapshot = .ok t.snapshotDir ∧
      Memiavl.openTree dir (name, t.snapshotDir) = .ok (dir.writeTree name t) := by
  have hp := ht.persistable h.length h.pairs
  constructor
  · have hroot : Node.interface.RootDenotes t.root t.root := by
      cases t.root with
      | none => trivial
      | some n => exact n.interface_denotes
    rw [Tree.writeSnapshot, hp.writeSnapshot_eq (fun _ => rfl) hroot, if_pos h.kvsSize]
  · rw [Memiavl.openTree, hp.openSnapshot_eq]
    simp only
    rw [hp.tree_snapshot h.kvsSize]

theorem foldlM_openTree {l : List (Name × Tree)} (h : ∀ p ∈ l, Writable p.2 ∧ p.2.Sound) :
    (l.map fun p => (p.1, p.2.snapshotDir)).foldlM openTree dir =
      .ok (l.foldl (fun dir p => dir.writeTree p.1 p.2) dir) := by
  induction l generalizing dir with
  | nil => rfl
  | cons p l ih =>
    obtain ⟨⟨hw, hs⟩, h⟩ := forall_mem_cons.mp h
    rw [map_cons, foldlM_cons, (hw.openTree hs dir p.1).2]
    exact ih h

omit [Sha256] in
theorem foldl_writeTree_sorted {l : List (Name × Tree)} (h : SortedAssoc.Sorted l)
    (metadata : Option MultiTreeMetadata) :
    l.foldl (fun dir p => dir.writeTree p.1 p.2) { MultiTreeDir.empty with metadata := metadata } =
      ⟨metadata, l, h⟩ := by
  apply MultiTreeDir.ext
  · have hkept : ∀ (l : List (Name × Tree)) (dir : MultiTreeDir),
        (l.foldl (fun dir p => dir.writeTree p.1 p.2) dir).metadata = dir.metadata := by
      intro l
      induction l with
      | nil => exact fun _ => rfl
      | cons p l ih => exact fun dir => ih _
    rw [hkept]
  · have hsorted : (l.map fun p => (⟨p.1, p.2⟩ : NamedTree)).Pairwise fun a b => a.name < b.name :=
      pairwise_map.mpr h
    have hnamed := @MultiTree.foldl_writeTree _ hsorted
      { MultiTreeDir.empty with metadata := metadata } fun p hp => absurd hp not_mem_nil
    rw [foldl_map, map_map] at hnamed
    rw [hnamed]
    exact map_id l

theorem load_saved {files : SnapshotFiles} {info : CommitInfo}
    (htrees : files.trees = dir.files.trees) (hmetadata : files.metadata = some (some ⟨some info, 0⟩))
    (h : ∀ p ∈ dir.trees, Writable p.2 ∧ p.2.Sound) (hversion : info.version ≤ maxUint32)
    (hfirst : ∀ p ∈ dir.trees, (p.2.version : Int) = info.version)
    (hinfos : info.storeInfos = dir.trees.map fun p => ⟨p.1, lastCommitID p.2⟩) :
    ∃ mtree, files.load = .ok mtree ∧
      ∀ name tree, mtree.treeByName name = some tree ↔ (name, tree) ∈ dir.trees := by
  have hopen : files.trees.foldlM openTree { MultiTreeDir.empty with metadata := files.metadata.join } =
      .ok ⟨some ⟨some info, 0⟩, dir.trees, dir.sorted⟩ := by
    rw [htrees, hmetadata]
    show (dir.trees.map fun p => (p.1, p.2.snapshotDir)).foldlM openTree
      { MultiTreeDir.empty with metadata := some ⟨some info, 0⟩ } = _
    rw [foldlM_openTree h, foldl_writeTree_sorted dir.sorted]
  let md : MultiTreeMetadata := ⟨some info, 0⟩
  let loaded : MultiTreeDir := ⟨some md, dir.trees, dir.sorted⟩
  have hread : readMetadata loaded = .ok (md, info) :=
    readMetadata_eq_ok.mpr ⟨rfl, rfl, hversion, by show (0 : Int) ≤ maxUint32; decide⟩
  have hmtree : loadMultiTree loaded = .ok (loadedTrees loaded md info) := by
    refine loadMultiTree_eq_ok_iff.mpr ⟨md, info, hread, rfl, ?_⟩
    have hbuild : ∀ v, (loadedTrees loaded md info).buildCommitInfo v = ⟨v, info.storeInfos⟩ := by
      intro v
      rw [hinfos]
      show (⟨v, (dir.trees.map fun e => (⟨e.1, e.2⟩ : NamedTree)).map _⟩ : CommitInfo) = _
      rw [map_map]
      rfl
    rw [hbuild]
    have hhead : (loadedTrees loaded md info).trees = dir.trees.map fun e => ⟨e.1, e.2⟩ := rfl
    rw [hhead]
    cases hd : dir.trees with
    | nil => rfl
    | cons p l =>
      have hp := hfirst p (hd ▸ mem_cons_self)
      simp only [map_cons]
      rw [hp]
  refine ⟨loadedTrees loaded md info, ?_, fun name tree => ?_⟩
  · rw [SnapshotFiles.load, hopen]
    simp only
    rw [hmtree]
  · rw [(loadedTrees_indexed md info).treeByName_eq_some]
    show (name, tree) ∈ (dir.trees.map fun e => (⟨e.1, e.2⟩ : NamedTree)).map _ ↔ _
    have hid : (dir.trees.map fun e => (⟨e.1, e.2⟩ : NamedTree)).map (fun e => (e.name, e.tree)) =
        dir.trees := by
      rw [map_map]
      exact map_id dir.trees
    rw [hid]

end Load

def latest (infos : List StoreInfo) (version : Int) : Int :=
  infos.foldl (fun version info => max version info.commitId.version) version

theorem latest_perm {l l' : List StoreInfo} (h : l.Perm l') (version : Int) :
    latest l version = latest l' version := by
  refine h.foldl_eq' (fun a _ b _ v => ?_) version
  rw [max_right_comm]

theorem latest_eq {l : List StoreInfo} {version target : Int} (h : ∀ i ∈ l, i.commitId.version = target)
    (hle : version ≤ target) : latest l version = if l = [] then version else target := by
  induction l generalizing version with
  | nil => rfl
  | cons i l ih =>
    obtain ⟨hi, h⟩ := forall_mem_cons.mp h
    rw [latest, foldl_cons, hi, max_eq_right hle]
    have hrest := ih h le_rfl
    rw [if_neg (cons_ne_nil i l)]
    rw [latest] at hrest
    rw [hrest, ite_self]

section Tasks

variable [Sha256] {mtree : MultiTree} {changeSetDir : Name → List Bytes} {save : Bool} {target : Int}
  {info : Name → Option StoreInfo} {tree : Name → Tree}

/-- What the tasks of the stores return, and the trees of those that have an info. -/
def Verifies (mtree : MultiTree) (changeSetDir : Name → List Bytes) (target : Int)
    (info : Name → Option StoreInfo) (tree : Name → Tree) (order : List Name) : Prop :=
  ∀ s ∈ order, ∃ t, verifyOneStore ((mtree.treeByName s).getD ⟨0, none⟩) s (changeSetDir s) target =
    .ok (info s, t) ∧ ((info s).isSome → t = tree s)

theorem foldlM_verifyTask {order : List Name} {v : Verification} {dir : MultiTreeDir}
    (hresult : Verifies mtree changeSetDir target info tree order)
    (hwrite : save = true → ∀ s ∈ order, (info s).isSome →
      (tree s).writeSnapshot = .ok (tree s).snapshotDir)
    (hdir : v.saved.trees = dir.files.trees) :
    ∃ v', order.foldlM (verifyTask mtree changeSetDir save target) v = .ok v' ∧
      v'.storeInfos = v.storeInfos ++ order.filterMap info ∧
      v'.lastestVersion = latest (order.filterMap info) v.lastestVersion ∧
      (save = true → v'.saved.trees = ((order.filter fun s => (info s).isSome).foldl
        (fun dir s => dir.writeTree s (tree s)) dir).files.trees) := by
  induction order generalizing v dir with
  | nil => exact ⟨v, rfl, (append_nil _).symm, rfl, fun _ => hdir⟩
  | cons s order ih =>
    obtain ⟨⟨t, hs, ht⟩, hresult⟩ := forall_mem_cons.mp hresult
    have hwrite' : save = true → ∀ s ∈ order, (info s).isSome →
        (tree s).writeSnapshot = .ok (tree s).snapshotDir :=
      fun hsave s' hs' => hwrite hsave s' (mem_cons_of_mem _ hs')
    rw [foldlM_cons, verifyTask, hs]
    cases hi : info s with
    | none =>
      rw [filterMap_cons_none hi, filter_cons_of_neg (by simp [hi])]
      exact ih hresult hwrite' hdir
    | some i =>
      obtain rfl := ht (by rw [hi]; rfl)
      rw [filterMap_cons_some hi, filter_cons_of_pos (by simp [hi])]
      have hmax : (if i.commitId.version > v.lastestVersion then i.commitId.version
          else v.lastestVersion) = max v.lastestVersion i.commitId.version := by
        rw [max_def]
        split_ifs <;> omega
      cases save with
      | false =>
        obtain ⟨v', hv', hinfos, hlatest, -⟩ := ih (v := ⟨v.storeInfos ++ [i],
          max v.lastestVersion i.commitId.version, v.saved⟩) hresult hwrite' hdir
        refine ⟨v', ?_, ?_, hlatest, nofun⟩
        · simp only [Bool.false_eq_true, if_false, hmax]
          exact hv'
        · rw [hinfos, append_assoc]
          rfl
      | true =>
        have hw := hwrite rfl s mem_cons_self (by rw [hi]; rfl)
        obtain ⟨v', hv', hinfos, hlatest, htrees⟩ := ih (v := ⟨v.storeInfos ++ [i],
          max v.lastestVersion i.commitId.version, v.saved.setTree s (tree s).snapshotDir⟩) hresult
          hwrite' (trees_setTree hdir s (tree s))
        refine ⟨v', ?_, ?_, hlatest, fun _ => htrees rfl⟩
        · simp only [if_true, hw, Except.map, hmax]
          exact hv'
        · rw [hinfos, append_assoc]
          rfl

theorem verifyChangeSet_eq {loadSnapshot : Option SnapshotFiles} {order : List Name}
    (hstart : startTrees loadSnapshot = .ok mtree)
    (hresult : Verifies mtree changeSetDir target info tree order)
    (hwrite : save = true → ∀ s ∈ order, (info s).isSome →
      (tree s).writeSnapshot = .ok (tree s).snapshotDir) :
    ∃ saved, verifyChangeSet loadSnapshot save changeSetDir target order =
        .ok (buildCommitInfo (order.filterMap info) (latest (order.filterMap info) 0), saved) ∧
      (save = true →
        saved.trees = (savedDir tree (order.filter fun s => (info s).isSome)).files.trees ∧
        saved.metadata = some (some ⟨some
          (buildCommitInfo (order.filterMap info) (latest (order.filterMap info) 0)), 0⟩)) := by
  have hempty : SnapshotFiles.empty.trees = MultiTreeDir.empty.files.trees := rfl
  obtain ⟨v', hv', hinfos, hlatest, htrees⟩ := foldlM_verifyTask (v := ⟨[], 0, .empty⟩) hresult
    hwrite hempty
  rw [nil_append] at hinfos
  rw [verifyChangeSet, hstart]
  simp only [hv', hinfos, hlatest]
  refine ⟨_, rfl, fun hsave => ⟨htrees hsave, ?_⟩⟩
  rw [if_pos hsave]

end Tasks

/-! ## Two runs instead of one -/

section Resume

variable {stores : List Name} {changeSetDir : Name → List Bytes}
  {sorted : Name → List FileWithVersion} {first : Name → Int} {last target : Int}

def existsAt (first : Name → Int) (target : Int) (s : Name) : Bool := 0 ≤ first s && first s ≤ target

theorem existsAt_iff {s : Name} : existsAt first target s = true ↔ 0 ≤ first s ∧ first s ≤ target := by
  simp [existsAt]

variable [Sha256]

def infoAt (first : Name → Int) (target : Int) (sorted : Name → List FileWithVersion) (s : Name) :
    Option StoreInfo :=
  if existsAt first target s then some ⟨s, lastCommitID (treeAt (first s) target (sorted s))⟩ else none

omit [Sha256] in
/-- The commit info does not depend on the order in which the tasks end. -/
theorem buildCommitInfo_perm {info : Name → Option StoreInfo} (hname : ∀ s i, info s = some i → i.name = s)
    {order order' : List Name} (hperm : order.Perm order') (hnodup : order.Nodup) :
    buildCommitInfo (order.filterMap info) (latest (order.filterMap info) 0) =
      buildCommitInfo (order'.filterMap info) (latest (order'.filterMap info) 0) := by
  have hinfos := hperm.filterMap info
  have hkeys : ((order.filterMap info).map StoreInfo.name).Nodup := by
    have hsub : ((order.filterMap info).map StoreInfo.name).Sublist order := by
      clear hinfos hperm hnodup
      rw [map_filterMap]
      induction order with
      | nil => exact List.Sublist.refl _
      | cons s order ih =>
        cases hi : info s with
        | none => simpa [hi] using ih.cons s
        | some i => simpa [hi, hname s i hi] using ih.cons_cons s
    exact hsub.nodup hnodup
  have hsort := sortBy_append_perm (l := []) hinfos hkeys
  rw [buildCommitInfo, buildCommitInfo, latest_perm hinfos]
  exact congrArg (CommitInfo.mk _) hsort

theorem isSome_infoAt (s : Name) : (infoAt first target sorted s).isSome = existsAt first target s := by
  rw [infoAt]
  split_ifs with h <;> simp [h]

theorem filterMap_infoAt (order : List Name) : order.filterMap (infoAt first target sorted) =
    (order.filter (existsAt first target)).map fun s =>
      ⟨s, lastCommitID (treeAt (first s) target (sorted s))⟩ := by
  induction order with
  | nil => rfl
  | cons s order ih =>
    by_cases hs : existsAt first target s = true
    · have hinfo : infoAt first target sorted s = some _ := if_pos hs
      rw [filterMap_cons_some hinfo, filter_cons_of_pos hs, map_cons, ih]
    · have hinfo : infoAt first target sorted s = none := if_neg hs
      rw [filterMap_cons_none hinfo, filter_cons_of_neg hs, ih]

theorem load_first_run {order : List Name} (hnodup : order.Nodup) (hpos : 0 < target)
    (hmax : target < maxUint32)
    (hversion : ∀ s ∈ order, existsAt first target s = true →
      ((treeAt (first s) target (sorted s)).version : Int) = target)
    (hsize : ∀ s ∈ order, Writable (treeAt (first s) target (sorted s))) {saved : SnapshotFiles}
    (htrees : saved.trees = (savedDir (fun s => treeAt (first s) target (sorted s))
      (order.filter fun s => (infoAt first target sorted s).isSome)).files.trees)
    (hmetadata : saved.metadata = some (some ⟨some
      (buildCommitInfo (order.filterMap (infoAt first target sorted))
        (latest (order.filterMap (infoAt first target sorted)) 0)), 0⟩)) :
    ∃ mtree, saved.load = .ok mtree ∧ ∀ s ∈ order, mtree.treeByName s =
      if existsAt first target s then some (treeAt (first s) target (sorted s)) else none := by
  simp only [isSome_infoAt] at htrees
  have hmem : ∀ p, p ∈ (savedDir (fun s => treeAt (first s) target (sorted s))
      (order.filter (existsAt first target))).trees ↔
      (p.1 ∈ order ∧ existsAt first target p.1 = true) ∧ p.2 = treeAt (first p.1) target (sorted p.1) := by
    intro p
    rw [mem_savedDir, mem_filter]
  have hinfos : ∀ i ∈ order.filterMap (infoAt first target sorted), i.commitId.version = target := by
    intro i hi
    rw [filterMap_infoAt] at hi
    obtain ⟨s, hs, rfl⟩ := mem_map.mp hi
    obtain ⟨hs, hthere⟩ := mem_filter.mp hs
    exact hversion s hs hthere
  have hlatest := latest_eq hinfos hpos.le
  have hsound : ∀ p ∈ (savedDir (fun s => treeAt (first s) target (sorted s))
      (order.filter (existsAt first target))).trees, Writable p.2 ∧ p.2.Sound := by
    intro p hp
    obtain ⟨⟨hs, -⟩, ht⟩ := (hmem p).mp hp
    rw [ht]
    exact ⟨hsize p.1 hs, sound_treeAt hmax⟩
  have hle : latest (order.filterMap (infoAt first target sorted)) 0 ≤ maxUint32 := by
    rw [hlatest]
    split_ifs <;> omega
  have hequal : ∀ p ∈ (savedDir (fun s => treeAt (first s) target (sorted s))
      (order.filter (existsAt first target))).trees,
      (p.2.version : Int) = latest (order.filterMap (infoAt first target sorted)) 0 := by
    intro p hp
    obtain ⟨⟨hs, hthere⟩, ht⟩ := (hmem p).mp hp
    have hne : order.filterMap (infoAt first target sorted) ≠ [] := by
      rw [filterMap_infoAt]
      exact ne_nil_of_mem (mem_map_of_mem (mem_filter.mpr ⟨hs, hthere⟩))
    rw [hlatest, if_neg hne, ht]
    exact hversion p.1 hs hthere
  have hlist : sortBy StoreInfo.name (order.filterMap (infoAt first target sorted)) =
      (savedDir (fun s => treeAt (first s) target (sorted s))
        (order.filter (existsAt first target))).trees.map fun p => ⟨p.1, lastCommitID p.2⟩ := by
    rw [trees_savedDir (hnodup.filter _), filterMap_infoAt]
    have hmap : ∀ l : List (Name × Tree),
        (sortBy Prod.fst l).map (fun p => (⟨p.1, lastCommitID p.2⟩ : StoreInfo)) =
          sortBy StoreInfo.name (l.map fun p => ⟨p.1, lastCommitID p.2⟩) := by
      intro l
      apply map_sortBy
      intro p
      rfl
    rw [hmap, map_map]
    rfl
  obtain ⟨mtree, hload, hnames⟩ := load_saved htrees hmetadata hsound hle hequal hlist
  refine ⟨mtree, hload, fun s hs => Option.ext fun t => ?_⟩
  rw [hnames, hmem]
  by_cases hthere : existsAt first target s = true
  · simp [hs, hthere, eq_comm]
  · simp [hthere]

def infoLast (first : Name → Int) (sorted : Name → List FileWithVersion) (s : Name) : Option StoreInfo :=
  some ⟨s, lastCommitID ((changeSetsOf (sorted s)).foldl replayAt (startTree (first s)))⟩

/-- A run up to a version that is saved, and a run over the same files that starts from what
was saved, give the commit info of one run over all the files. -/
theorem verifyChangeSet_resumed (hnodup : stores.Nodup)
    (hfiles : ∀ s ∈ stores, EveryVersion (changeSetDir s) (sorted s) (first s) last)
    (hpos : 0 < target) (hlt : target < last) (hfirst : ∀ s ∈ stores, first s < maxUint32)
    (hlast : last ≤ maxUint32) (hsize : ∀ s ∈ stores, Writable (treeAt (first s) target (sorted s)))
    {order₁ order₂ order : List Name} (h₁ : order₁.Perm stores) (h₂ : order₂.Perm stores)
    (h : order.Perm stores) :
    ∃ info₁ saved info, verifyChangeSet none true changeSetDir target order₁ = .ok (info₁, saved) ∧
      (∃ r, verifyChangeSet (some saved) false changeSetDir 0 order₂ = .ok (info, r)) ∧
      (∃ r, verifyChangeSet none false changeSetDir 0 order = .ok (info, r)) ∧
      ∀ s ∈ stores, ∃ i ∈ info.storeInfos, i.name = s := by
  have hat : ∀ s ∈ stores, existsAt first target s = true →
      verifyOneStore ⟨0, none⟩ s (changeSetDir s) target =
          .ok (some ⟨s, lastCommitID (treeAt (first s) target (sorted s))⟩,
            treeAt (first s) target (sorted s)) ∧
        ((treeAt (first s) target (sorted s)).version : Int) = target :=
    fun s hs hthere => (hfiles s hs).verifyOneStore_at hpos (existsAt_iff.mp hthere) hlt.le
      (hfirst s hs) hlast
  have hall : ∀ s ∈ stores, verifyOneStore ⟨0, none⟩ s (changeSetDir s) 0 =
      .ok (infoLast first sorted s, (changeSetsOf (sorted s)).foldl replayAt (startTree (first s))) :=
    fun s hs => (hfiles s hs).verifyOneStore_all (hfirst s hs) hlast ⟨0, none⟩
  -- the run up to the target
  have hresult1 : Verifies (.newEmptyMultiTree 0) changeSetDir target (infoAt first target sorted)
      (fun s => treeAt (first s) target (sorted s)) order₁ := by
    intro s hs
    have hs := h₁.mem_iff.mp hs
    by_cases hthere : existsAt first target s = true
    · refine ⟨_, ?_, fun _ => rfl⟩
      rw [infoAt, if_pos hthere]
      exact (hat s hs hthere).1
    · refine ⟨⟨0, none⟩, ?_, fun hsome => absurd ((isSome_infoAt s).symm.trans hsome) hthere⟩
      rw [infoAt, if_neg hthere]
      refine (hfiles s hs).verifyOneStore_before hpos ?_ (fun h => hthere (existsAt_iff.mpr h)) _
      rw [maxUint32] at hlast
      omega
  have hwrite1 : true = true → ∀ s ∈ order₁, (infoAt first target sorted s).isSome →
      (treeAt (first s) target (sorted s)).writeSnapshot =
        .ok (treeAt (first s) target (sorted s)).snapshotDir :=
    fun _ s hs _ => ((hsize s (h₁.mem_iff.mp hs)).openTree (sound_treeAt (by omega)) .empty s).1
  have hstart : startTrees none = .ok (MultiTree.newEmptyMultiTree 0) := rfl
  obtain ⟨saved, hrun1, hsaved⟩ := verifyChangeSet_eq hstart hresult1 hwrite1
  obtain ⟨htrees, hmetadata⟩ := hsaved rfl
  -- the run from what it has saved
  obtain ⟨mtree, hload, hnames⟩ := load_first_run (h₁.nodup_iff.mpr hnodup) hpos (by omega)
    (fun s hs hthere => (hat s (h₁.mem_iff.mp hs) hthere).2) (fun s hs => hsize s (h₁.mem_iff.mp hs))
    htrees hmetadata
  have hresult2 : Verifies mtree changeSetDir 0 (infoLast first sorted)
      (fun s => (changeSetsOf (sorted s)).foldl replayAt (startTree (first s))) order₂ := by
    intro s hs
    have hs := h₂.mem_iff.mp hs
    refine ⟨_, ?_, fun _ => rfl⟩
    rw [hnames s (h₁.mem_iff.mpr hs), ← hall s hs]
    split_ifs with hthere
    · exact (hfiles s hs).verifyOneStore_resume hpos (hfirst s hs) hlast (hat s hs hthere).2
    · rfl
  obtain ⟨r2, hrun2, -⟩ := verifyChangeSet_eq (show startTrees (some saved) = _ from hload) hresult2
    (fun hfalse : false = true => absurd hfalse Bool.false_ne_true)
  -- the run over all the files
  have hresult : Verifies (.newEmptyMultiTree 0) changeSetDir 0 (infoLast first sorted)
      (fun s => (changeSetsOf (sorted s)).foldl replayAt (startTree (first s))) order :=
    fun s hs => ⟨_, hall s (h.mem_iff.mp hs), fun _ => rfl⟩
  obtain ⟨r, hrun, -⟩ := verifyChangeSet_eq hstart hresult (fun hfalse : false = true => absurd hfalse Bool.false_ne_true)
  have hname : ∀ s i, infoLast first sorted s = some i → i.name = s := by
    intro s i hi
    rw [← Option.some.inj hi]
  have hsame := buildCommitInfo_perm hname (h₂.trans h.symm) (h₂.nodup_iff.mpr hnodup)
  refine ⟨_, saved, _, hrun1, ⟨r2, hrun2⟩, ⟨r, by rw [hrun, hsame]⟩, fun s hs => ?_⟩
  refine ⟨_, mem_sortBy.mpr (mem_filterMap.mpr ⟨s, h₂.mem_iff.mpr hs, rfl⟩), rfl⟩

end Resume

def twoStoresDir (store : Name) : List Bytes :=
  if store = [97] then
    [writeChangeSet 3 [⟨false, [7], some [3]⟩],
      writeChangeSet 1 [⟨false, [7], some [1]⟩] ++ writeChangeSet 2 [⟨true, [7], none⟩]]
  else [writeChangeSet 3 [⟨false, [8], some [4]⟩]]

def twoStoresSorted (store : Name) : List FileWithVersion :=
  if store = [97] then
    [⟨writeChangeSet 1 [⟨false, [7], some [1]⟩] ++ writeChangeSet 2 [⟨true, [7], none⟩], 1⟩,
      ⟨writeChangeSet 3 [⟨false, [7], some [3]⟩], 3⟩]
  else [⟨writeChangeSet 3 [⟨false, [8], some [4]⟩], 3⟩]

def twoStoresFirst (store : Name) : Int := if store = [97] then 1 else 3

/-- The first run ends with version 2, where the second store is not there yet. -/
theorem verifyChangeSet_resumed_twoStores :
    letI := Sha256.padded
    ∃ info₁ saved info r r',
      verifyChangeSet none true twoStoresDir 2 [[97], [98]] = .ok (info₁, saved) ∧
      verifyChangeSet (some saved) false twoStoresDir 0 [[98], [97]] = .ok (info, r) ∧
      verifyChangeSet none false twoStoresDir 0 [[97], [98]] = .ok (info, r') := by
  let _ := Sha256.padded
  have hfiles : ∀ s ∈ [[97], [98]], EveryVersion (twoStoresDir s) (twoStoresSorted s) (twoStoresFirst s) 3 := by
    intro s hs
    rcases mem_cons.mp hs with rfl | hs
    · have hsets : changeSetsOf (twoStoresSorted [97]) = [(1, [⟨false, [7], some [1]⟩]),
          (2, [⟨true, [7], none⟩]), (3, [⟨false, [7], some [3]⟩])] := by decide +kernel
      refine ⟨by decide +kernel, by decide +kernel, by decide +kernel, ?_, by decide +kernel, by decide⟩
      rw [hsets]
      exact ⟨rfl, rfl, rfl, trivial⟩
    · obtain rfl := mem_singleton.mp hs
      have hsets : changeSetsOf (twoStoresSorted [98]) = [(3, [⟨false, [8], some [4]⟩])] := by
        decide +kernel
      refine ⟨by decide +kernel, by decide +kernel, by decide +kernel, ?_, by decide +kernel, by decide⟩
      rw [hsets]
      exact ⟨rfl, trivial⟩
  have hfirst : ∀ s ∈ [[97], [98]], twoStoresFirst s < maxUint32 := by decide
  have hsize : ∀ s ∈ [[97], [98]], Writable (treeAt (twoStoresFirst s) 2 (twoStoresSorted s)) := by
    intro s hs
    rcases mem_cons.mp hs with rfl | hs
    · exact ⟨by decide +kernel, by decide +kernel, by decide +kernel⟩
    · obtain rfl := mem_singleton.mp hs
      exact ⟨by decide +kernel, by decide +kernel, by decide +kernel⟩
  obtain ⟨info₁, saved, info, hrun1, ⟨r, hrun2⟩, ⟨r', hrun⟩, -⟩ := verifyChangeSet_resumed
    (show ([[97], [98]] : List Name).Nodup by decide) hfiles (by decide) (by decide) hfirst (by decide)
    hsize (.refl _) (.swap _ _ _) (.refl _)
  exact ⟨info₁, saved, info, r, r', hrun1, hrun2, hrun⟩

def beyondUint32 : Bytes := writeChangeSet (2 ^ 32) [⟨false, [7], some [1]⟩]

/-- A store that no tree can have the version of is not there at version 1, and the run over all
its versions is refused. -/
theorem exists_resume_refused :
    letI := Sha256.padded
    EveryVersion [beyondUint32] [⟨beyondUint32, 2 ^ 32⟩] (2 ^ 32) (2 ^ 32) ∧
    ∃ info₁ saved, verifyChangeSet none true (fun _ => [beyondUint32]) 1 [[97]] = .ok (info₁, saved) ∧
      verifyChangeSet (some saved) false (fun _ => [beyondUint32]) 0 [[97]] =
        .error (.verify (.initialVersionOverflow (2 ^ 32))) := by
  let _ := Sha256.padded
  constructor
  · have hsets : changeSetsOf [⟨beyondUint32, 2 ^ 32⟩] = [(2 ^ 32, [⟨false, [7], some [1]⟩])] := by
      decide +kernel
    refine ⟨by decide +kernel, by decide +kernel, by decide +kernel, ?_, by decide +kernel, le_rfl⟩
    rw [hsets]
    exact ⟨rfl, trivial⟩
  · have hrun : ((verifyChangeSet none true (fun _ => [beyondUint32]) 1 [[97]]).toOption.bind fun r =>
        Results.errorOf (verifyChangeSet (some r.2) false (fun _ => [beyondUint32]) 0 [[97]])) = some (.verify (.initialVersionOverflow (2 ^ 32))) := by
      decide +kernel
    obtain ⟨⟨info₁, saved⟩, hrun1, hrun2⟩ := Option.bind_eq_some_iff.mp hrun
    exact ⟨info₁, saved, Results.toOption_eq_some.mp hrun1, Results.errorOf_eq_some.mp hrun2⟩

end CronosStore.VersionDB
