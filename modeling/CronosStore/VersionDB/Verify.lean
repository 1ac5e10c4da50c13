import CronosStore.VersionDB.ChangeSetFile

/-!
# Replaying files of change sets

`verifyOneStore` of `versiondb/client/verify.go`: the change sets of a store are replayed on a
tree up to a target version. A store has one file for each range of versions; the files are
given by their bytes, in any order. A tree has to pass through every version, so gaps are
filled with empty versions.

What the replay is for is said by `replayUpTo`: every change set up to the target makes the
version it carries, and the tree ends at the target. The loop keeps to that but in one case:
it fills the gap before a change set without looking at the target, so that a change set
behind the target is applied if it is in a file that starts before (`verifyOneStore_iff`).

The option to save a snapshot of the tree in the end is left out.
-/

namespace CronosStore.VersionDB

open Foundation Memiavl List

inductive VerifyError
  | read (error : ChangeSetError)
  | initialVersionOverflow (version : Int)
  | versionOverflow (version : Nat)
  | versionMismatch (actual version : Int)
deriving DecidableEq

structure FileWithVersion where
  content : Bytes
  version : Nat
deriving DecidableEq

def readFirstVersion (content : Bytes) : Except ReadError Nat :=
  match readFull 8 content with
  | .error e => .error e
  | .ok (versionBuf, _) => .ok (readLE versionBuf)

def withFirstVersion : List Bytes → Except VerifyError (List FileWithVersion)
  | [] => .ok []
  | content :: files =>
    match readFirstVersion content with
    | .error .eof => withFirstVersion files
    | .error e => .error (.read (.read e))
    | .ok version =>
      match withFirstVersion files with
      | .error e => .error e
      | .ok files => .ok (⟨content, version⟩ :: files)

def sortFilesByFirstVersion (files : List Bytes) : Except VerifyError (List FileWithVersion) :=
  (withFirstVersion files).map (List.insertionSort fun a b => a.version ≤ b.version)

section Definitions

def setInitialVersion (tree : Tree) (initialVersion : Int) : Except VerifyError Tree :=
  if initialVersion ≥ maxUint32 then .error (.initialVersionOverflow initialVersion)
  else .ok (tree.setInitialVersion (initialVersion % 2 ^ 32).toNat)

def saveVersion (tree : Tree) : Except VerifyError Tree :=
  match tree.saveVersion with
  | none => .error (.versionOverflow tree.version)
  | some tree => .ok tree

def saveVersions : Nat → Tree → Except VerifyError Tree
  | 0, tree => .ok tree
  | n + 1, tree =>
    match saveVersion tree with
    | .error e => .error e
    | .ok tree => saveVersions n tree

def advanceTreeVersion (tree : Tree) (target : Int) : Except VerifyError Tree :=
  saveVersions (target - tree.version).toNat tree

def replayChangeSet (targetVersion version : Int) (changeSet : ChangeSet) (tree : Tree) :
    Except VerifyError (Bool × Tree) :=
  if version ≤ tree.version then .ok (true, tree)
  else
    match advanceTreeVersion tree (version - 1) with
    | .error e => .error e
    | .ok tree =>
      match saveVersion (tree.applyChangeSet changeSet) with
      | .error e => .error e
      | .ok tree =>
        if (tree.version : Int) ≠ version then .error (.versionMismatch tree.version version)
        else .ok (decide (targetVersion = 0 ∨ (tree.version : Int) < targetVersion), tree)

def replayFiles (targetVersion : Int) : List FileWithVersion → Tree → Except VerifyError Tree
  | [], tree => .ok tree
  | file :: files, tree =>
    if targetVersion > 0 ∧ (file.version : Int) > targetVersion then .ok tree
    else
      match (iterateChangeSets .read (replayChangeSet targetVersion) file.content tree).result with
      | .error e => .error e
      | .ok tree =>
        if targetVersion > 0 ∧ (tree.version : Int) ≥ targetVersion then .ok tree
        else replayFiles targetVersion files tree

variable [Sha256]

def lastCommitID (tree : Tree) : CommitID := ⟨tree.version, tree.rootHash⟩

/-- `verifyOneStore`: the store info, which is nil if the store does not exist at the target,
and the tree as it is left. -/
def verifyOneStore (tree : Tree) (store : Name) (files : List Bytes) (targetVersion : Int) :
    Except VerifyError (Option StoreInfo × Tree) :=
  match sortFilesByFirstVersion files with
  | .error e => .error e
  | .ok [] => .ok (none, tree)
  | .ok (first :: filesWithVersion) =>
    if targetVersion > 0 ∧ (first.version : Int) > targetVersion then .ok (none, tree)
    else
      match setInitialVersion tree (toInt64 first.version) with
      | .error e => .error e
      | .ok tree =>
        match replayFiles targetVersion (first :: filesWithVersion) tree with
        | .error e => .error e
        | .ok tree =>
          match if targetVersion > 0 then advanceTreeVersion tree targetVersion else .ok tree with
          | .error e => .error e
          | .ok tree => .ok (some ⟨store, lastCommitID tree⟩, tree)

end Definitions

/-! ## What a replay is for -/

def applyAt (tree : Tree) (e : Int × ChangeSet) : Tree :=
  { Tree.applyChangeSet ⟨e.1.toNat - 1, tree.root⟩ e.2 with version := e.1.toNat }

def replayUpTo (target : Int) (l : List (Int × ChangeSet)) : Tree :=
  { (l.filter fun e => e.1 ≤ target).foldl applyAt ⟨0, none⟩ with version := target.toNat }

/-! ## The loops -/

section Loops

variable {t t' : Tree} {target : Int} {l l' : List (Int × ChangeSet)}

theorem saveVersions_eq {n : Nat} (h : saveVersions n t = .ok t') :
    t' = { t with version := t.version + n } := by
  induction n generalizing t with
  | zero =>
    cases h
    rfl
  | succ n ih =>
    rw [saveVersions, saveVersion, Tree.saveVersion] at h
    split_ifs at h
    rw [ih h, Tree.mk.injEq]
    exact ⟨by simp only; omega, rfl⟩

theorem saveVersions_ok {n : Nat} (h : t.version + n ≤ maxUint32) :
    saveVersions n t = .ok { t with version := t.version + n } := by
  induction n generalizing t with
  | zero => rfl
  | succ n ih =>
    rw [saveVersions, saveVersion, Tree.saveVersion, if_neg (by omega)]
    simp only
    rw [ih (by simp only; omega), Except.ok.injEq, Tree.mk.injEq]
    exact ⟨by simp only; omega, rfl⟩

theorem applyAt_version (t : Tree) (e : Int × ChangeSet) : (applyAt t e).version = e.1.toNat := rfl

/-- A change set behind the version of the tree makes its own version, or fails. -/
theorem replayChangeSet_eq {version : Int} {cs : ChangeSet} {cont : Bool}
    (hlt : (t.version : Int) < version) (h : replayChangeSet target version cs t = .ok (cont, t')) :
    t' = applyAt t (version, cs) ∧ cont = decide (target = 0 ∨ version < target) := by
  unfold replayChangeSet at h
  rw [if_neg (by omega)] at h
  cases ha : advanceTreeVersion t (version - 1) with
  | error e =>
    rw [ha] at h
    cases h
  | ok t1 =>
    have ht1 := saveVersions_eq ha
    have hv1 : t1 = ⟨version.toNat - 1, t.root⟩ := by
      rw [ht1, Tree.mk.injEq]
      exact ⟨by omega, rfl⟩
    simp only [ha, saveVersion, Tree.saveVersion, Tree.applyChangeSet_version] at h
    split_ifs at h with hmax
    · simp only at h
      split_ifs at h with hver
      cases h
      have hver' : ((t1.version + 1 : Nat) : Int) = version := by simpa using hver
      refine ⟨?_, by rw [hver']⟩
      rw [applyAt, hv1, Tree.mk.injEq]
      rw [hv1] at hver'
      exact ⟨by simp only at hver' ⊢; omega, rfl⟩

theorem replayChangeSet_ok {version : Int} (cs : ChangeSet)
    (hlt : (t.version : Int) < version) (hle : version ≤ maxUint32) :
    replayChangeSet target version cs t =
      .ok (decide (target = 0 ∨ version < target), applyAt t (version, cs)) := by
  have hadv : advanceTreeVersion t (version - 1) = .ok ⟨version.toNat - 1, t.root⟩ := by
    rw [advanceTreeVersion, saveVersions_ok (by omega), Except.ok.injEq, Tree.mk.injEq]
    exact ⟨by omega, rfl⟩
  rw [replayChangeSet, if_neg (by omega), hadv]
  simp only [saveVersion, Tree.saveVersion, Tree.applyChangeSet_version]
  rw [if_neg (by omega)]
  have hv : ((version.toNat - 1 + 1 : Nat) : Int) = version := by omega
  simp only [hv, ne_eq, not_true_eq_false, if_false, Except.ok.injEq, Prod.mk.injEq, true_and]
  rw [applyAt, Tree.mk.injEq]
  exact ⟨by omega, rfl⟩

def consumed (target : Int) : List (Int × ChangeSet) → List (Int × ChangeSet)
  | [] => []
  | e :: l => if e.1 < target then e :: consumed target l else [e]

theorem consumed_append (l' : List (Int × ChangeSet)) :
    ((∀ e ∈ l, e.1 < target) → consumed target (l ++ l') = l ++ consumed target l') ∧
      ((∃ e ∈ l, target ≤ e.1) → consumed target (l ++ l') = consumed target l) := by
  induction l with
  | nil =>
    refine ⟨fun _ => rfl, ?_⟩
    rintro ⟨e, he, -⟩
    cases he
  | cons e l ih =>
    rw [cons_append, consumed, consumed]
    refine ⟨fun h => ?_, ?_⟩
    · obtain ⟨he, h⟩ := forall_mem_cons.mp h
      rw [if_pos he, ih.1 h]
      rfl
    · rintro ⟨f, hf, hle⟩
      by_cases he : e.1 < target
      · rw [if_pos he, if_pos he]
        rcases mem_cons.mp hf with rfl | hf
        · omega
        · rw [ih.2 ⟨f, hf, hle⟩]
      · rw [if_neg he, if_neg he]

def Ahead (t : Tree) (l : List (Int × ChangeSet)) : Prop :=
  (∀ e ∈ l, (t.version : Int) < e.1) ∧ l.Pairwise fun a b => a.1 < b.1

theorem Ahead.tail {e : Int × ChangeSet} (h : Ahead t (e :: l)) :
    Ahead (applyAt t e) l := by
  obtain ⟨hgt, hinc⟩ := h
  obtain ⟨he, hgt⟩ := forall_mem_cons.mp hgt
  obtain ⟨hlt, hinc⟩ := pairwise_cons.mp hinc
  refine ⟨fun f hf => ?_, hinc⟩
  rw [applyAt_version]
  have := hlt f hf
  omega

theorem Ahead.foldl (h : Ahead t (l ++ l')) :
    Ahead (l.foldl applyAt t) l' := by
  induction l generalizing t with
  | nil => exact h
  | cons e l ih => exact ih h.tail

theorem Ahead.left (h : Ahead t (l ++ l')) : Ahead t l :=
  ⟨fun e he => h.1 e (mem_append_left _ he), (pairwise_append.mp h.2).1⟩

/-- The version at the end is one of the versions, or that of the tree. -/
theorem version_foldl_le (ht : t.version ≤ target) (h : ∀ e ∈ l, e.1 ≤ target) :
    ((l.foldl applyAt t).version : Int) ≤ target := by
  induction l generalizing t with
  | nil => exact ht
  | cons e l ih =>
    obtain ⟨he, h⟩ := forall_mem_cons.mp h
    refine ih ?_ h
    rw [applyAt_version]
    omega

/-- The last change set that is taken is the one that reaches the target. -/
theorem exists_version_consumed (hl : ∃ e ∈ l, target ≤ e.1)
    (t : Tree) : ∃ e ∈ l, target ≤ e.1 ∧ ((consumed target l).foldl applyAt t).version = e.1.toNat := by
  induction l generalizing t with
  | nil =>
    obtain ⟨e, he, -⟩ := hl
    cases he
  | cons e l ih =>
    rw [consumed]
    by_cases he : e.1 < target
    · rw [if_pos he]
      obtain ⟨f, hf, hle⟩ := hl
      rcases mem_cons.mp hf with rfl | hf
      · omega
      · obtain ⟨d, hd, hversion⟩ := ih ⟨f, hf, hle⟩ (applyAt t e)
        exact ⟨d, mem_cons_of_mem _ hd, hversion⟩
    · rw [if_neg he]
      exact ⟨e, mem_cons_self, not_lt.mp he, rfl⟩

/-- One file: the loop stops at the target, if it does not fail. -/
theorem iterateList_replay (htarget : 0 < target) {last : ChangeSetError} (h : Ahead t l)
    (ht' : iterateList .read (replayChangeSet target) last l t = .ok t') :
    t' = (consumed target l).foldl applyAt t := by
  induction l generalizing t with
  | nil =>
    rw [iterateList] at ht'
    split_ifs at ht'
    exact (Except.ok.inj ht').symm
  | cons e l ih =>
    obtain ⟨version, cs⟩ := e
    have hlt : (t.version : Int) < version := h.1 (version, cs) mem_cons_self
    have hcont : (target = 0 ∨ version < target) ↔ version < target := by omega
    rw [iterateList] at ht'
    rw [consumed]
    cases hr : replayChangeSet target version cs t with
    | error e =>
      rw [hr] at ht'
      cases ht'
    | ok r =>
      obtain ⟨cont, t1⟩ := r
      obtain ⟨rfl, rfl⟩ := replayChangeSet_eq hlt hr
      simp only [hr, decide_eq_true_eq, hcont] at ht'
      by_cases hv : version < target
      · rw [if_pos hv] at ht' ⊢
        exact ih h.tail ht'
      · rw [if_neg hv] at ht' ⊢
        exact (Except.ok.inj ht').symm

def changeSetsOf (files : List FileWithVersion) : List (Int × ChangeSet) :=
  files.flatMap fun f => (fileChangeSets f.content).1

def opened (target : Int) (files : List FileWithVersion) : List FileWithVersion :=
  files.takeWhile fun f => (f.version : Int) ≤ target

/-- The tree after the change sets `l` of a file: the loop ends there, or goes on. -/
theorem foldl_consumed_append (ht : (t.version : Int) < target) {m : List (Int × ChangeSet)}
    (h : Ahead t (l ++ m)) {t1 : Tree} (ht1 : t1 = (consumed target l).foldl applyAt t) :
    (target ≤ t1.version ∧ (consumed target (l ++ l')).foldl applyAt t = t1) ∨
      ((t1.version : Int) < target ∧ Ahead t1 m ∧
        (consumed target (l ++ l')).foldl applyAt t = (consumed target l').foldl applyAt t1) := by
  rw [ht1]
  by_cases hall : ∀ e ∈ l, e.1 < target
  · have hself : consumed target l = l := by
      have := (consumed_append []).1 hall
      rwa [append_nil, consumed, append_nil] at this
    rw [hself, (consumed_append l').1 hall, foldl_append]
    have hlast : ((l.foldl applyAt t).version : Int) ≤ target - 1 :=
      version_foldl_le (by omega) fun e he => Int.le_sub_one_of_lt (hall e he)
    exact .inr ⟨by omega, h.foldl, rfl⟩
  · have hex : ∃ e ∈ l, target ≤ e.1 := by
      by_contra hno
      exact hall fun e he => not_le.mp fun hle => hno ⟨e, he, hle⟩
    obtain ⟨e, -, hle, hversion⟩ := exists_version_consumed hex t
    exact .inl ⟨by omega, by rw [(consumed_append l').2 hex]⟩

theorem replayFiles_eq {files : List FileWithVersion} (ht : (t.version : Int) < target)
    (h : Ahead t (changeSetsOf files)) (ht' : replayFiles target files t = .ok t') :
    t' = (consumed target (changeSetsOf (opened target files))).foldl applyAt t := by
  have htarget : 0 < target := by omega
  induction files generalizing t with
  | nil => exact (Except.ok.inj ht').symm
  | cons f files ih =>
    rw [replayFiles] at ht'
    by_cases hf : (f.version : Int) ≤ target
    · have hopened : changeSetsOf (opened target (f :: files)) =
          (fileChangeSets f.content).1 ++ changeSetsOf (opened target files) := by
        rw [opened, takeWhile_cons_of_pos (by simpa using hf), changeSetsOf, flatMap_cons]
        rfl
      rw [changeSetsOf, flatMap_cons] at h
      rw [if_neg (by omega), iterateChangeSets_result] at ht'
      rw [hopened]
      split at ht'
      · cases ht'
      · rename_i t1 ht1
        rcases foldl_consumed_append ht h (iterateList_replay htarget h.left ht1) with
          ⟨hge, heq⟩ | ⟨hlt, hahead, heq⟩
        · rw [if_pos ⟨htarget, hge⟩] at ht'
          rw [heq]
          exact (Except.ok.inj ht').symm
        · rw [if_neg (by omega)] at ht'
          rw [heq]
          exact ih hlt hahead ht'
    · have hopened : changeSetsOf (opened target (f :: files)) = [] := by
        rw [opened, takeWhile_cons_of_neg (by simpa using hf)]
        rfl
      rw [if_pos ⟨htarget, by omega⟩] at ht'
      rw [hopened]
      exact (Except.ok.inj ht').symm

theorem advanceTreeVersion_eq (h : advanceTreeVersion t target = .ok t') :
    t' = { t with version := max t.version target.toNat } := by
  rw [saveVersions_eq h, Tree.mk.injEq]
  exact ⟨by omega, rfl⟩

end Loops

/-! ## The files of a store -/

section Files

theorem withFirstVersion_eq {files : List Bytes} {fs : List FileWithVersion}
    (h : withFirstVersion files = .ok fs) :
    ∀ f ∈ fs, readFirstVersion f.content = .ok f.version := by
  induction files generalizing fs with
  | nil =>
    cases h
    exact fun f hf => absurd hf not_mem_nil
  | cons content files ih =>
    rw [withFirstVersion] at h
    split at h
    · exact ih h
    · cases h
    · rename_i version hversion
      split at h
      · cases h
      · rename_i fs' hfs'
        cases h
        exact forall_mem_cons.mpr ⟨hversion, ih hfs'⟩

theorem sortFiles_eq {files : List Bytes} {fs : List FileWithVersion}
    (h : sortFilesByFirstVersion files = .ok fs) :
    (∀ f ∈ fs, readFirstVersion f.content = .ok f.version) ∧
      fs.Pairwise fun a b => a.version ≤ b.version := by
  unfold sortFilesByFirstVersion at h
  cases hw : withFirstVersion files with
  | error e =>
    rw [hw] at h
    cases h
  | ok fs' =>
    rw [hw] at h
    cases h
    exact ⟨fun f hf => withFirstVersion_eq hw f ((mem_insertionSort _).mp hf),
      pairwise_insertionSort (fun a b : FileWithVersion => a.version ≤ b.version) fs'⟩

theorem readFirstVersion_lt {b : Bytes} {n : Nat} (h : readFirstVersion b = .ok n) : n < 2 ^ 64 := by
  unfold readFirstVersion at h
  cases hf : readFull 8 b with
  | error x =>
    rw [hf] at h
    cases h
  | ok r =>
    obtain ⟨buf, b1⟩ := r
    rw [hf] at h
    have hbuf := readLE_lt buf
    rw [(readFull_ok hf).2] at hbuf
    rw [← Except.ok.inj h]
    exact hbuf

theorem first_fileChangeSets {b : Bytes} {n : Nat} (hn : readFirstVersion b = .ok n)
    {e : Int × ChangeSet} {l : List (Int × ChangeSet)} (h : (fileChangeSets b).1 = e :: l) :
    toInt64 n = e.1 := by
  rw [fileChangeSets, changeSetsFrom] at h
  cases hr : readParsed b with
  | error x =>
    rw [hr] at h
    cases h
  | ok r =>
    obtain ⟨version, cs, size, rest⟩ := r
    simp only [hr, List.cons.injEq] at h
    obtain ⟨rfl, -⟩ := h
    obtain ⟨header, b1, hf, rfl⟩ := readParsed_version hr
    obtain ⟨rfl, hlen⟩ := readFull_ok hf
    have hfirst : readFull 8 (header ++ b1) = .ok (header.take 8, header.drop 8 ++ b1) := by
      rw [← readFull_append (show (header.take 8).length = 8 by rw [length_take]; omega),
        ← append_assoc, take_append_drop]
    rw [readFirstVersion, hfirst] at hn
    rw [← Except.ok.inj hn]

structure StoreFiles (files : List Bytes) (sorted : List FileWithVersion) : Prop where
  sorted_eq : sortFilesByFirstVersion files = .ok sorted
  nonempty : ∀ f ∈ sorted, (fileChangeSets f.content).1 ≠ []
  increasing : (changeSetsOf sorted).Pairwise fun a b => a.1 < b.1

variable {files : List Bytes} {sorted : List FileWithVersion}

theorem StoreFiles.le_first (h : StoreFiles files sorted) {first : Int} {cs : ChangeSet}
    {rest : List (Int × ChangeSet)} (hfirst : changeSetsOf sorted = (first, cs) :: rest)
    {e : Int × ChangeSet} (he : e ∈ changeSetsOf sorted) : first ≤ e.1 := by
  have hinc := h.increasing
  rw [hfirst] at hinc he
  rcases mem_cons.mp he with rfl | he
  · exact le_rfl
  · exact ((pairwise_cons.mp hinc).1 e he).le

theorem StoreFiles.version_eq (h : StoreFiles files sorted)
    (hpos : ∀ e ∈ changeSetsOf sorted, 0 < e.1) {f : FileWithVersion} (hf : f ∈ sorted) :
    (∃ e ∈ (fileChangeSets f.content).1, e.1 = f.version) ∧
      ∀ e ∈ (fileChangeSets f.content).1, (f.version : Int) ≤ e.1 := by
  have hmem : ∀ e ∈ (fileChangeSets f.content).1, e ∈ changeSetsOf sorted := fun e he =>
    mem_flatMap.mpr ⟨f, hf, he⟩
  cases hl : (fileChangeSets f.content).1 with
  | nil => exact absurd hl (h.nonempty f hf)
  | cons e l =>
    rw [hl] at hmem
    have hversion := first_fileChangeSets ((sortFiles_eq h.sorted_eq).1 f hf) hl
    have he := hpos e (hmem e mem_cons_self)
    have heq : e.1 = f.version := by
      rw [← hversion] at he ⊢
      unfold toInt64 at he ⊢
      have hlt := readFirstVersion_lt ((sortFiles_eq h.sorted_eq).1 f hf)
      split_ifs at he ⊢ <;> omega
    refine ⟨⟨e, mem_cons_self, heq⟩, fun e' he' => ?_⟩
    have hinc : ((fileChangeSets f.content).1).Pairwise fun a b => a.1 < b.1 :=
      (pairwise_flatMap.mp h.increasing).1 f hf
    rw [hl] at hinc
    rcases mem_cons.mp he' with rfl | he'
    · exact heq.ge
    · have := (pairwise_cons.mp hinc).1 e' he'
      omega

end Files

/-! ## Replay up to the target -/

def Straddled (target : Int) (files : List FileWithVersion) : Prop :=
  (∃ f ∈ files, (f.version : Int) ≤ target ∧ ∃ e ∈ (fileChangeSets f.content).1, target < e.1) ∧
    ∀ e ∈ changeSetsOf files, e.1 ≠ target

section Consumed

variable {target : Int} {l : List (Int × ChangeSet)}

/-- If the target is reached exactly or not passed, just the change sets up to it are taken. -/
theorem consumed_eq_filter (hinc : l.Pairwise fun a b => a.1 < b.1)
    (h : (∃ e ∈ l, e.1 = target) ∨ ∀ e ∈ l, e.1 ≤ target) :
    consumed target l = l.filter fun e => e.1 ≤ target := by
  induction l with
  | nil => rfl
  | cons e l ih =>
    obtain ⟨hlt, hinc⟩ := pairwise_cons.mp hinc
    rw [consumed]
    by_cases he : e.1 < target
    · rw [if_pos he, filter_cons_of_pos (by simpa using he.le), ih hinc]
      rcases h with ⟨f, hf, hft⟩ | hall
      · rcases mem_cons.mp hf with rfl | hf
        · omega
        · exact .inl ⟨f, hf, hft⟩
      · exact .inr fun f hf => hall f (mem_cons_of_mem _ hf)
    · have heq : e.1 = target := by
        rcases h with ⟨f, hf, hft⟩ | hall
        · rcases mem_cons.mp hf with rfl | hf
          · exact hft
          · have := hlt f hf
            omega
        · have := hall e mem_cons_self
          omega
      have hrest : l.filter (fun e => e.1 ≤ target) = [] := by
        refine filter_eq_nil_iff.mpr fun f hf => ?_
        have := hlt f hf
        simp only [decide_eq_true_eq, not_le]
        omega
      rw [if_neg he, filter_cons_of_pos (by simpa using heq.le), hrest]

/-- Only the root of a tree matters for what is applied to it. -/
theorem root_foldl_applyAt {t t' : Tree} (h : t.root = t'.root) :
    (l.foldl applyAt t).root = (l.foldl applyAt t').root := by
  induction l generalizing t t' with
  | nil => exact h
  | cons e l ih =>
    refine ih ?_
    rw [applyAt, applyAt, h]

end Consumed

section Verify

variable {files : List Bytes} {sorted : List FileWithVersion} {target : Int}

theorem opened_eq_filter (h : sorted.Pairwise fun a b => a.version ≤ b.version) :
    opened target sorted = sorted.filter fun f => (f.version : Int) ≤ target := by
  induction sorted with
  | nil => rfl
  | cons f fs ih =>
    obtain ⟨hle, h⟩ := pairwise_cons.mp h
    have ih : fs.takeWhile (fun f => decide ((f.version : Int) ≤ target)) = _ := ih h
    by_cases hf : (f.version : Int) ≤ target
    · rw [opened, takeWhile_cons_of_pos (by simpa using hf),
        filter_cons_of_pos (by simpa using hf), ih]
    · have hrest : fs.filter (fun f => decide ((f.version : Int) ≤ target)) = [] := by
        refine filter_eq_nil_iff.mpr fun g hg => ?_
        have := hle g hg
        simp only [decide_eq_true_eq, not_le]
        omega
      rw [opened, takeWhile_cons_of_neg (by simpa using hf),
        filter_cons_of_neg (by simpa using hf), hrest]

/-- The files that are opened hold all the change sets up to the target. -/
theorem StoreFiles.filter_opened (h : StoreFiles files sorted)
    (hpos : ∀ e ∈ changeSetsOf sorted, 0 < e.1) :
    (changeSetsOf sorted).filter (fun e => e.1 ≤ target) =
      (changeSetsOf (opened target sorted)).filter fun e => e.1 ≤ target := by
  have hle : ∀ f ∈ sorted, ∀ e ∈ (fileChangeSets f.content).1, (f.version : Int) ≤ e.1 :=
    fun f hf => (h.version_eq hpos hf).2
  rw [opened_eq_filter (sortFiles_eq h.sorted_eq).2]
  clear h hpos
  unfold changeSetsOf
  induction sorted with
  | nil => rfl
  | cons f fs ih =>
    obtain ⟨hle1, hle⟩ := forall_mem_cons.mp hle
    rw [flatMap_cons, filter_append, ih hle]
    by_cases hf : (f.version : Int) ≤ target
    · rw [filter_cons_of_pos (by simpa using hf), flatMap_cons, filter_append]
    · have hnone : (fileChangeSets f.content).1.filter (fun e => decide (e.1 ≤ target)) = [] := by
        refine filter_eq_nil_iff.mpr fun e he => ?_
        have := hle1 e he
        simp only [decide_eq_true_eq, not_le]
        omega
      rw [filter_cons_of_neg (by simpa using hf), hnone, nil_append]

theorem StoreFiles.straddled_iff (h : StoreFiles files sorted)
    (hpos : ∀ e ∈ changeSetsOf sorted, 0 < e.1) : Straddled target sorted ↔
      (∃ e ∈ changeSetsOf (opened target sorted), target < e.1) ∧
        ∀ e ∈ changeSetsOf (opened target sorted), e.1 ≠ target := by
  have hmem : ∀ f, f ∈ opened target sorted ↔ f ∈ sorted ∧ (f.version : Int) ≤ target := fun f => by
    rw [opened_eq_filter (sortFiles_eq h.sorted_eq).2, mem_filter, decide_eq_true_eq]
  constructor
  · rintro ⟨⟨f, hf, hft, e, he, hlt⟩, hne⟩
    refine ⟨⟨e, mem_flatMap.mpr ⟨f, (hmem f).mpr ⟨hf, hft⟩, he⟩, hlt⟩, fun e' he' => ?_⟩
    obtain ⟨g, hg, heg⟩ := mem_flatMap.mp he'
    exact hne e' (mem_flatMap.mpr ⟨g, ((hmem g).mp hg).1, heg⟩)
  · rintro ⟨⟨e, he, hlt⟩, hne⟩
    obtain ⟨f, hf, hef⟩ := mem_flatMap.mp he
    obtain ⟨hf, hft⟩ := (hmem f).mp hf
    refine ⟨⟨f, hf, hft, e, hef, hlt⟩, fun e' he' heq => ?_⟩
    obtain ⟨g, hg, heg⟩ := mem_flatMap.mp he'
    have hgt := (h.version_eq hpos hg).2 e' heg
    exact hne e' (mem_flatMap.mpr ⟨g, (hmem g).mpr ⟨hg, by omega⟩, heg⟩) heq

variable {first : Int} {cs : ChangeSet} {rest : List (Int × ChangeSet)} {tree : Tree}

theorem setInitialVersion_eq (hroot : tree.root = none) (hstart : (tree.version : Int) < first) {t : Tree}
    (h : setInitialVersion tree first = .ok t) : t.root = none ∧ (t.version : Int) < first := by
  unfold setInitialVersion at h
  split_ifs at h with hmax
  cases h
  have hmod : (first % 2 ^ 32).toNat = first.toNat := by
    rw [maxUint32] at hmax
    omega
  unfold Tree.setInitialVersion
  rw [hmod]
  split_ifs
  · exact ⟨hroot, hstart⟩
  · exact ⟨hroot, by simp only; omega⟩
  · exact ⟨hroot, by simp only; omega⟩

variable [Sha256]

omit [Sha256] in
theorem StoreFiles.first_version {f : FileWithVersion} {fs : List FileWithVersion}
    (hf : StoreFiles files (f :: fs)) (hfirst : changeSetsOf (f :: fs) = (first, cs) :: rest)
    (hpos : 0 < first) : toInt64 f.version = first ∧ (f.version : Int) = first := by
  have hall : ∀ e ∈ changeSetsOf (f :: fs), 0 < e.1 := fun e he => by
    have := hf.le_first hfirst he
    omega
  cases hl : (fileChangeSets f.content).1 with
  | nil => exact absurd hl (hf.nonempty f mem_cons_self)
  | cons x l =>
    rw [changeSetsOf, flatMap_cons, hl, cons_append, List.cons.injEq] at hfirst
    obtain ⟨rfl, -⟩ := hfirst
    refine ⟨first_fileChangeSets ((sortFiles_eq hf.sorted_eq).1 f mem_cons_self) hl, ?_⟩
    obtain ⟨⟨e, he, hev⟩, hfle⟩ := hf.version_eq hall mem_cons_self
    have hinc := (pairwise_flatMap.mp hf.increasing).1 f mem_cons_self
    rw [hl] at hinc he hfle
    have h1 := hfle (first, cs) mem_cons_self
    rcases mem_cons.mp he with rfl | he
    · exact hev.symm
    · have h2 := (pairwise_cons.mp hinc).1 e he
      simp only at h1 h2
      omega

def replayed (target : Int) (files : List FileWithVersion) (t : Tree) : Tree :=
  let t := (consumed target (changeSetsOf (opened target files))).foldl applyAt t
  { t with version := max t.version target.toNat }

omit [Sha256] in
theorem replayed_eq (hf : StoreFiles files sorted) (hpos : ∀ e ∈ changeSetsOf sorted, 0 < e.1)
    (hnot : ¬((∃ e ∈ changeSetsOf (opened target sorted), target < e.1) ∧
      ∀ e ∈ changeSetsOf (opened target sorted), e.1 ≠ target)) {t : Tree} (hroot : t.root = none)
    (ht : (t.version : Int) < target) :
    replayed target sorted t = replayUpTo target (changeSetsOf sorted) := by
  have hinc : (changeSetsOf (opened target sorted)).Pairwise fun a b => a.1 < b.1 := by
    have hsplit : changeSetsOf sorted = changeSetsOf (opened target sorted) ++
        changeSetsOf (sorted.dropWhile fun f => (f.version : Int) ≤ target) := by
      rw [opened, changeSetsOf, changeSetsOf, changeSetsOf, ← flatMap_append,
        takeWhile_append_dropWhile]
    exact (pairwise_append.mp (hsplit ▸ hf.increasing)).1
  have hcases : (∃ e ∈ changeSetsOf (opened target sorted), e.1 = target) ∨
      ∀ e ∈ changeSetsOf (opened target sorted), e.1 ≤ target := by
    by_contra hno
    rw [not_or] at hno
    refine hnot ⟨?_, fun e he heq => hno.1 ⟨e, he, heq⟩⟩
    by_contra hle
    exact hno.2 fun e he => not_lt.mp fun hlt => hle ⟨e, he, hlt⟩
  have hle : ((((changeSetsOf sorted).filter fun e => e.1 ≤ target).foldl applyAt t).version : Int) ≤
      target := by
    refine version_foldl_le ht.le fun e he => ?_
    simpa using (mem_filter.mp he).2
  rw [replayed, replayUpTo, consumed_eq_filter hinc hcases, ← hf.filter_opened hpos, Tree.mk.injEq]
  exact ⟨by omega, root_foldl_applyAt hroot⟩

theorem verifyOneStore_eq (hf : StoreFiles files sorted) (hfirst : changeSetsOf sorted = (first, cs) :: rest)
    (hroot : tree.root = none) (hstart : (tree.version : Int) < first) (htarget : first ≤ target)
    {store : Name} {info : Option StoreInfo} {tree' : Tree}
    (h : verifyOneStore tree store files target = .ok (info, tree')) :
    info = some ⟨store, lastCommitID tree'⟩ ∧
      ∃ t : Tree, t.root = none ∧ (t.version : Int) < first ∧ tree' = replayed target sorted t := by
  unfold verifyOneStore at h
  rw [hf.sorted_eq] at h
  cases sorted with
  | nil => cases hfirst
  | cons f fs =>
    obtain ⟨hint, hfv⟩ := hf.first_version hfirst (by omega)
    simp only at h
    rw [if_neg (by omega), hint] at h
    cases hset : setInitialVersion tree first with
    | error e =>
      rw [hset] at h
      cases h
    | ok t =>
      obtain ⟨htroot, htv⟩ := setInitialVersion_eq hroot hstart hset
      have hahead : Ahead t (changeSetsOf (f :: fs)) :=
        ⟨fun e he => lt_of_lt_of_le htv (hf.le_first hfirst he), hf.increasing⟩
      simp only [hset] at h
      cases hrep : replayFiles target (f :: fs) t with
      | error e =>
        rw [hrep] at h
        cases h
      | ok t1 =>
        have ht1 := replayFiles_eq (lt_of_lt_of_le htv htarget) hahead hrep
        simp only [hrep, if_pos (show target > 0 by omega)] at h
        cases hadv : advanceTreeVersion t1 target with
        | error e =>
          rw [hadv] at h
          cases h
        | ok t2 =>
          rw [hadv] at h
          cases h
          refine ⟨rfl, t, htroot, htv, ?_⟩
          rw [advanceTreeVersion_eq hadv, ht1]
          rfl

/-- The replay keeps to the target, exactly if the target is not in a gap within a file. -/
theorem verifyOneStore_iff (hf : StoreFiles files sorted) (hfirst : changeSetsOf sorted = (first, cs) :: rest)
    (hroot : tree.root = none) (hstart : (tree.version : Int) < first) (htarget : first ≤ target)
    {store : Name} {info : Option StoreInfo} {tree' : Tree}
    (h : verifyOneStore tree store files target = .ok (info, tree')) :
    (info = some ⟨store, ⟨target, (replayUpTo target (changeSetsOf sorted)).rootHash⟩⟩ ∧
      tree' = replayUpTo target (changeSetsOf sorted)) ↔ ¬Straddled target sorted := by
  have hpos : ∀ e ∈ changeSetsOf sorted, 0 < e.1 := fun e he => by
    have := hf.le_first hfirst he
    omega
  obtain ⟨hinfo, t, htroot, htv, htree⟩ := verifyOneStore_eq hf hfirst hroot hstart htarget h
  rw [hf.straddled_iff hpos]
  constructor
  · rintro ⟨-, heq⟩ hpassed
    -- the version of the tree is behind the target
    obtain ⟨⟨e, he, hlt⟩, hne⟩ := hpassed
    obtain ⟨e', he', hle, hlast⟩ := exists_version_consumed ⟨e, he, hlt.le⟩ t
    have hbehind := hne e' he'
    have hversion := congrArg Tree.version (htree.symm.trans heq)
    have hmax : max ((consumed target (changeSetsOf (opened target sorted))).foldl applyAt t).version
        target.toNat = target.toNat := hversion
    omega
  · intro hnot
    have heq := replayed_eq hf hpos hnot htroot (lt_of_lt_of_le htv htarget)
    rw [hinfo, htree, heq, lastCommitID]
    have hcast : ((replayUpTo target (changeSetsOf sorted)).version : Int) = target := by
      show (target.toNat : Int) = target
      omega
    rw [hcast]
    exact ⟨rfl, rfl⟩

end Verify

/-! ## A file with a gap -/

def gapFile : Bytes :=
  writeChangeSet 1 [⟨false, [107], some [1]⟩] ++ writeChangeSet 5 [⟨false, [107], some [2]⟩]

theorem changeSetsOf_gapFile : changeSetsOf [⟨gapFile, 1⟩] =
    [(1, [⟨false, [107], some [1]⟩]), (5, [⟨false, [107], some [2]⟩])] := by decide +kernel

theorem storeFiles_gapFile : StoreFiles [gapFile] [⟨gapFile, 1⟩] where
  sorted_eq := by decide +kernel
  nonempty := by decide +kernel
  increasing := by
    rw [changeSetsOf_gapFile]
    decide

/-- The target 7 is behind the last change set. -/
theorem verifyOneStore_iff_behind : ∃ info tree',
    @verifyOneStore Sha256.zero ⟨0, none⟩ [115] [gapFile] 7 = .ok (info, tree') ∧
      tree' = replayUpTo 7 [(1, [⟨false, [107], some [1]⟩]), (5, [⟨false, [107], some [2]⟩])] := by
  let _ := Sha256.zero
  obtain ⟨⟨info, tree'⟩, hr⟩ : ∃ r, verifyOneStore ⟨0, none⟩ [115] [gapFile] 7 = .ok r := by
    have hok : (verifyOneStore ⟨0, none⟩ [115] [gapFile] 7).toOption.isSome := by decide +kernel
    obtain ⟨r, hr⟩ := Option.isSome_iff_exists.mp hok
    exact ⟨r, Results.toOption_eq_some.mp hr⟩
  have hnot : ¬Straddled 7 [⟨gapFile, 1⟩] := by
    rintro ⟨⟨f, hf, -, e, he, hlt⟩, -⟩
    have hmem : e ∈ changeSetsOf [⟨gapFile, 1⟩] := mem_flatMap.mpr ⟨f, hf, he⟩
    rw [changeSetsOf_gapFile] at hmem
    rcases mem_cons.mp hmem with rfl | hmem
    · exact absurd hlt (by decide)
    · rw [mem_singleton.mp hmem] at hlt
      exact absurd hlt (by decide)
  have hexact := (verifyOneStore_iff storeFiles_gapFile changeSetsOf_gapFile rfl (by decide)
    (by decide) hr).mpr hnot
  rw [changeSetsOf_gapFile] at hexact
  exact ⟨info, tree', hr, hexact.2⟩

/-- The target 3 is in the gap: the change set of version 5 is applied, and the tree ends at
version 5. -/
theorem exists_passed_target : ∃ info tree',
    @verifyOneStore Sha256.zero ⟨0, none⟩ [115] [gapFile] 3 = .ok (some info, tree') ∧
      info.commitId.version = 5 ∧ tree'.toList = [([107], some [2])] ∧
      (replayUpTo 3 (changeSetsOf [⟨gapFile, 1⟩])).toList = [([107], some [1])] := by
  let _ := Sha256.zero
  have hrun : ((verifyOneStore ⟨0, none⟩ [115] [gapFile] 3).toOption.bind fun r => r.1.map fun i =>
      (i.commitId.version, r.2.toList)) = some (5, [([107], some [2])]) := by
    decide +kernel
  obtain ⟨⟨info, tree'⟩, hr, hend⟩ := Option.bind_eq_some_iff.mp hrun
  obtain ⟨i, rfl, hend⟩ := Option.map_eq_some_iff.mp hend
  obtain ⟨hversion, hlist⟩ := Prod.mk.inj hend
  exact ⟨i, tree', Results.toOption_eq_some.mp hr, hversion, hlist, by decide +kernel⟩

end CronosStore.VersionDB
