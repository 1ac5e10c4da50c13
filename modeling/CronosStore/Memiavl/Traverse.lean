import CronosStore.Memiavl.Directory
import Mathlib.Data.List.Perm.Subperm

/-!
# Traversing the snapshots of a directory

`traverseSnapshots` and `seekSnapshot` of `memiavl/db.go` over all that `os.ReadDir` lists, files
and links included. Names are ordered as versions are, but `parseVersion` has 31 bits for the
number, and versions have 32. It also takes a sign, and a directory whose name only looks like the
name of a snapshot ends the traversal instead of being passed over. A directory is traversed
faithfully if and only if every subdirectory that looks like a snapshot is named after a version
below `2 ^ 31` (`snapshot_names_iff`).
-/

namespace CronosStore.Memiavl

open Foundation List

structure DirEntry where
  name : Name
  isDir : Bool
deriving DecidableEq

structure Listing where
  entries : List DirEntry
  sorted : entries.Pairwise fun a b => a.name < b.name

inductive SnapshotTraverseError (ε : Type)
  | invalidName (name : Name)
  | callback (error : ε)
deriving DecidableEq

namespace Listing

section Callback

variable {σ ε : Type} (callback : Int → σ → Except ε Bool × σ)

def process (entry : DirEntry) (s : σ) : Except (SnapshotTraverseError ε) Bool × σ :=
  if !entry.isDir || !isSnapshotName entry.name then (.ok false, s)
  else
    match parseVersion entry.name with
    | none => (.error (.invalidName entry.name), s)
    | some version =>
      match callback version s with
      | (.ok stop, s) => (.ok stop, s)
      | (.error e, s) => (.error (.callback e), s)

def processAll : List DirEntry → σ → Except (SnapshotTraverseError ε) Unit × σ
  | [], s => (.ok (), s)
  | entry :: entries, s =>
    match process callback entry s with
    | (.ok false, s) => processAll entries s
    | (.ok true, s) => (.ok (), s)
    | (.error e, s) => (.error e, s)

def traverseSnapshots (l : Listing) (ascending : Bool) (s : σ) : Except (SnapshotTraverseError ε) Unit × σ :=
  processAll callback (if ascending then l.entries else l.entries.reverse) s

end Callback

def seek (targetVersion : Nat) (version : Int) (found : Option Int) : Except Empty Bool × Option Int :=
  if version ≤ targetVersion then (.ok true, some version) else (.ok false, found)

def seekSnapshot (l : Listing) (targetVersion : Nat) : Except LoadDBError Int :=
  match l.traverseSnapshots (seek targetVersion) false none with
  | (.error (.invalidName name), _) => .error (.invalidSnapshotName name)
  | (.ok (), none) => .error (.targetPruned targetVersion)
  | (.ok (), some version) => .ok version

/-! ## What a traversal is for -/

def IsSnapshot (l : Listing) (version : Int) : Prop :=
  (0 ≤ version ∧ version < 2 ^ 32) ∧ ⟨snapshotName version, true⟩ ∈ l.entries

def visit {σ ε : Type} (callback : Int → σ → Except ε Bool × σ) :
    List Int → σ → Except (SnapshotTraverseError ε) Unit × σ
  | [], s => (.ok (), s)
  | version :: versions, s =>
    match callback version s with
    | (.ok false, s) => visit callback versions s
    | (.ok true, s) => (.ok (), s)
    | (.error e, s) => (.error (.callback e), s)

/-- A search finds the newest snapshot up to the target, and fails if and only if there is none; a
traversal visits all versions in numeric order or in the opposite one, and nothing else. -/
structure Faithful (l : Listing) : Prop where
  found : ∀ target : Nat, target < 2 ^ 32 → ∀ v, l.seekSnapshot target = .ok v ↔
    IsGreatest {w | l.IsSnapshot w ∧ w ≤ target} v
  pruned : ∀ target : Nat, target < 2 ^ 32 →
    ((∃ e, l.seekSnapshot target = .error e) ↔ ∀ v, l.IsSnapshot v → ¬v ≤ target)
  visited : ∃ versions : List Int, versions.Pairwise (· < ·) ∧
    (∀ v, v ∈ versions ↔ l.IsSnapshot v) ∧
    ∀ (σ ε : Type) (callback : Int → σ → Except ε Bool × σ) (s : σ),
      l.traverseSnapshots callback true s = visit callback versions s ∧
        l.traverseSnapshots callback false s = visit callback versions.reverse s

/-! ## Traversing -/

def looksLike (entry : DirEntry) : Bool := entry.isDir && isSnapshotName entry.name

section Callback

variable {σ ε : Type} {callback : Int → σ → Except ε Bool × σ}

theorem processAll_filter (entries : List DirEntry) (s : σ) :
    processAll callback entries s = processAll callback (entries.filter looksLike) s := by
  induction entries generalizing s with
  | nil => rfl
  | cons entry entries ih =>
    by_cases hlook : looksLike entry = true
    · rw [filter_cons_of_pos hlook, processAll, processAll]
      simp only [ih]
    · have hskip : (!entry.isDir || !isSnapshotName entry.name) = true := by
        rw [← Bool.not_and, Bool.not_eq_true']
        exact Bool.not_eq_true _ ▸ hlook
      rw [filter_cons_of_neg hlook, processAll, process, if_pos hskip]
      exact ih s

theorem process_of_looksLike {entry : DirEntry} (h : looksLike entry = true) (s : σ) :
    process callback entry s =
      match parseVersion entry.name with
      | none => (.error (.invalidName entry.name), s)
      | some version =>
        match callback version s with
        | (.ok stop, s) => (.ok stop, s)
        | (.error e, s) => (.error (.callback e), s) := by
  obtain ⟨hdir, hname⟩ := Bool.and_eq_true_iff.mp h
  rw [process, hdir, hname]
  rfl

theorem processAll_map {versions : List Int} (h : ∀ v ∈ versions, 0 ≤ v ∧ v < 2 ^ 31) (s : σ) :
    processAll callback (versions.map fun v => ⟨snapshotName v, true⟩) s =
      visit callback versions s := by
  induction versions generalizing s with
  | nil => rfl
  | cons v versions ih =>
    obtain ⟨hv, h⟩ := forall_mem_cons.mp h
    have hparse : parseVersion (snapshotName v) = some v := by
      rw [parseVersion_snapshotName ⟨hv.1, by omega⟩, if_pos hv.2]
    have hlook : looksLike ⟨snapshotName v, true⟩ = true := isSnapshotName_snapshotName v
    have hprocess := @process_of_looksLike σ ε callback _ hlook s
    simp only [hparse] at hprocess
    rw [map_cons, processAll, visit, hprocess]
    rcases callback v s with ⟨stop | stop, s'⟩
    · rfl
    · cases stop with
      | false => exact ih h s'
      | true => rfl

end Callback

def collect (version : Int) (versions : List Int) : Except Empty Bool × List Int :=
  (.ok false, versions ++ [version])

theorem visit_collect (versions s : List Int) : visit collect versions s = (.ok (), s ++ versions) := by
  induction versions generalizing s with
  | nil => rw [visit, append_nil]
  | cons v versions ih =>
    rw [visit, collect]
    simp only [ih, append_assoc, singleton_append]

/-- A traversal that comes to the end has parsed every name that looks like that of a snapshot. -/
theorem processAll_collect {entries : List DirEntry} (h : ∀ e ∈ entries, looksLike e = true)
    {s t : List Int} (hok : processAll collect entries s = (.ok (), t)) :
    ∃ versions, t = s ++ versions ∧
      entries.map (fun e => parseVersion e.name) = versions.map some := by
  induction entries generalizing s with
  | nil =>
    cases hok
    exact ⟨[], (append_nil _).symm, rfl⟩
  | cons entry entries ih =>
    obtain ⟨hlook, h⟩ := forall_mem_cons.mp h
    rw [processAll, process_of_looksLike hlook] at hok
    cases hparse : parseVersion entry.name with
    | none =>
      rw [hparse] at hok
      cases hok
    | some v =>
      simp only [hparse, collect] at hok
      obtain ⟨versions, rfl, hmap⟩ := ih h hok
      refine ⟨v :: versions, by simp, ?_⟩
      rw [map_cons, map_cons, hparse, hmap]

theorem visit_seek (target : Nat) (versions : List Int) :
    visit (seek target) versions none =
      (.ok (), versions.find? fun v => decide (v ≤ (target : Int))) := by
  induction versions with
  | nil => rfl
  | cons v versions ih =>
    rw [visit, seek]
    by_cases hle : v ≤ (target : Int)
    · rw [if_pos hle, find?_cons_of_pos (by simpa using hle)]
    · rw [if_neg hle, find?_cons_of_neg (by simpa using hle)]
      exact ih

variable {l : Listing}

/-! ## The versions of a listing -/

def Proper (l : Listing) : Prop :=
  ∀ entry ∈ l.entries, entry.isDir = true → isSnapshotName entry.name = true →
    ∃ v : Int, (0 ≤ v ∧ v < 2 ^ 31) ∧ entry.name = snapshotName v

theorem Proper.exists_versions (h : l.Proper) :
    ∃ versions : List Int, (∀ v ∈ versions, 0 ≤ v ∧ v < 2 ^ 31) ∧
      l.entries.filter looksLike = versions.map fun v => ⟨snapshotName v, true⟩ := by
  have hall : ∀ e ∈ l.entries.filter looksLike,
      ∃ v : Int, (0 ≤ v ∧ v < 2 ^ 31) ∧ e = ⟨snapshotName v, true⟩ := by
    intro e he
    obtain ⟨hmem, hlook⟩ := mem_filter.mp he
    obtain ⟨hdir, hname⟩ := Bool.and_eq_true_iff.mp hlook
    obtain ⟨v, hv, heq⟩ := h e hmem hdir hname
    exact ⟨v, hv, by rw [← heq, ← hdir]⟩
  generalize l.entries.filter looksLike = entries at hall
  induction entries with
  | nil => exact ⟨[], fun _ hv => absurd hv not_mem_nil, rfl⟩
  | cons e entries ih =>
    obtain ⟨⟨v, hv, rfl⟩, hrest⟩ := forall_mem_cons.mp hall
    obtain ⟨versions, hlt, rfl⟩ := ih hrest
    exact ⟨v :: versions, forall_mem_cons.mpr ⟨hv, hlt⟩, rfl⟩

variable {versions : List Int}

theorem mem_versions_iff (hlt : ∀ v ∈ versions, 0 ≤ v ∧ v < 2 ^ 31)
    (heq : l.entries.filter looksLike = versions.map fun v => ⟨snapshotName v, true⟩) (v : Int) :
    v ∈ versions ↔ l.IsSnapshot v := by
  constructor
  · intro hv
    have hmem : (⟨snapshotName v, true⟩ : DirEntry) ∈ l.entries.filter looksLike := by
      rw [heq]
      exact mem_map_of_mem hv
    have := hlt v hv
    exact ⟨by omega, (mem_filter.mp hmem).1⟩
  · rintro ⟨hv, hmem⟩
    have hfilter : ⟨snapshotName v, true⟩ ∈ l.entries.filter looksLike :=
      mem_filter.mpr ⟨hmem, isSnapshotName_snapshotName v⟩
    rw [heq] at hfilter
    obtain ⟨w, hw, hname⟩ := mem_map.mp hfilter
    have := hlt w hw
    have hinj : w = v :=
      snapshotName_inj ⟨by omega, by omega⟩ ⟨by omega, by omega⟩ (congrArg DirEntry.name hname)
    exact hinj ▸ hw

theorem versions_sorted (hlt : ∀ v ∈ versions, 0 ≤ v ∧ v < 2 ^ 31)
    (heq : l.entries.filter looksLike = versions.map fun v => ⟨snapshotName v, true⟩) :
    versions.Pairwise (· < ·) := by
  have hsorted := l.sorted.filter looksLike
  rw [heq, pairwise_map] at hsorted
  refine hsorted.imp_of_mem fun {v w} hv hw h => ?_
  have := hlt v hv
  have := hlt w hw
  exact lt_of_snapshotName_lt ⟨by omega, by omega⟩ ⟨by omega, by omega⟩ h

/-- What a search finds, in a list of versions that it visits from the newest on. -/
theorem find?_reverse_eq_some (hsorted : versions.Pairwise (· < ·)) (target v : Int) :
    (versions.reverse.find? fun w => decide (w ≤ target)) = some v ↔
      IsGreatest {w | w ∈ versions ∧ w ≤ target} v := by
  rw [find?_eq_some_iff_append]
  constructor
  · rintro ⟨hle, newer, older, hsplit, hnewer⟩
    have hrev : versions = older.reverse ++ v :: newer.reverse := by
      rw [← reverse_reverse versions, hsplit]
      simp
    subst hrev
    refine ⟨⟨by simp, by simpa using hle⟩, fun w ⟨hw, hwle⟩ => ?_⟩
    obtain ⟨-, -, hcross⟩ := pairwise_append.mp hsorted
    rcases mem_append.mp hw with hw | hw
    · exact (hcross w hw v mem_cons_self).le
    · rcases mem_cons.mp hw with rfl | hw
      · exact le_rfl
      · have := hnewer w (mem_reverse.mp hw)
        exact absurd hwle (by simpa using this)
  · rintro ⟨⟨hmem, hle⟩, hgreatest⟩
    obtain ⟨older, newer, rfl⟩ := append_of_mem hmem
    refine ⟨by simpa using hle, newer.reverse, older.reverse, by simp, fun w hw => ?_⟩
    obtain ⟨-, htail, -⟩ := pairwise_append.mp hsorted
    have hlt : v < w := rel_of_pairwise_cons htail (mem_reverse.mp hw)
    have hnot : ¬w ≤ target := fun hwle =>
      absurd (hgreatest ⟨mem_append_right _ (mem_cons_of_mem _ (mem_reverse.mp hw)), hwle⟩)
        (by omega)
    simpa using hnot

theorem Proper.faithful (h : l.Proper) : l.Faithful := by
  obtain ⟨versions, hlt, heq⟩ := h.exists_versions
  have hmem := mem_versions_iff hlt heq
  have hsorted := versions_sorted hlt heq
  have hdown : ∀ (σ ε : Type) (callback : Int → σ → Except ε Bool × σ) (s : σ),
      l.traverseSnapshots callback false s = visit callback versions.reverse s := by
    intro σ ε callback s
    rw [traverseSnapshots, if_neg (by decide), processAll_filter, filter_reverse, heq,
      ← map_reverse, processAll_map fun v hv => hlt v (mem_reverse.mp hv)]
  have hseek : ∀ target : Nat, l.seekSnapshot target =
      match versions.reverse.find? fun v => decide (v ≤ (target : Int)) with
      | none => .error (.targetPruned target)
      | some v => .ok v := by
    intro target
    rw [seekSnapshot, hdown, visit_seek]
    cases versions.reverse.find? fun v => decide (v ≤ (target : Int)) <;> rfl
  refine ⟨fun target _ v => ?_, fun target _ => ?_, versions, hsorted, hmem, fun σ ε callback s =>
    ⟨?_, hdown σ ε callback s⟩⟩
  · have hgreatest := find?_reverse_eq_some hsorted target v
    simp only [hmem] at hgreatest
    rw [← hgreatest, hseek]
    cases versions.reverse.find? fun v => decide (v ≤ (target : Int)) <;> simp
  · have hnone : (versions.reverse.find? fun v => decide (v ≤ (target : Int))) = none ↔
        ∀ v, l.IsSnapshot v → ¬v ≤ (target : Int) := by
      rw [find?_eq_none]
      simp only [mem_reverse, hmem, decide_eq_true_eq]
    rw [← hnone, hseek]
    cases versions.reverse.find? fun v => decide (v ≤ (target : Int)) <;> simp
  · rw [traverseSnapshots, if_pos rfl, processAll_filter, heq, processAll_map hlt]

/-- If all versions are visited in order and nothing else is, there are as many subdirectories
that look like snapshots as there are snapshots, so each of them is one. -/
theorem Faithful.proper (h : l.Faithful) : l.Proper := by
  obtain ⟨versions, hsorted, hmem, htraverse⟩ := h.visited
  have hok := (htraverse (List Int) Empty collect []).1
  rw [visit_collect, traverseSnapshots, if_pos rfl, processAll_filter] at hok
  obtain ⟨parsed, hparsed, hmap⟩ := processAll_collect (fun e he => (mem_filter.mp he).2) hok
  rw [nil_append, nil_append] at hparsed
  subst hparsed
  -- the snapshots, as entries
  have hrange : ∀ v ∈ versions, Nameable v := fun v hv => by
    have := ((hmem v).mp hv).1
    exact ⟨by omega, by omega⟩
  have hnodup : (versions.map fun v => (⟨snapshotName v, true⟩ : DirEntry)).Nodup := by
    refine List.Nodup.map_on (fun v hv w hw heq => ?_) (hsorted.imp fun h => ne_of_lt h)
    exact snapshotName_inj (hrange v hv) (hrange w hw) (congrArg DirEntry.name heq)
  have hsub : (versions.map fun v => (⟨snapshotName v, true⟩ : DirEntry)) ⊆
      l.entries.filter looksLike := by
    intro e he
    obtain ⟨v, hv, rfl⟩ := mem_map.mp he
    exact mem_filter.mpr ⟨((hmem v).mp hv).2, isSnapshotName_snapshotName v⟩
  have hlen := congrArg List.length hmap
  rw [length_map, length_map] at hlen
  have hperm := (subperm_of_subset hnodup hsub).perm_of_length_le (by rw [length_map, hlen])
  intro entry hentry hdir hname
  have hfilter : entry ∈ l.entries.filter looksLike :=
    mem_filter.mpr ⟨hentry, Bool.and_eq_true_iff.mpr ⟨hdir, hname⟩⟩
  obtain ⟨v, hv, rfl⟩ := mem_map.mp (hperm.mem_iff.mpr hfilter)
  have hsome := mem_map_of_mem (f := fun e : DirEntry => parseVersion e.name) hfilter
  rw [hmap] at hsome
  obtain ⟨w, -, hw⟩ := mem_map.mp hsome
  have hparse := parseVersion_snapshotName (hrange v hv)
  rw [← hw] at hparse
  split_ifs at hparse with hlt
  exact ⟨v, ⟨(hrange v hv).1, hlt⟩, rfl⟩

end Listing

/-- A version is read back from its name if and only if it is below `2 ^ 31`, names are ordered as
versions are, and a directory is traversed faithfully if and only if every subdirectory that looks like
a snapshot is named after a version below `2 ^ 31`. -/
theorem snapshot_names_iff (l : Listing) :
    (∀ v : Int, 0 ≤ v → v ≤ 2 ^ 32 - 1 → (parseVersion (snapshotName v) = some v ↔ v < 2 ^ 31)) ∧
      (∀ v w : Int, 0 ≤ v → v ≤ 2 ^ 32 - 1 → 0 ≤ w → w ≤ 2 ^ 32 - 1 →
        (snapshotName v < snapshotName w ↔ v < w)) ∧
      (l.Faithful ↔ l.Proper) := by
  refine ⟨fun v hv hle => ?_, fun v w hv hvle hw hwle => ⟨?_, ?_⟩,
    Listing.Faithful.proper, Listing.Proper.faithful⟩
  · rw [parseVersion_snapshotName ⟨hv, by omega⟩]
    split_ifs with hlt
    · exact iff_of_true rfl hlt
    · exact iff_of_false (by simp) hlt
  · exact lt_of_snapshotName_lt ⟨hv, by omega⟩ ⟨hw, by omega⟩
  · exact snapshotName_lt hv ⟨hw, by omega⟩

/-- A snapshot of version `2 ^ 31`, which `SaveVersion` and the importer accept, hides the older one
of version 5 from a search; and so does a subdirectory that is not a snapshot. -/
theorem exists_snapshot_hidden :
    parseVersion (snapshotName (2 ^ 31)) = none ∧
      Listing.seekSnapshot ⟨[⟨snapshotName 5, true⟩, ⟨snapshotName (2 ^ 31), true⟩], by decide⟩ 7 =
        .error (.invalidSnapshotName (snapshotName (2 ^ 31))) ∧
      Listing.seekSnapshot
          ⟨[⟨snapshotName 5, true⟩, ⟨snapshotPrefix ++ List.replicate 20 120, true⟩], by decide⟩ 7 =
        .error (.invalidSnapshotName (snapshotPrefix ++ List.replicate 20 120)) := by
  decide

end CronosStore.Memiavl
