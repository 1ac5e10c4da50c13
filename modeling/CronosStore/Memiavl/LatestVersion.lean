import CronosStore.Memiavl.CatchupTarget
import CronosStore.Memiavl.WALTruncation

/-!
# The latest version without loading

`GetLatestVersion` reads the metadata of the snapshot that `current` links to and the last index of
the log, through the reader that repairs nothing. `Load` opens the log for writing, which repairs a
torn tail, and replays what is behind the snapshot. If the log is empty or reaches the snapshot,
both come to the same version. If the log ends before the snapshot, `Load` stays at the version of
the snapshot and `GetLatestVersion` takes the end of the log (`Directory.latestVersion_iff`).
-/

namespace CronosStore.Memiavl

open Foundation List

inductive LatestError
  | metadata (error : LoadError)
  | wal (error : WALError)
deriving DecidableEq

namespace Directory

variable {P : Type}

def currentMetadata (d : Directory P) : Except LoadError (MultiTreeMetadata × CommitInfo) :=
  match d.current.bind d.get with
  | none => .error .notExist
  | some content => readMetadata content

/-- `GetLatestVersion`; what the reader of the log returns as last index is a parameter. -/
def latestVersion (d : Directory P) (lastIndex : Except WALError Nat) : Except LatestError Int :=
  match d.currentMetadata with
  -- there is no database
  | .error .notExist => .ok 0
  | .error e => .error (.metadata e)
  | .ok (metadata, commitInfo) =>
    match lastIndex with
    | .error e => .error (.wal e)
    | .ok lastIndex => .ok (committedVersionAt lastIndex (metadata.initialVersion % 2 ^ 32).toNat commitInfo.version)

def getLatestVersion (d : Directory P) (wal : WALDir) : Except LatestError Int :=
  d.latestVersion (openReadOnlyWAL wal wal wal >>= ReadOnlyWAL.LastIndex)

section Load

variable [Sha256] [WALCodec P] {d d' : Directory P} {m t : MultiTree} {name : Name}

omit [WALCodec P] in
theorem openTrees_of_clean (h : d.clean.openTrees name = .ok t) : d.openTrees name = .ok t := by
  obtain ⟨content, hget, hload⟩ := openTrees_eq_ok.mp h
  have hmem := (SortedAssoc.lookup_eq_some_iff d.clean.sorted).mp hget
  rw [get_clean (mem_clean.mp hmem).2] at hget
  exact openTrees_eq_ok.mpr ⟨content, hget, hload⟩

theorem load_ok {readOnly : Bool} (h : d.load ⟨0, readOnly, false⟩ = .ok (m, d')) :
    ∃ name t, d.current = some name ∧ d.openTrees name = .ok t ∧ t.catchupWAL d.wal 0 = .ok m := by
  obtain ⟨d1, hcur, hwal, hopen, steps, hplan⟩ : ∃ d1 : Directory P, d1.current = d.current ∧
      d1.wal = d.wal ∧ (∀ name t, d1.openTrees name = .ok t → d.openTrees name = .ok t) ∧
      ∃ steps, d1.planClean ⟨0, readOnly, false⟩ = .ok (m, steps) := by
    unfold load plan at h
    cases readOnly with
    | true =>
      refine ⟨d, rfl, rfl, fun _ _ ho => ho, ?_⟩
      simp only [Bool.and_false, Bool.false_eq_true, if_false, if_true] at h
      cases hp : d.planClean ⟨0, true, false⟩ with
      | error e =>
        rw [hp] at h
        cases h
      | ok r =>
        obtain ⟨m', steps⟩ := r
        rw [hp] at h
        simp only at h
        split at h
        · cases h
        · cases h
          exact ⟨steps, rfl⟩
    | false =>
      refine ⟨d.clean, rfl, rfl, fun _ _ ho => openTrees_of_clean ho, ?_⟩
      simp only [Bool.and_false, Bool.false_eq_true, if_false, runSteps_cleanup] at h
      cases hp : d.clean.planClean ⟨0, false, false⟩ with
      | error e =>
        rw [hp] at h
        cases h
      | ok r =>
        obtain ⟨m', steps⟩ := r
        rw [hp] at h
        simp only [Except.map] at h
        split at h
        · cases h
        · cases h
          exact ⟨steps, rfl⟩
  cases hname : d1.current with
  | none =>
    rw [planClean, selectSnapshot, if_neg (Nat.lt_irrefl 0), hname] at hplan
    cases hplan
  | some name =>
    rw [planClean_untargeted hname rfl] at hplan
    cases ht : d1.openTrees name with
    | error e =>
      rw [ht] at hplan
      cases hplan
    | ok t =>
      rw [ht] at hplan
      simp only at hplan
      cases hm : t.catchupWAL d1.wal 0 with
      | error e =>
        rw [hm] at hplan
        cases hplan
      | ok m' =>
        rw [hm] at hplan
        cases hplan
        exact ⟨name, t, hcur ▸ hname, hopen name t ht, hwal ▸ hm⟩

omit [WALCodec P] in
theorem currentMetadata_eq (hcur : d.current = some name) (ht : d.openTrees name = .ok t) :
    ∃ md ci, d.currentMetadata = .ok (md, ci) ∧ ci.version = t.version ∧
      (md.initialVersion % 2 ^ 32).toNat = t.initialVersion := by
  obtain ⟨content, hget, hload⟩ := openTrees_eq_ok.mp ht
  obtain ⟨md, ci, hmd, rfl, -⟩ := loadMultiTree_eq_ok_iff.mp hload
  refine ⟨md, ci, ?_, ?_, ?_⟩
  · rw [currentMetadata, hcur, Option.bind_some, hget]
    exact hmd
  · unfold loadedTrees MultiTree.setInitialVersion
    split_ifs <;> rfl
  · unfold loadedTrees MultiTree.setInitialVersion
    split_ifs <;> rfl

end Load

end Directory

/-! ## Versions and indices -/

namespace MultiTree

variable [Sha256] {P : Type} [WALCodec P] {t m : MultiTree} {log : IndexedLog P}

def nextIndex (t : MultiTree) : Nat := walIndex (nextVersion t.version t.initialVersion) t.initialVersion

theorem catchupWAL_version (h0 : 0 ≤ t.version) (hv : t.version ≤ maxUint32)
    (hiv : t.initialVersion ≤ maxUint32) (hlast : log.lastIndex < 2 ^ 64 - 2 ^ 32)
    (h : t.catchupWAL log 0 = .ok m) :
    m.version = committedVersionAt log.lastIndex t.initialVersion t.version ↔
      log.lastIndex = 0 ∨ t.nextIndex ≤ log.lastIndex + 1 := by
  have hmax : maxUint32 = 4294967295 := rfl
  unfold catchupWAL at h
  rw [if_neg (by decide)] at h
  simp only [if_true, min_self] at h
  by_cases hup : walIndex (nextVersion t.version t.initialVersion) t.initialVersion > log.lastIndex
  · rw [if_pos hup] at h
    cases h
    unfold nextIndex committedVersionAt
    unfold walIndex nextVersion at *
    unfold walVersion
    split_ifs at * <;> omega
  · rw [if_neg hup, if_neg (by omega)] at h
    obtain ⟨n, hn⟩ : ∃ n, log.lastIndex + 1 -
        walIndex (nextVersion t.version t.initialVersion) t.initialVersion = n + 1 :=
      ⟨log.lastIndex - walIndex (nextVersion t.version t.initialVersion) t.initialVersion, by omega⟩
    rw [hn] at h
    split at h
    · cases h
    · rename_i u hu
      cases h
      obtain ⟨-, hver, hne⟩ := replay_fields hu
      rw [iterate_nextVersion h0] at hver
      have hver : u.updateCommitInfo.version = nextVersion t.version t.initialVersion + n := hver
      have hne := hne (by omega)
      rw [hver]
      unfold nextIndex committedVersionAt
      unfold walIndex nextVersion at *
      unfold walVersion
      split_ifs at * <;> omega

end MultiTree

section Snapshots

variable [Sha256] {P : Type} [WALCodec P] {d d' : Directory P} {m t : MultiTree} {name : Name}

/-- The latest version is that of `Load` if and only if the log is empty or reaches the snapshot. -/
theorem Directory.latestVersion_iff (hbound : d.wal.lastIndex < 2 ^ 63 - 2 ^ 32) {readOnly : Bool}
    (hload : d.load ⟨0, readOnly, false⟩ = .ok (m, d')) (hcur : d.current = some name)
    (ht : d.openTrees name = .ok t) (h0 : 0 ≤ t.version) :
    d.latestVersion (.ok d.wal.lastIndex) = .ok m.version ↔
      d.wal.lastIndex = 0 ∨ t.nextIndex ≤ d.wal.lastIndex + 1 := by
  obtain ⟨name', t', hcur', ht', hcatch⟩ := load_ok hload
  cases hcur.symm.trans hcur'
  cases ht.symm.trans ht'
  obtain ⟨content, -, hloaded⟩ := openTrees_eq_ok.mp ht
  obtain ⟨-, -, -, hiv, hv, -⟩ := loadMultiTree_eq_ok hloaded
  obtain ⟨md, ci, hmd, hver, hinit⟩ := currentMetadata_eq hcur ht
  rw [latestVersion, hmd]
  simp only [hver, hinit]
  rw [← MultiTree.catchupWAL_version h0 hv hiv (by omega) hcatch, Except.ok.injEq, eq_comm]

end Snapshots

/-! ## Opening the log for writing -/

/-- `wal.Open`, which is outside of the repository: the log that it finds in the files. -/
structure WALLib where
  openLog : WALDir → Except WALError (IndexedLog Bytes)

/-- What `wal.Open` documents: it keeps the segments that `listWALSegments` gives, and refuses a last one that
ends within an entry. -/
structure WALLib.Lawful (lib : WALLib) : Prop where
  complete : ∀ {d : WALDir} {start : Nat} {pairs : List (Bytes × List Bytes)} {log : IndexedLog Bytes},
    listWALSegments d = .ok (segmentsFrom start pairs) → (∀ p ∈ pairs, d.readSegment p.1 = .ok (p.2, false)) →
    log.dropped + 1 = start → log.entries = (pairs.map Prod.snd).flatten → lib.openLog d = .ok log
  torn : ∀ {d : WALDir} {start : Nat} {pairs : List (Bytes × List Bytes)} {p : Bytes × List Bytes},
    listWALSegments d = .ok (segmentsFrom start (pairs ++ [p])) → d.readSegment p.1 = .ok (p.2, true) →
    lib.openLog d = .error .corrupt

def WALDir.writeFile (d : WALDir) (path data : Bytes) : WALDir where
  entries := SortedAssoc.insert path (some data) d.entries
  sorted := SortedAssoc.sorted_insert d.sorted

def openWAL (lib : WALLib) (d : WALDir) : Except WALError (IndexedLog Bytes) :=
  match lib.openLog d with
  | .error .corrupt =>
    match listWALSegments d with
    | .error e => .error e
    | .ok segments =>
      match segments.getLast? with
      | none => .error .corrupt
      | some tail =>
        match d.readFile tail.path with
        | .error e => .error e
        | .ok data => lib.openLog (d.writeFile tail.path (truncateCorruptedTail .binary data))
  | r => r

/-- Complete entries are read the same whatever is stuck behind them. -/
theorem Chain.readWALEntries_eq {p : Bytes} (h : Chain .binary p) :
    ∃ entries, ∀ rest, Stuck .binary rest → readWALEntries (p ++ rest) = (entries, decide (rest ≠ [])) := by
  suffices hends : ∃ entries, ∀ rest before, Stuck .binary rest →
      readLoop.Ends (p ++ rest, before) (before ++ entries, decide (rest ≠ [])) by
    obtain ⟨entries, hends⟩ := hends
    exact ⟨entries, fun rest hrest => (hends rest [] hrest).result_eq⟩
  induction h with
  | nil =>
    refine ⟨[], fun rest before hstuck => .done ?_⟩
    rw [append_nil, nil_append]
    by_cases hrest : rest = []
    · simp [readLoop, hrest]
    · have hnone : loadNextBinaryEntry rest = none :=
        Option.map_eq_none_iff.mp (hstuck.resolve_left hrest)
      simp [readLoop, hrest, hnone]
  | @cons x rest' hx hload _ ih =>
    obtain ⟨entries, ih⟩ := ih
    obtain ⟨⟨n, header⟩, hnext, hn⟩ := Option.map_eq_some_iff.mp (hload [])
    obtain ⟨p, entry, tail, hsplit, hp, hheader, hlen, hlocal⟩ := loadNextBinaryEntry_eq_some.mp hnext
    have htail : tail = [] := by
      have hn : n = x.length := hn
      have := congrArg List.length hsplit
      simp only [append_nil, length_append] at this
      exact length_eq_zero_iff.mp (by omega)
    rw [htail, append_nil, append_nil] at hsplit
    have hall (c : Bytes) : loadNextBinaryEntry (x ++ c) = some (x.length, header) :=
      loadNextBinaryEntry_eq_some.mpr ⟨p, entry, c, by rw [hsplit], hp, hheader, by simp [hsplit], hlocal⟩
    refine ⟨x.drop header :: entries, fun rest before hstuck => ?_⟩
    refine Loop.Ends.next (?_ : _ = Turn.next (rest' ++ rest, before ++ [x.drop header])) ?_
    · have hne : x ++ (rest' ++ rest) ≠ [] := by simp [hx]
      simp only [readLoop, append_assoc, if_neg hne, hall, take_left, drop_left]
    · have := ih rest (before ++ [x.drop header]) hstuck
      rwa [append_assoc, singleton_append] at this

theorem readWALEntries_truncateCorruptedTail (data : Bytes) :
    readWALEntries (truncateCorruptedTail .binary data) = ((readWALEntries data).1, false) := by
  obtain ⟨p, rest, rfl, hchain, hstuck⟩ := exists_chain .binary data
  obtain ⟨entries, hread⟩ := hchain.readWALEntries_eq
  have hcut := hread [] (.inl rfl)
  rw [append_nil] at hcut
  rw [hchain.truncateCorruptedTail_eq hstuck, hread rest hstuck, hcut]
  rfl

namespace WALDir

variable {d : WALDir} {path data old : Bytes}

theorem readSegment_of_file (h : (path, some data) ∈ d.entries) :
    d.readSegment path = .ok (readWALEntries data) := by
  rw [readSegment, readFile_of_mem h]
  rfl

theorem mem_writeFile {e : Bytes × Option Bytes} :
    e ∈ (d.writeFile path data).entries ↔ e = (path, some data) ∨ e ∈ d.entries ∧ e.1 ≠ path :=
  SortedAssoc.mem_insert d.sorted

theorem listStep_congr (s : Listed) {e e' : Bytes × Option Bytes} (hname : e.1 = e'.1)
    (hfile : e.2.isNone = e'.2.isNone) : listStep s e = listStep s e' := by
  rw [listStep, listStep, hname, hfile]

theorem foldl_listStep_insert {l : List (Bytes × Option Bytes)} (hl : SortedAssoc.Sorted l)
    (h : (path, some old) ∈ l) (s : Listed) :
    (SortedAssoc.insert path (some data) l).foldl listStep s = l.foldl listStep s := by
  induction l generalizing s with
  | nil => cases h
  | cons e l ih =>
    obtain ⟨he, hl⟩ := pairwise_cons.mp hl
    rcases mem_cons.mp h with rfl | h
    · rw [SortedAssoc.insert, if_neg (lt_irrefl _), if_pos rfl, foldl_cons, foldl_cons]
      exact congrArg (l.foldl listStep) (listStep_congr s rfl rfl)
    · have hlt := he _ h
      rw [SortedAssoc.insert, if_neg (not_lt.mpr hlt.le), if_neg hlt.ne', foldl_cons, foldl_cons]
      exact ih hl h _

theorem listWALSegments_writeFile (h : (path, some old) ∈ d.entries) (data : Bytes) :
    listWALSegments (d.writeFile path data) = listWALSegments d := by
  simp only [listWALSegments, writeFile, foldl_listStep_insert d.sorted h]

theorem exists_file_of_foldl {l : List (Bytes × Option Bytes)} {s : Listed} {seg : WALSegment}
    (h : seg ∈ (l.foldl listStep s).segments) :
    seg ∈ s.segments ∨ ∃ data, (seg.path, some data) ∈ l := by
  induction l generalizing s with
  | nil => exact .inl h
  | cons e l ih =>
    obtain ⟨name, content⟩ := e
    rcases ih h with hs | ⟨data, hmem⟩
    · cases content with
      | none => exact .inl hs
      | some data =>
        have hstep : ∀ seg ∈ (listStep s (name, some data)).segments,
            seg ∈ s.segments ∨ seg.path = name := by
          intro seg hseg
          have hdrop (index : Nat) (hin : seg ∈ dropSame s.segments index) : seg ∈ s.segments := by
            unfold dropSame at hin
            split at hin
            · exact hin
            · split_ifs at hin
              · exact dropLast_subset _ hin
              · exact hin
          unfold listStep at hseg
          simp only [Option.isNone_some, Bool.false_eq_true, if_false] at hseg
          split at hseg
          · exact .inl hseg
          · split_ifs at hseg
            · exact .inl hseg
            · rcases mem_append.mp hseg with hin | hin
              · exact .inl hin
              · exact .inr (by rw [mem_singleton.mp hin])
            · exact .inr (by rw [mem_singleton.mp hseg])
            · exact .inl hseg
            · rcases mem_append.mp hseg with hin | hin
              · exact .inl (hdrop _ hin)
              · exact .inr (by rw [mem_singleton.mp hin])
            · exact .inl hseg
        rcases hstep seg hs with hin | rfl
        · exact .inl hin
        · exact .inr ⟨data, mem_cons_self⟩
    · exact .inr ⟨data, mem_cons_of_mem _ hmem⟩

theorem exists_file {segments : List WALSegment} (h : listWALSegments d = .ok segments) {seg : WALSegment}
    (hseg : seg ∈ segments) : ∃ data, (seg.path, some data) ∈ d.entries := by
  unfold listWALSegments at h
  simp only at h
  split_ifs at h
  cases h
  exact (exists_file_of_foldl hseg).resolve_left not_mem_nil

end WALDir

variable {pairs : List (Bytes × List Bytes)} {d : WALDir}

theorem mem_segmentsFrom (start : Nat) {p : Bytes × List Bytes}
    (hp : p ∈ pairs) : ∃ seg ∈ segmentsFrom start pairs, seg.path = p.1 := by
  induction pairs generalizing start with
  | nil => cases hp
  | cons q pairs ih =>
    rcases mem_cons.mp hp with rfl | hp
    · exact ⟨_, mem_cons_self, rfl⟩
    · obtain ⟨seg, hseg, hpath⟩ := ih (start + q.2.length) hp
      exact ⟨seg, mem_cons_of_mem _ hseg, hpath⟩

/-- Files with complete entries up to the last one, which may be torn, are opened with these entries. -/
theorem openWAL_eq {lib : WALLib} (hlib : lib.Lawful) {start : Nat} {log : IndexedLog Bytes}
    (hlist : listWALSegments d = .ok (segmentsFrom start pairs)) (hread : d.Readable pairs)
    (hfirst : log.dropped + 1 = start) (hentries : log.entries = (pairs.map Prod.snd).flatten) :
    openWAL lib d = .ok log := by
  rcases eq_nil_or_concat' pairs with rfl | ⟨init, p, rfl⟩
  · rw [openWAL, hlib.complete hlist (fun p hp => absurd hp not_mem_nil) hfirst hentries]
  · obtain ⟨torn, hlast⟩ := hread.last p (by simp)
    have hexact : ∀ q ∈ init, d.readSegment q.1 = .ok (q.2, false) := by
      intro q hq
      refine hread.exact q ?_
      rw [dropLast_concat]
      exact hq
    cases torn with
    | false =>
      have hall : ∀ q ∈ init ++ [p], d.readSegment q.1 = .ok (q.2, false) := by
        intro q hq
        rcases mem_append.mp hq with hq | hq
        · exact hexact q hq
        · rw [mem_singleton.mp hq]
          exact hlast
      rw [openWAL, hlib.complete hlist hall hfirst hentries]
    | true =>
      have hfile : ∀ q ∈ init ++ [p], ∃ data, (q.1, some data) ∈ d.entries := by
        intro q hq
        obtain ⟨seg, hseg, hpath⟩ := mem_segmentsFrom start hq
        rw [← hpath]
        exact WALDir.exists_file hlist hseg
      obtain ⟨data, hdata⟩ := hfile p (by simp)
      have hentriesOf : readWALEntries data = (p.2, true) :=
        Except.ok.inj ((WALDir.readSegment_of_file hdata).symm.trans hlast)
      have htail : (segmentsFrom start (init ++ [p])).getLast? =
          some ⟨start + (init.map Prod.snd).flatten.length, p.1, []⟩ := by
        rw [segmentsFrom_append, getLast?_append]
        rfl
      have hall : ∀ q ∈ init ++ [p],
          (d.writeFile p.1 (truncateCorruptedTail .binary data)).readSegment q.1 = .ok (q.2, false) := by
        intro q hq
        rcases mem_append.mp hq with hin | hin
        · obtain ⟨other, hother⟩ := hfile q hq
          have hread := (WALDir.readSegment_of_file hother).symm.trans (hexact q hin)
          -- the segment that is torn is no other one
          have hne : q.1 ≠ p.1 := by
            intro heq
            have hflag := (hexact q hin).symm.trans (heq ▸ hlast)
            cases congrArg Prod.snd (Except.ok.inj hflag)
          rw [WALDir.readSegment_of_file (WALDir.mem_writeFile.mpr (.inr ⟨hother, hne⟩)), Except.ok.inj hread]
        · rw [mem_singleton.mp hin, WALDir.readSegment_of_file (WALDir.mem_writeFile.mpr (.inl rfl)),
            readWALEntries_truncateCorruptedTail, hentriesOf]
      have hlist' := (WALDir.listWALSegments_writeFile hdata (truncateCorruptedTail .binary data)).trans hlist
      rw [openWAL, hlib.torn hlist hlast]
      simp only [hlist, htail, WALDir.readFile_of_mem hdata]
      exact hlib.complete hlist' hall hfirst hentries

theorem SplitLog.openWAL_eq {s : SplitLog} {w : SplitLog.Writer s} {renamed : Bool} {lib : WALLib}
    (hlib : lib.Lawful) (h : w.Shows renamed d) : ∃ log, w.result = some log ∧ openWAL lib d = .ok log ∧
      (openReadOnlyWAL d d d >>= ReadOnlyWAL.LastIndex) = .ok log.lastIndex := by
  obtain ⟨log, l, hlog, hfirst, hentries, hopen, hholds, hlast⟩ := h.opened
  refine ⟨log, hlog, Memiavl.openWAL_eq hlib h.listWALSegments_eq h.readable hfirst ?_, ?_⟩
  · rw [w.map_snd_pairs, hentries]
  · rw [openReadOnlyWAL, hopen, Results.ok_bind, ReadOnlyWAL.LastIndex, hholds.isOpen, hlast]
    rfl

def encodedLog {P : Type} (bytes : P → Bytes) (log : IndexedLog P) : IndexedLog Bytes where
  dropped := log.dropped
  entries := log.entries.map bytes
  dropped_eq_zero h := log.dropped_eq_zero (map_eq_nil_iff.mp h)

theorem lastIndex_encodedLog {P : Type} (bytes : P → Bytes) (log : IndexedLog P) :
    (encodedLog bytes log).lastIndex = log.lastIndex := by
  rw [IndexedLog.lastIndex, IndexedLog.lastIndex, encodedLog, length_map]

/-- A database was stopped anywhere: its log may end with a torn entry, or be in the middle of a
truncation. `Load` opens the same log for writing that `GetLatestVersion` sees, and they agree on the version
if and only if the log is empty or reaches the snapshot that `current` links to. -/
theorem latest_version_iff [Sha256] {P : Type} [WALCodec P] {lib : WALLib} (hlib : lib.Lawful) {s : SplitLog}
    {w : SplitLog.Writer s} {renamed : Bool} {wal : WALDir} (hshows : w.Shows renamed wal)
    {d d' : Directory P} {bytes : P → Bytes} (hlog : w.result = some (encodedLog bytes d.wal))
    (hbound : d.wal.lastIndex < 2 ^ 63 - 2 ^ 32) {readOnly : Bool} {m t : MultiTree} {name : Name}
    (hload : d.load ⟨0, readOnly, false⟩ = .ok (m, d')) (hcur : d.current = some name)
    (ht : d.openTrees name = .ok t) (h0 : 0 ≤ t.version) :
    openWAL lib wal = .ok (encodedLog bytes d.wal) ∧
      (d.getLatestVersion wal = .ok m.version ↔
        d.wal.lastIndex = 0 ∨ t.nextIndex ≤ d.wal.lastIndex + 1) := by
  obtain ⟨log, hlog', hopen, hlast⟩ := SplitLog.openWAL_eq hlib hshows
  cases hlog.symm.trans hlog'
  refine ⟨hopen, ?_⟩
  rw [Directory.getLatestVersion, hlast, lastIndex_encodedLog]
  exact Directory.latestVersion_iff hbound hload hcur ht h0

def WALLib.reader : WALLib where
  openLog d := do
    let segments ← listWALSegments d
    match segments.head?, segments.getLast? with
    | some first, some tail =>
      if (← d.readSegment tail.path).2 then throw .corrupt
      let parts ← segments.mapM fun seg => d.readSegment seg.path
      let entries := (parts.map Prod.fst).flatten
      if h : entries = [] then pure .empty else pure ⟨first.index - 1, entries, fun he => absurd he h⟩
    | _, _ => pure .empty

theorem mapM_readSegment {start : Nat} (h : ∀ p ∈ pairs, d.readSegment p.1 = .ok (p.2, false)) :
    ((segmentsFrom start pairs).mapM fun seg => d.readSegment seg.path) =
      .ok (pairs.map fun p => (p.2, false)) := by
  induction pairs generalizing start with
  | nil => rfl
  | cons p pairs ih =>
    obtain ⟨hp, hpairs⟩ := forall_mem_cons.mp h
    rw [segmentsFrom, mapM_cons, hp, Results.ok_bind, ih hpairs]
    rfl

theorem WALLib.lawful_reader : WALLib.reader.Lawful where
  complete {d start pairs log} hlist hall hfirst hentries := by
    rcases eq_nil_or_concat' pairs with rfl | ⟨init, p, rfl⟩
    · have hempty : log = .empty := by
        obtain ⟨dropped, entries, hzero⟩ := log
        cases hentries
        cases hzero rfl
        rfl
      rw [hempty, reader]
      simp only [hlist, Results.ok_bind]
      rfl
    · have htail : (segmentsFrom start (init ++ [p])).getLast? =
          some ⟨start + (init.map Prod.snd).flatten.length, p.1, []⟩ := by
        rw [segmentsFrom_append, getLast?_append]
        rfl
      obtain ⟨first, hhead, hindex⟩ : ∃ first, (segmentsFrom start (init ++ [p])).head? = some first ∧
          first.index = start := by
        cases init with
        | nil => exact ⟨_, rfl, rfl⟩
        | cons q init => exact ⟨_, rfl, rfl⟩
      have hflat : ((init ++ [p]).map fun q => (q.2, false)).map Prod.fst = (init ++ [p]).map Prod.snd := by
        rw [map_map]
        rfl
      rw [reader]
      simp only [hlist, Results.ok_bind, hhead, htail, hall p (by simp), Bool.false_eq_true, if_false,
        mapM_readSegment hall, hflat, ← hentries, hindex, Results.pure_eq_ok]
      obtain ⟨dropped, entries, hzero⟩ := log
      split_ifs with hnil
      · have hnil : entries = [] := hnil
        subst hnil
        cases hzero rfl
        rfl
      · have hfirst : dropped + 1 = start := hfirst
        subst hfirst
        rfl
  torn {d start pairs p} hlist hlast := by
    have htail : (segmentsFrom start (pairs ++ [p])).getLast? =
        some ⟨start + (pairs.map Prod.snd).flatten.length, p.1, []⟩ := by
      rw [segmentsFrom_append, getLast?_append]
      rfl
    obtain ⟨first, hhead⟩ : ∃ first, (segmentsFrom start (pairs ++ [p])).head? = some first := by
      cases pairs with
      | nil => exact ⟨_, rfl⟩
      | cons q pairs => exact ⟨_, rfl⟩
    rw [reader]
    simp only [hlist, Results.ok_bind, hhead, htail, hlast, if_true]
    rfl

def SplitLog.one : SplitLog where
  log := ⟨0, [[7]], by decide⟩
  parts := [[[7]]]
  flatten_eq := rfl
  nonempty := by decide
  indices := by decide
  lengths := by decide

def SplitLog.one.files : WALDir where
  entries := [(segmentName 1, some (encodeEntries [[7]] ++ [9]))]
  sorted := pairwise_singleton _ _

theorem SplitLog.one.shows :
    (SplitLog.Writer.idle : SplitLog.Writer SplitLog.one).Shows false SplitLog.one.files :=
  ⟨[9], .inr (by decide), fun _ _ => Iff.rfl⟩

/-- The entry of version 1 is written, that of version 2 is torn, and the process stops. -/
theorem latest_version_torn :
    ∃ (d d' : Directory WALEntry) (m : MultiTree),
      @Directory.load _ Sha256.zero _ d ⟨0, false, false⟩ = .ok (m, d') ∧
      openWAL .reader SplitLog.one.files = .ok (encodedLog (fun _ => [7]) d.wal) ∧
      d.getLatestVersion SplitLog.one.files = .ok m.version := by
  let _ := Sha256.zero
  have hend : (Process.fresh ⟨0, 0, 1000⟩
      [.commit (putBlock true 7), .finishCommit, .writeBatch]).map (fun σ => do
      let _ ← (σ.dir.load ⟨0, false, false⟩).toOption
      let t ← (σ.dir.openTrees (← σ.dir.current)).toOption
      pure (encodedLog (fun _ => [7]) σ.dir.wal, σ.dir.wal.lastIndex, decide (0 ≤ t.version ∧ t.nextIndex ≤ 2))) =
      some (some (SplitLog.one.log, 1, true)) := by
    decide
  obtain ⟨σ, -, hend⟩ := Process.exists_run hend
  simp only [Option.bind_eq_bind, Option.bind_eq_some_iff, Results.toOption_eq_some, Option.pure_def,
    Option.some.injEq, Prod.mk.injEq, decide_eq_true_eq] at hend
  obtain ⟨⟨m, d'⟩, hload, name, hcur, t, ht, hwal, hlast, h0, hnext⟩ := hend
  obtain ⟨hopen, hlatest⟩ := latest_version_iff WALLib.lawful_reader SplitLog.one.shows
    (congrArg some hwal.symm) (by omega) hload hcur ht h0
  exact ⟨σ.dir, d', m, hload, hopen, hlatest.mpr (.inr (by omega))⟩

/-- The entry of version 1 is written, and that of version 2 is with the writer when `RewriteSnapshot` moves
the link to the snapshot of version 2, and the process stops. -/
theorem exists_latest_version_behind :
    ∃ (σ : Process WALEntry) (m : MultiTree) (d' : Directory WALEntry),
      @Process.Run _ Sha256.zero _ (fun _ _ => True) (.init ⟨0, 0, 1000⟩ (.fresh 0)) σ ∧
      σ.Stopped σ.dir ∧ encodedLog (fun _ => [7]) σ.dir.wal = SplitLog.one.log ∧
      @Directory.load _ Sha256.zero _ σ.dir ⟨0, false, false⟩ = .ok (m, d') ∧
      m.version = 2 ∧ σ.dir.getLatestVersion SplitLog.one.files = .ok 1 := by
  let _ := Sha256.zero
  have hend : (Process.fresh ⟨0, 0, 1000⟩
      ([.commit (putBlock true 7), .finishCommit, .writeBatch, .commit (putBlock false 8),
        .finishCommit] ++ Action.rewritten)).map (fun σ => do
      let l ← (σ.dir.load ⟨0, false, false⟩).toOption
      pure (encodedLog (fun _ => [7]) σ.dir.wal, l.1.version, (σ.dir.latestVersion (.ok 1)).toOption)) =
      some (some (SplitLog.one.log, 2, some 1)) := by
    decide
  obtain ⟨σ, hrun, hend⟩ := Process.exists_run hend
  simp only [Option.bind_eq_bind, Option.bind_eq_some_iff, Results.toOption_eq_some, Option.pure_def,
    Option.some.injEq, Prod.mk.injEq] at hend
  obtain ⟨⟨m, d'⟩, hload, hwal, hv, hversion⟩ := hend
  obtain ⟨log, hlog, -, hlast⟩ := SplitLog.openWAL_eq WALLib.lawful_reader SplitLog.one.shows
  cases hlog
  have hlatest : σ.dir.getLatestVersion SplitLog.one.files = σ.dir.latestVersion (.ok 1) :=
    congrArg σ.dir.latestVersion hlast
  exact ⟨σ, m, d', hrun, .refl σ, hwal, hload, hv, hlatest.trans hversion⟩

end CronosStore.Memiavl
