import CronosStore.Memiavl.Consistency

/-!
# Loading a directory

What `Load` does with a directory whose snapshots and log belong to one history of blocks
(`Directory.Sound`): it loads the state it is asked for, from whichever snapshot it starts.
-/

namespace CronosStore.Memiavl

open Foundation List

def walk {σ : Type} (callback : Int → σ → Bool × σ) : List Int → σ → Except Name σ
  | [], s => .ok s
  | version :: versions, s =>
    if version < 2 ^ 31 then
      match callback version s with
      | (true, s) => .ok s
      | (false, s) => walk callback versions s
    else .error (snapshotName version)

section Walk

variable {σ : Type} {callback : Int → σ → Bool × σ}

theorem traverse_filter (names : List Name) (s : σ) :
    Directory.traverse callback names s =
      Directory.traverse callback (names.filter isSnapshotName) s := by
  induction names generalizing s with
  | nil => rfl
  | cons name names ih =>
    by_cases hname : isSnapshotName name = true
    · rw [filter_cons_of_pos hname, Directory.traverse, Directory.traverse]
      simp only [ih]
    · rw [filter_cons_of_neg hname, Directory.traverse, if_neg hname, ih]

variable {versions : List Int} {target v : Int}

theorem traverse_map (h : ∀ v ∈ versions, Nameable v) (s : σ) :
    Directory.traverse callback (versions.map snapshotName) s = walk callback versions s := by
  induction versions generalizing s with
  | nil => rfl
  | cons v versions ih =>
    obtain ⟨hv, h⟩ := forall_mem_cons.mp h
    rw [map_cons, Directory.traverse, walk, if_pos (isSnapshotName_snapshotName v),
      parseVersion_snapshotName hv]
    by_cases hlt : v < 2 ^ 31
    · simp only [if_pos hlt]
      rcases callback v s with ⟨stop, s'⟩
      cases stop with
      | false => exact ih h s'
      | true => rfl
    · simp only [if_neg hlt]

/-- The first version up to the target, behind newer ones that can be parsed. -/
theorem walk_seek :
    walk (fun version found => if version ≤ target then (true, some version) else (false, found))
        versions none = .ok (some v) ↔
      ∃ newer older, versions = newer ++ v :: older ∧ v ≤ target ∧ v < 2 ^ 31 ∧
        ∀ w ∈ newer, target < w ∧ w < 2 ^ 31 := by
  induction versions with
  | nil => simp [walk]
  | cons w versions ih =>
    rw [walk]
    by_cases hlt : w < 2 ^ 31
    · rw [if_pos hlt]
      by_cases hle : w ≤ target
      · simp only [if_pos hle, Except.ok.injEq, Option.some.injEq]
        constructor
        · rintro rfl
          exact ⟨[], versions, rfl, hle, hlt, fun _ h => absurd h not_mem_nil⟩
        · rintro ⟨newer, older, heq, -, -, hnewer⟩
          cases newer with
          | nil => exact (List.cons.inj heq).1
          | cons x newer =>
            obtain ⟨rfl, -⟩ := List.cons.inj heq
            have := (hnewer w mem_cons_self).1
            omega
      · simp only [if_neg hle, ih]
        constructor
        · rintro ⟨newer, older, rfl, hv, hv', hnewer⟩
          exact ⟨w :: newer, older, rfl, hv, hv',
            forall_mem_cons.mpr ⟨⟨by omega, hlt⟩, hnewer⟩⟩
        · rintro ⟨newer, older, heq, hv, hv', hnewer⟩
          cases newer with
          | nil =>
            obtain ⟨rfl, -⟩ := List.cons.inj heq
            exact absurd hv hle
          | cons x newer =>
            obtain ⟨rfl, rfl⟩ := List.cons.inj heq
            exact ⟨newer, older, rfl, hv, hv', (forall_mem_cons.mp hnewer).2⟩
    · rw [if_neg hlt]
      constructor
      · exact fun h => by cases h
      · rintro ⟨newer, older, heq, -, hv', hnewer⟩
        cases newer with
        | nil =>
          obtain ⟨rfl, -⟩ := List.cons.inj heq
          exact absurd hv' hlt
        | cons x newer =>
          obtain ⟨rfl, -⟩ := List.cons.inj heq
          exact absurd (hnewer w mem_cons_self).2 hlt

theorem walk_seek_exists (hparse : ∀ v ∈ versions, v < 2 ^ 31) (hv : v ∈ versions) (hle : v ≤ target) :
    ∃ s, walk (fun version found =>
      if version ≤ target then (true, some version) else (false, found)) versions none =
        .ok (some s) := by
  induction versions with
  | nil => cases hv
  | cons w versions ih =>
    obtain ⟨hw, hparse⟩ := forall_mem_cons.mp hparse
    rw [walk, if_pos hw]
    by_cases hwle : w ≤ target
    · exact ⟨w, by simp only [if_pos hwle]⟩
    · simp only [if_neg hwle]
      rcases mem_cons.mp hv with rfl | hv
      · exact absurd hle hwle
      · exact ih hparse hv

theorem walk_newer {newer older acc : List Int} (hv : v ≤ target)
    (hv' : v < 2 ^ 31) (hnewer : ∀ w ∈ newer, target < w ∧ w < 2 ^ 31) :
    walk (fun version found => if version ≤ target then (true, found) else (false, found ++ [version]))
      (newer ++ v :: older) acc = .ok (acc ++ newer) := by
  induction newer generalizing acc with
  | nil => simp only [nil_append, walk, if_pos hv', if_pos hv, append_nil]
  | cons w newer ih =>
    obtain ⟨⟨hw, hw'⟩, hnewer⟩ := forall_mem_cons.mp hnewer
    rw [cons_append, walk, if_pos hw']
    simp only [if_neg hw.not_ge]
    rw [ih hnewer, append_assoc, singleton_append]

end Walk

namespace Directory

variable {P : Type}

structure Lists (d : Directory P) (versions : List Int) : Prop where
  names : d.names.filter isSnapshotName = versions.map snapshotName
  nameable : ∀ v ∈ versions, Nameable v

variable {d : Directory P} {versions : List Int}

theorem Lists.sorted (h : d.Lists versions) : versions.Pairwise (· < ·) := by
  have hs : (versions.map snapshotName).Pairwise (· < ·) := by
    rw [← h.names]
    exact (pairwise_map.mpr d.sorted).filter _
  refine List.Pairwise.imp_of_mem (fun {v w} hv hw hlt => ?_) (pairwise_map.mp hs)
  exact lt_of_snapshotName_lt (h.nameable v hv) (h.nameable w hw) hlt

variable {v : Int} {target : Nat}

section

variable (h : d.Lists versions)
include h

theorem Lists.mem_iff (hv : Nameable v) :
    v ∈ versions ↔ snapshotName v ∈ d.names := by
  have hmem : snapshotName v ∈ d.names ↔ snapshotName v ∈ versions.map snapshotName := by
    rw [← h.names, mem_filter]
    exact ⟨fun hn => ⟨hn, isSnapshotName_snapshotName v⟩, And.left⟩
  rw [hmem, mem_map]
  constructor
  · exact fun hmem => ⟨v, hmem, rfl⟩
  · rintro ⟨w, hw, heq⟩
    exact snapshotName_inj (h.nameable w hw) hv heq ▸ hw

theorem Lists.descending {σ : Type} (callback : Int → σ → Bool × σ) (s : σ) :
    d.traverseSnapshots false callback s = walk callback versions.reverse s := by
  have hrev : d.names.reverse.filter isSnapshotName = versions.reverse.map snapshotName := by
    rw [filter_reverse, h.names, map_reverse]
  rw [traverseSnapshots, if_neg (by decide), traverse_filter, hrev,
    traverse_map fun v hv => h.nameable v (mem_reverse.mp hv)]

/-- The snapshot that is found is the newest one up to the target, and every newer one has a
name that can be parsed. -/
theorem Lists.seekSnapshot_ok :
    d.seekSnapshot target = .ok v ↔ ∃ older newer, versions = older ++ v :: newer ∧ v ≤ target ∧
      v < 2 ^ 31 ∧ ∀ w ∈ newer, (target : Int) < w ∧ w < 2 ^ 31 := by
  have hseek : d.seekSnapshot target = .ok v ↔ walk (fun version found =>
      if version ≤ (target : Int) then (true, some version) else (false, found))
      versions.reverse none = .ok (some v) := by
    unfold seekSnapshot
    rw [h.descending]
    split
    · rename_i heq
      simp [heq]
    · rename_i heq
      simp [heq]
    · rename_i heq
      simp [heq]
  rw [hseek, walk_seek]
  constructor
  · rintro ⟨newer, older, heq, hv, hv', hnewer⟩
    refine ⟨older.reverse, newer.reverse, ?_, hv, hv', fun w hw => hnewer w (mem_reverse.mp hw)⟩
    rw [← reverse_reverse versions, heq]
    simp
  · rintro ⟨older, newer, rfl, hv, hv', hnewer⟩
    exact ⟨newer.reverse, older.reverse, by simp, hv, hv', fun w hw =>
      hnewer w (mem_reverse.mp hw)⟩

/-- A target is found if some snapshot is up to it and all names can be parsed. -/
theorem Lists.seekSnapshot_exists (hparse : ∀ v ∈ versions, v < 2 ^ 31)
    (hv : v ∈ versions) (hle : v ≤ target) : ∃ s, d.seekSnapshot target = .ok s := by
  obtain ⟨s, hs⟩ := walk_seek_exists (fun w hw => hparse w (mem_reverse.mp hw))
    (mem_reverse.mpr hv) hle
  unfold seekSnapshot
  rw [h.descending, hs]
  exact ⟨s, rfl⟩

theorem Lists.newerSnapshots_ok {older newer : List Int}
    (heq : versions = older ++ v :: newer) (hv : v ≤ target) (hv' : v < 2 ^ 31)
    (hnewer : ∀ w ∈ newer, (target : Int) < w ∧ w < 2 ^ 31) :
    d.newerSnapshots target = .ok newer.reverse := by
  have hrev : versions.reverse = newer.reverse ++ v :: older.reverse := by simp [heq]
  unfold newerSnapshots
  rw [h.descending, hrev, walk_newer hv hv' fun w hw => hnewer w (mem_reverse.mp hw)]
  rfl

theorem Lists.firstSnapshotVersion_ok :
    d.firstSnapshotVersion = .ok v ↔ v < 2 ^ 31 ∧ versions.head? = some v := by
  unfold firstSnapshotVersion traverseSnapshots
  rw [if_pos rfl, traverse_filter, h.names, traverse_map h.nameable]
  cases versions with
  | nil => simp [walk]
  | cons w versions =>
    rw [walk]
    by_cases hlt : w < 2 ^ 31
    · simp only [if_pos hlt, Except.ok.injEq, head?_cons, Option.some.injEq]
      exact ⟨fun heq => ⟨heq ▸ hlt, heq⟩, And.right⟩
    · simp only [if_neg hlt, head?_cons, Option.some.injEq, reduceCtorEq, false_iff]
      rintro ⟨hv, rfl⟩
      exact hlt hv

/-! ## Cleaning up -/

end

def clean (d : Directory P) : Directory P :=
  { d with
    currentTmp := none
    dirs := d.dirs.filter fun e => !isTmpName e.1
    sorted := List.Pairwise.filter _ d.sorted }

theorem ext {d d' : Directory P} (hc : d.current = d'.current) (ht : d.currentTmp = d'.currentTmp)
    (hd : d.dirs = d'.dirs) (hw : d.wal = d'.wal) : d = d' := by
  cases d
  cases d'
  cases hc
  cases ht
  cases hd
  cases hw
  rfl

theorem mem_clean {e : Name × MultiTreeDir} :
    e ∈ d.clean.dirs ↔ e ∈ d.dirs ∧ isTmpName e.1 = false := by
  simp [clean]

theorem runSteps_append (steps steps' : List FsStep) (d : Directory P) :
    runSteps (steps ++ steps') d = (runSteps steps d).bind (runSteps steps') :=
  foldlM_append

theorem runSteps_removeAll (names : List Name) (d : Directory P) :
    runSteps (names.map .removeAll) d = some { d with
      dirs := d.dirs.filter fun e => e.1 ∉ names
      sorted := List.Pairwise.filter _ d.sorted } := by
  induction names generalizing d with
  | nil =>
    refine congrArg some (ext rfl rfl ?_ rfl)
    exact (filter_eq_self.mpr fun _ _ => by simp).symm
  | cons name names ih =>
    rw [map_cons]
    show runSteps (names.map .removeAll) (d.removeAll name) = _
    rw [ih]
    refine congrArg some (ext rfl rfl ?_ rfl)
    show (d.dirs.filter _).filter _ = d.dirs.filter _
    rw [filter_filter]
    refine filter_congr fun e _ => ?_
    simp [Bool.and_comm]

theorem runSteps_cleanup (d : Directory P) : runSteps d.cleanupSteps d = some d.clean := by
  have hdirs : d.dirs.filter (fun e => e.1 ∉ d.names.filter isTmpName) =
      d.dirs.filter fun e => !isTmpName e.1 := by
    refine filter_congr fun e he => ?_
    have hmem : e.1 ∈ d.names := mem_map.mpr ⟨e, he, rfl⟩
    simp [mem_filter, hmem]
  rw [cleanupSteps, runSteps_append, runSteps_removeAll, Option.bind_some]
  cases ht : d.currentTmp with
  | none => exact congrArg some (ext rfl rfl hdirs rfl)
  | some s => exact congrArg some (ext rfl rfl hdirs rfl)

theorem mem_names {name : Name} : name ∈ d.names ↔ ∃ content, (name, content) ∈ d.dirs := by
  simp [names]

theorem snapshotName_mem_clean : snapshotName v ∈ d.clean.names ↔ snapshotName v ∈ d.names := by
  simp only [mem_names, mem_clean, isTmpName_snapshotName, and_true]

/-! ## The latest version -/

section Latest

variable [Sha256] [WALCodec P]

variable {name : Name}

omit [Sha256] [WALCodec P] in
theorem get_clean (hn : isTmpName name = false) : d.clean.get name = d.get name := by
  cases hd : d.get name with
  | some content => exact get_eq_some.mpr (mem_clean.mpr ⟨get_eq_some.mp hd, hn⟩)
  | none =>
    refine Option.eq_none_iff_forall_not_mem.mpr fun content hmem => ?_
    have := get_eq_some.mpr (mem_clean.mp (get_eq_some.mp hmem)).1
    cases hd.symm.trans this

section

variable (hc : d.current = some name)
include hc

theorem planClean_untargeted {opts : Options}
    (hopts : opts.targetVersion = 0) :
    d.planClean opts =
      match d.openTrees name with
      | .error e => .error e
      | .ok t =>
        match t.catchupWAL d.wal 0 with
        | .error e => .error (.catchup e)
        | .ok m => .ok (m, []) := by
  unfold planClean selectSnapshot
  simp only [hopts, hc]
  cases ho : d.openTrees name with
  | error e => simp [ho]
  | ok t =>
    cases hcatch : t.catchupWAL d.wal 0 with
    | error e => simp [ho, hcatch, Except.mapError]
    | ok m => simp [ho, hcatch, Except.mapError]

/-- `Load` without a target version: the trees of the link, and the entries of the log behind
them. -/
theorem load_untargeted (hn : isTmpName name = false) {opts : Options}
    (hopts : opts.targetVersion = 0) (hvalid : (opts.readOnly && opts.loadForOverwriting) = false) :
    d.load opts =
      match d.openTrees name with
      | .error e => .error e
      | .ok t =>
        match t.catchupWAL d.wal 0 with
        | .error e => .error (.catchup e)
        | .ok m => .ok (m, if opts.readOnly then d else d.clean) := by
  have hopen : d.clean.openTrees name = d.openTrees name := by rw [openTrees, openTrees, get_clean hn]
  have hwal : d.clean.wal = d.wal := rfl
  rw [load, plan, if_neg (by simp [hvalid])]
  by_cases hro : opts.readOnly = true
  · rw [if_pos hro, if_pos hro, planClean_untargeted hc hopts]
    cases d.openTrees name with
    | error e => rfl
    | ok t => cases hcatch : t.catchupWAL d.wal 0 <;> simp [hcatch, runSteps]
  · rw [if_neg hro, if_neg hro, runSteps_cleanup]
    simp only [planClean_untargeted (show d.clean.current = some name from hc) hopts, hopen, hwal]
    cases d.openTrees name with
    | error e => rfl
    | ok t => cases hcatch : t.catchupWAL d.wal 0 <;> simp [hcatch, Except.map, runSteps_cleanup]

theorem load_latest (hn : isTmpName name = false) :
    d.load ⟨0, false, false⟩ =
      match d.openTrees name with
      | .error e => .error e
      | .ok t =>
        match t.catchupWAL d.wal 0 with
        | .error e => .error (.catchup e)
        | .ok m => .ok (m, d.clean) :=
  load_untargeted hc hn rfl rfl

end

end Latest

/-! ## Sound directories -/

section Sound

variable [Sha256] [WALCodec P]

/-- The directory belongs to a history of blocks: the log is a window of its entries,
snapshots hold its states, the entries after each of them are in the log as far as it goes,
and the link leads to one of them. Nothing is said of temporary directories. -/
structure Sound (d : Directory P) (states : List MultiTree) (entries : List WALEntry) : Prop where
  history : History 0 states entries
  lastIndex_le : d.wal.lastIndex ≤ entries.length
  covers : Covers d.wal 0 entries d.wal.dropped d.wal.lastIndex
  stored : ∀ e ∈ d.dirs, isTmpName e.1 = false →
    ∃ t ∈ states, e.2 = t.writeSnapshot .empty ∧ e.1 = snapshotName t.version
  loadable : ∀ t ∈ states, snapshotName t.version ∈ d.names → t.version ≤ maxUint32
  window : ∀ i (t : MultiTree), states[i]? = some t → snapshotName t.version ∈ d.names → d.wal.dropped ≤ i
  current : ∃ t ∈ states, d.current = some (snapshotName t.version) ∧
    snapshotName t.version ∈ d.names

variable {states : List MultiTree} {entries : List WALEntry}

theorem Sound.clean (h : d.Sound states entries) : d.clean.Sound states entries where
  history := h.history
  lastIndex_le := h.lastIndex_le
  covers := h.covers
  stored e he := h.stored e (mem_clean.mp he).1
  loadable t ht hn := h.loadable t ht (snapshotName_mem_clean.mp hn)
  window i t ht hn := h.window i t ht (snapshotName_mem_clean.mp hn)
  current := by
    obtain ⟨t, ht, hc, hn⟩ := h.current
    exact ⟨t, ht, hc, snapshotName_mem_clean.mpr hn⟩

variable {t : MultiTree} {i j : Nat}

section

variable (h : d.Sound states entries)
include h

theorem Sound.openTrees (ht : t ∈ states)
    (hn : snapshotName t.version ∈ d.names) :
    ∃ l, d.openTrees (snapshotName t.version) = .ok l ∧ t.Same l := by
  obtain ⟨content, hmem⟩ := mem_names.mp hn
  obtain ⟨s, hs, hcontent, hname⟩ := h.stored _ hmem (isTmpName_snapshotName _)
  have hst : t = s := h.history.eq_of_version ht hs
    (snapshotName_inj (h.history.nameable ht) (h.history.nameable hs) hname)
  simp only at hcontent
  have hle := h.loadable t ht hn
  refine ⟨{ t with metadata := ⟨some t.lastCommitInfo, t.initialVersion⟩ }, ?_,
    ⟨rfl, rfl, rfl, rfl⟩, rfl⟩
  rw [Directory.openTrees, get_eq_some.mpr hmem, hcontent, ← hst]
  simp only [loadMultiTree_writeSnapshot (h.history.committed t ht hle) hle]
  rfl

theorem Sound.covers_from
    (ht : states[i]? = some t) (hn : snapshotName t.version ∈ d.names) (hj : j ≤ d.wal.lastIndex) :
    Covers d.wal 0 entries i j :=
  h.covers.mono (h.window i t ht hn) hj

theorem Sound.planClean_latest
    (ht : states[i]? = some t) (hc : d.current = some (snapshotName t.version))
    (hn : snapshotName t.version ∈ d.names) (readOnly : Bool) :
    ∃ m b, d.planClean ⟨0, readOnly, false⟩ = .ok (m, []) ∧
      states[max i d.wal.lastIndex]? = some b ∧ b.Same m := by
  obtain ⟨l, hl, hsame⟩ := h.openTrees (mem_of_getElem? ht) hn
  have hlen := h.history.length
  obtain ⟨hi, -⟩ := List.getElem?_eq_some_iff.mp ht
  have hle := h.lastIndex_le
  obtain ⟨m, b, hm, hb, hbm⟩ : ∃ m b, l.catchupWAL d.wal 0 = .ok m ∧
      states[max i d.wal.lastIndex]? = some b ∧ b.Same m := by
    rcases le_or_gt d.wal.lastIndex i with hji | hij
    · refine ⟨l, t, h.history.catchupWAL_ahead ht hsame.toAgree (by omega) le_rfl, ?_, hsame⟩
      rwa [max_eq_left hji]
    · obtain ⟨b, hb⟩ : ∃ b, states[d.wal.lastIndex]? = some b :=
        ⟨_, getElem?_eq_getElem (by omega)⟩
      obtain ⟨m, hm, hbm⟩ := h.history.catchupWAL_latest ht hb hij.le
        (h.covers_from ht hn le_rfl) (Nat.zero_add _).symm hsame
      exact ⟨m, b, hm, by rwa [max_eq_right hij.le], hbm⟩
  refine ⟨m, b, ?_, hb, hbm⟩
  unfold Directory.planClean selectSnapshot
  simp [hc, hl, hm, Except.mapError, Results.ok_bind]

theorem Sound.load_latest
    (ht : states[i]? = some t) (hc : d.current = some (snapshotName t.version)) :
    ∃ m b, d.load ⟨0, false, false⟩ = .ok (m, d.clean) ∧
      states[max i d.wal.lastIndex]? = some b ∧ b.Same m := by
  have hn : snapshotName t.version ∈ d.clean.names := by
    obtain ⟨s, hs, hcs, hns⟩ := h.current
    rw [hc] at hcs
    rw [Option.some.inj hcs]
    exact snapshotName_mem_clean.mpr hns
  obtain ⟨m, b, hm, hb, hbm⟩ := h.clean.planClean_latest ht hc hn false
  refine ⟨m, b, ?_, hb, hbm⟩
  have hplan : d.plan ⟨0, false, false⟩ = .ok (m, d.cleanupSteps) := by
    rw [plan, if_neg (by decide), if_neg (by decide), runSteps_cleanup]
    simp only [hm, Except.map, append_nil]
  rw [load, hplan]
  simp only [runSteps_cleanup]

end

omit [WALCodec P] in
theorem exists_lists (h : History 0 states entries) (hnames : ∀ name ∈ d.names,
    isSnapshotName name = true → ∃ t ∈ states, name = snapshotName t.version) :
    ∃ versions, d.Lists versions ∧ ∀ v ∈ versions, ∃ t ∈ states, t.version = v := by
  have hmap : ∀ names : List Name, (∀ name ∈ names, ∃ t ∈ states, name = snapshotName t.version) →
      ∃ versions : List Int, names = versions.map snapshotName ∧
        ∀ v ∈ versions, ∃ t ∈ states, t.version = v := by
    intro names
    induction names with
    | nil => exact fun _ => ⟨[], rfl, fun _ hv => absurd hv not_mem_nil⟩
    | cons name names ih =>
      intro hall
      obtain ⟨⟨t, ht, rfl⟩, hrest⟩ := forall_mem_cons.mp hall
      obtain ⟨versions, rfl, hv⟩ := ih hrest
      exact ⟨t.version :: versions, rfl, forall_mem_cons.mpr ⟨⟨t, ht, rfl⟩, hv⟩⟩
  obtain ⟨versions, heq, hv⟩ := hmap (d.names.filter isSnapshotName) fun name hname => by
    obtain ⟨hmem, hs⟩ := mem_filter.mp hname
    exact hnames name hmem hs
  refine ⟨versions, ⟨heq, fun v hmem => ?_⟩, hv⟩
  obtain ⟨t, ht, rfl⟩ := hv v hmem
  exact h.nameable ht

theorem Sound.catchup (h : d.Sound states entries) {b : MultiTree}
    (ht : states[i]? = some t) (hn : snapshotName t.version ∈ d.names) (hb : states[j]? = some b)
    (hij : i ≤ j) (hj : j ≤ d.wal.lastIndex) {l : MultiTree} (hl : t.Same l) :
    ∃ m, (if b.version > l.version then l.catchupWAL d.wal b.version else .ok l) = .ok m ∧
      b.Same m := by
  rcases hij.lt_or_eq with hij | rfl
  · have hlt := (h.history.index_lt ht hb).mp hij
    rw [hl.version] at hlt
    rw [if_pos hlt]
    exact h.history.catchupWAL_target ht hb hij (h.covers_from ht hn hj) (by omega) hl.toAgree
  · cases ht.symm.trans hb
    rw [if_neg (by rw [hl.version]; omega)]
    exact ⟨l, rfl, hl⟩

/-- `Load` of a target version by a reader, if a snapshot before it is left and the names can
be parsed. -/
theorem Sound.load_target (h : d.Sound states entries) {versions : List Int} (hlists : d.Lists versions)
    (hstates : ∀ v ∈ versions, ∃ t ∈ states, t.version = v) (hparse : ∀ v ∈ versions, v < 2 ^ 31)
    {target : Nat} {b : MultiTree} (hb : states[j]? = some b) (hbv : b.version = target)
    (hpos : 0 < target) (hj : j ≤ d.wal.lastIndex) {v : Int} (hv : v ∈ versions) (hle : v ≤ target) :
    ∃ m, d.load ⟨target, true, false⟩ = .ok (m, d) ∧ b.Same m := by
  obtain ⟨s, hs⟩ := hlists.seekSnapshot_exists hparse hv hle
  obtain ⟨older, newer, heq, hsle, -⟩ := hlists.seekSnapshot_ok.mp hs
  obtain ⟨t, ht, rfl⟩ := hstates s (by simp [heq])
  have hn : snapshotName t.version ∈ d.names :=
    (hlists.mem_iff (h.history.nameable ht)).mp (by simp [heq])
  obtain ⟨i, hi⟩ := mem_iff_getElem?.mp ht
  have hij : i ≤ j := by
    by_contra hlt
    have := (h.history.index_lt hb hi).mp (by omega)
    omega
  obtain ⟨l, hl, hsame⟩ := h.openTrees ht hn
  obtain ⟨m, hm, hbm⟩ := h.catchup hi hn hb hij hj hsame
  refine ⟨m, ?_, hbm⟩
  have hplan : d.plan ⟨target, true, false⟩ = .ok (m, []) := by
    rw [plan, if_neg (by simp), if_pos rfl]
    unfold planClean selectSnapshot
    rw [hbv] at hm
    by_cases hgt : (target : Int) > l.version
    · rw [if_pos hgt] at hm
      simp [hpos, hs, hl, hm, hgt, Except.map, Except.mapError, Results.ok_bind]
    · rw [if_neg hgt] at hm
      cases hm
      simp [hpos, hpos.ne', hs, hl, hgt, Except.map, Results.ok_bind]
  rw [load, hplan]
  rfl

end Sound

end Directory

end CronosStore.Memiavl
