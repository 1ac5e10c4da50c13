import CronosStore.Memiavl.Process

/-!
# What holds in every state of a run

Whatever the goroutines do, the log together with the entries on their way to it is the rest of one
history of blocks (`LogState`), every directory holds a snapshot of one of its states (`Stored`),
and so do the trees that a rewrite publishes or has loaded.
-/

namespace CronosStore.Memiavl

open Foundation List Directory

/-! ## The log and its queue -/

section Log

variable {P : Type} [WALCodec P]

/-- The log has a beginning of the entries, and the queue the rest. -/
structure LogState (wal : IndexedLog P) (queue : List WalEntry) (entries : List WALEntry) : Prop where
  lastIndex_le : wal.lastIndex ≤ entries.length
  covers : Covers wal 0 entries wal.dropped wal.lastIndex
  consecutive : Consecutive wal.lastIndex queue
  queue : queue.map WalEntry.data = entries.drop wal.lastIndex

namespace LogState

variable {wal wal' : IndexedLog P} {queue queue' : List WalEntry} {entries : List WALEntry}

theorem length (h : LogState wal queue entries) : wal.lastIndex + queue.length = entries.length := by
  have hlen := congrArg List.length h.queue
  rw [length_map, length_drop] at hlen
  have := h.lastIndex_le
  omega

theorem enqueue (h : LogState wal queue entries) {entry : WalEntry}
    (hindex : entry.index = entries.length + 1) :
    LogState wal (queue ++ [entry]) (entries ++ [entry.data]) where
  lastIndex_le := by
    rw [length_append]
    exact h.lastIndex_le.trans (Nat.le_add_right _ _)
  covers k e hk hlt he := by
    rw [getElem?_append_left (by have := h.lastIndex_le; omega)] at he
    exact h.covers k e hk hlt he
  consecutive := by
    rw [Consecutive.append_iff, h.length]
    exact ⟨h.consecutive, Consecutive.cons_iff.mpr ⟨hindex, fun k e he => by cases he⟩⟩
  queue := by
    rw [map_append, h.queue, drop_append_of_le_length h.lastIndex_le]
    rfl

theorem write (h : LogState wal (queue ++ queue') entries) :
    ∃ wal', writeEntries wal queue = some wal' ∧ LogState wal' queue' entries ∧
      wal'.dropped = wal.dropped ∧ wal'.lastIndex = wal.lastIndex + queue.length := by
  obtain ⟨hc, hc'⟩ := Consecutive.append_iff.mp h.consecutive
  obtain ⟨wal', hw, hext⟩ := writeEntries_consecutive hc
  have hlen := h.length
  rw [length_append] at hlen
  refine ⟨wal', hw, ⟨by rw [hext.lastIndex]; omega, ?_, hext.lastIndex ▸ hc', ?_⟩, hext.dropped,
    hext.lastIndex⟩
  · intro k e hk hlt he
    rw [hext.lastIndex] at hlt
    rw [hext.dropped] at hk
    by_cases hold : k < wal.lastIndex
    · rw [MultiTree.LogHolds, hext.old _ (by omega)]
      exact h.covers k e hk hold he
    · -- the entry is one of those that were just written
      obtain ⟨j, rfl⟩ := Nat.exists_eq_add_of_le (Nat.le_of_not_lt hold)
      have hj : (queue ++ queue').map WalEntry.data = _ := h.queue
      have hget := congrArg (fun l => l[j]?) hj
      simp only [getElem?_drop, he, getElem?_map,
        getElem?_append_left (show j < queue.length by omega)] at hget
      obtain ⟨d, hd, rfl⟩ := Option.map_eq_some_iff.mp hget
      rw [Nat.zero_add]
      exact hext.new j d hd
  · have hq := congrArg (List.drop queue.length) h.queue
    rwa [map_append, drop_left' (length_map _), drop_drop, ← hext.lastIndex] at hq

theorem write_all (h : LogState wal queue entries) :
    ∃ wal', writeEntries wal queue = some wal' ∧ LogState wal' [] entries ∧
      wal'.dropped = wal.dropped ∧ wal'.lastIndex = wal.lastIndex + queue.length :=
  write (by rwa [append_nil])

theorem truncateFront (h : LogState wal queue entries) {index : Nat}
    (ht : wal.truncateFront index = some wal') : LogState wal' queue entries := by
  obtain ⟨hlast, hdrop, hle, hread⟩ := IndexedLog.truncateFront_eq_some ht
  refine ⟨hlast ▸ h.lastIndex_le, fun k e hk hlt he => ?_, hlast ▸ h.consecutive, hlast ▸ h.queue⟩
  rw [MultiTree.LogHolds, hread _ (by omega)]
  exact h.covers k e (by omega) (by omega) he

end LogState

end Log

def Stored (dirs : List (Name × MultiTreeDir)) (history : List MultiTree) : Prop :=
  ∀ e ∈ dirs, ∃ t ∈ history, e.2 = t.writeSnapshot .empty ∧
    (e.1 = snapshotName t.version ∨ e.1 = snapshotName t.version ++ tmpSuffix)

def Recorded (history : List MultiTree) (m : MultiTree) : Prop := ∃ t ∈ history, t.Same m

theorem Recorded.mono {history : List MultiTree} {m : MultiTree} (h : Recorded history m) (t : MultiTree) :
    Recorded (history ++ [t]) m := by
  obtain ⟨s, hs, hsame⟩ := h
  exact ⟨s, mem_append_left _ hs, hsame⟩

theorem Stored.mono {dirs : List (Name × MultiTreeDir)} {history : List MultiTree}
    (h : Stored dirs history) (t : MultiTree) : Stored dirs (history ++ [t]) := by
  intro e he
  obtain ⟨s, hs, hsnap⟩ := h e he
  exact ⟨s, mem_append_left _ hs, hsnap⟩

def Rewrite.trees : Rewrite → Option MultiTree
  | .publishing p => some p.mtree
  | .catchingUp mtree => some mtree
  | .ready mtree => some mtree
  | _ => none

theorem MultiTree.Same.writeSnapshot_eq {a b : MultiTree} (h : a.Same b) (dir : MultiTreeDir) :
    a.writeSnapshot dir = b.writeSnapshot dir := by
  unfold MultiTree.writeSnapshot
  rw [h.trees, h.lastCommitInfo, h.initialVersion]

section Stored

variable {P : Type} {d d' : Directory P} {history : List MultiTree}

theorem Stored.removeAll (h : Stored d.dirs history) (name : Name) :
    Stored (d.removeAll name).dirs history :=
  fun e he => h e (mem_removeAll.mp he).1

theorem Stored.put (h : Stored d.dirs history) {t : MultiTree} (ht : t ∈ history) {name : Name}
    (hname : name = snapshotName t.version ∨ name = snapshotName t.version ++ tmpSuffix) :
    Stored (d.put name (t.writeSnapshot .empty)).dirs history := by
  intro e he
  rcases mem_put.mp he with rfl | ⟨he, -⟩
  · exact ⟨t, ht, rfl, hname⟩
  · exact h e he

variable [Sha256] {n : Nat} {entries : List WALEntry}

theorem History.nameable (hh : History n history entries) {t : MultiTree} (ht : t ∈ history) :
    Nameable t.version := by
  obtain ⟨i, hi⟩ := mem_iff_getElem?.mp ht
  have hat := hh.atIndex i t hi
  have := hat.lt
  exact ⟨hat.nonneg, by omega⟩

theorem Stored.publish (h : Stored d.dirs history) (hh : History n history entries) {v : Int}
    (hv : Nameable v) (hr : d.rename (snapshotName v ++ tmpSuffix) (snapshotName v) = some d') :
    Stored d'.dirs history := by
  obtain ⟨content, hold, rfl⟩ := rename_eq_some hr
  obtain ⟨t, ht, hcontent, hname⟩ := h _ hold
  simp only at hcontent hname
  subst hcontent
  refine (h.removeAll _).put ht (.inl ?_)
  rcases hname with hname | hname
  · exact absurd hname.symm (snapshotName_ne_tmp _ _)
  · rw [snapshotName_inj hv (hh.nameable ht) (append_cancel_right hname)]

omit [Sha256] in
theorem Stored.retire (h : Stored d.dirs history) {v : Int}
    (hr : d.rename (snapshotName v) (snapshotName v ++ tmpSuffix) = some d') :
    Stored d'.dirs history := by
  obtain ⟨content, hold, rfl⟩ := rename_eq_some hr
  obtain ⟨t, ht, hcontent, hname⟩ := h _ hold
  simp only at hcontent hname
  subst hcontent
  refine (h.removeAll _).put ht (.inr ?_)
  rcases hname with hname | hname
  · rw [hname]
  · exact absurd hname (snapshotName_ne_tmp _ _)

variable {m : MultiTree}

section

variable (h : Stored d.dirs history) (hh : History n history entries)
include h hh

theorem Stored.leftover_eq (hm : Recorded history m) {content : MultiTreeDir}
    (hget : d.get (snapshotName m.version ++ tmpSuffix) = some content) :
    content = m.writeSnapshot .empty := by
  obtain ⟨t, ht, hsame⟩ := hm
  obtain ⟨s, hs, hc, hname⟩ := h _ (get_eq_some.mp hget)
  simp only at hc hname
  have hst : s = t := by
    refine hh.eq_of_version hs ht ?_
    rcases hname with hname | hname
    · exact absurd hname.symm (snapshotName_ne_tmp _ _)
    · rw [hsame.version]
      exact (snapshotName_inj (hsame.version ▸ hh.nameable ht) (hh.nameable hs)
        (append_cancel_right hname)).symm
  rw [hc, hst, hsame.writeSnapshot_eq]

theorem Stored.writeSnapshot_eq (hm : Recorded history m) :
    m.writeSnapshot ((d.get (snapshotName m.version ++ tmpSuffix)).getD .empty) =
      m.writeSnapshot .empty := by
  cases hget : d.get (snapshotName m.version ++ tmpSuffix) with
  | none => rfl
  | some content =>
    rw [h.leftover_eq hh hm hget]
    obtain ⟨t, ht, hsame⟩ := hm
    exact (hsame.indexed (hh.indexed t ht)).writeSnapshot_idem

theorem Stored.write (hm : Recorded history m) :
    Stored (d.put (snapshotName m.version ++ tmpSuffix) (m.writeSnapshot
      ((d.get (snapshotName m.version ++ tmpSuffix)).getD .empty))).dirs history := by
  rw [h.writeSnapshot_eq hh hm]
  obtain ⟨t, ht, hsame⟩ := hm
  rw [← hsame.writeSnapshot_eq, ← hsame.version]
  exact h.put ht (.inr rfl)

end

end Stored

/-! ## Publications -/

namespace Publication

variable {P : Type} {p p' : Publication} {dir dir' : Directory P}

theorem step_more (h : p.step dir = .more p' dir') :
    (p.stage = .write ∧ p' = { p with stage := .rename } ∧
      dir' = dir.put p.tmpName (p.mtree.writeSnapshot ((dir.get p.tmpName).getD .empty))) ∨
    (p.stage = .rename ∧ p' = { p with stage := .symlink } ∧
      dir.rename p.tmpName p.name = some dir') ∨
    (p.stage = .symlink ∧ p' = { p with stage := .link } ∧
      dir' = { dir with currentTmp := some p.name }) := by
  unfold step at h
  split at h
  · rename_i hst
    cases h
    exact .inl ⟨hst, rfl, rfl⟩
  · rename_i hst
    split at h
    · cases h
    · rename_i dir1 hr
      cases h
      exact .inr (.inl ⟨hst, rfl, hr⟩)
  · rename_i hst
    simp only [FsStep.apply] at h
    cases ht : dir.currentTmp with
    | some s => simp only [ht] at h; cases h
    | none =>
      simp only [ht] at h
      cases h
      exact .inr (.inr ⟨hst, rfl, rfl⟩)
  · split at h
    · cases h
    · cases h

theorem step_done (h : p.step dir = .done dir') :
    p.stage = .link ∧ ∃ name, dir.currentTmp = some name ∧
      dir' = { dir with current := some name, currentTmp := none } := by
  unfold step at h
  split at h
  · cases h
  · split at h
    · cases h
    · cases h
  · split at h
    · cases h
    · cases h
  · rename_i hst
    refine ⟨hst, ?_⟩
    simp only [FsStep.apply] at h
    cases ht : dir.currentTmp with
    | none => simp only [ht] at h; cases h
    | some name =>
      simp only [ht] at h
      cases h
      exact ⟨name, rfl, rfl⟩

theorem step_failed (h : p.step dir = .failed dir') : dir' = dir := by
  unfold step at h
  split at h
  · cases h
  · split at h
    · cases h
      rfl
    · cases h
  · split at h
    · cases h
      rfl
    · cases h
  · split at h
    · cases h
      rfl
    · cases h

variable [Sha256] {history : List MultiTree} {n : Nat} {entries : List WALEntry}

theorem stored_more (h : p.step dir = .more p' dir') (hs : Stored dir.dirs history)
    (hh : History n history entries) (hp : Recorded history p.mtree) :
    Stored dir'.dirs history ∧ dir'.wal = dir.wal ∧ p'.mtree = p.mtree := by
  have hv : Nameable p.mtree.version := by
    obtain ⟨t, ht, hsame⟩ := hp
    exact hsame.version ▸ hh.nameable ht
  rcases step_more h with ⟨-, rfl, rfl⟩ | ⟨-, rfl, hr⟩ | ⟨-, rfl, rfl⟩
  · exact ⟨hs.write hh hp, rfl, rfl⟩
  · refine ⟨hs.publish hh hv hr, ?_, rfl⟩
    obtain ⟨content, -, rfl⟩ := rename_eq_some hr
    rfl
  · exact ⟨hs, rfl, rfl⟩

end Publication

/-! ## The invariant -/

namespace Process

variable {P : Type} [Sha256] [WALCodec P]

/-- What every step keeps: all that is stored or under way comes from the history. -/
structure Consistent (σ : Process P) (entries : List WALEntry) : Prop where
  history : History 0 σ.history entries
  live : ∃ t, σ.history[entries.length]? = some t ∧ t.Same σ.db.mtree
  boundary : σ.db.AtBoundary
  log : LogState σ.dir.wal (σ.batch ++ σ.walChan) entries
  sync : σ.config.walChanSize < 0 → σ.batch = []
  capacity : (σ.walChan.length : Int) ≤ max σ.config.walChanSize 0
  stored : Stored σ.dir.dirs σ.history
  foreground : ∀ p, σ.foreground = some p → Recorded σ.history p.mtree
  background : ∀ m, σ.background.trees = some m → Recorded σ.history m
  /-- Until the log has entries, a commit on its way is newer than the snapshot of the trees. -/
  unswitched : σ.dir.wal.lastIndex = 0 → ∀ v, σ.db.mtree.snapshotVersion = some v →
    v ≤ σ.db.mtree.version ∧ (σ.phase = .sent → v < σ.db.mtree.version)
  committed : σ.phase ≠ .idle → entries ≠ []

variable {σ σ' : Process P} {entries : List WALEntry}

section

variable (h : Consistent σ entries)
include h

theorem Consistent.recorded : Recorded σ.history σ.db.mtree := by
  obtain ⟨t, ht, hsame⟩ := h.live
  exact ⟨t, mem_of_getElem? ht, hsame⟩

theorem Consistent.indexed : σ.db.mtree.Indexed := by
  obtain ⟨t, ht, hsame⟩ := h.recorded
  exact hsame.indexed (h.history.indexed t ht)

theorem Consistent.handOver {entry : WalEntry} {db : DB}
    (hc : σ.db.mtree.commitEntry entry.data = .ok db.mtree) (hb : db.AtBoundary)
    (hindex : entry.index = walIndex db.mtree.version db.mtree.initialVersion)
    (hlt : db.mtree.version < 2 ^ 63)
    (hs : handOver { σ with db := db, phase := .sent, history := σ.history ++ [db.mtree] } entry =
      some σ') :
    Consistent σ' (entries ++ [entry.data]) := by
  obtain ⟨t, ht, hsame⟩ := h.live
  have hh := h.history
  have hlen := hh.length
  have hi := h.indexed
  have hhist := hh.snoc ht hsame hc hlt
  have hget : (σ.history ++ [db.mtree])[(entries ++ [entry.data]).length]? = some db.mtree := by
    rw [length_append, length_singleton, ← hlen, getElem?_concat_length]
  have hindex' : entry.index = entries.length + 1 := by
    have hat := hhist.atIndex _ _ hget
    rw [length_append, length_singleton, Nat.zero_add] at hat
    rw [hindex, hat.walIndex_eq (by omega)]
  have hlog := h.log.enqueue hindex'
  have hmeta := MultiTree.commitEntry_metadata hi hc
  have hnewer : σ.db.mtree.version < db.mtree.version := by
    rw [← hsame.version]
    have ht' : (σ.history ++ [db.mtree])[entries.length]? = some t := by
      rwa [getElem?_append_left (by omega)]
    exact (hhist.index_lt ht' hget).mp (by simp)
  -- everything but the log and its queue
  have hrest : ∀ {wal : IndexedLog P} {batch walChan : List WalEntry},
      LogState wal (batch ++ walChan) (entries ++ [entry.data]) →
      (σ.config.walChanSize < 0 → batch = []) →
      (walChan.length : Int) ≤ max σ.config.walChanSize 0 →
      (wal.lastIndex = 0 → σ.dir.wal.lastIndex = 0) →
      Consistent { σ with
        db := db
        phase := .sent
        history := σ.history ++ [db.mtree]
        dir := { σ.dir with wal := wal }
        batch := batch
        walChan := walChan } (entries ++ [entry.data]) := by
    intro wal batch walChan hlog hsync hcap hzero
    refine ⟨hhist, ⟨_, hget, .refl _⟩, hb, hlog, hsync, hcap, h.stored.mono _, fun p hp =>
      (h.foreground p hp).mono _, fun m hm => (h.background m hm).mono _, ?_, fun _ => by simp⟩
    intro hw v hv
    rw [MultiTree.snapshotVersion, hmeta] at hv
    have hold := (h.unswitched (hzero hw) v hv).1
    exact ⟨by simp only; omega, fun _ => by simp only; omega⟩
  have hcap := h.capacity
  unfold Process.handOver at hs
  simp only at hs
  split_ifs at hs with h1 h2 h3
  · have hchan : σ.walChan = [] := eq_nil_of_length_eq_zero (by omega)
    rw [h.sync h1, hchan, nil_append, nil_append] at hlog
    obtain ⟨wal', hw, hlog', -, hlast⟩ := hlog.write_all
    rw [hw] at hs
    cases hs
    refine hrest ?_ h.sync hcap fun hz => ?_
    · rwa [h.sync h1, hchan]
    · rw [hlast, length_singleton] at hz
      omega
  · cases hs
    refine hrest (by rwa [← append_assoc]) h.sync ?_ id
    rw [length_append, length_singleton]
    omega
  · cases hs
    have hchan : σ.walChan = [] := eq_nil_of_length_eq_zero (by omega)
    rw [h3.2, hchan, nil_append, nil_append] at hlog
    exact hrest (by rwa [hchan, append_nil]) (fun hn => absurd hn h1) hcap id

theorem Consistent.commit {block : Block}
    (hs : σ.commit block = some σ') : ∃ entry, Consistent σ' (entries ++ [entry]) := by
  unfold Process.commit at hs
  split_ifs at hs
  split at hs
  · cases hs
  · rename_i entry db hcommit
    split_ifs at hs with hlt
    obtain ⟨hc, hb, hindex, -⟩ := DB.commitBlock_ok h.boundary h.indexed hcommit
    exact ⟨entry.data, h.handOver hc hb hindex hlt hs⟩

theorem Consistent.startBackground :
    Consistent σ.startBackground entries := by
  unfold Process.startBackground
  split
  · refine { h with background := fun m hm => ?_ }
    cases hm
    exact h.recorded
  · exact h

theorem Consistent.rewriteIfApplicable :
    Consistent σ.rewriteIfApplicable entries := by
  unfold Process.rewriteIfApplicable
  split_ifs
  · exact h.startBackground
  · exact h

theorem Consistent.idle {background : Rewrite}
    (hbg : background = σ.background ∨ background = .idle) :
    Consistent { σ with phase := .idle, background := background } entries := by
  refine { h with
    background := fun m hm => ?_
    unswitched := fun hz v hv => ⟨(h.unswitched hz v hv).1, nofun⟩
    committed := fun hne => absurd rfl hne }
  rcases hbg with rfl | rfl
  · exact h.background m hm
  · cases hm

theorem Consistent.lastIndex_of_caughtUp (hphase : σ.phase = .sent)
    (hc : σ.caughtUp = true) : σ.dir.wal.lastIndex = entries.length := by
  have hne := h.committed (by rw [hphase]; decide)
  obtain ⟨t, ht, hsame⟩ := h.live
  have hpos : entries.length ≠ 0 := fun h0 => hne (eq_nil_of_length_eq_zero h0)
  have hlen := h.history.length
  have hle := h.log.lastIndex_le
  obtain ⟨t0, ht0⟩ : ∃ t0, σ.history[0]? = some t0 := ⟨_, getElem?_eq_getElem (by omega)⟩
  have hlt := (h.history.index_lt ht0 ht).mp (by omega)
  have hat := hsame.atIndex (h.history.atIndex _ t ht)
  have hver := hat.version
  rw [Nat.zero_add] at hver
  rw [hsame.version] at hlt
  have hbase := (h.history.atIndex _ _ ht0).nonneg
  unfold Process.caughtUp at hc
  cases hv : σ.db.mtree.snapshotVersion with
  | none => simp [hv] at hc
  | some v =>
    have hold := fun hz => (h.unswitched hz v hv).2 hphase
    simp only [hv, committedVersionAt, Bool.and_eq_true, Bool.or_eq_true, decide_eq_true_eq] at hc
    unfold walVersion at hc hver
    rcases hc.2 with (hc | hc) | hc
    · split_ifs at hver <;> omega
    · omega
    · have hreached := of_decide_eq_true hc
      split_ifs at hreached hver <;> omega

theorem Consistent.catchupWAL {m m' : MultiTree} {i : Nat} {t : MultiTree}
    (ht : σ.history[i]? = some t) (hsame : t.Same m) (hm : m.catchupWAL σ.dir.wal 0 = .ok m') :
    ∃ b, σ.history[max i σ.dir.wal.lastIndex]? = some b ∧ b.Same m' := by
  obtain ⟨k, b, hb, hbm, hk⟩ := h.history.catchupWAL_ok ht (Nat.zero_le _) h.log.covers
    (Nat.zero_add _).symm h.log.lastIndex_le hsame hm
  exact ⟨b, hk rfl ▸ hb, hbm⟩

theorem Consistent.switch (hp : σ.phase = .sent) {m m' m'' : MultiTree}
    (hbg : σ.background = .ready m) (hc : σ.caughtUp = true)
    (hcatch : m.catchupWAL σ.dir.wal 0 = .ok m')
    (happly : m'.applyWALEntry σ.db.pendingLog.entry = .ok m'') :
    m'' = m' ∧ σ.db.mtree.Same m' := by
  obtain ⟨t, ht, hsame⟩ := h.background m (by rw [hbg]; rfl)
  obtain ⟨i, hi⟩ := mem_iff_getElem?.mp ht
  obtain ⟨b, hb, hbm⟩ := h.catchupWAL hi hsame hcatch
  obtain ⟨live, hlive, hls⟩ := h.live
  have hlen := h.history.length
  obtain ⟨hilt, -⟩ := List.getElem?_eq_some_iff.mp hi
  rw [h.lastIndex_of_caughtUp hp hc, max_eq_right (by omega), hlive] at hb
  cases hb
  constructor
  · -- nothing is pending right after a commit
    rw [h.boundary.applyWALEntry] at happly
    cases happly
    rfl
  · exact hls.symm.trans hbm

end

theorem finishCommit_cases (hs : σ.finishCommit = some σ') : σ.phase = .sent ∧
    ((∃ m m' m'', σ.background = .ready m ∧ σ.caughtUp = true ∧
        m.catchupWAL σ.dir.wal 0 = .ok m' ∧
        m'.applyWALEntry σ.db.pendingLog.entry = .ok m'' ∧
        σ' = { σ with phase := .switched, background := .idle, db := { σ.db with mtree := m'' } }) ∨
      ∃ background, (background = σ.background ∨ background = .idle) ∧
        (σ' = { σ with phase := .idle, background := background } ∨
          σ' = { σ with phase := .idle, background := background }.rewriteIfApplicable)) := by
  unfold Process.finishCommit at hs
  by_cases hp : σ.phase = .sent
  swap
  · rw [if_neg hp] at hs
    cases hs
  rw [if_pos hp] at hs
  refine ⟨hp, ?_⟩
  split at hs
  · rename_i m hbg
    split_ifs at hs with hc
    simp only at hs
    split at hs
    · cases hs
      exact .inr ⟨.idle, .inr rfl, .inl rfl⟩
    · rename_i m' hcatch
      unfold Process.reloadMultiTree at hs
      simp only at hs
      cases happly : m'.applyWALEntry σ.db.pendingLog.entry with
      | error e =>
        simp only [happly] at hs
        cases hs
        exact .inr ⟨.idle, .inr rfl, .inl rfl⟩
      | ok m'' =>
        simp only [happly] at hs
        cases hs
        exact .inl ⟨m, m', m'', hbg, hc, hcatch, happly, rfl⟩
  · right
    refine ⟨.idle, .inr rfl, ?_⟩
    simp only [Option.some.injEq] at hs
    split_ifs at hs
    · exact .inl hs.symm
    · exact .inr hs.symm
  · right
    refine ⟨σ.background, .inl rfl, ?_⟩
    simp only [Option.some.injEq] at hs
    split_ifs at hs
    · exact .inl hs.symm
    · exact .inr hs.symm

section

variable (h : Consistent σ entries)
include h

/-- A switch is to trees that were brought up to the end of the log, and these are the live ones. -/
theorem Consistent.switched (hs : σ.finishCommit = some σ') (hswitch : σ'.phase = .switched) :
    ∃ m m', σ.background = .ready m ∧ m.catchupWAL σ.dir.wal 0 = .ok m' ∧ σ'.db.mtree = m' ∧
      σ.db.mtree.Same σ'.db.mtree := by
  obtain ⟨hp, ⟨m, m', m'', hbg, hc, hcatch, happly, rfl⟩ | ⟨background, -, heq⟩⟩ :=
    finishCommit_cases hs
  · obtain ⟨rfl, hsame⟩ := h.switch hp hbg hc hcatch happly
    exact ⟨m, m'', hbg, hcatch, rfl, hsame⟩
  · -- the other ways out of a commit do not wait for the pruning
    have hidle : σ'.phase = .idle := by
      rcases heq with rfl | rfl
      · rfl
      · unfold Process.rewriteIfApplicable Process.startBackground
        split_ifs
        · split <;> rfl
        · rfl
    rw [hidle] at hswitch
    cases hswitch

theorem Consistent.finishCommit (hs : σ.finishCommit = some σ') :
    Consistent σ' entries := by
  obtain ⟨hp, ⟨m, m', m'', hbg, hc, hcatch, happly, rfl⟩ | ⟨background, hbg, rfl | rfl⟩⟩ :=
    finishCommit_cases hs
  · obtain ⟨rfl, hsame⟩ := h.switch hp hbg hc hcatch happly
    obtain ⟨live, hlive, hls⟩ := h.live
    have hne : entries ≠ [] := h.committed (by rw [hp]; decide)
    refine { h with
      live := ⟨live, hlive, hls.trans hsame⟩
      boundary := ⟨h.boundary.changesets, h.boundary.upgrades⟩
      background := fun m hm => by cases hm
      unswitched := fun hz => ?_
      committed := fun _ => hne }
    have := h.lastIndex_of_caughtUp hp hc
    exact absurd (eq_nil_of_length_eq_zero (this.symm.trans hz)) hne
  · exact h.idle hbg
  · exact (h.idle hbg).rewriteIfApplicable

theorem Consistent.abandonSwitch (hs : σ.abandonSwitch = some σ') :
    Consistent σ' entries := by
  unfold Process.abandonSwitch at hs
  split at hs
  · cases hs
    exact h.idle (.inr rfl)
  · cases hs

theorem Consistent.starting :
    Consistent { σ with phase := .idle, prune := .starting } entries :=
  { h with
    unswitched := fun hz v hv => ⟨(h.unswitched hz v hv).1, nofun⟩
    committed := fun hne => absurd rfl hne }

theorem Consistent.startPrune (hs : σ.startPrune = some σ') :
    Consistent σ' entries := by
  unfold Process.startPrune at hs
  by_cases hp : σ.phase = .switched ∧ σ.prune = .idle
  · rw [if_pos hp] at hs
    simp only [Option.some.injEq] at hs
    split_ifs at hs
    · exact hs ▸ h.starting
    · exact hs ▸ h.starting.rewriteIfApplicable
  · rw [if_neg hp] at hs
    cases hs

theorem Consistent.receive {n : Nat} (hs : σ.receive n = some σ') :
    Consistent σ' entries := by
  unfold Process.receive at hs
  split_ifs at hs with hn
  cases hs
  obtain ⟨hb, -, hpos, hle⟩ := hn
  have hcap := h.capacity
  have hlog := h.log
  rw [hb, nil_append, ← take_append_drop n σ.walChan] at hlog
  refine { h with log := hlog, sync := fun hneg => ?_, capacity := ?_ }
  · -- there is nothing in the channel of a log that is written synchronously
    have hneg' : σ.config.walChanSize < 0 := hneg
    omega
  · show ((σ.walChan.drop n).length : Int) ≤ max σ.config.walChanSize 0
    rw [length_drop]
    omega

theorem Consistent.writeBatch (hs : σ.writeBatch = some σ') :
    Consistent σ' entries := by
  obtain ⟨wal', hw, hlog, -, hlast⟩ := h.log.write
  unfold Process.writeBatch at hs
  split_ifs at hs
  rw [hw] at hs
  cases hs
  refine { h with log := hlog, sync := fun _ => rfl, unswitched := fun hz => ?_ }
  exact h.unswitched (by simp only at hz; omega)

theorem Consistent.foregroundStep (hs : σ.foregroundStep = some σ') :
    Consistent σ' entries := by
  unfold Process.foregroundStep at hs
  split at hs
  · cases hs
  · rename_i p hp
    have hrec := h.foreground p hp
    split at hs
    · rename_i p' dir hstep
      cases hs
      obtain ⟨hst, hwal, hm⟩ := Publication.stored_more hstep h.stored h.history hrec
      refine { h with
        log := hwal ▸ h.log
        stored := hst
        foreground := fun q hq => ?_
        unswitched := hwal ▸ h.unswitched }
      cases hq
      rwa [hm]
    · rename_i dir hstep
      cases hs
      obtain ⟨-, name, -, rfl⟩ := Publication.step_done hstep
      exact { h with foreground := fun q hq => by cases hq }
    · rename_i dir hstep
      cases hs
      rw [Publication.step_failed hstep]
      exact { h with foreground := fun q hq => by cases hq }

theorem Consistent.foregroundFail (hs : σ.foregroundFail = some σ') :
    Consistent σ' entries := by
  unfold Process.foregroundFail at hs
  split at hs
  · cases hs
    exact { h with
      stored := h.stored.removeAll _
      foreground := fun q hq => by cases hq }
  · cases hs

theorem Consistent.openTrees {snapshot : Name} {m : MultiTree}
    (hm : σ.dir.openTrees snapshot = .ok m) : Recorded σ.history m := by
  obtain ⟨content, hget, hload⟩ := openTrees_eq_ok.mp hm
  obtain ⟨t, ht, rfl, -⟩ := h.stored _ (get_eq_some.mp hget)
  exact ⟨t, ht, (h.history.load_writeSnapshot ht hload).2⟩

theorem Consistent.backgroundStep (hs : σ.backgroundStep = some σ') :
    Consistent σ' entries := by
  unfold Process.backgroundStep at hs
  split at hs
  · rename_i p hp
    have hrec : Recorded σ.history p.mtree := h.background _ (by rw [hp]; rfl)
    split at hs
    · rename_i p' dir hstep
      cases hs
      obtain ⟨hst, hwal, hm⟩ := Publication.stored_more hstep h.stored h.history hrec
      refine { h with
        log := hwal ▸ h.log
        stored := hst
        background := fun m hm' => ?_
        unswitched := hwal ▸ h.unswitched }
      cases hm'
      rwa [hm]
    · rename_i dir hstep
      cases hs
      obtain ⟨-, name, -, rfl⟩ := Publication.step_done hstep
      exact { h with background := fun m hm => by cases hm }
    · rename_i dir hstep
      cases hs
      rw [Publication.step_failed hstep]
      exact { h with background := fun m hm => by cases hm }
  · split at hs
    · cases hs
      exact { h with background := fun m hm => by cases hm }
    · rename_i snapshot _
      split at hs
      · cases hs
        exact { h with background := fun m hm => by cases hm }
      · rename_i mtree hopen
        cases hs
        refine { h with background := fun m hm => ?_ }
        cases hm
        exact h.openTrees hopen
  · rename_i mtree hbg
    obtain ⟨t, ht, hsame⟩ := h.background mtree (by rw [hbg]; rfl)
    obtain ⟨i, hi⟩ := mem_iff_getElem?.mp ht
    split at hs
    · cases hs
      exact { h with background := fun m hm => by cases hm }
    · rename_i m' hcatch
      cases hs
      refine { h with background := fun m hm => ?_ }
      cases hm
      obtain ⟨b, hb, hbm⟩ := h.catchupWAL hi hsame hcatch
      exact ⟨b, mem_of_getElem? hb, hbm⟩
  · cases hs

theorem Consistent.backgroundFail (hs : σ.backgroundFail = some σ') :
    Consistent σ' entries := by
  unfold Process.backgroundFail at hs
  split at hs
  · cases hs
    exact { h with
      stored := h.stored.removeAll _
      background := fun m hm => by cases hm }
  · cases hs

end

omit [Sha256] [WALCodec P] in
/-- One name of the listing: it is passed over, or the snapshot is renamed. -/
theorem pruneName_cases (σ : Process P) (current : Int) (counter : Nat) (name : Name)
    (names : List Name) :
    (isSnapshotName name = true ∧ parseVersion name = none ∧
      σ.pruneName current counter name names = { σ with prune := .idle }) ∨
    (∃ c, σ.pruneName current counter name names = { σ with prune := .removing current c names }) ∨
    ∃ version dir, isSnapshotName name = true ∧ parseVersion name = some version ∧
      version < current ∧
      σ.dir.rename (snapshotName version) (snapshotName version ++ tmpSuffix) = some dir ∧
      σ.pruneName current counter name names = { σ with
        prune := .deleting (snapshotName version ++ tmpSuffix) current counter names
        dir := dir } := by
  unfold Process.pruneName
  by_cases hname : isSnapshotName name = true
  · rw [if_pos hname]
    cases hv : parseVersion name with
    | none => exact .inl ⟨hname, rfl, rfl⟩
    | some version =>
      simp only
      by_cases hge : version ≥ current
      · exact .inr (.inl ⟨counter, by rw [if_pos hge]⟩)
      by_cases hc : counter > 0
      · exact .inr (.inl ⟨counter - 1, by rw [if_neg hge, if_pos hc]⟩)
      rw [if_neg hge, if_neg hc]
      cases hr : σ.dir.rename (snapshotName version) (snapshotName version ++ tmpSuffix) with
      | none => exact .inr (.inl ⟨counter, rfl⟩)
      | some dir => exact .inr (.inr ⟨version, dir, hname, rfl, by omega, hr, rfl⟩)
  · exact .inr (.inl ⟨counter, by rw [if_neg hname]⟩)

theorem Consistent.pruneName (h : Consistent σ entries) (current : Int) (counter : Nat) (name : Name)
    (names : List Name) : Consistent (σ.pruneName current counter name names) entries := by
  obtain ⟨-, -, heq⟩ | ⟨c, heq⟩ | ⟨version, dir, -, -, -, hr, heq⟩ :=
    pruneName_cases σ current counter name names
  · exact heq ▸ { h with }
  · exact heq ▸ { h with }
  · have hst := h.stored.retire hr
    obtain ⟨content, -, rfl⟩ := rename_eq_some hr
    exact heq ▸ { h with stored := hst }

theorem Consistent.pruneStep (h : Consistent σ entries) (hs : σ.pruneStep = some σ') :
    Consistent σ' entries := by
  unfold Process.pruneStep at hs
  split at hs
  · cases hs
  · split at hs
    · cases hs
      exact { h with }
    · cases hs
      exact { h with }
  · cases hs
    exact { h with }
  · cases hs
    exact h.pruneName _ _ _ _
  · cases hs
    exact { h with }
  · cases hs
    exact { h with stored := h.stored.removeAll _ }
  · split at hs
    · cases hs
      exact { h with }
    · cases hs
      exact { h with }
  · split at hs
    · cases hs
      exact { h with }
    · rename_i wal hwal
      cases hs
      obtain ⟨hlast, -⟩ := IndexedLog.truncateFront_eq_some hwal
      exact { h with
        log := h.log.truncateFront hwal
        unswitched := fun hz => h.unswitched (hlast ▸ hz) }

omit [Sha256] [WALCodec P] in
theorem earliestLoad_cases (hs : some σ.earliestLoad = some σ') :
    σ' = σ ∨ σ' = { σ with queries := σ.queries ++ [.missed] } := by
  unfold earliestLoad at hs
  split_ifs at hs
  · exact .inl (Option.some.inj hs).symm
  · exact .inr (Option.some.inj hs).symm

omit [Sha256] [WALCodec P] in
theorem earliestList_cases {i : Nat} (hs : σ.earliestList i = some σ') :
    (∃ version, σ.firstQueryable = .ok version ∧
      σ' = { σ with queries := σ.queries.set i (.listed version) }) ∨
    σ' = { σ with queries := σ.queries.eraseIdx i } := by
  unfold earliestList at hs
  split at hs
  · split at hs
    · cases hs
      exact .inr rfl
    · rename_i version hversion
      cases hs
      exact .inl ⟨version, hversion, rfl⟩
  · cases hs

omit [Sha256] [WALCodec P] in
theorem earliestStore_eq {i : Nat} (hs : σ.earliestStore i = some σ') :
    ∃ version, .listed version ∈ σ.queries ∧
      σ' = { σ with queries := σ.queries.eraseIdx i, earliestSnapshotCache := version } := by
  unfold earliestStore at hs
  split at hs
  · rename_i version hget
    cases hs
    exact ⟨version, mem_of_getElem? hget, rfl⟩
  · cases hs

/-- One step of any goroutine; only a commit makes the history longer. -/
theorem Consistent.step (h : Consistent σ entries) {a : Action} (hs : σ.step a = some σ') :
    ∃ new, Consistent σ' (entries ++ new) := by
  have hsame : Consistent σ' entries → ∃ new, Consistent σ' (entries ++ new) := fun h' =>
    ⟨[], by rwa [append_nil]⟩
  cases a with
  | commit block =>
    obtain ⟨entry, h'⟩ := h.commit hs
    exact ⟨[entry], h'⟩
  | finishCommit => exact hsame (h.finishCommit hs)
  | abandonSwitch => exact hsame (h.abandonSwitch hs)
  | startPrune => exact hsame (h.startPrune hs)
  | receive n => exact hsame (h.receive hs)
  | writeBatch => exact hsame (h.writeBatch hs)
  | failWriter =>
    simp only [Process.step] at hs
    split_ifs at hs
    cases hs
    exact hsame { h with }
  | rewriteSnapshot =>
    simp only [Process.step] at hs
    split_ifs at hs
    cases hs
    refine hsame { h with foreground := fun p hp => ?_ }
    cases hp
    exact h.recorded
  | foregroundStep => exact hsame (h.foregroundStep hs)
  | foregroundFail => exact hsame (h.foregroundFail hs)
  | rewriteSnapshotBackground =>
    simp only [Process.step] at hs
    split_ifs at hs
    cases hs
    exact hsame h.startBackground
  | backgroundStep => exact hsame (h.backgroundStep hs)
  | backgroundFail => exact hsame (h.backgroundFail hs)
  | pruneStep => exact hsame (h.pruneStep hs)
  | earliestLoad =>
    obtain rfl | rfl := earliestLoad_cases hs
    · exact hsame h
    · exact hsame { h with }
  | earliestList i =>
    obtain ⟨version, -, rfl⟩ | rfl := earliestList_cases hs
    · exact hsame { h with }
    · exact hsame { h with }
  | earliestStore i =>
    obtain ⟨version, -, rfl⟩ := earliestStore_eq hs
    exact hsame { h with }

/-- What a database can be opened on: a state at the end of a block, without entries in the
log. It may be empty, with any initial version, or imported. -/
structure Base (t : MultiTree) : Prop where
  committed : t.Committed
  atIndex : t.AtIndex 0
  version_le : t.version ≤ maxUint32

theorem consistent_init (config : Config) {t : MultiTree} (ht : Base t) :
    Consistent (init config t : Process P) [] where
  history := by
    have hsame : t.Same { t with metadata := ⟨some t.lastCommitInfo, t.initialVersion⟩ } :=
      ⟨⟨rfl, rfl, rfl, rfl⟩, rfl⟩
    exact .single (hsame.committed ht.committed) (hsame.atIndex ht.atIndex)
  live := ⟨_, rfl, .refl _⟩
  boundary := ⟨rfl, rfl⟩
  log := by
    refine ⟨Nat.le_refl 0, fun k e _ hlt => absurd hlt (Nat.not_lt_zero k), fun k e he => ?_, rfl⟩
    cases he
  sync _ := rfl
  capacity := Int.le_max_right _ _
  stored e he := by
    rw [mem_singleton.mp he]
    exact ⟨_, mem_singleton_self _, rfl, .inl rfl⟩
  foreground p hp := by cases hp
  background m hm := by cases hm
  unswitched _ v hv := by
    cases hv
    exact ⟨le_rfl, nofun⟩
  committed hne := absurd rfl hne

end Process

def putBlock (add : Bool) (key : UInt8) : Block where
  upgrades := if add then [⟨[1], [], false⟩] else []
  calls := [.applyChangeSet [1] [⟨false, [key], some [key]⟩]]

/-- A rewrite in the foreground, from the call to the new link. -/
def Action.rewritten : List Action :=
  [.rewriteSnapshot, .foregroundStep, .foregroundStep, .foregroundStep, .foregroundStep]

abbrev Process.fresh [Sha256] (config : Config) : List Action → Option (Process WALEntry) :=
  (init config (.fresh 0)).runAll fun _ _ => True

theorem Process.base_fresh [Sha256] {initialVersion : Nat} (h : initialVersion ≤ maxUint32) :
    Process.Base (.fresh initialVersion) where
  committed := by
    refine ⟨⟨List.Pairwise.nil, rfl⟩, rfl, ?_, ?_, h⟩
    · exact fun e he => absurd he not_mem_nil
    · exact fun _ e he => absurd he not_mem_nil
  atIndex := ⟨.inr ⟨rfl, rfl⟩, by show (0 : Int) < 2 ^ 63; decide⟩
  version_le := by show (0 : Int) ≤ maxUint32; decide

end CronosStore.Memiavl
