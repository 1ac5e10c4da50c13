import CronosStore.Memiavl.Order

/-!
# Opening a directory again

A process can stop and its directory be opened by the next one, at the latest version or at an
older one. If the version is the last one of the log, and no snapshot of a later version is
left, the next process goes on with the history up to there, and all that holds in a run still
does (`Successor.consistent`, `Successor.ordered`). In particular the switch to the trees of a background
rewrite is transparent (`switch_transparent`).

A directory that is opened at an older version keeps the rest of its log. The blocks are then
committed again and left out of the log, and a background rewrite catches up with all of it:
the switch takes the database to versions that it has not committed
(`exists_switch_ahead`).
-/

namespace CronosStore.Memiavl

open Foundation List Directory Option

/-! ## Histories that end earlier -/

theorem History.take [Sha256] {n j : Nat} {states : List MultiTree} {entries : List WALEntry}
    (h : History n states entries) (hj : j ≤ entries.length) :
    History n (states.take (j + 1)) (entries.take j) where
  length := by
    have := h.length
    rw [length_take, length_take]
    omega
  commit k t t' entry ht ht' he := by
    rw [getElem?_take] at ht ht' he
    split_ifs at ht ht' he
    exact h.commit k t t' entry ht ht' he
  atIndex k t ht := by
    rw [getElem?_take] at ht
    split_ifs at ht
    exact h.atIndex k t ht
  indexed t ht := h.indexed t (mem_of_mem_take ht)
  info t ht := h.info t (mem_of_mem_take ht)
  committed t ht := h.committed t (mem_of_mem_take ht)
  initialVersion t ht t' ht' := h.initialVersion t (mem_of_mem_take ht) t' (mem_of_mem_take ht')

theorem History.mem_take [Sha256] {n j : Nat} {states : List MultiTree} {entries : List WALEntry}
    (h : History n states entries) {s b : MultiTree} (hs : s ∈ states) (hb : states[j]? = some b)
    (hle : s.version ≤ b.version) : s ∈ states.take (j + 1) := by
  obtain ⟨i, hi⟩ := mem_iff_getElem?.mp hs
  have hlt := h.index_lt hb hi
  refine mem_of_getElem? (i := i) ?_
  rw [getElem?_take_of_lt (by omega), hi]

namespace Directory

variable {P : Type} {d d' : Directory P}

variable [Sha256] [WALCodec P] {m : MultiTree} {steps : List FsStep} {opts : Options}
  {target : Nat}

omit [Sha256] in
theorem planned_ok {rollback : Bool} {rest : Except LoadDBError (List FsStep)} {c : MultiTree}
    (h : (if rollback = true then rest >>= fun steps => pure (c, steps)
      else pure [] >>= fun steps => pure (c, steps)) = .ok (m, steps)) :
    c = m ∧ if rollback = true then rest = .ok steps else steps = [] := by
  split at h
  · rename_i hr
    obtain ⟨s, hs, h⟩ := Results.bind_eq_ok.mp h
    cases h
    rw [if_pos hr]
    exact ⟨rfl, hs⟩
  · rename_i hr
    cases h
    rw [if_neg hr]
    exact ⟨rfl, rfl⟩

/-- What an accepted load decides: the snapshot that is opened, the trees that it is caught up
to, and the steps of a rollback. -/
theorem planClean_ok (h : d.planClean opts = .ok (m, steps)) :
    ∃ name l, d.selectSnapshot opts.targetVersion = .ok name ∧ d.openTrees name = .ok l ∧
      (if opts.targetVersion = 0 ∨ (opts.targetVersion : Int) > l.version then
        l.catchupWAL d.wal opts.targetVersion = .ok m else m = l) ∧
      if (opts.loadForOverwriting && decide (opts.targetVersion > 0)) = true then
        d.wal.InRange (walIndex opts.targetVersion l.initialVersion) ∧
          d.rollbackSteps name opts.targetVersion (walIndex opts.targetVersion l.initialVersion) = .ok steps
      else steps = [] := by
  unfold planClean at h
  obtain ⟨name, hname, h⟩ := Results.bind_eq_ok.mp h
  obtain ⟨l, hl, h⟩ := Results.bind_eq_ok.mp h
  refine ⟨name, l, hname, hl, ?_⟩
  dsimp only at h
  split at h
  · cases h
  rename_i hrange
  have hend {c : MultiTree} (hc : c = m ∧
      if (opts.loadForOverwriting && decide (opts.targetVersion > 0)) = true then
        d.rollbackSteps name opts.targetVersion (walIndex opts.targetVersion l.initialVersion) = .ok steps
      else steps = []) : if (opts.loadForOverwriting && decide (opts.targetVersion > 0)) = true then
        d.wal.InRange (walIndex opts.targetVersion l.initialVersion) ∧
          d.rollbackSteps name opts.targetVersion (walIndex opts.targetVersion l.initialVersion) = .ok steps
      else steps = [] := by
    split_ifs at hc ⊢ with hroll
    · exact ⟨not_not.mp fun hr => hrange ⟨hroll, hr⟩, hc.2⟩
    · exact hc.2
  split at h
  · rename_i hcatch
    rw [if_pos hcatch]
    obtain ⟨c, hc, h⟩ := Results.bind_eq_ok.mp h
    have hp := planned_ok h
    refine ⟨?_, hend hp⟩
    cases hm : l.catchupWAL d.wal opts.targetVersion with
    | error e => simp [hm, Except.mapError] at hc
    | ok c' =>
      simp only [hm, Except.mapError, Except.ok.injEq] at hc
      rw [hc, hp.1]
  · rename_i hcatch
    rw [if_neg hcatch]
    have hp := planned_ok h
    exact ⟨hp.1.symm, hend hp⟩

omit [Sha256] [WALCodec P] in
theorem selectSnapshot_target {name : Name} (hpos : 0 < target) (h : d.selectSnapshot target = .ok name) :
    ∃ v, d.seekSnapshot target = .ok v ∧ name = snapshotName v := by
  rw [selectSnapshot, if_pos hpos] at h
  cases hseek : d.seekSnapshot target with
  | error e => simp [hseek, Except.map] at h
  | ok v =>
    simp only [hseek, Except.map, Except.ok.injEq] at h
    exact ⟨v, rfl, h.symm⟩

theorem load_planned (hw : opts.readOnly = false) (h : d.load opts = .ok (m, d')) :
    ∃ steps, d.clean.planClean opts = .ok (m, steps) ∧ runSteps steps d.clean = some d' := by
  rw [load, plan, hw, Bool.false_and, if_neg (by decide), if_neg (by decide), runSteps_cleanup] at h
  cases hplan : d.clean.planClean opts with
  | error e => simp [hplan, Except.map] at h
  | ok r =>
    obtain ⟨m', steps⟩ := r
    simp only [hplan, Except.map, runSteps_append, runSteps_cleanup, Option.bind_some] at h
    cases hrun : runSteps steps d.clean with
    | none => simp [hrun] at h
    | some e =>
      simp only [hrun, Except.ok.injEq, Prod.mk.injEq] at h
      obtain ⟨rfl, rfl⟩ := h
      exact ⟨steps, rfl, hrun⟩

theorem load_plain (h : d.load ⟨target, false, false⟩ = .ok (m, d')) :
    d' = d.clean ∧ ∃ name l, d.clean.openTrees name = .ok l ∧ (m = l ∨ l.catchupWAL d.wal target = .ok m) := by
  obtain ⟨steps, hplan, hrun⟩ := load_planned rfl h
  obtain ⟨name, l, -, hl, hm, rfl⟩ := planClean_ok hplan
  cases hrun
  refine ⟨rfl, name, l, hl, ?_⟩
  split_ifs at hm
  · exact .inr hm
  · exact .inl hm

end Directory

namespace Process

variable {P : Type} [Sha256] [WALCodec P] {σ σ' : Process P} {entries : List WALEntry} {d : Directory P}

/-! ## Processes that have stopped -/

omit [Sha256] in
theorem Stopped.refl (σ : Process P) : σ.Stopped σ.dir :=
  ⟨rfl, fun _ _ => Iff.rfl, 0, rfl⟩

omit [Sha256] in
theorem Stopped.mem_names (h : σ.Stopped d) (v : Int) :
    snapshotName v ∈ d.names ↔ snapshotName v ∈ σ.dir.names := by
  simp only [Directory.mem_names]
  exact exists_congr fun content => h.dirs _ (isTmpName_snapshotName v)

theorem Stopped.log (h : σ.Stopped d) (hc : Consistent σ entries) :
    ∃ queue, LogState d.wal queue entries ∧ d.wal.dropped = σ.dir.wal.dropped ∧
      σ.dir.wal.lastIndex ≤ d.wal.lastIndex := by
  obtain ⟨k, hk⟩ := h.wal
  have hlog := hc.log
  rw [← take_append_drop k σ.batch, append_assoc] at hlog
  obtain ⟨wal, hw, hstate, hdrop, hlast⟩ := hlog.write
  cases hw.symm.trans hk
  exact ⟨_, hstate, hdrop, by omega⟩

/-- What the next process finds, if it goes on where the log ends. -/
structure Successor (σ : Process P) (entries : List WALEntry) (d : Directory P) (σ' : Process P)
    (m b : MultiTree) (j : Nat) : Prop where
  state : σ.history[j]? = some b
  same : b.Same m
  lastIndex : d.wal.lastIndex = j
  dropped : d.wal.dropped = σ.dir.wal.dropped
  log : LogState d.wal [] (entries.take j)
  snapshots : ∀ s ∈ σ.history, snapshotName s.version ∈ d.clean.names → s ∈ σ.history.take (j + 1)
  snapshot : j = 0 → m.snapshotVersion = some m.version
  eq : ∃ config, σ' = opened config d.clean m (σ.history.take (j + 1))

/-- Without the temporary directories, what is stored are states of the history. -/
theorem Consistent.stored_clean (h : Consistent σ entries) (hd : σ.Stopped d) {e : Name × MultiTreeDir}
    (he : e ∈ d.clean.dirs) :
    ∃ t ∈ σ.history, e.2 = t.writeSnapshot .empty ∧ e.1 = snapshotName t.version := by
  obtain ⟨he, htmp⟩ := mem_clean.mp he
  obtain ⟨t, ht, hcontent, hname⟩ := h.stored e ((hd.dirs e htmp).mp he)
  refine ⟨t, ht, hcontent, hname.resolve_right fun heq => ?_⟩
  rw [heq, isTmpName_tmp] at htmp
  cases htmp

theorem Consistent.successor (h : Consistent σ entries) (hd : σ.Stopped d) {config : Config}
    {target : Nat} (hopen : σ.reopen config d target = .ok σ') (hres : σ.Resumes σ') :
    ∃ m b j, Successor σ entries d σ' m b j := by
  unfold reopen at hopen
  split at hopen
  · cases hopen
  rename_i m dir hload
  cases hopen
  obtain ⟨hindex, hlater⟩ := hres
  obtain ⟨queue, hlog, hdrop, -⟩ := hd.log h
  obtain ⟨rfl, name, l, hl, hm⟩ := load_plain hload
  -- the trees are those of a state of the history
  obtain ⟨content, hget, hloadl⟩ := openTrees_eq_ok.mp hl
  obtain ⟨t, ht, rfl, -⟩ := h.stored_clean hd (get_eq_some.mp hget)
  obtain ⟨hle, hsame⟩ := h.history.load_writeSnapshot ht hloadl
  have hsnap : l.snapshotVersion = some l.version := by
    cases (loadMultiTree_writeSnapshot (h.history.committed t ht hle) hle).symm.trans hloadl
    rfl
  obtain ⟨i, hi⟩ := mem_iff_getElem?.mp ht
  obtain ⟨j, b, hb, hbm⟩ : ∃ (j : Nat) (b : MultiTree), σ.history[j]? = some b ∧ b.Same m := by
    rcases hm with rfl | hm
    · exact ⟨i, t, hi, hsame⟩
    · obtain ⟨k, b, hb, hbm, -⟩ := h.history.catchupWAL_ok hi (Nat.zero_le _) hlog.covers
        (Nat.zero_add _).symm hlog.lastIndex_le hsame hm
      exact ⟨k, b, hb, hbm⟩
  have hat : m.AtIndex j := by
    have := h.history.atIndex j b hb
    rw [Nat.zero_add] at this
    exact hbm.atIndex this
  have hlast : d.wal.lastIndex = j := hindex.symm.trans hat.logIndex_eq
  have hlen := hlog.lastIndex_le
  have hlog' : LogState d.wal [] (entries.take j) := by
    refine ⟨?_, fun k e hk hlt he => ?_, fun k e he => (by cases he), ?_⟩
    · rw [length_take]
      omega
    · rw [getElem?_take_of_lt (by omega)] at he
      exact hlog.covers k e hk hlt he
    · rw [drop_eq_nil_of_le (by rw [length_take]; omega)]
      rfl
  refine ⟨m, b, j, hb, hbm, hlast, hdrop, hlog', fun s hs hn => ?_, fun hz => ?_, config,
    by rw [hat.logIndex_eq]⟩
  · refine h.history.mem_take hs hb ?_
    rw [hbm.version]
    exact hlater s hs hn
  · -- there was nothing to catch up with
    rcases hm with rfl | hm
    · exact hsnap
    · rw [h.history.catchupWAL_ahead hi hsame.toAgree (by omega) (Int.natCast_nonneg _)] at hm
      cases hm
      exact hsnap

variable {m b : MultiTree} {j : Nat}

theorem Successor.consistent (hs : Successor σ entries d σ' m b j) (h : Consistent σ entries)
    (hd : σ.Stopped d) : Consistent σ' (entries.take j) := by
  obtain ⟨config, rfl⟩ := hs.eq
  have hlen := h.history.length
  obtain ⟨hjlt, -⟩ := List.getElem?_eq_some_iff.mp hs.state
  have hj : j ≤ entries.length := by omega
  have hstored : Stored d.clean.dirs (σ.history.take (j + 1)) := fun e he => by
    obtain ⟨t, ht, hcontent, hname⟩ := h.stored_clean hd he
    exact ⟨t, hs.snapshots t ht (hname ▸ mem_map.mpr ⟨e, he, rfl⟩), hcontent, .inl hname⟩
  refine ⟨h.history.take hj, ⟨b, ?_, hs.same⟩, ⟨rfl, rfl⟩, hs.log, fun _ => rfl, Int.le_max_right _ _,
    hstored, fun p hp => (by cases hp), fun m hm => (by cases hm), ?_, fun hne => absurd rfl hne⟩
  · show (σ.history.take (j + 1))[(entries.take j).length]? = some b
    rw [length_take, Nat.min_eq_left hj, getElem?_take_of_lt (Nat.lt_succ_self j), hs.state]
  · intro hz v hv
    have hv' := (hs.snapshot (hs.lastIndex.symm.trans hz)).symm.trans hv
    exact ⟨(Option.some.inj hv').ge, nofun⟩

omit [Sha256] in
theorem Successor.has_iff (hs : Successor σ entries d σ' m b j) (hd : σ.Stopped d) {v : Int} :
    σ'.dir.Has v ↔ σ.dir.Has v := by
  obtain ⟨config, rfl⟩ := hs.eq
  refine and_congr_right fun _ => ?_
  rw [← hd.mem_names]
  simp only [Directory.mem_names]
  exact exists_congr fun content => mem_clean.trans (and_iff_left (isTmpName_snapshotName v))

omit [Sha256] in
theorem Successor.ordered (hs : Successor σ entries d σ' m b j) (ho : Ordered σ) (hd : σ.Stopped d) :
    Ordered σ' := by
  obtain ⟨t, ht, hcur, hhas⟩ := ho.dir.current
  have hhas' := (hs.has_iff hd).mpr hhas
  have hwindow : ∀ i (t : MultiTree), (σ.history.take (j + 1))[i]? = some t → σ'.dir.Has t.version →
      d.wal.dropped ≤ i := fun i t ht hv => by
    rw [getElem?_take] at ht
    split_ifs at ht
    exact hs.dropped ▸ ho.dir.window i t ht ((hs.has_iff hd).mp hv)
  obtain ⟨config, rfl⟩ := hs.eq
  exact ⟨nofun, ⟨⟨t, hs.snapshots t ht hhas'.2, hd.current.trans hcur, hhas'⟩, hwindow,
    .of_fresh rfl rfl nofun⟩, nofun, nofun⟩

theorem Run.consistent {G : Process P → Action → Prop} {σ0 : Process P} (h : Run G σ0 σ)
    (h₀ : Consistent σ0 []) : ∃ entries, Consistent σ entries := by
  induction h with
  | init => exact ⟨[], h₀⟩
  | step _ _ hs ih =>
    obtain ⟨entries, h⟩ := ih
    obtain ⟨new, h'⟩ := h.step hs
    exact ⟨entries ++ new, h'⟩
  | reopen _ hd hopen hres ih =>
    obtain ⟨entries, h⟩ := ih
    obtain ⟨m, b, j, hs⟩ := h.successor hd hopen hres
    exact ⟨entries.take j, hs.consistent h hd⟩

/-! ## The switch -/

/-- In every run, of all the goroutines in any order and over any number of stops after which the
directory is opened again at the last version of its log: when `Commit` installs the trees that a
background rewrite has loaded, brought up to the end of the log, the database goes on with
the same initial version, names, trees (node by node, so with their versions, contents and
root hashes) and commit info, and these are what the last commit left. -/
theorem switch_transparent {config : Config} {t : MultiTree} (ht : Base t)
    (hrun : Run (fun _ _ => True) (init config t) σ) (hs : σ.step .finishCommit = some σ')
    (hswitch : σ'.phase = .switched) :
    ∃ m m', σ.background = .ready m ∧ m.catchupWAL σ.dir.wal 0 = .ok m' ∧ σ'.db.mtree = m' ∧
      σ.db.mtree.Same σ'.db.mtree ∧
      ∃ last, σ.history.getLast? = some last ∧ last.Same σ'.db.mtree := by
  obtain ⟨entries, h⟩ := hrun.consistent (consistent_init config ht)
  obtain ⟨m, m', hbg, hcatch, hm, hsame⟩ := h.switched hs hswitch
  obtain ⟨live, hlive, hls⟩ := h.live
  refine ⟨m, m', hbg, hcatch, hm, hsame, live, ?_, hls.trans hsame⟩
  rw [getLast?_eq_getElem?, h.history.length, Nat.add_sub_cancel]
  exact hlive

end Process

/-- The directory of version 1 is opened again. The snapshot of version 2 is written in the
background, the entry of version 3 is on its way while the result is offered, and then the
switch happens. -/
theorem switch_transparent_second :
    ∃ σ σ' : Process WALEntry, @Process.step _ Sha256.zero _ σ .finishCommit = some σ' ∧
      σ'.phase = .switched ∧ σ'.db.mtree.version = 3 ∧ σ.db.mtree.Same σ'.db.mtree := by
  let _ := Sha256.zero
  have hend : (Process.fresh ⟨0, 0, 1000⟩
      [.commit (putBlock true 7), .finishCommit, .writeBatch]).bind (fun σ =>
        (σ.reopen ⟨0, 0, 1⟩ σ.dir 0).toOption.bind fun σ₁ =>
          (σ₁.runAll (fun _ _ => True) ([.commit (putBlock false 8), .finishCommit] ++
            replicate 6 .backgroundStep ++
            [.writeBatch, .commit (putBlock false 9), .writeBatch])).map fun σ₂ =>
              (decide (σ.Resumes σ₁), (σ₂.step .finishCommit).map fun σ' => (σ'.phase, σ'.db.mtree.version))) =
      some (true, some (.switched, 3)) := by
    decide
  obtain ⟨σ, hσ, hend⟩ := bind_eq_some_iff.mp hend
  obtain ⟨σ₁, hopen, hend⟩ := bind_eq_some_iff.mp hend
  obtain ⟨σ₂, hσ2, hend⟩ := map_eq_some_iff.mp hend
  obtain ⟨hres, hend⟩ := Prod.mk.inj hend
  obtain ⟨σ', hstep, hend⟩ := map_eq_some_iff.mp hend
  obtain ⟨hphase, hversion⟩ := Prod.mk.inj hend
  have hrun := ((Process.Run.init.runAll hσ).reopen (.refl σ) (Results.toOption_eq_some.mp hopen)
    (of_decide_eq_true hres)).runAll hσ2
  obtain ⟨-, -, -, -, -, hsame, -⟩ := Process.switch_transparent
    (Process.base_fresh (by decide)) hrun hstep hphase
  exact ⟨σ₂, σ', hstep, hphase, hversion, hsame⟩

/-- Four blocks are committed and the process stops. The directory is opened at version 1, and
the same blocks are committed again. The snapshot of version 2 is written in the background, and
the switch in the commit of version 3 installs trees of version 4. -/
theorem exists_switch_ahead :
    ∃ σ σ₁ σ₂ σ' : Process WALEntry,
      @Process.Run _ Sha256.zero _ (fun _ _ => True) (.init ⟨-1, 0, 1000⟩ (.fresh 0)) σ ∧
      @Process.reopen _ Sha256.zero _ σ ⟨-1, 0, 1000⟩ σ.dir 1 = .ok σ₁ ∧
      @Process.Run _ Sha256.zero _ (fun _ _ => True) σ₁ σ₂ ∧
      @Process.step _ Sha256.zero _ σ₂ .finishCommit = some σ' ∧ σ'.phase = .switched ∧
      σ₂.db.mtree.version = 3 ∧ σ'.db.mtree.version = 4 := by
  let _ := Sha256.zero
  have hend : (Process.fresh ⟨-1, 0, 1000⟩
      [.commit (putBlock true 7), .finishCommit, .commit (putBlock false 8), .finishCommit,
        .commit (putBlock false 9), .finishCommit, .commit (putBlock false 10), .finishCommit]).bind (fun σ =>
        (σ.reopen ⟨-1, 0, 1000⟩ σ.dir 1).toOption.bind fun σ₁ =>
          (σ₁.runAll (fun _ _ => True) ([.commit (putBlock false 8), .finishCommit,
            .rewriteSnapshotBackground] ++ replicate 6 .backgroundStep ++
            [.commit (putBlock false 9)])).map fun σ₂ =>
              (σ₂.db.mtree.version, (σ₂.step .finishCommit).map fun σ' => (σ'.phase, σ'.db.mtree.version))) =
      some (3, some (.switched, 4)) := by
    decide
  obtain ⟨σ, hσ, hend⟩ := bind_eq_some_iff.mp hend
  obtain ⟨σ₁, hopen, hend⟩ := bind_eq_some_iff.mp hend
  obtain ⟨σ₂, hσ2, hend⟩ := map_eq_some_iff.mp hend
  obtain ⟨hversion, hend⟩ := Prod.mk.inj hend
  obtain ⟨σ', hstep, hend⟩ := map_eq_some_iff.mp hend
  obtain ⟨hphase, hversion'⟩ := Prod.mk.inj hend
  exact ⟨σ, σ₁, σ₂, σ', Process.Run.init.runAll hσ, Results.toOption_eq_some.mp hopen,
    Process.Run.init.runAll hσ2, hstep, hphase, hversion, hversion'⟩

end CronosStore.Memiavl
