import CronosStore.Memiavl.Crash

/-!
# Old versions

`EarliestVersion` is the version of the first snapshot, kept in a cache that pruning
refreshes. In a database that writes its log synchronously every version from there on can
be loaded by a reader (`time_travel`), if the names of the snapshots can be parsed, pruning is not
between the removal of a snapshot and the refresh of the cache, and no pruning runs between
the listing of a query and its write to the cache. Names are parsed with 31 bits for the
version, which initial versions may exceed (`exists_unparsable_snapshot`), and a query that
overlaps a pruning can write a version to the cache whose snapshot is gone
(`exists_stale_query`).
-/

namespace CronosStore.Memiavl

open Foundation List

/-- The versions after a state of the history, up to the last one, are those of states. -/
theorem History.exists_version [Sha256] {states : List MultiTree} {entries : List WALEntry}
    (h : History 0 states entries) {i : Nat} {s last : MultiTree} (hs : states[i]? = some s)
    (hlast : states[entries.length]? = some last) {v : Int}
    (hnext : nextVersion s.version s.initialVersion ≤ v) (hle : v ≤ last.version) :
    ∃ k b, i < k ∧ states[k]? = some b ∧ b.version = v := by
  have hat := h.atIndex i s hs
  have hatl := h.atIndex _ last hlast
  rw [Nat.zero_add] at hat hatl
  have hiv := h.initialVersion s (mem_of_getElem? hs) last (mem_of_getElem? hlast)
  have hpos := MultiTree.lt_nextVersion s.version s.initialVersion
  have h0 := hat.nonneg
  rw [hat.next] at hnext hpos
  obtain ⟨k, hik, hk, hkl⟩ : ∃ k, i < k ∧ walVersion k s.initialVersion = v ∧ k ≤ entries.length := by
    have hl := hatl.version
    rw [← hiv] at hl
    refine ⟨i + 1 + (v - walVersion (i + 1) s.initialVersion).toNat, by omega, ?_, ?_⟩
    · unfold walVersion at *
      split_ifs at * <;> omega
    · unfold walVersion at *
      split_ifs at * <;> omega
  obtain ⟨b, hb⟩ : ∃ b, states[k]? = some b :=
    ⟨_, getElem?_eq_getElem (by have := h.length; omega)⟩
  refine ⟨k, b, hik, hb, ?_⟩
  obtain ⟨hv, -⟩ := h.atIndex k b hb
  rw [Nat.zero_add, h.initialVersion b (mem_of_getElem? hb) s (mem_of_getElem? hs), hk] at hv
  exact hv.resolve_right fun hz => by omega

/-- The cache is as new as the snapshots. -/
def Prune.Settled : Prune → Prop
  | .removing .. => False
  | .deleting .. => False
  | .finishing => False
  | _ => True

namespace Process

variable {P : Type} [Sha256] [WALCodec P] {σ σ' : Process P} {entries : List WALEntry}

/-- The version of a snapshot that is there, or the first one after it. -/
def Earliest (σ : Process P) (version : Int) : Prop :=
  0 < version ∧ ∃ s ∈ σ.history, σ.dir.Has s.version ∧
    (version = s.version ∨ version = nextVersion s.version s.initialVersion)

/-- What `EarliestVersion` returns in a state: the version in the cache, or the one that a query
has listed and is about to write there. -/
def Returns (σ : Process P) (version : Int) : Prop :=
  0 < version ∧ σ.earliestSnapshotCache = version ∨ .listed version ∈ σ.queries

/-- Names of snapshots can be parsed, and what queries return is right. -/
structure Timely (σ : Process P) : Prop where
  upTo : UpTo (2 ^ 31 - 1) σ
  names : ∀ w, Nameable w → snapshotName w ∈ σ.prune.names → w < 2 ^ 31
  cache : σ.prune.Settled → 0 < σ.earliestSnapshotCache → σ.Earliest σ.earliestSnapshotCache
  listed : ∀ v, .listed v ∈ σ.queries → σ.Earliest v

/-- No step of a pruning is taken while a query has listed the directory and not yet written
to the cache. -/
def Unqueried (σ : Process P) (a : Action) : Prop :=
  a = .pruneStep → ∀ q ∈ σ.queries, q = .missed

instance (σ : Process P) (a : Action) : Decidable (σ.Unqueried a) :=
  inferInstanceAs (Decidable (_ → _))

omit [Sha256] [WALCodec P] in
theorem Earliest.mono {version : Int} (h : σ.Earliest version) (hsub : σ.history ⊆ σ'.history)
    (hhas : ∀ v, σ.dir.Has v → σ'.dir.Has v) : σ'.Earliest version := by
  obtain ⟨hpos, s, hs, hd, hv⟩ := h
  exact ⟨hpos, s, hsub hs, hhas _ hd, hv⟩

theorem exists_firstSnapshotVersion (ho : Ordered σ) (hc : Consistent σ entries)
    (hup : UpTo (2 ^ 31 - 1) σ) : ∃ e, σ.dir.firstSnapshotVersion = .ok e := by
  obtain ⟨versions, hlists, -⟩ := hc.exists_lists
  obtain ⟨t, ht, -, hhas⟩ := ho.dir.current
  have hmem := (hlists.mem_iff hhas.1).mpr hhas.2
  cases versions with
  | nil => cases hmem
  | cons v versions =>
    have hv := hlists.nameable v mem_cons_self
    have hle := hup v ⟨hv, (hlists.mem_iff hv).mp mem_cons_self⟩
    exact ⟨v, hlists.firstSnapshotVersion_ok.mpr ⟨by omega, rfl⟩⟩

theorem earliest_first (hc : Consistent σ entries) {e : Int}
    (he : σ.dir.firstSnapshotVersion = .ok e) : ∃ s ∈ σ.history, σ.dir.Has s.version ∧ s.version = e := by
  obtain ⟨hhas, -⟩ := hc.firstSnapshotVersion he
  obtain ⟨s, hs, rfl⟩ := hc.has hhas
  exact ⟨s, hs, hhas, rfl⟩

theorem earliest_of_firstQueryable (hc : Consistent σ entries) {e : Int}
    (he : σ.firstQueryable = .ok e) : σ.Earliest e := by
  unfold firstQueryable at he
  split at he
  · cases he
  rename_i version hfirst
  obtain ⟨s, hs, hhas, rfl⟩ := earliest_first hc hfirst
  have hiv : σ.db.mtree.initialVersion = s.initialVersion := by
    obtain ⟨live, hlive, hsame⟩ := hc.live
    rw [← hsame.initialVersion]
    exact hc.history.initialVersion live (mem_of_getElem? hlive) s hs
  rw [hiv] at he
  have h0 := hhas.1.1
  by_cases hz : s.version = 0
  · rw [if_pos hz] at he
    have hnext : nextVersion s.version s.initialVersion = e := by
      rw [hz, ← Except.ok.inj he]
      unfold nextVersion
      split_ifs <;> omega
    exact ⟨by have := MultiTree.lt_nextVersion s.version s.initialVersion; omega, s, hs, hhas,
      .inr hnext.symm⟩
  · rw [if_neg hz] at he
    cases he
    exact ⟨by omega, s, hs, hhas, .inl rfl⟩

theorem Timely.pruneStep (h : Timely σ) (ho : Ordered σ) (hc : Consistent σ entries)
    (hs : σ.pruneStep = some σ') (hup : UpTo (2 ^ 31 - 1) σ')
    (hlisted : ∀ v, .listed v ∈ σ'.queries → σ'.Earliest v) : Timely σ' := by
  unfold Process.pruneStep at hs
  cases hp : σ.prune with
  | idle => simp only [hp] at hs; cases hs
  | starting =>
    have hcache := h.cache (by rw [hp]; trivial)
    simp only [hp] at hs
    split at hs
    · cases hs
      exact ⟨hup, fun w _ hw => absurd hw not_mem_nil, fun _ => hcache, hlisted⟩
    · cases hs
      exact ⟨hup, fun w _ hw => absurd hw not_mem_nil, fun _ => hcache, hlisted⟩
  | listing current =>
    simp only [hp] at hs
    cases hs
    refine ⟨hup, fun w hw hmem => ?_, False.elim, hlisted⟩
    have := h.upTo w ⟨hw, mem_reverse.mp hmem⟩
    omega
  | removing current counter names =>
    have hnames := h.names
    simp only [hp, Prune.names] at hnames
    cases names with
    | nil =>
      simp only [hp] at hs
      cases hs
      exact ⟨hup, fun w _ hw => absurd hw not_mem_nil, False.elim, hlisted⟩
    | cons name names =>
      have hrest : ∀ w, Nameable w → snapshotName w ∈ names → w < 2 ^ 31 := fun w hw hmem =>
        hnames w hw (mem_cons_of_mem _ hmem)
      simp only [hp] at hs
      cases hs
      obtain ⟨hsn, hparse, -⟩ | ⟨c, heq⟩ | ⟨version, dir, -, -, -, -, heq⟩ :=
        pruneName_cases σ current counter name names
      · -- the names of the listing can be parsed
        obtain ⟨w, hw, rfl⟩ := ho.dir.prune.names name (by rw [hp]; exact mem_cons_self) hsn
        rw [parseVersion_snapshotName hw, if_pos (hnames w hw mem_cons_self)] at hparse
        cases hparse
      · rw [heq] at hup hlisted ⊢
        exact ⟨hup, hrest, False.elim, hlisted⟩
      · rw [heq] at hup hlisted ⊢
        exact ⟨hup, hrest, False.elim, hlisted⟩
  | deleting tmpName current counter names =>
    have hnames := h.names
    simp only [hp, Prune.names] at hnames
    simp only [hp] at hs
    cases hs
    exact ⟨hup, hnames, False.elim, hlisted⟩
  | finishing =>
    obtain ⟨e, he⟩ := exists_firstSnapshotVersion ho hc h.upTo
    simp only [hp, he] at hs
    cases hs
    obtain ⟨s, hs, hhas, hv⟩ := earliest_first hc he
    refine ⟨hup, fun w _ hw => ?_, fun _ hpos => ⟨hpos, s, hs, hhas, .inl hv.symm⟩, hlisted⟩
    simp only at hw
    split_ifs at hw <;> cases hw
  | truncating earliest =>
    have hcache := h.cache (by rw [hp]; trivial)
    simp only [hp] at hs
    split at hs
    · cases hs
      exact ⟨hup, fun w _ hw => absurd hw not_mem_nil, fun _ => hcache, hlisted⟩
    · cases hs
      exact ⟨hup, fun w _ hw => absurd hw not_mem_nil, fun _ => hcache, hlisted⟩

theorem Timely.step (h : Timely σ) (ho : Ordered σ) (hc : Consistent σ entries) {a : Action}
    (hG : σ.PublishesUpTo (2 ^ 31 - 1) a) (hq : σ.Unqueried a) (hs : σ.step a = some σ') : Timely σ' := by
  have hup := h.upTo.step ho hc hG hs
  have hframe := step_effect ho hs
  by_cases hpr : a = .pruneStep
  · subst hpr
    refine h.pruneStep ho hc hs hup fun v hv => ?_
    cases hq rfl _ (hframe.queries nofun v hv)
  have hhas (v : Int) := (step_has ho hc hs v).2 hpr
  have hmono {v : Int} (hv : σ.Earliest v) : σ'.Earliest v := hv.mono hframe.history.subset hhas
  -- pruning is where it was, or it starts
  have hnames : ∀ w, Nameable w → snapshotName w ∈ σ'.prune.names → w < 2 ^ 31 := by
    rcases hframe.prune hpr with heq | ⟨-, heq⟩
    · rw [heq]
      exact h.names
    · rw [heq]
      exact fun w _ hw => absurd hw not_mem_nil
  have hsettled : σ'.prune.Settled → σ.prune.Settled := by
    rcases hframe.prune hpr with heq | ⟨heq, -⟩
    · rw [heq]
      exact id
    · rw [heq]
      exact fun _ => trivial
  have hcache : (∀ i, a ≠ .earliestStore i) → σ'.prune.Settled → 0 < σ'.earliestSnapshotCache →
      σ'.Earliest σ'.earliestSnapshotCache := fun hne hset hpos => by
    rw [hframe.cache hpr hne] at hpos ⊢
    exact hmono (h.cache (hsettled hset) hpos)
  have hlisted (hne : ∀ i, a ≠ .earliestList i) (v : Int) (hv : .listed v ∈ σ'.queries) :
      σ'.Earliest v := hmono (h.listed v (hframe.queries hne v hv))
  cases a with
  | earliestList i =>
    refine ⟨hup, hnames, hcache nofun, fun v hv => ?_⟩
    obtain ⟨version, hversion, rfl⟩ | rfl := earliestList_cases hs
    · rcases mem_or_eq_of_mem_set hv with hv | heq
      · exact hmono (h.listed v hv)
      · cases heq
        exact hmono (earliest_of_firstQueryable hc hversion)
    · exact hmono (h.listed v (mem_of_mem_eraseIdx hv))
  | earliestStore i =>
    refine ⟨hup, hnames, fun _ _ => ?_, hlisted nofun⟩
    obtain ⟨version, hversion, rfl⟩ := earliestStore_eq hs
    exact hmono (h.listed version hversion)
  | _ => exact ⟨hup, hnames, hcache nofun, hlisted nofun⟩

omit [Sha256] in
theorem Timely.successor (h : Timely σ) {d : Directory P} {m b : MultiTree} {j : Nat} (hd : σ.Stopped d)
    (hs : Successor σ entries d σ' m b j) : Timely σ' := by
  have hup := h.upTo.successor hd hs
  obtain ⟨config, heq⟩ := hs.eq
  rw [heq] at hup ⊢
  exact ⟨hup, fun w _ hw => absurd hw not_mem_nil, fun _ hpos => absurd hpos (lt_irrefl _),
    fun v hv => absurd hv not_mem_nil⟩

variable {config : Config} {t : MultiTree}

/-- Rewrites run one at a time and at versions that can be parsed, and pruning and queries do not
overlap. -/
def TimeSafe (σ : Process P) (a : Action) : Prop :=
  σ.OneRewrite a ∧ σ.PublishesUpTo (2 ^ 31 - 1) a ∧ σ.Unqueried a

instance (σ : Process P) (a : Action) : Decidable (σ.TimeSafe a) :=
  inferInstanceAs (Decidable (_ ∧ _ ∧ _))

theorem timely_init (ht : Base t) (h31 : t.version < 2 ^ 31) : Timely (init config t : Process P) := by
  refine ⟨fun v hv => ?_, fun w _ hw => absurd hw not_mem_nil, fun _ hpos => absurd hpos (lt_irrefl _),
    fun v hv => absurd hv not_mem_nil⟩
  obtain ⟨s, hs, rfl⟩ := (consistent_init config ht).has hv
  rw [mem_singleton.mp hs]
  show t.version ≤ _
  omega

theorem Consistent.lastIndex_of_sync (h : Consistent σ entries) (hsync : σ.config.walChanSize < 0) :
    σ.dir.wal.lastIndex = entries.length := by
  have hlen := h.log.length
  have hcap := h.capacity
  rw [h.sync hsync, nil_append] at hlen
  omega

/-- In every run, while the log is written synchronously: every version from what
`EarliestVersion` returns to `Version` can be loaded by a reader, and the trees are those that the
database had after that commit. The log has the entries after every snapshot that is left. -/
theorem time_travel (ht : Base t) (h31 : t.version < 2 ^ 31) (hrun : Run TimeSafe (init config t) σ)
    (hsync : σ.config.walChanSize < 0) {e v : Int} (he : σ.Returns e)
    (hset : σ.prune.Settled ∨ .listed e ∈ σ.queries) (hev : e ≤ v) (hvl : v ≤ σ.db.mtree.version) :
    (∃ m, ∃ b ∈ σ.history, σ.dir.load ⟨v.toNat, true, false⟩ = .ok (m, σ.dir) ∧ m.version = v ∧
      b.version = v ∧ b.Same m) ∧
    ∀ i (s : MultiTree), σ.history[i]? = some s → snapshotName s.version ∈ σ.dir.names →
      ∀ k, i < k → k < σ.history.length → (σ.dir.wal.read k).isSome := by
  have hc0 := consistent_init (P := P) config ht
  have ho0 := ordered_init (P := P) config ht
  obtain ⟨entries, hc, ho⟩ := hrun.ordered hc0 ho0 fun _ _ hG => hG.1
  have htime : Timely σ := hrun.keeps hc0 ho0 (fun _ _ hG => hG.1) (timely_init ht h31)
    (fun _ _ _ _ hc ho hI hG hs => hI.step ho hc hG.2.1 hG.2.2 hs)
    fun _ _ _ _ _ _ _ hd hs _ _ hI => hI.successor hd hs
  have hlast := hc.lastIndex_of_sync hsync
  have hsound := ho.sound hc (fun v hv => by have := htime.upTo v hv; simp only [maxUint32]; omega)
    (.refl σ)
  refine ⟨?_, fun i s hs hn k hik hk => ?_⟩
  · obtain ⟨hpos, s, hs, hhas, hes⟩ : σ.Earliest e := by
      rcases hset with hset | hlisted
      · rcases he with ⟨hpos, rfl⟩ | hlisted
        · exact htime.cache hset hpos
        · exact htime.listed e hlisted
      · exact htime.listed e hlisted
    obtain ⟨i, hi⟩ := mem_iff_getElem?.mp hs
    obtain ⟨live, hlive, hsame⟩ := hc.live
    rw [← hsame.version] at hvl
    -- the version is that of a state after the snapshot
    obtain ⟨k, b, hk, hb, hbv⟩ : ∃ k b, i ≤ k ∧ σ.history[k]? = some b ∧ b.version = v := by
      by_cases heq : v = s.version
      · exact ⟨i, s, le_rfl, hi, heq.symm⟩
      · have hnext : nextVersion s.version s.initialVersion ≤ v := by
          rcases hes with rfl | rfl
          · unfold nextVersion
            split_ifs <;> omega
          · exact hev
        obtain ⟨k, b, hik, hb⟩ := hc.history.exists_version hi hlive hnext hvl
        exact ⟨k, b, hik.le, hb⟩
    obtain ⟨versions, hlists, hstates⟩ := hc.exists_lists
    have hparse : ∀ w ∈ versions, w < 2 ^ 31 := fun w hw => by
      have := htime.upTo w ⟨hlists.nameable w hw, (hlists.mem_iff (hlists.nameable w hw)).mp hw⟩
      omega
    have hsv : s.version ≤ v := by
      rcases hes with rfl | rfl
      · exact hev
      · exact (MultiTree.lt_nextVersion _ _).le.trans hev
    have hv0 : ((v.toNat : Nat) : Int) = v := Int.toNat_of_nonneg (by omega)
    have hkl : k ≤ σ.dir.wal.lastIndex := by
      have := hc.history.length
      obtain ⟨hlt, -⟩ := List.getElem?_eq_some_iff.mp hb
      omega
    obtain ⟨m, hm, hbm⟩ := hsound.load_target hlists hstates hparse hb (hbv.trans hv0.symm)
      (by omega) hkl ((hlists.mem_iff hhas.1).mpr hhas.2) (hv0 ▸ hsv)
    exact ⟨m, b, mem_of_getElem? hb, hm, hbm.version ▸ hbv, hbv, hbm⟩
  · rw [IndexedLog.read_isSome_iff]
    have hwin := hsound.window i s hs hn
    have := hc.history.length
    omega

end Process

/-- A query has filled the cache, the snapshot of version 1 was written in the background, the
trees were switched in the commit of version 2, and pruning has removed the first snapshot and cut
the log. -/
theorem time_travel_pruned :
    ∃ (σ : Process WALEntry) (m : MultiTree), σ.dir.names = [snapshotName 1] ∧
      σ.dir.wal.dropped = 1 ∧ σ.Returns 1 ∧
      @Directory.load _ Sha256.zero _ σ.dir ⟨2, true, false⟩ = .ok (m, σ.dir) ∧ m.version = 2 := by
  let _ := Sha256.zero
  have hend : ((Process.init ⟨-1, 0, 1⟩ (.fresh 0) : Process WALEntry).runAll Process.TimeSafe
      ([.earliestLoad, .earliestList 0, .earliestStore 0, .commit (putBlock true 7), .finishCommit]
        ++ replicate 6 .backgroundStep ++ [.commit (putBlock false 8), .finishCommit, .startPrune]
        ++ replicate 8 .pruneStep)).map (fun σ =>
      (σ.dir.names, σ.dir.wal.dropped, σ.earliestSnapshotCache, σ.prune, σ.db.mtree.version,
        σ.config.walChanSize)) = some ([snapshotName 1], 1, 1, .idle, 2, -1) := by
    decide
  obtain ⟨σ, hrun, hend⟩ := Process.exists_run hend
  simp only [Prod.mk.injEq] at hend
  obtain ⟨hnames, hdropped, hcache, hprune, hv, hsync⟩ := hend
  have he : σ.Returns 1 := .inl ⟨by decide, hcache⟩
  obtain ⟨⟨m, b, -, hm, hmv, -⟩, -⟩ := Process.time_travel (Process.base_fresh (by decide)) (by decide)
    hrun (by rw [hsync]; decide) he (.inl (by rw [hprune]; trivial)) (show (1 : Int) ≤ 2 by decide) hv.ge
  exact ⟨σ, m, hnames, hdropped, he, hm, hmv⟩

/-- A chain that starts at version `2 ^ 31`: after one block and a snapshot of it that is both
`EarliestVersion` and `Version`, but no reader can load it, since the name of the snapshot
cannot be parsed. -/
theorem exists_unparsable_snapshot :
    ∃ σ : Process WALEntry,
      @Process.Run _ Sha256.zero _ (fun _ _ => True) (.init ⟨-1, 0, 1000⟩ (.fresh (2 ^ 31))) σ ∧
      σ.prune = .idle ∧ σ.Returns (2 ^ 31) ∧ σ.db.mtree.version = 2 ^ 31 ∧
      @Directory.load _ Sha256.zero _ σ.dir ⟨2 ^ 31, true, false⟩ =
        .error (.invalidSnapshotName (snapshotName (2 ^ 31))) := by
  let _ := Sha256.zero
  have hend : ((Process.init ⟨-1, 0, 1000⟩ (.fresh (2 ^ 31)) : Process WALEntry).runAll (fun _ _ => True)
      ([.commit (putBlock true 7), .finishCommit] ++ Action.rewritten ++ [.earliestLoad,
        .earliestList 0])).map (fun σ =>
      (σ.prune, σ.queries, σ.db.mtree.version,
        Results.errorOf (σ.dir.load ⟨2 ^ 31, true, false⟩))) =
      some (.idle, [.listed (2 ^ 31)], 2 ^ 31, some (.invalidSnapshotName (snapshotName (2 ^ 31)))) := by
    decide
  obtain ⟨σ, hrun, hend⟩ := Process.exists_run hend
  simp only [Prod.mk.injEq] at hend
  obtain ⟨hprune, hqueries, hv, hload⟩ := hend
  exact ⟨σ, hrun, hprune, .inr (hqueries ▸ mem_singleton_self _), hv, Results.errorOf_eq_some.mp hload⟩

/-- A query lists the first snapshot, pruning removes it and writes version 2 to the cache, and
then the query writes version 1 there. -/
theorem exists_stale_query :
    ∃ σ : Process WALEntry,
      @Process.Run _ Sha256.zero _ (fun σ a => σ.OneRewrite a ∧ σ.PublishesUpTo (2 ^ 31 - 1) a)
        (.init ⟨-1, 0, 2⟩ (.fresh 0)) σ ∧
      σ.prune = .idle ∧ σ.earliestSnapshotCache = 1 ∧
      @Directory.load _ Sha256.zero _ σ.dir ⟨1, true, false⟩ = .error (.targetPruned 1) := by
  let _ := Sha256.zero
  have hend : ((Process.init ⟨-1, 0, 2⟩ (.fresh 0) : Process WALEntry).runAll
      (fun σ a => σ.OneRewrite a ∧ σ.PublishesUpTo (2 ^ 31 - 1) a)
      ([.commit (putBlock true 7), .finishCommit, .commit (putBlock false 8), .finishCommit] ++
        replicate 6 .backgroundStep ++ [.commit (putBlock false 9), .finishCommit, .earliestLoad,
        .earliestList 0, .startPrune] ++ replicate 8 .pruneStep ++ [.earliestStore 0])).map (fun σ =>
      (σ.prune, σ.earliestSnapshotCache,
        Results.errorOf (σ.dir.load ⟨1, true, false⟩))) = some (.idle, 1, some (.targetPruned 1)) := by
    decide
  obtain ⟨σ, hrun, hend⟩ := Process.exists_run hend
  simp only [Prod.mk.injEq] at hend
  obtain ⟨hprune, hcache, hload⟩ := hend
  exact ⟨σ, hrun, hprune, hcache, Results.errorOf_eq_some.mp hload⟩

end CronosStore.Memiavl
