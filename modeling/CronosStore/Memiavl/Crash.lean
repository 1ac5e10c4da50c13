import CronosStore.Memiavl.Reopen

/-!
# What a process leaves behind

A process can stop at any point; what it leaves is its directory, with some of the batch it
was writing in the log, and temporary directories in any state. The directory is sound if
rewrites run one at a time (`Ordered.sound`). `Load` then gives the version of the link or
the last version of the log, whichever is later. The next entry is accepted by the log only
if it is the latter, and a log that is written asynchronously can be behind the link.
-/

namespace CronosStore.Memiavl

open Foundation Directory List

namespace Process

variable {P : Type} [Sha256] [WALCodec P] {σ σ' : Process P} {entries : List WALEntry}

/-! ## What a step does to the directory -/

def moved (σ : Process P) : Action → Option Publication
  | .foregroundStep => σ.foreground
  | .backgroundStep => σ.background.publication
  | _ => none

omit [Sha256] [WALCodec P] in
theorem startBackground_eq (σ : Process P) :
    ∃ background, σ.startBackground = { σ with background := background } := by
  unfold startBackground
  split
  · exact ⟨_, rfl⟩
  · exact ⟨σ.background, rfl⟩

omit [Sha256] [WALCodec P] in
theorem rewriteIfApplicable_eq (σ : Process P) :
    ∃ background, σ.rewriteIfApplicable = { σ with background := background } := by
  unfold rewriteIfApplicable
  split_ifs
  · exact startBackground_eq σ
  · exact ⟨σ.background, rfl⟩

variable {a : Action} {d : Directory P}

/-- A step works on the log, goes on with a publication, deletes a temporary directory or
retires a snapshot. -/
def Moves (σ : Process P) (a : Action) (dir : Directory P) : Prop :=
  (∃ wal, dir = { σ.dir with wal := wal } ∧ σ.dir.wal.lastIndex ≤ wal.lastIndex) ∨
  (∃ p, σ.moved a = some p ∧ ((∃ p', p.step σ.dir = .more p' dir) ∨ p.step σ.dir = .done dir)) ∨
  (∃ name, dir = σ.dir.removeAll (name ++ tmpSuffix)) ∨
  a = .pruneStep ∧ ∃ v, σ.dir.rename (snapshotName v) (snapshotName v ++ tmpSuffix) = some dir

structure Effect (σ : Process P) (a : Action) (σ' : Process P) : Prop where
  dir : σ.Moves a σ'.dir
  history : σ.history <+: σ'.history
  prune : a ≠ .pruneStep → σ'.prune = σ.prune ∨ σ.prune = .idle ∧ σ'.prune = .starting
  cache : a ≠ .pruneStep → (∀ i, a ≠ .earliestStore i) →
    σ'.earliestSnapshotCache = σ.earliestSnapshotCache
  queries : (∀ i, a ≠ .earliestList i) → ∀ v, .listed v ∈ σ'.queries → .listed v ∈ σ.queries

theorem step_effect (ho : Ordered σ) (hs : σ.step a = some σ') : Effect σ a σ' := by
  have keep (h : (σ'.history, σ'.prune, σ'.earliestSnapshotCache, σ'.queries) =
      (σ.history, σ.prune, σ.earliestSnapshotCache, σ.queries)) (hdir : σ.Moves a σ'.dir) : Effect σ a σ' := by
    simp only [Prod.mk.injEq] at h
    exact ⟨hdir, ⟨[], by simp [h.1]⟩, fun _ => .inl h.2.1, fun _ _ => h.2.2.1, fun _ _ hv => h.2.2.2 ▸ hv⟩
  have same (h : (σ'.history, σ'.prune, σ'.earliestSnapshotCache, σ'.queries) =
      (σ.history, σ.prune, σ.earliestSnapshotCache, σ.queries)) (hdir : σ'.dir = σ.dir) : Effect σ a σ' :=
    keep h (.inl ⟨σ.dir.wal, hdir, le_rfl⟩)
  cases a with
  | commit block =>
    obtain ⟨db, wal, walChan, batch, -, -, hl, rfl⟩ := commit_cases hs
    exact ⟨.inl ⟨wal, rfl, hl⟩, ⟨[db.mtree], rfl⟩, fun _ => .inl rfl, fun _ _ => rfl, fun _ _ => id⟩
  | finishCommit =>
    obtain ⟨-, ⟨m, m', m'', -, -, -, -, rfl⟩ | ⟨background, -, rfl | rfl⟩⟩ := finishCommit_cases hs
    · exact same rfl rfl
    · exact same rfl rfl
    · obtain ⟨bg, heq⟩ := rewriteIfApplicable_eq { σ with phase := .idle, background := background }
      rw [heq] at same ⊢
      exact same rfl rfl
  | startPrune =>
    suffices h : ∃ bg, σ' = { σ with phase := .idle, prune := .starting, background := bg } by
      obtain ⟨-, hidle, -⟩ := startPrune_cases hs
      obtain ⟨bg, rfl⟩ := h
      exact ⟨.inl ⟨_, rfl, le_rfl⟩, prefix_rfl, fun _ => .inr ⟨hidle, rfl⟩, fun _ _ => rfl, fun _ _ => id⟩
    obtain ⟨-, -, rfl | rfl⟩ := startPrune_cases hs
    · exact ⟨_, rfl⟩
    · exact rewriteIfApplicable_eq _
  | writeBatch =>
    simp only [step, writeBatch] at hs
    split_ifs at hs
    split at hs <;> cases hs
    · exact same rfl rfl
    · rename_i wal hw
      have := (IndexedLog.writeBatch_eq_some hw).2
      exact keep rfl (.inl ⟨wal, rfl, by omega⟩)
  | abandonSwitch | foregroundFail | backgroundFail =>
    simp only [step, abandonSwitch, foregroundFail, backgroundFail] at hs
    split at hs <;> cases hs
    first | exact same rfl rfl | exact keep rfl (.inr (.inr (.inl ⟨_, rfl⟩)))
  | receive _ | failWriter | rewriteSnapshot =>
    simp only [step, receive] at hs
    split_ifs at hs
    cases hs
    exact same rfl rfl
  | foregroundStep =>
    simp only [step, foregroundStep] at hs
    split at hs
    · cases hs
    · rename_i p hp
      split at hs <;> cases hs <;> rename_i hstep
      · exact keep rfl (.inr (.inl ⟨p, hp, .inl ⟨_, hstep⟩⟩))
      · exact keep rfl (.inr (.inl ⟨p, hp, .inr hstep⟩))
      · exact same rfl (Publication.step_failed hstep)
  | rewriteSnapshotBackground =>
    simp only [step] at hs
    split_ifs at hs
    cases hs
    obtain ⟨bg, heq⟩ := startBackground_eq σ
    rw [heq] at same ⊢
    exact same rfl rfl
  | backgroundStep =>
    simp only [step, backgroundStep] at hs
    split at hs
    · rename_i p hp
      have hp : σ.moved .backgroundStep = some p := by rw [moved, hp]; rfl
      split at hs <;> cases hs <;> rename_i hstep
      · exact keep rfl (.inr (.inl ⟨p, hp, .inl ⟨_, hstep⟩⟩))
      · exact keep rfl (.inr (.inl ⟨p, hp, .inr hstep⟩))
      · exact same rfl (Publication.step_failed hstep)
    · split at hs
      · cases hs
        exact same rfl rfl
      · split at hs <;> cases hs <;> exact same rfl rfl
    · split at hs <;> cases hs <;> exact same rfl rfl
    · cases hs
  | pruneStep =>
    have prune (h : (σ'.history, σ'.queries) = (σ.history, σ.queries)) (hdir : σ.Moves .pruneStep σ'.dir) :
        Effect σ .pruneStep σ' := by
      obtain ⟨hhist, hqueries⟩ := Prod.mk.inj h
      exact ⟨hdir, ⟨[], by simp [hhist]⟩, fun hne => absurd rfl hne, fun hne => absurd rfl hne,
        fun _ _ hv => hqueries ▸ hv⟩
    have still (h : (σ'.history, σ'.queries) = (σ.history, σ.queries)) (hdir : σ'.dir = σ.dir) :=
      prune h (.inl ⟨σ.dir.wal, hdir, le_rfl⟩)
    simp only [step, pruneStep] at hs
    split at hs
    · cases hs
    · split at hs <;> cases hs <;> exact still rfl rfl
    · cases hs
      exact still rfl rfl
    · rename_i current counter name names _
      cases hs
      obtain ⟨-, -, heq⟩ | ⟨c, heq⟩ | ⟨version, dir, -, -, -, hr, heq⟩ :=
        pruneName_cases σ current counter name names
      · exact still (by rw [heq]) (by rw [heq])
      · exact still (by rw [heq]) (by rw [heq])
      · exact prune (by rw [heq]) (.inr (.inr (.inr ⟨rfl, version, by rw [heq]; exact hr⟩)))
    · cases hs
      exact still rfl rfl
    · rename_i hp
      cases hs
      obtain ⟨name, rfl⟩ := ho.dir.prune.deleting _ _ _ _ hp
      exact prune rfl (.inr (.inr (.inl ⟨name, rfl⟩)))
    · split at hs <;> cases hs <;> exact still rfl rfl
    · split at hs <;> cases hs
      · exact still rfl rfl
      · rename_i wal hwal
        exact prune rfl (.inl ⟨wal, rfl, (IndexedLog.truncateFront_eq_some hwal).1.ge⟩)
  | earliestLoad =>
    obtain rfl | rfl := earliestLoad_cases hs
    · exact same rfl rfl
    · refine ⟨.inl ⟨_, rfl, le_rfl⟩, prefix_rfl, fun _ => .inl rfl, fun _ _ => rfl, fun _ v hv => ?_⟩
      exact (mem_append.mp hv).resolve_right fun hm => by cases mem_singleton.mp hm
  | earliestList i =>
    suffices h : ∃ queries, σ' = { σ with queries := queries } by
      obtain ⟨queries, rfl⟩ := h
      exact ⟨.inl ⟨_, rfl, le_rfl⟩, prefix_rfl, fun _ => .inl rfl, fun _ _ => rfl, fun hne => absurd rfl (hne i)⟩
    obtain ⟨version, -, rfl⟩ | rfl := earliestList_cases hs <;> exact ⟨_, rfl⟩
  | earliestStore i =>
    obtain ⟨version, -, rfl⟩ := earliestStore_eq hs
    exact ⟨.inl ⟨_, rfl, le_rfl⟩, prefix_rfl, fun _ => .inl rfl, fun _ hne => absurd rfl (hne i),
      fun _ _ hv => mem_of_mem_eraseIdx hv⟩

/-! ## Conditions on runs -/

def PublishesUpTo (bound : Int) (σ : Process P) (a : Action) : Prop :=
  ∀ p ∈ σ.moved a, p.mtree.version ≤ bound

instance (bound : Int) (σ : Process P) (a : Action) : Decidable (σ.PublishesUpTo bound a) :=
  inferInstanceAs (Decidable (∀ p ∈ σ.moved a, _))

def LinksLogged (σ : Process P) (a : Action) : Prop :=
  ∀ p ∈ σ.moved a, p.stage = .link → p.mtree.logIndex ≤ σ.dir.wal.lastIndex

instance (σ : Process P) (a : Action) : Decidable (σ.LinksLogged a) :=
  inferInstanceAs (Decidable (∀ p ∈ σ.moved a, _))

def UpTo (bound : Int) (σ : Process P) : Prop := ∀ v, σ.dir.Has v → v ≤ bound

def Logged (σ : Process P) : Prop :=
  ∃ t ∈ σ.history, σ.dir.current = some (snapshotName t.version) ∧ t.logIndex ≤ σ.dir.wal.lastIndex

theorem Consistent.moved (h : Consistent σ entries) {p : Publication}
    (hp : σ.moved a = some p) : Recorded σ.history p.mtree := by
  cases a <;> try cases hp
  · exact h.foreground p hp
  · cases hbg : σ.background <;> simp only [moved, Rewrite.publication, hbg] at hp <;> cases hp
    exact h.background _ (by rw [hbg]; rfl)

omit [Sha256] [WALCodec P] in
theorem Ordered.moved (h : Ordered σ) {p : Publication} (hp : σ.moved a = some p) :
    p.Fits σ.dir := by
  cases a <;> try cases hp
  · exact h.foreground p hp
  · exact h.background p hp

/-- Publications add snapshots, pruning takes them away, and nothing else does either. -/
theorem step_has (ho : Ordered σ) (hc : Consistent σ entries) (hs : σ.step a = some σ')
    (v : Int) : (σ'.dir.Has v → σ.dir.Has v ∨ ∃ p, σ.moved a = some p ∧ v = p.mtree.version) ∧
      (a ≠ .pruneStep → σ.dir.Has v → σ'.dir.Has v) := by
  obtain ⟨wal, hdir, -⟩ | ⟨p, hp, hstep⟩ | ⟨name, hdir⟩ | ⟨rfl, w, hr⟩ := (step_effect ho hs).dir
  · rw [hdir]
    exact ⟨.inl, fun _ => id⟩
  · rcases hstep with ⟨p', hstep⟩ | hstep
    · obtain ⟨t, ht, hsame⟩ := hc.moved hp
      have hmore := Publication.has_more (hsame.version ▸ hc.history.nameable ht) hstep v
      refine ⟨fun hv => (hmore.2 hv).imp_right fun heq => ⟨p, hp, heq⟩, fun _ => hmore.1⟩
    · obtain ⟨-, name, -, hdir⟩ := Publication.step_done hstep
      rw [hdir]
      exact ⟨.inl, fun _ => id⟩
  · rw [hdir]
    exact ⟨fun hv => .inl (has_removeAll_tmp.mp hv),
      fun _ => has_removeAll_tmp.mpr⟩
  · obtain ⟨content, -, hdir⟩ := rename_eq_some hr
    refine ⟨fun hv => .inl ?_, fun hne => absurd rfl hne⟩
    rw [hdir] at hv
    have hmem := (mem_names_put.mp hv.2).resolve_left snapshotName_ne_of_tmp
    exact ⟨hv.1, (mem_names_removeAll.mp hmem).1⟩

theorem UpTo.step {bound : Int} (h : UpTo bound σ) (ho : Ordered σ) (hc : Consistent σ entries)
    (hG : σ.PublishesUpTo bound a) (hs : σ.step a = some σ') : UpTo bound σ' := by
  intro v hv
  rcases (step_has ho hc hs v).1 hv with hv | ⟨p, hp, rfl⟩
  · exact h v hv
  · exact hG p hp

omit [Sha256] in
theorem UpTo.successor {bound : Int} (h : UpTo bound σ) {m b : MultiTree} {j : Nat} (hd : σ.Stopped d)
    (hs : Successor σ entries d σ' m b j) : UpTo bound σ' :=
  fun v hv => h v ((hs.has_iff hd).mp hv)

/-- After a stop no snapshot is newer than the log. -/
theorem Successor.logged {m b : MultiTree} {j : Nat} (hs : Successor σ entries d σ' m b j)
    (hc : Consistent σ' (entries.take j)) (ho : Ordered σ') : Logged σ' := by
  obtain ⟨t, ht, hcur, -⟩ := ho.dir.current
  refine ⟨t, ht, hcur, ?_⟩
  obtain ⟨i, hi⟩ := mem_iff_getElem?.mp ht
  have hat := hc.history.atIndex i t hi
  rw [Nat.zero_add] at hat
  obtain ⟨hlt, -⟩ := List.getElem?_eq_some_iff.mp hi
  have hlen := hc.history.length
  rw [length_take] at hlen
  obtain ⟨config, rfl⟩ := hs.eq
  rw [hat.logIndex_eq, show (opened config d.clean m _ : Process P).dir.wal.lastIndex = j from hs.lastIndex]
  omega

theorem Logged.step (h : Logged σ) (ho : Ordered σ) (hc : Consistent σ entries)
    (hG : σ.LinksLogged a) (hs : σ.step a = some σ') : Logged σ' := by
  have hsub := (step_effect ho hs).history.subset
  obtain ⟨t, ht, hcur, hle⟩ := h
  obtain ⟨wal, hdir, hlast⟩ | ⟨p, hp, hstep⟩ | ⟨name, hdir⟩ | ⟨-, w, hr⟩ := (step_effect ho hs).dir
  · exact ⟨t, hsub ht, by rw [hdir]; exact hcur, by rw [hdir]; exact hle.trans hlast⟩
  · rcases hstep with ⟨p', hstep⟩ | hstep
    · obtain ⟨u, hu, hsame⟩ := hc.moved hp
      obtain ⟨-, hcur', hwal⟩ := (ho.moved hp).more (hsame.version ▸ hc.history.nameable hu) hstep
      exact ⟨t, hsub ht, hcur'.trans hcur, hwal ▸ hle⟩
    · -- the link moves
      obtain ⟨u, hu, hsame⟩ := hc.moved hp
      have hst := (Publication.step_done hstep).1
      obtain ⟨hdir, -⟩ := (ho.moved hp).done hstep
      refine ⟨u, hsub hu, ?_, ?_⟩
      · rw [hdir, hsame.version]
        rfl
      · rw [hdir, MultiTree.logIndex, hsame.version, hsame.initialVersion]
        exact hG p hp hst
  · exact ⟨t, hsub ht, by rw [hdir]; exact hcur, by rw [hdir]; exact hle⟩
  · obtain ⟨content, -, hdir⟩ := rename_eq_some hr
    exact ⟨t, hsub ht, by rw [hdir]; exact hcur, by rw [hdir]; exact hle⟩

section Run

variable {G : Process P → Action → Prop} {σ0 : Process P} {entries0 : List WALEntry}

theorem Run.ordered (h : Run G σ0 σ) (hc0 : Consistent σ0 entries0) (ho0 : Ordered σ0)
    (hG : ∀ σ a, G σ a → σ.OneRewrite a) : ∃ entries, Consistent σ entries ∧ Ordered σ := by
  induction h with
  | init => exact ⟨entries0, hc0, ho0⟩
  | step _ hmeets hs ih =>
    obtain ⟨entries, hc, ho⟩ := ih
    obtain ⟨new, hc'⟩ := hc.step hs
    exact ⟨entries ++ new, hc', ho.step hc (hG _ _ hmeets) hs⟩
  | reopen _ hd hopen hres ih =>
    obtain ⟨entries, hc, ho⟩ := ih
    obtain ⟨m, b, j, hs⟩ := hc.successor hd hopen hres
    exact ⟨entries.take j, hs.consistent hc hd, hs.ordered ho hd⟩

theorem Run.keeps (h : Run G σ0 σ) (hc0 : Consistent σ0 entries0) (ho0 : Ordered σ0)
    (hG : ∀ σ a, G σ a → σ.OneRewrite a) {I : Process P → Prop} (h0 : I σ0)
    (hstep : ∀ σ σ' a entries, Consistent σ entries → Ordered σ → I σ → G σ a →
      σ.step a = some σ' → I σ')
    (hreopen : ∀ σ σ' d entries m b j, σ.Stopped d → Successor σ entries d σ' m b j →
      Consistent σ' (entries.take j) → Ordered σ' → I σ → I σ') : I σ := by
  induction h with
  | init => exact h0
  | step run hmeets hs ih =>
    obtain ⟨entries, hc, ho⟩ := run.ordered hc0 ho0 hG
    exact hstep _ _ _ entries hc ho ih hmeets hs
  | reopen run hd hopen hres ih =>
    obtain ⟨entries, hc, ho⟩ := run.ordered hc0 ho0 hG
    obtain ⟨m, b, j, hs⟩ := hc.successor hd hopen hres
    exact hreopen _ _ _ entries m b j hd hs (hs.consistent hc hd) (hs.ordered ho hd) ih

theorem Run.upTo (h : Run G σ0 σ) (hc0 : Consistent σ0 entries0) (ho0 : Ordered σ0) {bound : Int}
    (hG : ∀ σ a, G σ a → σ.OneRewrite a ∧ σ.PublishesUpTo bound a) (h0 : UpTo bound σ0) : UpTo bound σ :=
  h.keeps hc0 ho0 (fun σ a hm => (hG σ a hm).1) h0
    (fun _ _ _ _ hc ho hI hm hs => hI.step ho hc (hG _ _ hm).2 hs)
    fun _ _ _ _ _ _ _ hd hs _ _ hI => hI.successor hd hs

end Run

theorem Ordered.sound (ho : Ordered σ) (hc : Consistent σ entries) (hb : UpTo maxUint32 σ)
    (h : σ.Stopped d) : d.Sound σ.history entries := by
  obtain ⟨queue, hlog, hdrop, -⟩ := h.log hc
  have hhas {t : MultiTree} (ht : t ∈ σ.history) (hn : snapshotName t.version ∈ d.names) :
      σ.dir.Has t.version := ⟨hc.history.nameable ht, (h.mem_names _).mp hn⟩
  refine ⟨hc.history, hlog.lastIndex_le, hlog.covers, fun e he htmp => ?_,
    fun t ht hn => hb _ (hhas ht hn), fun i t ht hn => ?_, ?_⟩
  · obtain ⟨t, ht, hcontent, hname⟩ := hc.stored e ((h.dirs e htmp).mp he)
    refine ⟨t, ht, hcontent, hname.resolve_right fun heq => ?_⟩
    rw [heq, isTmpName_tmp] at htmp
    cases htmp
  · rw [hdrop]
    exact ho.dir.window i t ht (hhas (mem_of_getElem? ht) hn)
  · obtain ⟨t, ht, hcur, hdir⟩ := ho.dir.current
    exact ⟨t, ht, h.current.trans hcur, (h.mem_names _).mpr hdir.2⟩

end Process

/-! ## Loading what was left -/

namespace Directory

variable {P : Type} [Sha256] [WALCodec P] {d : Directory P} {states : List MultiTree}
  {entries : List WALEntry}

def Logged (d : Directory P) (states : List MultiTree) : Prop :=
  ∃ t ∈ states, d.current = some (snapshotName t.version) ∧ t.logIndex ≤ d.wal.lastIndex

/-- If the log is not behind the link, `Load` ends at the end of the log. -/
theorem Sound.load_logged (h : d.Sound states entries) (hl : d.Logged states) :
    ∃ m b, d.load ⟨0, false, false⟩ = .ok (m, d.clean) ∧
      states[d.wal.lastIndex]? = some b ∧ b.Same m := by
  obtain ⟨t, ht, hcur, hle⟩ := hl
  obtain ⟨i, hi⟩ := mem_iff_getElem?.mp ht
  have hat := (h.history.atIndex i t hi).logIndex_eq
  rw [Nat.zero_add] at hat
  obtain ⟨m, b, hm, hb, hbm⟩ := h.load_latest hi hcur
  rw [max_eq_right (by omega)] at hb
  exact ⟨m, b, hm, hb, hbm⟩

end Directory

/-- The next commit on trees at the end of the log: its entry is accepted. -/
theorem DB.commitBlock_accepted {P : Type} [Sha256] [WALCodec P] {wal : IndexedLog P} {m : MultiTree}
    (hi : m.Indexed) (hat : m.AtIndex wal.lastIndex) {block : Block} {entry : WalEntry} {db : DB}
    (hc : (DB.new m false).commitBlock block = .ok (entry, db)) :
    entry.index = wal.lastIndex + 1 ∧ ∃ wal', writeEntries wal [entry] = some wal' := by
  obtain ⟨hentry, -, hindex, -⟩ := DB.commitBlock_ok (DB.atBoundary_new m false) hi hc
  obtain ⟨-, hiv, hver, -⟩ := MultiTree.commitEntry_fields hi hentry
  have hnext : entry.index = wal.lastIndex + 1 := by
    rw [hindex, hver, hiv]
    exact hat.walIndex_next
  have hcons : Consecutive wal.lastIndex [entry] :=
    Consecutive.cons_iff.mpr ⟨hnext, fun k e he => by cases he⟩
  obtain ⟨wal', hw, -⟩ := writeEntries_consecutive hcons
  exact ⟨hnext, wal', hw⟩

namespace Process

variable {P : Type} [Sha256] [WALCodec P] {σ σ' : Process P} {config : Config} {t : MultiTree}

/-- The condition under which a process may stop anywhere: rewrites run one at a time, a
snapshot has a version that its metadata may have, and the link moves to it when the log
holds the entry of its version. -/
def CrashSafe (σ : Process P) (a : Action) : Prop :=
  σ.OneRewrite a ∧ σ.PublishesUpTo maxUint32 a ∧ σ.LinksLogged a

instance (σ : Process P) (a : Action) : Decidable (σ.CrashSafe a) :=
  inferInstanceAs (Decidable (_ ∧ _ ∧ _))

omit [WALCodec P] in
theorem upTo_init (ht : Base t) : UpTo maxUint32 (init config t : Process P) := by
  rintro v ⟨hv, hmem⟩
  have hname : snapshotName v = snapshotName t.version := mem_singleton.mp hmem
  have hnt : Nameable t.version := ⟨ht.atIndex.nonneg, by have := ht.atIndex.lt; omega⟩
  rw [snapshotName_inj hv hnt hname]
  exact ht.version_le

theorem Run.sound (h : Run CrashSafe (Process.init config t) σ) (ht : Base t) {d : Directory P}
    (hd : σ.Stopped d) : ∃ entries, d.Sound σ.history entries ∧ d.Logged σ.history := by
  have hc0 := consistent_init (P := P) config ht
  have ho0 := ordered_init (P := P) config ht
  obtain ⟨entries, hc, ho⟩ := h.ordered hc0 ho0 fun _ _ hG => hG.1
  have hup : UpTo maxUint32 σ := h.upTo hc0 ho0 (fun _ _ hG => ⟨hG.1, hG.2.1⟩) (upTo_init ht)
  have hlogged : Logged σ := by
    refine h.keeps hc0 ho0 (fun _ _ hG => hG.1) ⟨_, mem_singleton_self _, rfl, ?_⟩
      (fun _ _ _ _ hc ho hI hG hs => hI.step ho hc hG.2.2 hs) fun _ _ _ _ _ _ _ _ hs hc ho _ =>
        hs.logged hc ho
    exact (ht.atIndex.logIndex_eq).le
  obtain ⟨queue, hlog, -, hle⟩ := hd.log hc
  obtain ⟨s, hs, hcur, hidx⟩ := hlogged
  exact ⟨entries, ho.sound hc hup hd, s, hs, hd.current.trans hcur, hidx.trans hle⟩

/-- Wherever a process stops, the directory can be opened again: the trees are those of the
last entry of the log, which is an entry of the history, and the entry of the next block
gets the next index and is accepted. -/
theorem stopped_reload (ht : Base t) (hrun : Run CrashSafe (init config t) σ) {d : Directory P}
    (hd : σ.Stopped d) :
    ∃ m d', d.load ⟨0, false, false⟩ = .ok (m, d') ∧ d'.wal = d.wal ∧
      m.AtIndex d'.wal.lastIndex ∧
      (∃ b, σ.history[d'.wal.lastIndex]? = some b ∧ b.Same m) ∧
      ∀ block entry db, (DB.new m false).commitBlock block = .ok (entry, db) →
        entry.index = d'.wal.lastIndex + 1 ∧ ∃ wal, writeEntries d'.wal [entry] = some wal := by
  obtain ⟨entries, hsound, hlogged⟩ := hrun.sound ht hd
  obtain ⟨m, b, hm, hb, hbm⟩ := hsound.load_logged hlogged
  have hat : m.AtIndex d.wal.lastIndex := by
    have := hsound.history.atIndex _ b hb
    rw [Nat.zero_add] at this
    exact hbm.atIndex this
  have hi : m.Indexed := hbm.indexed (hsound.history.indexed b (mem_of_getElem? hb))
  exact ⟨m, d.clean, hm, rfl, hat, ⟨b, hb, hbm⟩, fun block entry db hc =>
    DB.commitBlock_accepted hi hat hc⟩

end Process

/-- A snapshot of version 1 is made after its entry was written, and the process stops. -/
theorem stopped_reload_written :
    ∃ (σ : Process WALEntry) (m : MultiTree) (d' : Directory WALEntry),
      @Directory.load _ Sha256.zero _ σ.dir ⟨0, false, false⟩ = .ok (m, d') ∧
      σ.dir.current = some (snapshotName 1) ∧ d'.wal.lastIndex = 1 ∧ m.AtIndex 1 := by
  let _ := Sha256.zero
  have hend : ((Process.init ⟨0, 0, 1000⟩ (.fresh 0) : Process WALEntry).runAll Process.CrashSafe
      ([.commit (putBlock true 7), .finishCommit, .writeBatch] ++ Action.rewritten)).map (fun σ => (σ.dir.current, σ.dir.wal.lastIndex)) =
      some (some (snapshotName 1), 1) := by
    decide
  obtain ⟨σ, hrun, hend⟩ := Process.exists_run hend
  obtain ⟨hcurrent, hlast⟩ := Prod.mk.inj hend
  obtain ⟨m, d', hm, hwal, hat, -⟩ := Process.stopped_reload (Process.base_fresh (by decide)) hrun (.refl σ)
  rw [hwal, hlast] at hat
  exact ⟨σ, m, d', hm, hcurrent, hwal ▸ hlast, hat⟩

/-- The entry of version 1 is with the writer when `RewriteSnapshot` moves the link to the
snapshot of version 1, and the process stops. The trees that are loaded have version 1, the
log is empty, and the entry of the next block has the index 2, which the log rejects. -/
theorem exists_rejected_entry :
    ∃ (σ : Process WALEntry) (m : MultiTree) (d' : Directory WALEntry) (entry : WalEntry) (db : DB),
      @Process.Run _ Sha256.zero _ (fun _ _ => True) (.init ⟨0, 0, 1000⟩ (.fresh 0)) σ ∧
      σ.Stopped σ.dir ∧ @Directory.load _ Sha256.zero _ σ.dir ⟨0, false, false⟩ = .ok (m, d') ∧
      m.version = 1 ∧ d'.wal.lastIndex = 0 ∧
      @DB.commitBlock Sha256.zero (.new m false) (putBlock false 8) = .ok (entry, db) ∧
      entry.index = 2 ∧ writeEntries d'.wal [entry] = none := by
  let _ := Sha256.zero
  have hend : (Process.fresh ⟨0, 0, 1000⟩
      ([.commit (putBlock true 7), .finishCommit] ++ Action.rewritten)).map (fun σ => do
      let l ← (σ.dir.load ⟨0, false, false⟩).toOption
      let c ← ((DB.new l.1 false).commitBlock (putBlock false 8)).toOption
      pure (l.1.version, l.2.wal.lastIndex, c.1.index, (writeEntries l.2.wal [c.1]).isNone)) =
      some (some (1, 0, 2, true)) := by
    decide
  obtain ⟨σ, hrun, hend⟩ := Process.exists_run hend
  simp only [Option.bind_eq_bind, Option.bind_eq_some_iff, Results.toOption_eq_some, Option.pure_def,
    Option.some.injEq, Prod.mk.injEq, Option.isNone_iff_eq_none] at hend
  obtain ⟨⟨m, d'⟩, hload, ⟨entry, db⟩, hc, hv, hlast, hindex, hnone⟩ := hend
  exact ⟨σ, m, d', entry, db, hrun, .refl σ, hload, hv, hlast, hc, hindex, hnone⟩

end CronosStore.Memiavl
