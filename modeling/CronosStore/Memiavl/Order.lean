import CronosStore.Memiavl.Load

/-!
# The order of snapshots

Snapshots are published in the order of their versions as long as rewrites run one at a
time. Then the link only moves forward, pruning removes nothing that is needed, and the log
keeps the entries after every snapshot that is left (`Ordered`).
-/

namespace CronosStore.Memiavl

open Foundation List Directory

namespace Directory

variable {P : Type} {d d' : Directory P} {v w : Int}

def Has (d : Directory P) (v : Int) : Prop := Nameable v ∧ snapshotName v ∈ d.names

variable {name : Name}

theorem mem_names_put {new : Name} {content : MultiTreeDir} :
    name ∈ (d.put new content).names ↔ name = new ∨ name ∈ d.names := by
  simp only [mem_names, mem_put, Prod.mk.injEq]
  constructor
  · rintro ⟨c, ⟨rfl, -⟩ | ⟨hc, -⟩⟩
    · exact .inl rfl
    · exact .inr ⟨c, hc⟩
  · rintro (rfl | ⟨c, hc⟩)
    · exact ⟨content, .inl ⟨rfl, rfl⟩⟩
    · by_cases h : name = new
      · exact ⟨content, .inl ⟨h, rfl⟩⟩
      · exact ⟨c, .inr ⟨hc, h⟩⟩

theorem mem_names_removeAll {old : Name} :
    name ∈ (d.removeAll old).names ↔ name ∈ d.names ∧ name ≠ old := by
  simp only [mem_names, mem_removeAll, exists_and_right]

theorem snapshotName_ne_of_tmp : snapshotName v ≠ name ++ tmpSuffix := by
  intro h
  have := isTmpName_snapshotName v
  rw [h, isTmpName_tmp] at this
  cases this

theorem has_put_tmp {content : MultiTreeDir} :
    (d.put (name ++ tmpSuffix) content).Has v ↔ d.Has v := by
  constructor
  · rintro ⟨hv, h⟩
    exact ⟨hv, (mem_names_put.mp h).resolve_left snapshotName_ne_of_tmp⟩
  · rintro ⟨hv, h⟩
    exact ⟨hv, mem_names_put.mpr (.inr h)⟩

theorem has_removeAll_tmp : (d.removeAll (name ++ tmpSuffix)).Has v ↔ d.Has v := by
  constructor
  · rintro ⟨hv, h⟩
    exact ⟨hv, (mem_names_removeAll.mp h).1⟩
  · rintro ⟨hv, h⟩
    exact ⟨hv, mem_names_removeAll.mpr ⟨h, snapshotName_ne_of_tmp⟩⟩

theorem has_publish (hw : Nameable w)
    (hr : d.rename (snapshotName w ++ tmpSuffix) (snapshotName w) = some d') :
    d'.Has v ↔ d.Has v ∨ v = w := by
  obtain ⟨content, -, rfl⟩ := rename_eq_some hr
  constructor
  · rintro ⟨hv, h⟩
    rcases mem_names_put.mp h with h | h
    · exact .inr (snapshotName_inj hv hw h)
    · exact .inl ⟨hv, (mem_names_removeAll.mp h).1⟩
  · rintro (⟨hv, h⟩ | rfl)
    · exact ⟨hv, mem_names_put.mpr (.inr (mem_names_removeAll.mpr ⟨h, snapshotName_ne_of_tmp⟩))⟩
    · exact ⟨hw, mem_names_put.mpr (.inl rfl)⟩

theorem has_retire (hw : Nameable w)
    (hr : d.rename (snapshotName w) (snapshotName w ++ tmpSuffix) = some d') :
    d'.Has v ↔ d.Has v ∧ v ≠ w := by
  obtain ⟨content, -, rfl⟩ := rename_eq_some hr
  constructor
  · rintro ⟨hv, h⟩
    obtain ⟨h, hne⟩ := mem_names_removeAll.mp ((mem_names_put.mp h).resolve_left snapshotName_ne_of_tmp)
    exact ⟨⟨hv, h⟩, fun heq => hne (heq ▸ rfl)⟩
  · rintro ⟨⟨hv, h⟩, hne⟩
    exact ⟨hv, mem_names_put.mpr (.inr (mem_names_removeAll.mpr
      ⟨h, fun heq => hne (snapshotName_inj hv hw heq)⟩))⟩

end Directory

def Rewrite.publication : Rewrite → Option Publication
  | .publishing p => some p
  | _ => none

def Prune.current : Prune → Option Int
  | .listing current => some current
  | .removing current _ _ => some current
  | .deleting _ current _ _ => some current
  | _ => none

def Prune.names : Prune → List Name
  | .removing _ _ names => names
  | .deleting _ _ _ names => names
  | _ => []

/-! ## Publications -/

namespace Publication

variable {P : Type}

structure Fits (p : Publication) (dir : Directory P) : Prop where
  newest : ∀ v, dir.Has v → v ≤ p.mtree.version
  published : p.stage = .symlink ∨ p.stage = .link → dir.Has p.mtree.version
  linked : p.stage = .link → dir.currentTmp = some p.name

variable {p p' : Publication} {dir dir' : Directory P}

theorem has_more (hv : Nameable p.mtree.version) (hs : p.step dir = .more p' dir') (v : Int) :
    (dir.Has v → dir'.Has v) ∧ (dir'.Has v → dir.Has v ∨ v = p.mtree.version) := by
  rcases step_more hs with ⟨-, rfl, rfl⟩ | ⟨-, rfl, hr⟩ | ⟨-, rfl, rfl⟩
  · exact ⟨has_put_tmp.mpr, fun hhas => .inl (has_put_tmp.mp hhas)⟩
  · exact ⟨fun hhas => (has_publish hv hr).mpr (.inl hhas), (has_publish hv hr).mp⟩
  · exact ⟨id, .inl⟩

theorem Fits.more (h : p.Fits dir) (hv : Nameable p.mtree.version) (hs : p.step dir = .more p' dir') :
    p'.Fits dir' ∧ dir'.current = dir.current ∧ dir'.wal = dir.wal := by
  have hnewest : ∀ v, dir'.Has v → v ≤ p.mtree.version := fun v hhas => by
    rcases (has_more hv hs v).2 hhas with hhas | rfl
    · exact h.newest v hhas
    · exact le_rfl
  rcases step_more hs with ⟨-, rfl, rfl⟩ | ⟨-, rfl, hr⟩ | ⟨hst, rfl, rfl⟩
  · refine ⟨⟨hnewest, ?_, nofun⟩, rfl, rfl⟩
    rintro (hst | hst) <;> cases hst
  · obtain ⟨content, -, hdir⟩ := rename_eq_some hr
    exact ⟨⟨hnewest, fun _ => (has_publish hv hr).mpr (.inr rfl), nofun⟩, by rw [hdir]; rfl,
      by rw [hdir]; rfl⟩
  · exact ⟨⟨hnewest, fun _ => h.published (.inl hst), fun _ => rfl⟩, rfl, rfl⟩

theorem Fits.done (h : p.Fits dir) (hs : p.step dir = .done dir') :
    dir' = { dir with current := some p.name, currentTmp := none } ∧ dir.Has p.mtree.version := by
  obtain ⟨hst, name, hname, rfl⟩ := step_done hs
  have hlinked := h.linked hst
  rw [hname] at hlinked
  cases hlinked
  exact ⟨rfl, h.published (.inr hst)⟩

end Publication

namespace Prune

variable {P : Type}

structure Fits (prune : Prune) (dir : Directory P) (history : List MultiTree) : Prop where
  current : ∀ v, prune.current = some v →
    ∀ w, Nameable w → dir.current = some (snapshotName w) → v ≤ w
  names : ∀ name ∈ prune.names, isSnapshotName name = true →
    ∃ w, Nameable w ∧ name = snapshotName w
  deleting : ∀ tmpName current counter names, prune = .deleting tmpName current counter names →
    ∃ name, tmpName = name ++ tmpSuffix
  truncating : ∀ e, prune = .truncating e → dir.Has e ∧ (∀ v, dir.Has v → e ≤ v) ∧
    ∃ t ∈ history, t.version = e ∧ ¬e + 1 < t.initialVersion

variable {prune : Prune} {dir dir' : Directory P} {history : List MultiTree}

theorem Fits.of_fresh (hc : prune.current = none) (hn : prune.names = [])
    (ht : ∀ e, prune ≠ .truncating e) : prune.Fits dir history where
  current v hv := by
    rw [hc] at hv
    cases hv
  names name hname := absurd hname (hn ▸ not_mem_nil)
  deleting tmpName current counter names heq := by
    rw [heq] at hc
    cases hc
  truncating e heq := absurd heq (ht e)

section

variable (h : prune.Fits dir history)
include h

theorem Fits.grow {w : Int} (hc : dir'.current = dir.current)
    (hold : ∀ v, dir.Has v → dir'.Has v) (hnew : ∀ v, dir'.Has v → dir.Has v ∨ v = w)
    (hw : ∀ v, dir.Has v → v ≤ w) : prune.Fits dir' history where
  current v hv u hu hcur := h.current v hv u hu (hc ▸ hcur)
  names := h.names
  deleting := h.deleting
  truncating e he := by
    obtain ⟨hhas, hmin, t, ht, hiv⟩ := h.truncating e he
    refine ⟨hold e hhas, fun v hv => ?_, t, ht, hiv⟩
    rcases hnew v hv with hv | rfl
    · exact hmin v hv
    · exact hw e hhas

theorem Fits.link {c w : Int} (hc : Nameable c)
    (hcur : dir.current = some (snapshotName c)) (hw : Nameable w) (hcw : c ≤ w) :
    prune.Fits { dir with current := some (snapshotName w), currentTmp := none } history where
  current v hv u hu heq := by
    have hwu : w = u := snapshotName_inj hw hu (Option.some.inj heq)
    exact hwu ▸ (h.current v hv c hc hcur).trans hcw
  names := h.names
  deleting := h.deleting
  truncating e he := h.truncating e he

theorem Fits.congr (hc : dir'.current = dir.current)
    (hiff : ∀ v, dir'.Has v ↔ dir.Has v) : prune.Fits dir' history where
  current v hv u hu hcur := h.current v hv u hu (hc ▸ hcur)
  names := h.names
  deleting := h.deleting
  truncating e he := by
    obtain ⟨hhas, hmin, hex⟩ := h.truncating e he
    exact ⟨(hiff e).mpr hhas, fun v hv => hmin v ((hiff v).mp hv), hex⟩

theorem Fits.mono (t : MultiTree) : prune.Fits dir (history ++ [t]) :=
  { h with
    truncating := fun e he => by
      obtain ⟨hhas, hmin, s, hs, hiv⟩ := h.truncating e he
      exact ⟨hhas, hmin, s, mem_append_left _ hs, hiv⟩ }

end

end Prune

theorem Publication.Fits.congr {P : Type} {p : Publication} {dir dir' : Directory P} (h : p.Fits dir)
    (ht : dir'.currentTmp = dir.currentTmp) (hsub : ∀ v, dir'.Has v → dir.Has v)
    (hp : dir.Has p.mtree.version → dir'.Has p.mtree.version) : p.Fits dir' where
  newest v hv := h.newest v (hsub v hv)
  published hst := hp (h.published hst)
  linked hst := ht ▸ h.linked hst

/-! ## The directory -/

/-- The link leads to a snapshot, and the log has what comes after each one. -/
structure DirOrder {P : Type} (dir : Directory P) (history : List MultiTree) (prune : Prune) : Prop where
  current : ∃ t ∈ history, dir.current = some (snapshotName t.version) ∧ dir.Has t.version
  window : ∀ i (t : MultiTree), history[i]? = some t → dir.Has t.version → dir.wal.dropped ≤ i
  prune : prune.Fits dir history

namespace DirOrder

variable {P : Type} {dir dir' : Directory P} {history : List MultiTree} {prune : Prune}

theorem congr (h : DirOrder dir history prune) (hcur : dir'.current = dir.current)
    (hwal : dir'.wal.dropped = dir.wal.dropped) (hiff : ∀ v, dir'.Has v ↔ dir.Has v) :
    DirOrder dir' history prune where
  current := by
    obtain ⟨t, ht, hc, hhas⟩ := h.current
    exact ⟨t, ht, hcur.trans hc, (hiff _).mpr hhas⟩
  window i t ht hhas := hwal ▸ h.window i t ht ((hiff _).mp hhas)
  prune := h.prune.congr hcur hiff

variable [Sha256] {entries : List WALEntry} {p p' : Publication}

/-- The snapshot that the link leads to is not newer than one that is published. -/
theorem dropped_le (h : DirOrder dir history prune) (hh : History 0 history entries)
    (hp : p.Fits dir) {i : Nat} {t : MultiTree}
    (ht : history[i]? = some t) (hv : t.version = p.mtree.version) : dir.wal.dropped ≤ i := by
  obtain ⟨s, hs, -, hhas⟩ := h.current
  obtain ⟨j, hj⟩ := mem_iff_getElem?.mp hs
  have hwin := h.window j s hj hhas
  have hle := hp.newest _ hhas
  have hlt := hh.index_lt ht hj
  omega

theorem more (h : DirOrder dir history prune) (hh : History 0 history entries)
    (hp : p.Fits dir) (hrec : Recorded history p.mtree) (hs : p.step dir = .more p' dir') :
    DirOrder dir' history prune ∧ p'.Fits dir' := by
  have hv : Nameable p.mtree.version := by
    obtain ⟨t, ht, hsame⟩ := hrec
    exact hsame.version ▸ hh.nameable ht
  obtain ⟨hfits, hcur, hwal⟩ := hp.more hv hs
  have hold := fun v => (Publication.has_more hv hs v).1
  have hnew := fun v => (Publication.has_more hv hs v).2
  refine ⟨⟨?_, fun i t ht hhas => ?_, h.prune.grow hcur hold hnew hp.newest⟩, hfits⟩
  · obtain ⟨t, ht, hc, hhas⟩ := h.current
    exact ⟨t, ht, hcur.trans hc, hold _ hhas⟩
  · rw [hwal]
    rcases hnew _ hhas with hhas | hv
    · exact h.window i t ht hhas
    · exact h.dropped_le hh hp ht hv

omit [Sha256] in
theorem done (h : DirOrder dir history prune) (hp : p.Fits dir) (hrec : Recorded history p.mtree)
    (hs : p.step dir = .done dir') : DirOrder dir' history prune := by
  obtain ⟨rfl, hhas⟩ := hp.done hs
  obtain ⟨t, ht, hsame⟩ := hrec
  obtain ⟨s, hs, hcur, hhas'⟩ := h.current
  refine ⟨⟨t, ht, ?_, ?_⟩, h.window, h.prune.link hhas'.1 hcur hhas.1 (hp.newest _ hhas')⟩
  · rw [hsame.version]
    rfl
  · rw [hsame.version]
    exact hhas

end DirOrder

/-! ## The invariant -/

namespace Process

variable {P : Type} [Sha256] [WALCodec P]

def OneRewrite (σ : Process P) (a : Action) : Prop :=
  a = .rewriteSnapshot → σ.background.publication = none

instance (σ : Process P) (a : Action) : Decidable (σ.OneRewrite a) :=
  inferInstanceAs (Decidable (_ → _))

/-- Snapshots are published in their order. -/
structure Ordered (σ : Process P) : Prop where
  exclusive : σ.foreground ≠ none → σ.background.publication = none ∧ σ.phase = .idle
  dir : DirOrder σ.dir σ.history σ.prune
  foreground : ∀ p, σ.foreground = some p → p.Fits σ.dir
  background : ∀ p, σ.background.publication = some p → p.Fits σ.dir

variable {σ σ' : Process P} {entries : List WALEntry}

section

variable (h : Consistent σ entries)
include h

/-- Snapshots are of states of the history, so none is newer than the live trees. -/
theorem Consistent.has {v : Int} (hv : σ.dir.Has v) :
    ∃ t ∈ σ.history, t.version = v := by
  obtain ⟨content, hmem⟩ := mem_names.mp hv.2
  obtain ⟨t, ht, -, hname⟩ := h.stored _ hmem
  rcases hname with hname | hname
  · exact ⟨t, ht, (snapshotName_inj hv.1 (h.history.nameable ht) hname).symm⟩
  · exact absurd hname (snapshotName_ne_tmp _ _)

theorem Consistent.le_live {t : MultiTree} (ht : t ∈ σ.history) :
    t.version ≤ σ.db.mtree.version := by
  obtain ⟨live, hlive, hsame⟩ := h.live
  obtain ⟨i, hi⟩ := mem_iff_getElem?.mp ht
  have hlt := h.history.index_lt hlive hi
  have hlen := h.history.length
  obtain ⟨hi', -⟩ := List.getElem?_eq_some_iff.mp hi
  rw [hsame.version] at hlt
  omega

theorem Consistent.fits_live :
    Publication.Fits ⟨σ.db.mtree, .write⟩ σ.dir where
  newest v hv := by
    obtain ⟨t, ht, rfl⟩ := h.has hv
    exact h.le_live ht
  published hst := by rcases hst with hst | hst <;> cases hst
  linked hst := by cases hst

end

omit [Sha256] [WALCodec P] in
theorem Ordered.frame (h : Ordered σ) (hdir : { σ'.dir with wal := σ.dir.wal } = σ.dir)
    (hwal : σ'.dir.wal.dropped = σ.dir.wal.dropped)
    (hsame : (σ'.history, σ'.prune, σ'.foreground) = (σ.history, σ.prune, σ.foreground))
    (hbg : σ'.background.publication = σ.background.publication ∨ σ'.background.publication = none)
    (hphase : σ'.foreground ≠ none → σ'.phase = .idle) : Ordered σ' := by
  simp only [Prod.mk.injEq] at hsame
  obtain ⟨hhist, hprune, hfg⟩ := hsame
  have hiff : ∀ v, σ'.dir.Has v ↔ σ.dir.Has v := fun v => hdir ▸ Iff.rfl
  have hfit : ∀ p : Publication, p.Fits σ.dir → p.Fits σ'.dir := fun p hp =>
    hp.congr (congrArg currentTmp hdir :) (fun v => (hiff v).mp) (hiff _).mpr
  refine ⟨fun hne => ⟨?_, hphase hne⟩, ?_, ?_, ?_⟩
  · rcases hbg with hbg | hbg
    · rw [hbg]
      exact (h.exclusive (hfg ▸ hne)).1
    · exact hbg
  · rw [hprune, hhist]
    exact h.dir.congr (congrArg current hdir :) hwal hiff
  · exact fun p hp => hfit p (h.foreground p (hfg ▸ hp))
  · intro p hp
    rcases hbg with hbg | hbg
    · exact hfit p (h.background p (hbg ▸ hp))
    · rw [hbg] at hp
      cases hp

omit [Sha256] [WALCodec P] in
theorem Ordered.foreground_of_phase (h : Ordered σ) (hp : σ.phase ≠ .idle) : σ.foreground = none := by
  by_contra hne
  exact hp (h.exclusive hne).2

theorem Ordered.startBackground (h : Ordered σ) (hc : Consistent σ entries)
    (hfg : σ.foreground = none) : Ordered σ.startBackground := by
  unfold Process.startBackground
  split
  · exact { h with
      exclusive := fun hne => absurd hfg hne
      background := fun p hp => by
        cases hp
        exact hc.fits_live }
  · exact h

theorem Ordered.rewriteIfApplicable (h : Ordered σ) (hc : Consistent σ entries)
    (hfg : σ.foreground = none) : Ordered σ.rewriteIfApplicable := by
  unfold Process.rewriteIfApplicable
  split_ifs
  · exact h.startBackground hc hfg
  · exact h

omit [Sha256] in
theorem handOver_cases {entry : WalEntry} (hs : σ.handOver entry = some σ') :
    ∃ wal walChan batch, wal.dropped = σ.dir.wal.dropped ∧ σ.dir.wal.lastIndex ≤ wal.lastIndex ∧
      σ' = { σ with dir := { σ.dir with wal := wal }, walChan := walChan, batch := batch } := by
  unfold Process.handOver at hs
  split_ifs at hs
  · split at hs
    · cases hs
    · rename_i wal hw
      cases hs
      obtain ⟨hd, hl⟩ := IndexedLog.writeBatch_eq_some hw
      exact ⟨wal, _, _, hd, by omega, rfl⟩
  · cases hs
    exact ⟨_, _, _, rfl, le_rfl, rfl⟩
  · cases hs
    exact ⟨_, _, _, rfl, le_rfl, rfl⟩

theorem commit_cases {block : Block} (hs : σ.commit block = some σ') :
    ∃ db wal walChan batch, σ.foreground = none ∧ wal.dropped = σ.dir.wal.dropped ∧
      σ.dir.wal.lastIndex ≤ wal.lastIndex ∧
      σ' = { σ with
        db := db
        phase := .sent
        history := σ.history ++ [db.mtree]
        dir := { σ.dir with wal := wal }
        walChan := walChan
        batch := batch } := by
  unfold Process.commit at hs
  by_cases hidle : σ.phase = .idle ∧ σ.foreground = none ∧ σ.walErr = false
  swap
  · rw [if_neg hidle] at hs
    cases hs
  rw [if_pos hidle] at hs
  split at hs
  · cases hs
  · rename_i entry db _
    split_ifs at hs
    obtain ⟨wal, walChan, batch, hd, hl, rfl⟩ := handOver_cases hs
    exact ⟨db, wal, walChan, batch, hidle.2.1, hd, hl, rfl⟩

theorem Ordered.commit (h : Ordered σ) (hc : Consistent σ entries) {block : Block}
    (hs : σ.commit block = some σ') : Ordered σ' := by
  obtain ⟨db, wal, walChan, batch, hfg, hd, -, rfl⟩ := commit_cases hs
  obtain ⟨t, ht, hcur, hhas⟩ := h.dir.current
  refine ⟨fun hne => absurd hfg hne, ⟨⟨t, mem_append_left _ ht, hcur, hhas⟩, ?_,
    (h.dir.prune.mono _).congr rfl fun _ => Iff.rfl⟩, ?_, ?_⟩
  · intro i s hs hhas
    simp only at hs hhas ⊢
    rw [hd]
    by_cases hi : i < σ.history.length
    · rw [getElem?_append_left hi] at hs
      exact h.dir.window i s hs hhas
    · have := hc.history.length
      have := hc.log.lastIndex_le
      have := σ.dir.wal.dropped_le_lastIndex
      omega
  · exact fun p hp => (h.foreground p hp).congr rfl (fun _ => id) id
  · exact fun p hp => (h.background p hp).congr rfl (fun _ => id) id

theorem Ordered.finishCommit (h : Ordered σ) (hc : Consistent σ entries)
    (hs : σ.finishCommit = some σ') : Ordered σ' := by
  obtain ⟨hp, hcases⟩ := finishCommit_cases hs
  have hfg := h.foreground_of_phase (by rw [hp]; decide)
  obtain ⟨m, m', m'', -, -, -, -, rfl⟩ | ⟨background, hbg, heq⟩ := hcases
  · exact h.frame rfl rfl rfl (.inr rfl) fun hne => absurd hfg hne
  · have hidle : Ordered { σ with phase := .idle, background := background } := by
      refine h.frame rfl rfl rfl ?_ fun _ => rfl
      rcases hbg with rfl | rfl
      · exact .inl rfl
      · exact .inr rfl
    rcases heq with rfl | rfl
    · exact hidle
    · exact hidle.rewriteIfApplicable (hc.idle hbg) hfg

omit [Sha256] [WALCodec P] in
theorem startPrune_cases (hs : σ.startPrune = some σ') : σ.phase = .switched ∧ σ.prune = .idle ∧
    (σ' = { σ with phase := .idle, prune := .starting } ∨
      σ' = { σ with phase := .idle, prune := .starting }.rewriteIfApplicable) := by
  unfold Process.startPrune at hs
  by_cases hp : σ.phase = .switched ∧ σ.prune = .idle
  · rw [if_pos hp] at hs
    refine ⟨hp.1, hp.2, ?_⟩
    simp only [Option.some.injEq] at hs
    split_ifs at hs
    · exact .inl hs.symm
    · exact .inr hs.symm
  · rw [if_neg hp] at hs
    cases hs

theorem Ordered.startPrune (h : Ordered σ) (hc : Consistent σ entries)
    (hs : σ.startPrune = some σ') : Ordered σ' := by
  obtain ⟨hp, -, heq⟩ := startPrune_cases hs
  have hfg := h.foreground_of_phase (by rw [hp]; decide)
  have hstart : Ordered { σ with phase := .idle, prune := .starting } :=
    { h with
      exclusive := fun hne => absurd hfg hne
      dir := { h.dir with prune := .of_fresh rfl rfl nofun } }
  rcases heq with rfl | rfl
  · exact hstart
  · exact hstart.rewriteIfApplicable hc.starting hfg

theorem Ordered.foregroundStep (h : Ordered σ) (hc : Consistent σ entries)
    (hs : σ.foregroundStep = some σ') : Ordered σ' := by
  unfold Process.foregroundStep at hs
  split at hs
  · cases hs
  · rename_i p hp
    have hrec := hc.foreground p hp
    have hfits := h.foreground p hp
    obtain ⟨hbg, hphase⟩ := h.exclusive (by rw [hp]; simp)
    have hnone : ∀ {dir : Directory P} (q : Publication), σ.background.publication = some q →
        q.Fits dir := fun q hq => by
      rw [hbg] at hq
      cases hq
    split at hs
    · rename_i p' dir hstep
      cases hs
      obtain ⟨hdir, hfits'⟩ := h.dir.more hc.history hfits hrec hstep
      refine ⟨fun _ => ⟨hbg, hphase⟩, hdir, fun q hq => ?_, hnone⟩
      cases hq
      exact hfits'
    · rename_i dir hstep
      cases hs
      refine ⟨fun _ => ⟨hbg, hphase⟩, h.dir.done hfits hrec hstep, fun q hq => ?_, hnone⟩
      cases hq
    · rename_i dir hstep
      cases hs
      rw [Publication.step_failed hstep]
      refine ⟨fun _ => ⟨hbg, hphase⟩, h.dir, fun q hq => ?_, hnone⟩
      cases hq

theorem Ordered.backgroundStep (h : Ordered σ) (hc : Consistent σ entries)
    (hs : σ.backgroundStep = some σ') : Ordered σ' := by
  -- past the publication the directory is not changed
  have same {b : Rewrite} (hb : b.publication = none) : Ordered { σ with background := b } :=
    h.frame rfl rfl rfl (.inr hb) fun hne => (h.exclusive hne).2
  unfold Process.backgroundStep at hs
  split at hs
  · rename_i p hbg
    have hrec : Recorded σ.history p.mtree := hc.background _ (by rw [hbg]; rfl)
    have hfits := h.background p (by rw [hbg]; rfl)
    have hfg : σ.foreground = none := by
      by_contra hne
      have := (h.exclusive hne).1
      rw [hbg] at this
      cases this
    have hnone : ∀ {dir : Directory P} (q : Publication), σ.foreground = some q → q.Fits dir :=
      fun q hq => by
        rw [hfg] at hq
        cases hq
    split at hs
    · rename_i p' dir hstep
      cases hs
      obtain ⟨hdir, hfits'⟩ := h.dir.more hc.history hfits hrec hstep
      refine ⟨fun hne => absurd hfg hne, hdir, hnone, fun q hq => ?_⟩
      cases hq
      exact hfits'
    · rename_i dir hstep
      cases hs
      exact ⟨fun hne => absurd hfg hne, h.dir.done hfits hrec hstep, hnone,
        fun q hq => by cases hq⟩
    · rename_i dir hstep
      cases hs
      rw [Publication.step_failed hstep]
      exact ⟨fun hne => absurd hfg hne, h.dir, hnone, fun q hq => by cases hq⟩
  · split at hs
    · cases hs
      exact same rfl
    · split at hs
      · cases hs
        exact same rfl
      · cases hs
        exact same rfl
  · split at hs
    · cases hs
      exact same rfl
    · cases hs
      exact same rfl
  · cases hs

section

omit [Sha256] [WALCodec P]

section

variable (h : Ordered σ)
include h

theorem Ordered.removeTmp (name : Name) :
    Ordered { σ with dir := σ.dir.removeAll (name ++ tmpSuffix) } where
  exclusive := h.exclusive
  dir := h.dir.congr rfl rfl fun _ => has_removeAll_tmp
  foreground p hp := (h.foreground p hp).congr rfl (fun _ => has_removeAll_tmp.mp)
    has_removeAll_tmp.mpr
  background p hp := (h.background p hp).congr rfl (fun _ => has_removeAll_tmp.mp)
    has_removeAll_tmp.mpr

theorem Ordered.foregroundFail (hs : σ.foregroundFail = some σ') : Ordered σ' := by
  unfold Process.foregroundFail at hs
  split at hs
  · cases hs
    exact { h.removeTmp _ with
      exclusive := fun hne => absurd rfl hne
      foreground := fun q hq => by cases hq }
  · cases hs

theorem Ordered.backgroundFail (hs : σ.backgroundFail = some σ') : Ordered σ' := by
  unfold Process.backgroundFail at hs
  split at hs
  · cases hs
    exact { h.removeTmp _ with
      exclusive := fun hne => ⟨rfl, (h.exclusive hne).2⟩
      background := fun q hq => by cases hq }
  · cases hs

theorem Ordered.retire {v w : Int} (hv : σ.prune.current = some v) (hw : Nameable w)
    (hlt : w < v) {dir : Directory P}
    (hr : σ.dir.rename (snapshotName w) (snapshotName w ++ tmpSuffix) = some dir) {prune : Prune}
    (hprune : prune.Fits dir σ.history) : Ordered { σ with dir := dir, prune := prune } := by
  have hiff : ∀ u, dir.Has u ↔ σ.dir.Has u ∧ u ≠ w := fun u => has_retire hw hr
  obtain ⟨content, -, hdir⟩ := rename_eq_some hr
  have hcur : dir.current = σ.dir.current := by rw [hdir]; rfl
  obtain ⟨t, ht, hc, hhas⟩ := h.dir.current
  have hle : v ≤ t.version := h.dir.prune.current v hv _ hhas.1 hc
  -- a snapshot that is being published is not older than the current one
  have hfits : ∀ p : Publication, p.Fits σ.dir → p.Fits dir := fun p hp => by
    refine hp.congr (by rw [hdir]; rfl) (fun u hu => ((hiff u).mp hu).1) fun hu =>
      (hiff _).mpr ⟨hu, ?_⟩
    have := hp.newest _ hhas
    omega
  refine ⟨h.exclusive, ⟨⟨t, ht, hcur.trans hc, (hiff _).mpr ⟨hhas, by omega⟩⟩, ?_, hprune⟩,
    fun p hp => hfits p (h.foreground p hp), fun p hp => hfits p (h.background p hp)⟩
  intro i s hs hhas
  have hwal : dir.wal = σ.dir.wal := by rw [hdir]; rfl
  show dir.wal.dropped ≤ i
  rw [hwal]
  exact h.dir.window i s hs ((hiff _).mp hhas).1

theorem Ordered.setPrune {prune : Prune} (hp : prune.Fits σ.dir σ.history) :
    Ordered { σ with prune := prune } :=
  { h with dir := { h.dir with prune := hp } }

theorem Ordered.pruneName {current : Int} {counter : Nat} {name : Name}
    {names : List Name} (hp : σ.prune = .removing current counter (name :: names)) :
    Ordered (σ.pruneName current counter name names) := by
  have hfits := h.dir.prune
  have hrest : ∀ n ∈ names, isSnapshotName n = true → ∃ w, Nameable w ∧ n = snapshotName w :=
    fun n hn => hfits.names n (by rw [hp]; exact mem_cons_of_mem _ hn)
  obtain ⟨-, -, heq⟩ | ⟨c, heq⟩ | ⟨version, dir, hname, hparse, hlt, hr, heq⟩ :=
    pruneName_cases σ current counter name names
  · rw [heq]
    exact h.setPrune (.of_fresh rfl rfl nofun)
  · rw [heq]
    refine h.setPrune ⟨fun v hv => ?_, hrest, nofun, nofun⟩
    cases hv
    exact hfits.current _ (by rw [hp]; rfl)
  · rw [heq]
    obtain ⟨w, hw, rfl⟩ := hfits.names name (by rw [hp]; exact mem_cons_self) hname
    obtain rfl : w = version := by
      rw [parseVersion_snapshotName hw] at hparse
      split_ifs at hparse
      exact Option.some.inj hparse
    refine h.retire (by rw [hp]; rfl) hw hlt hr ⟨fun v hv => ?_, hrest, ?_, nofun⟩
    · cases hv
      obtain ⟨content, -, rfl⟩ := rename_eq_some hr
      exact hfits.current _ (by rw [hp]; rfl)
    · intro tmpName c k ns heq
      cases heq
      exact ⟨_, rfl⟩

end

end

theorem Consistent.exists_lists (h : Consistent σ entries) :
    ∃ versions, σ.dir.Lists versions ∧ ∀ v ∈ versions, ∃ t ∈ σ.history, t.version = v := by
  refine Directory.exists_lists h.history fun name hname hs => ?_
  obtain ⟨content, hmem⟩ := Directory.mem_names.mp hname
  obtain ⟨t, ht, -, heq⟩ := h.stored _ hmem
  rcases heq with heq | heq
  · exact ⟨t, ht, heq⟩
  · simp only at heq
    rw [heq, isSnapshotName_tmp] at hs
    cases hs

theorem Consistent.firstSnapshotVersion (h : Consistent σ entries) {e : Int}
    (he : σ.dir.firstSnapshotVersion = .ok e) : σ.dir.Has e ∧ ∀ v, σ.dir.Has v → e ≤ v := by
  obtain ⟨versions, hlists, -⟩ := h.exists_lists
  obtain ⟨-, hhead⟩ := hlists.firstSnapshotVersion_ok.mp he
  have hmem := mem_of_head? hhead
  refine ⟨⟨hlists.nameable e hmem, (hlists.mem_iff (hlists.nameable e hmem)).mp hmem⟩, fun v hv => ?_⟩
  have hv' := (hlists.mem_iff hv.1).mpr hv.2
  cases versions with
  | nil => cases hmem
  | cons w versions =>
    cases hhead
    rcases mem_cons.mp hv' with rfl | hv'
    · exact le_rfl
    · exact ((pairwise_cons.mp hlists.sorted).1 v hv').le

theorem Ordered.pruneStep (h : Ordered σ) (hc : Consistent σ entries) (hs : σ.pruneStep = some σ') :
    Ordered σ' := by
  unfold Process.pruneStep at hs
  split at hs
  · cases hs
  · split at hs
    · cases hs
      exact h.setPrune (.of_fresh rfl rfl nofun)
    · rename_i current hcur
      cases hs
      refine h.setPrune ⟨fun v hv w hw hlink => ?_, nofun, nofun, nofun⟩
      cases hv
      simp only [Directory.currentVersion, hlink, Results.some_bind] at hcur
      rw [parseVersion_snapshotName hw] at hcur
      split_ifs at hcur
      exact (Option.some.inj hcur).ge
  · rename_i current hp
    cases hs
    refine h.setPrune ⟨fun v hv => ?_, fun name hname hsnap => ?_, nofun,
      nofun⟩
    · cases hv
      exact h.dir.prune.current _ (by rw [hp]; rfl)
    · obtain ⟨versions, hlists, -⟩ := hc.exists_lists
      have hmem : name ∈ σ.dir.names.filter isSnapshotName :=
        mem_filter.mpr ⟨mem_reverse.mp hname, hsnap⟩
      rw [hlists.names] at hmem
      obtain ⟨w, hw, rfl⟩ := mem_map.mp hmem
      exact ⟨w, hlists.nameable w hw, rfl⟩
  · rename_i hp
    cases hs
    exact h.pruneName hp
  · cases hs
    exact h.setPrune (.of_fresh rfl rfl nofun)
  · rename_i tmpName current counter names hp
    cases hs
    obtain ⟨name, rfl⟩ := h.dir.prune.deleting _ _ _ _ hp
    refine (h.removeTmp name).setPrune ⟨fun v hv => ?_, fun n hn => ?_, nofun,
      nofun⟩
    · cases hv
      exact h.dir.prune.current _ (by rw [hp]; rfl)
    · exact h.dir.prune.names n (by rw [hp]; exact hn)
  · split at hs
    · cases hs
      exact h.setPrune (.of_fresh rfl rfl nofun)
    · rename_i e he
      cases hs
      obtain ⟨hhas, hmin⟩ := hc.firstSnapshotVersion he
      obtain ⟨t, ht, rfl⟩ := hc.has hhas
      have hfits : (if t.version + 1 < (σ.db.mtree.initialVersion : Int) then Prune.idle
          else .truncating t.version).Fits σ.dir σ.history := by
        split_ifs with hiv
        · exact .of_fresh rfl rfl nofun
        · refine ⟨nofun, nofun, nofun, fun e heq => ?_⟩
          cases heq
          obtain ⟨live, hlive, hsame⟩ := hc.live
          refine ⟨hhas, hmin, t, ht, rfl, ?_⟩
          rwa [hc.history.initialVersion t ht live (mem_of_getElem? hlive), hsame.initialVersion]
      exact { h.setPrune hfits with }
  · rename_i e hp
    split at hs
    · cases hs
      exact h.setPrune (.of_fresh rfl rfl nofun)
    · rename_i wal hwal
      cases hs
      obtain ⟨hhas, hmin, t, ht, rfl, hiv⟩ := h.dir.prune.truncating e hp
      obtain ⟨i, hi⟩ := mem_iff_getElem?.mp ht
      obtain ⟨-, hdropped, -⟩ := IndexedLog.truncateFront_eq_some hwal
      -- the log now starts right after the oldest snapshot
      have hcut : wal.dropped = i := by
        have hnext : nextVersion t.version t.initialVersion = t.version + 1 := by
          unfold nextVersion
          split_ifs <;> omega
        have hindex := (hc.history.atIndex i t hi).walIndex_next
        obtain ⟨live, hlive, hsame⟩ := hc.live
        rw [hnext, hc.history.initialVersion t ht live (mem_of_getElem? hlive),
          hsame.initialVersion] at hindex
        omega
      refine ⟨h.exclusive, ⟨?_, fun j s hs hhas' => ?_, .of_fresh rfl rfl nofun⟩, fun p hp =>
        (h.foreground p hp).congr rfl (fun _ => id) id, fun p hp =>
        (h.background p hp).congr rfl (fun _ => id) id⟩
      · exact h.dir.current
      · show wal.dropped ≤ j
        have hle := hmin _ hhas'
        have hlt := hc.history.index_lt hs hi
        omega

theorem Ordered.step (h : Ordered σ) (hc : Consistent σ entries) {a : Action} (hG : σ.OneRewrite a)
    (hs : σ.step a = some σ') : Ordered σ' := by
  have hphase : σ.foreground ≠ none → σ.phase = .idle := fun hne => (h.exclusive hne).2
  cases a with
  | commit block => exact h.commit hc hs
  | finishCommit => exact h.finishCommit hc hs
  | abandonSwitch =>
    simp only [Process.step, Process.abandonSwitch] at hs
    split at hs
    · cases hs
      exact h.frame rfl rfl rfl (.inr rfl) fun _ => rfl
    · cases hs
  | startPrune => exact h.startPrune hc hs
  | receive _ | failWriter =>
    simp only [Process.step, Process.receive] at hs
    split_ifs at hs
    cases hs
    exact h.frame rfl rfl rfl (.inl rfl) hphase
  | writeBatch =>
    simp only [Process.step, Process.writeBatch] at hs
    split_ifs at hs
    split at hs
    · cases hs
      exact h.frame rfl rfl rfl (.inl rfl) hphase
    · rename_i wal hw
      cases hs
      exact h.frame rfl (IndexedLog.writeBatch_eq_some hw).1 rfl (.inl rfl) hphase
  | rewriteSnapshot =>
    simp only [Process.step] at hs
    split_ifs at hs with hidle
    cases hs
    exact { h with
      exclusive := fun _ => ⟨hG rfl, hidle.1⟩
      foreground := fun p hp => by
        cases hp
        exact hc.fits_live }
  | foregroundStep => exact h.foregroundStep hc hs
  | foregroundFail => exact h.foregroundFail hs
  | rewriteSnapshotBackground =>
    simp only [Process.step] at hs
    split_ifs at hs with hidle
    cases hs
    exact h.startBackground hc hidle.2
  | backgroundStep => exact h.backgroundStep hc hs
  | backgroundFail => exact h.backgroundFail hs
  | pruneStep => exact h.pruneStep hc hs
  | earliestLoad =>
    obtain rfl | rfl := earliestLoad_cases hs
    · exact h
    · exact { h with }
  | earliestList i =>
    obtain ⟨version, -, rfl⟩ | rfl := earliestList_cases hs
    · exact { h with }
    · exact { h with }
  | earliestStore i =>
    obtain ⟨version, -, rfl⟩ := earliestStore_eq hs
    exact { h with }

omit [WALCodec P] in
theorem ordered_init (config : Config) {t : MultiTree} (ht : Base t) :
    Ordered (init config t : Process P) where
  exclusive := nofun
  dir := by
    refine ⟨⟨_, mem_singleton_self _, rfl, ?_, mem_singleton_self _⟩, fun i _ _ _ => ?_,
      .of_fresh rfl rfl nofun⟩
    · have := ht.atIndex.lt
      exact ⟨ht.atIndex.nonneg, by show t.version < _; omega⟩
    · exact Nat.zero_le i
  foreground := nofun
  background := nofun

end Process

end CronosStore.Memiavl
