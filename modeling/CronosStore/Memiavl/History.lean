import CronosStore.Memiavl.Replay

/-!
# Histories of blocks

The states after each block and the entries that were written for the blocks, numbered by
their index in the log. Whatever later holds a part of this history, a log or a snapshot,
holds what stands at its index here; replaying the entries from one state leads to the
state at the end (`History.catchupWAL_latest`, `History.catchupWAL_target`).
-/

namespace CronosStore.Memiavl

open Foundation List

def TreeNameUpgrade.Adds (u : TreeNameUpgrade) : Prop := u.delete = false ∧ u.renameFrom = []

instance (u : TreeNameUpgrade) : Decidable u.Adds := instDecidableAnd

namespace MultiTree

/-- The version of `t` belongs to the index `i` of the log: it is the version of that
entry, or `t` has no version yet and `i` is 0. Versions are `int64`. -/
structure AtIndex (t : MultiTree) (i : Nat) : Prop where
  version : t.version = walVersion i t.initialVersion ∨ t.version = 0 ∧ i = 0
  lt : t.version < 2 ^ 63

variable {t : MultiTree} {i : Nat}

theorem AtIndex.walIndex_next (h : t.AtIndex i) :
    walIndex (nextVersion t.version t.initialVersion) t.initialVersion = i + 1 := by
  obtain ⟨hv, hlt⟩ := h
  unfold walVersion at hv
  unfold walIndex nextVersion
  split_ifs at hv ⊢ <;> omega

def logIndex (t : MultiTree) : Nat :=
  walIndex (nextVersion t.version t.initialVersion) t.initialVersion - 1

theorem AtIndex.logIndex_eq (h : t.AtIndex i) : t.logIndex = i := by
  rw [logIndex, h.walIndex_next, Nat.add_sub_cancel]

theorem AtIndex.walIndex_eq (h : t.AtIndex i) (h0 : i ≠ 0) :
    walIndex t.version t.initialVersion = i := by
  obtain ⟨hv, hlt⟩ := h
  unfold walVersion at hv
  unfold walIndex
  split_ifs at hv ⊢ <;> omega

theorem AtIndex.nonneg (h : t.AtIndex i) : 0 ≤ t.version := by
  obtain ⟨hv, -⟩ := h
  unfold walVersion at hv
  split_ifs at hv <;> omega

theorem AtIndex.next (h : t.AtIndex i) :
    nextVersion t.version t.initialVersion = walVersion (i + 1) t.initialVersion := by
  obtain ⟨hv, -⟩ := h
  unfold walVersion nextVersion at *
  split_ifs at hv ⊢ <;> omega

theorem lt_nextVersion (v : Int) (iv : Nat) : v < nextVersion v iv := by
  unfold nextVersion
  split_ifs <;> omega

theorem AtIndex.lt_version {a b : MultiTree} {j : Nat} (ha : a.AtIndex i) (hb : b.AtIndex j)
    (hiv : a.initialVersion = b.initialVersion) (hij : i < j) : a.version < b.version := by
  obtain ⟨hva, -⟩ := ha
  obtain ⟨hvb, -⟩ := hb
  unfold walVersion at *
  split_ifs at hva hvb <;> omega

/-! ## What upgrades do to versions -/

def Aligned (next : Int) (trees : List NamedTree) : Prop :=
  ∀ entry ∈ trees, (entry.tree.version : Int) + 1 = next

theorem Aligned.applyUpgrade {next : Int} {upgrade : TreeNameUpgrade} (hpos : 0 < next)
    (hle : upgrade.Adds → next ≤ maxUint32) {trees trees' : List NamedTree} (h : Aligned next trees)
    (hu : applyUpgrade next trees upgrade = .ok trees') : Aligned next trees' := by
  unfold MultiTree.applyUpgrade at hu
  split_ifs at hu with hdel hren
  · split at hu
    · rename_i i last _ hlast
      cases hu
      intro e he
      rcases mem_or_eq_of_mem_set (dropLast_subset _ he) with he | rfl
      · exact h e he
      · exact h _ (mem_of_getLast? hlast)
    · cases hu
  · split at hu
    · cases hu
      intro e he
      obtain ⟨k, hk⟩ := mem_iff_getElem?.mp he
      rw [getElem?_modify] at hk
      obtain ⟨e', he', rfl⟩ := Option.map_eq_some_iff.mp hk
      have := h e' (mem_of_getElem? he')
      split_ifs
      · exact this
      · exact this
    · cases hu
  · cases hu
    intro e he
    rcases mem_append.mp he with he | he
    · exact h e he
    · rw [mem_singleton.mp he, Tree.newWithInitialVersion]
      have hle := hle ⟨Bool.eq_false_iff.mpr hdel, not_not.mp hren⟩
      rw [maxUint32] at hle
      split_ifs <;> simp only <;> omega

theorem Aligned.applyUpgradeList {next : Int} {upgrades : List TreeNameUpgrade} (hpos : 0 < next)
    (hle : (∃ u ∈ upgrades, u.Adds) → next ≤ maxUint32) {trees trees' : List NamedTree}
    (h : Aligned next trees)
    (hu : applyUpgradeList next upgrades trees = .ok trees') : Aligned next trees' := by
  induction upgrades generalizing trees with
  | nil =>
    cases hu
    exact h
  | cons u upgrades ih =>
    rw [MultiTree.applyUpgradeList] at hu
    cases h1 : MultiTree.applyUpgrade next trees u with
    | error e => simp only [h1] at hu; cases hu
    | ok trees1 =>
      simp only [h1] at hu
      refine ih (fun ⟨v, hv, ha⟩ => hle ⟨v, mem_cons_of_mem _ hv, ha⟩) ?_ hu
      exact h.applyUpgrade hpos (fun ha => hle ⟨u, mem_cons_self, ha⟩) h1

theorem applyUpgrades_fields {t' : MultiTree} {upgrades : List TreeNameUpgrade}
    (h : t.applyUpgrades upgrades = .ok t') :
    t'.initialVersion = t.initialVersion ∧ t'.lastCommitInfo = t.lastCommitInfo ∧
      (0 < nextVersion t.version t.initialVersion →
        ((∃ u ∈ upgrades, u.Adds) → nextVersion t.version t.initialVersion ≤ maxUint32) →
        Aligned (nextVersion t.version t.initialVersion) t.trees →
        Aligned (nextVersion t.version t.initialVersion) t'.trees) := by
  unfold MultiTree.applyUpgrades at h
  split_ifs at h
  · cases h
    exact ⟨rfl, rfl, fun _ _ h => h⟩
  · split at h
    · cases h
    · rename_i trees htrees
      simp only at h
      split at h
      · cases h
      · cases h
        refine ⟨rfl, rfl, fun hpos hle hal e he => ?_⟩
        exact hal.applyUpgradeList hpos hle htrees e ((mem_insertionSort _).mp he)

section Commit

variable [Sha256] {t t' : MultiTree} {entry : WALEntry}

theorem commitEntry_fields (hi : t.Indexed) (h : t.commitEntry entry = .ok t') :
    t'.Indexed ∧ t'.initialVersion = t.initialVersion ∧
      t'.version = nextVersion t.version t.initialVersion ∧
      t'.lastCommitInfo = t'.buildCommitInfo t'.version ∧
      (0 < nextVersion t.version t.initialVersion →
        nextVersion t.version t.initialVersion ≤ maxUint32 →
        Aligned (nextVersion t.version t.initialVersion) t.trees →
        ∀ e ∈ t'.trees, (e.tree.version : Int) = t'.version ∧ 0 < e.tree.version) := by
  obtain ⟨m, hm, hs⟩ := commitEntry_ok.mp h
  obtain ⟨u, hu, hm⟩ := applyWALEntry_ok.mp hm
  obtain ⟨huiv, huinfo, hual⟩ := applyUpgrades_fields hu
  obtain ⟨-, rfl⟩ := (hi.applyUpgrades hu).applyChangeSets_ok.mp hm
  obtain ⟨-, rfl⟩ := saveVersion_ok.mp hs
  have hnext : nextVersion (u.applyPairs fun n => pairsFor n entry.changesets).version
      (u.applyPairs fun n => pairsFor n entry.changesets).initialVersion =
      nextVersion t.version t.initialVersion := by
    show nextVersion u.lastCommitInfo.version u.initialVersion = _
    rw [huinfo, huiv]
    rfl
  refine ⟨?_, huiv, ?_, ?_, fun hpos hle hal e he => ?_⟩
  · have hidx := ((hi.applyUpgrades hu).applyPairs fun n => pairsFor n entry.changesets).mapTrees
      fun e => { e.tree with version := e.tree.version + 1 }
    exact ⟨hidx.sorted, hidx.index⟩
  · simp only [MultiTree.version, if_true, buildCommitInfo] at hnext ⊢
    exact hnext
  · rfl
  · obtain ⟨e1, he1, rfl⟩ := mem_map.mp he
    obtain ⟨e2, he2, rfl⟩ := mem_map.mp he1
    have h2 := hual hpos (fun _ => hle) hal e2 he2
    simp only [Tree.applyChangeSet_version, MultiTree.version, if_true, buildCommitInfo] at hnext ⊢
    rw [hnext]
    constructor
    · push_cast
      exact h2
    · omega

omit [Sha256] in
/-- The commit info is that of the last commit until the next one. -/
theorem applyWALEntry_lastCommitInfo (hi : t.Indexed) (h : t.applyWALEntry entry = .ok t') :
    t'.lastCommitInfo = t.lastCommitInfo := by
  obtain ⟨m, hm, hcs⟩ := applyWALEntry_ok.mp h
  obtain ⟨-, rfl⟩ := (hi.applyUpgrades hm).applyChangeSets_ok.mp hcs
  exact (applyUpgrades_fields hm).2.1

variable {a b : MultiTree}

omit [Sha256] in
theorem Same.applyWALEntry {a' : MultiTree} (h : a.Same b) (hi : a.Indexed)
    (ha : a.applyWALEntry entry = .ok a') : ∃ b', b.applyWALEntry entry = .ok b' ∧ a'.Same b' := by
  obtain ⟨m, hm, hcs⟩ := applyWALEntry_ok.mp ha
  obtain ⟨m', hm', hagree⟩ := h.toAgree.applyUpgrades hm
  obtain ⟨b', hb', hagree'⟩ := hagree.applyChangeSets (hi.applyUpgrades hm) hcs
  have hb := applyWALEntry_ok.mpr ⟨m', hm', hb'⟩
  refine ⟨b', hb, hagree', ?_⟩
  rw [applyWALEntry_lastCommitInfo hi ha, applyWALEntry_lastCommitInfo (h.indexed hi) hb,
    h.lastCommitInfo]

theorem Same.commitEntry {a' : MultiTree} (h : a.Same b) (hi : a.Indexed)
    (ha : a.commitEntry entry = .ok a') : ∃ b', b.commitEntry entry = .ok b' ∧ a'.Same b' := by
  obtain ⟨m, hm, hs⟩ := commitEntry_ok.mp ha
  obtain ⟨u, hu, hm⟩ := applyWALEntry_ok.mp hm
  obtain ⟨u', hu', hagree⟩ := h.toAgree.applyUpgrades hu
  obtain ⟨m', hm', hagree'⟩ := hagree.applyChangeSets (hi.applyUpgrades hu) hm
  obtain ⟨b', hb', hagree''⟩ : ∃ b', m'.saveVersion true = .ok b' ∧ a'.Agree b' :=
    hagree'.saveVersion hs
  have hb := commitEntry_ok.mpr ⟨m', applyWALEntry_ok.mpr ⟨u', hu', hm'⟩, hb'⟩
  obtain ⟨-, -, -, hinfo, -⟩ := commitEntry_fields hi ha
  obtain ⟨-, -, -, hinfo', -⟩ := commitEntry_fields (h.indexed hi) hb
  refine ⟨b', hb, hagree'', ?_⟩
  rw [hinfo, hinfo']
  simp only [buildCommitInfo, hagree''.version, hagree''.trees]

omit [Sha256] in
theorem applyUpgrades_metadata {upgrades : List TreeNameUpgrade} (h : t.applyUpgrades upgrades = .ok t') :
    t'.metadata = t.metadata := by
  unfold MultiTree.applyUpgrades at h
  split_ifs at h
  · cases h
    rfl
  · split at h
    · cases h
    · simp only at h
      split at h
      · cases h
      · cases h
        rfl

theorem commitEntry_metadata (hi : t.Indexed) (h : t.commitEntry entry = .ok t') :
    t'.metadata = t.metadata := by
  obtain ⟨m, hm, hs⟩ := commitEntry_ok.mp h
  obtain ⟨u, hu, hm⟩ := applyWALEntry_ok.mp hm
  obtain ⟨-, rfl⟩ := (hi.applyUpgrades hu).applyChangeSets_ok.mp hm
  obtain ⟨-, rfl⟩ := saveVersion_ok.mp hs
  have hmeta := applyUpgrades_metadata hu
  exact hmeta

theorem Same.committed (h : a.Same b) (ha : a.Committed) : b.Committed where
  indexed := h.indexed ha.indexed
  info := by
    rw [← h.lastCommitInfo, ha.info]
    simp only [buildCommitInfo, h.version, h.trees]
  lockstep := h.version ▸ h.trees ▸ ha.lockstep
  started := h.initialVersion ▸ h.trees ▸ ha.started
  initialVersion_le := h.initialVersion ▸ ha.initialVersion_le

omit [Sha256] in
theorem Agree.atIndex (h : a.Agree b) {i : Nat} (ha : a.AtIndex i) : b.AtIndex i :=
  ⟨h.version ▸ h.initialVersion ▸ ha.version, h.version ▸ ha.lt⟩

theorem Committed.aligned (ht : t.Committed) :
    Aligned (nextVersion t.version t.initialVersion) t.trees := fun _ he => ht.next he

theorem Committed.commitEntry (ht : t.Committed) (hv : 0 ≤ t.version)
    (h : t.commitEntry entry = .ok t') (hle : t'.version ≤ maxUint32) : t'.Committed := by
  obtain ⟨hi, hiv, hver, hinfo, hal⟩ := commitEntry_fields ht.indexed h
  have hpos := lt_nextVersion t.version t.initialVersion
  have hall := hal (by omega) (hver ▸ hle) ht.aligned
  exact ⟨hi, hinfo, fun e he => (hall e he).1, fun _ e he => (hall e he).2,
    hiv ▸ ht.initialVersion_le⟩

theorem AtIndex.commitEntry {i : Nat} (hat : t.AtIndex i) (hi : t.Indexed)
    (h : t.commitEntry entry = .ok t') (hlt : t'.version < 2 ^ 63) : t'.AtIndex (i + 1) := by
  obtain ⟨-, hiv, hver, -⟩ := commitEntry_fields hi h
  exact ⟨.inl (by rw [hver, hiv, hat.next]), hlt⟩

end Commit

end MultiTree

section History

variable [Sha256]

/-- The states before and after each block, and the entries of the blocks. The first state
has the index `n` in the log. Between blocks the trees may be replaced by the same ones. -/
structure History (n : Nat) (states : List MultiTree) (entries : List WALEntry) : Prop where
  length : states.length = entries.length + 1
  commit : ∀ j (t t' : MultiTree) entry, states[j]? = some t → states[j + 1]? = some t' →
    entries[j]? = some entry → ∃ u, t.commitEntry entry = .ok u ∧ u.Same t'
  atIndex : ∀ j (t : MultiTree), states[j]? = some t → t.AtIndex (n + j)
  indexed : ∀ t ∈ states, t.Indexed
  info : ∀ t ∈ states, t.lastCommitInfo = t.buildCommitInfo t.version
  committed : ∀ t ∈ states, t.version ≤ maxUint32 → t.Committed
  initialVersion : ∀ t ∈ states, ∀ t' ∈ states, t.initialVersion = t'.initialVersion

variable {n : Nat} {states : List MultiTree} {entries : List WALEntry}

variable {t a b l : MultiTree} {i j : Nat}

theorem History.single (hc : t.Committed) (hat : t.AtIndex n) :
    History n [t] [] where
  length := rfl
  commit j t t' entry _ _ he := by cases he
  atIndex j s hs := by
    obtain ⟨hj, rfl⟩ := List.getElem?_eq_some_iff.mp hs
    obtain rfl : j = 0 := by simpa using hj
    exact hat
  indexed s hs := mem_singleton.mp hs ▸ hc.indexed
  info s hs := mem_singleton.mp hs ▸ hc.info
  committed s hs _ := mem_singleton.mp hs ▸ hc
  initialVersion s hs s' hs' := by rw [mem_singleton.mp hs, mem_singleton.mp hs']

section

variable (h : History n states entries)
include h

theorem History.snoc {m m' : MultiTree} {entry : WALEntry}
    (ht : states[entries.length]? = some t) (hs : t.Same m) (hc : m.commitEntry entry = .ok m')
    (hlt : m'.version < 2 ^ 63) : History n (states ++ [m']) (entries ++ [entry]) := by
  have hmem := mem_of_getElem? ht
  have hi : m.Indexed := hs.indexed (h.indexed t hmem)
  have hat : m.AtIndex (n + entries.length) := hs.atIndex (h.atIndex _ t ht)
  obtain ⟨hi', hiv', hver', hinfo', -⟩ := MultiTree.commitEntry_fields hi hc
  have hpos := MultiTree.lt_nextVersion m.version m.initialVersion
  have hlen := h.length
  have hiv : ∀ s ∈ states, s.initialVersion = m'.initialVersion := fun s hs' =>
    (h.initialVersion s hs' t hmem).trans (hs.initialVersion.trans hiv'.symm)
  refine ⟨by simp [hlen], ?_, ?_, ?_, ?_, ?_, ?_⟩
  · intro j s s' e hs1 hs2 he
    by_cases hj : j < entries.length
    · rw [getElem?_append_left (by omega)] at hs1 hs2 he
      exact h.commit j s s' e hs1 hs2 he
    · obtain ⟨hj', -⟩ := List.getElem?_eq_some_iff.mp he
      obtain rfl : j = entries.length := by simp at hj'; omega
      rw [getElem?_append_left (by omega), ht] at hs1
      rw [← hlen, getElem?_concat_length] at hs2
      rw [getElem?_concat_length] at he
      cases hs1
      cases hs2
      cases he
      obtain ⟨u, hu, hsame⟩ := hs.symm.commitEntry hi hc
      exact ⟨u, hu, hsame.symm⟩
  · intro j s hs1
    by_cases hj : j < states.length
    · rw [getElem?_append_left hj] at hs1
      exact h.atIndex j s hs1
    · obtain ⟨hj', -⟩ := List.getElem?_eq_some_iff.mp hs1
      obtain rfl : j = states.length := by simp at hj'; omega
      rw [getElem?_concat_length] at hs1
      cases hs1
      rw [hlen, ← Nat.add_assoc]
      exact hat.commitEntry hi hc hlt
  all_goals simp only [mem_append, mem_singleton]
  · rintro s (hs1 | rfl)
    · exact h.indexed s hs1
    · exact hi'
  · rintro s (hs1 | rfl)
    · exact h.info s hs1
    · exact hinfo'
  · rintro s (hs1 | rfl) hle
    · exact h.committed s hs1 hle
    · have hm := hs.committed (h.committed t hmem (by rw [hs.version]; omega))
      exact hm.commitEntry hat.nonneg hc hle
  · rintro s (hs1 | rfl) s' (hs2 | rfl)
    · exact h.initialVersion s hs1 s' hs2
    · exact hiv s hs1
    · exact (hiv s' hs2).symm
    · rfl

theorem History.index_lt
    (ha : states[i]? = some a) (hb : states[j]? = some b) : i < j ↔ a.version < b.version := by
  have hiv := h.initialVersion a (mem_of_getElem? ha) b (mem_of_getElem? hb)
  constructor
  · exact fun hij => (h.atIndex i a ha).lt_version (h.atIndex j b hb) hiv (by omega)
  · intro hlt
    by_contra hle
    rcases (Nat.le_of_not_lt hle).lt_or_eq with hji | rfl
    · have := (h.atIndex j b hb).lt_version (h.atIndex i a ha) hiv.symm (by omega)
      omega
    · cases ha.symm.trans hb
      omega

theorem History.eq_of_version (ha : a ∈ states)
    (hb : b ∈ states) (hv : a.version = b.version) : a = b := by
  obtain ⟨i, hi⟩ := mem_iff_getElem?.mp ha
  obtain ⟨j, hj⟩ := mem_iff_getElem?.mp hb
  have hij := h.index_lt hi hj
  have hji := h.index_lt hj hi
  obtain rfl : i = j := by omega
  exact Option.some.inj (hi.symm.trans hj)

theorem History.load_writeSnapshot (ht : t ∈ states)
    (hl : loadMultiTree (t.writeSnapshot .empty) = .ok l) : t.version ≤ maxUint32 ∧ t.Same l := by
  have hle : t.version ≤ maxUint32 := by
    obtain ⟨md, ci, hmd, -⟩ := loadMultiTree_eq_ok_iff.mp hl
    obtain ⟨h1, h2, h3, -⟩ := readMetadata_eq_ok.mp hmd
    cases h1
    cases h2
    exact h3
  cases (loadMultiTree_writeSnapshot (h.committed t ht hle) hle).symm.trans hl
  exact ⟨hle, ⟨rfl, rfl, rfl, rfl⟩, rfl⟩

/-! ## Replay along a history -/

end

variable {P : Type} [WALCodec P] {log : IndexedLog P}

def Covers (log : IndexedLog P) (n : Nat) (entries : List WALEntry) (i j : Nat) : Prop :=
  ∀ k entry, i ≤ k → k < j → entries[k]? = some entry →
    MultiTree.LogHolds log (n + k + 1) entry

omit [Sha256] in
theorem Covers.mono {i' j' : Nat} (h : Covers log n entries i j)
    (hi : i ≤ i') (hj : j' ≤ j) : Covers log n entries i' j' :=
  fun k entry h1 h2 he => h k entry (by omega) (by omega) he

section

variable (h : History n states entries) (ha : states[i]? = some a)
include h ha

theorem History.replay
    (hb : states[j]? = some b) (hij : i ≤ j) (hlog : Covers log n entries i j) (hl : a.Agree l) :
    ∃ l', MultiTree.replay log (j - i) (n + i + 1) l = .ok l' ∧ b.Agree l' := by
  -- the induction is on the number of blocks that are left
  obtain ⟨d, rfl⟩ := Nat.exists_eq_add_of_le hij
  induction d generalizing i a l with
  | zero =>
    cases ha.symm.trans hb
    rw [Nat.add_zero, Nat.sub_self]
    exact ⟨l, rfl, hl⟩
  | succ d ih =>
    obtain ⟨hlt, -⟩ := List.getElem?_eq_some_iff.mp hb
    have hlen := h.length
    have ha' := getElem?_eq_getElem (show i + 1 < states.length by omega)
    have he := getElem?_eq_getElem (show i < entries.length by omega)
    obtain ⟨u, hc, hu⟩ := h.commit i a _ _ ha ha' he
    obtain ⟨l1, hagree, hreplay⟩ := MultiTree.replay_succ (hlog i _ le_rfl (by omega) he)
      (h.indexed a (mem_of_getElem? ha)) hl hc
    obtain ⟨l', hl', hb'⟩ := ih ha' (hu.symm.toAgree.trans hagree) (by rwa [show i + 1 + d = i + (d + 1) by omega])
      (by omega) (hlog.mono (by omega) (by omega))
    refine ⟨l', ?_, hb'⟩
    rw [show i + (d + 1) - i = d + 1 by omega, hreplay,
      show n + i + 1 + 1 = n + (i + 1) + 1 by omega]
    rwa [show i + 1 + d - (i + 1) = d by omega] at hl'

/-- What a catch-up to an end index does: it stops there with the state of that index. -/
theorem History.catchup_to (hb : states[j]? = some b) (hij : i < j)
    (hlog : Covers log n entries i j) (hl : a.Agree l) {endVersion : Int} (hend : 0 ≤ endVersion)
    (hindex : min (if endVersion = 0 then log.lastIndex else walIndex endVersion l.initialVersion)
      log.lastIndex = n + j) :
    ∃ l', l.catchupWAL log endVersion = .ok l' ∧ b.Same l' := by
  obtain ⟨l', hl', hb'⟩ := h.replay ha hb hij.le hlog hl
  have hfirst : walIndex (nextVersion l.version l.initialVersion) l.initialVersion = n + i + 1 := by
    rw [← hl.version, ← hl.initialVersion]
    exact (h.atIndex i a ha).walIndex_next
  refine ⟨l'.updateCommitInfo, ?_, ?_⟩
  · unfold MultiTree.catchupWAL
    simp only [hfirst]
    rw [if_neg (by omega), if_neg (by omega), if_neg (by omega), hindex,
      show n + j + 1 - (n + i + 1) = j - i by omega, hl']
  · have hsame := hb'.updateCommitInfo
    have hinfo := h.info b (mem_of_getElem? hb)
    exact ⟨⟨hsame.initialVersion, hsame.trees, hsame.treesByName, hsame.version⟩,
      hinfo.trans hsame.lastCommitInfo⟩

theorem History.catchupWAL_ahead
    (hl : a.Agree l) (hlast : log.lastIndex ≤ n + i) {endVersion : Int} (hend : 0 ≤ endVersion) :
    l.catchupWAL log endVersion = .ok l := by
  have hfirst : walIndex (nextVersion l.version l.initialVersion) l.initialVersion = n + i + 1 := by
    rw [← hl.version, ← hl.initialVersion]
    exact (h.atIndex i a ha).walIndex_next
  unfold MultiTree.catchupWAL
  simp only [hfirst]
  rw [if_neg (by omega), if_pos (by omega)]

theorem History.catchupWAL_latest (hb : states[j]? = some b) (hij : i ≤ j)
    (hlog : Covers log n entries i j) (hlast : log.lastIndex = n + j) (hl : a.Same l) :
    ∃ l', l.catchupWAL log 0 = .ok l' ∧ b.Same l' := by
  rcases hij.lt_or_eq with hij | rfl
  · exact h.catchup_to ha hb hij hlog hl.toAgree le_rfl (by rw [if_pos rfl, min_self, hlast])
  · cases ha.symm.trans hb
    exact ⟨l, h.catchupWAL_ahead ha hl.toAgree hlast.le le_rfl, hl⟩

/-- Catching up with a log that may have lost entries in front: if it succeeds, nothing that
was needed is missing, and it ends with a state of the history. -/
theorem History.catchupWAL_ok {l' : MultiTree} {endVersion : Int} (hn : n ≤ log.dropped)
    (hlog : Covers log n entries (log.dropped - n) j) (hlast : log.lastIndex = n + j)
    (hj : j ≤ entries.length) (hl : a.Same l) (hok : l.catchupWAL log endVersion = .ok l') :
    ∃ k b, states[k]? = some b ∧ b.Same l' ∧ (endVersion = 0 → k = max i j) := by
  have hend : 0 ≤ endVersion := by
    by_contra hneg
    rw [MultiTree.catchupWAL, if_pos (by omega)] at hok
    cases hok
  rcases le_or_gt j i with hji | hij
  · rw [h.catchupWAL_ahead ha hl.toAgree (by omega) hend] at hok
    cases hok
    exact ⟨i, a, ha, hl, fun _ => (max_eq_left hji).symm⟩
  have hfirst : walIndex (nextVersion l.version l.initialVersion) l.initialVersion = n + i + 1 :=
    (hl.atIndex (h.atIndex i a ha)).walIndex_next
  generalize hE : (if endVersion = 0 then log.lastIndex else walIndex endVersion l.initialVersion) = E
  have hlatest : endVersion = 0 → E = log.lastIndex := fun h0 => by rw [← hE, if_pos h0]
  have hread := hok
  unfold MultiTree.catchupWAL at hread
  simp only [hfirst, hE] at hread
  rw [if_neg (by omega), if_neg (by omega)] at hread
  split_ifs at hread with hbefore
  obtain ⟨k, hk⟩ := Nat.exists_eq_add_of_le (show n ≤ min E log.lastIndex by omega)
  obtain ⟨b, hb⟩ : ∃ b, states[k]? = some b :=
    ⟨_, getElem?_eq_getElem (by have := h.length; omega)⟩
  refine ⟨k, b, hb, ?_, fun h0 => ?_⟩
  · by_cases hd : log.dropped ≤ n + i
    · obtain ⟨l1, hl1, hsame⟩ := h.catchup_to ha hb (by omega) (hlog.mono (by omega) (by omega))
        hl.toAgree hend (by rw [hE, hk])
      cases hl1.symm.trans hok
      exact hsame
    · -- the first entry that is read is gone
      have hnone : log.read (n + i + 1) = none := by
        rw [← Option.not_isSome_iff_eq_none, IndexedLog.read_isSome_iff]
        omega
      rw [hk, show n + k + 1 - (n + i + 1) = (k - i - 1) + 1 by omega, MultiTree.replay, hnone] at hread
      cases hread
  · have := hlatest h0
    omega

theorem History.catchupWAL_target (hb : states[j]? = some b) (hij : i < j)
    (hlog : Covers log n entries i j) (hlast : n + j ≤ log.lastIndex) (hl : a.Agree l) :
    ∃ l', l.catchupWAL log b.version = .ok l' ∧ b.Same l' := by
  have hat := h.atIndex j b hb
  have hiv : l.initialVersion = b.initialVersion := by
    rw [← hl.initialVersion]
    exact h.initialVersion a (mem_of_getElem? ha) b (mem_of_getElem? hb)
  have hpos : 0 < b.version := by
    have := (h.atIndex i a ha).nonneg
    have := (h.atIndex i a ha).lt_version hat (hl.initialVersion.trans hiv) (by omega)
    omega
  refine h.catchup_to ha hb hij hlog hl hpos.le ?_
  rw [if_neg hpos.ne', hiv, hat.walIndex_eq (by omega), Nat.min_eq_left hlast]

end

end History

end CronosStore.Memiavl
