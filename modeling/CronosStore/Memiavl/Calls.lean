import CronosStore.Memiavl.Recovery
import CronosStore.Memiavl.Upgrades

/-!
# Blocks with calls in any order

Between two commits a caller may mix `ApplyUpgrades`, `ApplyChangeSets` and `ApplyChangeSet`.
The entry that is written has the effect of the calls if upgrades leave the stores alone
that were written to, and no batch makes two stores share a name on its way
(`pendingLog_faithful`). A call that fails leaves the database as it was if it is read-only,
and a database with stores only then (`failed_call_unchanged_iff`): the pending log is changed
before the trees are, and upgrades are made one by one.
-/

namespace CronosStore.Memiavl

open Foundation List

inductive Apply
  | upgrades (upgrades : List TreeNameUpgrade)
  | changeSets (call : Call)
deriving DecidableEq

namespace DB

def apply (db : DB) : Apply → Update DBError DB
  | .upgrades upgrades => db.applyUpgrades upgrades
  | .changeSets c => db.call c

def commit [Sha256] (db : DB) : DB :=
  match db.saveVersion with
  | .ok (_, db) => db.clearPending
  | .error f => f.state

inductive Applied (G : DB → Apply → Prop) (db₀ : DB) : DB → Prop
  | init : Applied G db₀ db₀
  | step {db db' : DB} {a : Apply} (run : Applied G db₀ db) (meets : G db a)
      (done : db.apply a = .ok db') : Applied G db₀ db'

def Written (db : DB) (name : Name) : Prop := ∃ cs ∈ db.pendingLog.deref, cs.name = name

/-- Upgrades neither delete nor rename a store that was written to in the block, and have
different names of stores throughout (so no batch swaps two names, which would replay). -/
def Separate (db : DB) : Apply → Prop
  | .upgrades upgrades => (∀ u ∈ upgrades, u.Spares db.Written) ∧
    MultiTree.distinctThroughout (nextVersion db.mtree.version db.mtree.initialVersion) upgrades
      db.mtree.trees = true
  | .changeSets _ => True

variable {db db' db₀ : DB} {a : Apply}

/-! ## The entry of a block -/

theorem Pending.call {m : MultiTree} (h : db.Pending m) (hi : m.Indexed) {c : Call}
    (hok : db.call c = .ok db') :
    db'.Pending m ∧ db'.pendingLog.upgrades = db.pendingLog.upgrades := by
  cases c with
  | applyChangeSets changeSets =>
    obtain ⟨hp, hu, -⟩ := h.applyChangeSets hi hok
    exact ⟨hp, hu⟩
  | applyChangeSet name changeSet =>
    obtain ⟨hp, hu, -⟩ := h.applyChangeSet hi hok
    exact ⟨hp, hu⟩

theorem pairsFor_eq_nil_of_not_written {name : Name} (h : ¬db.Written name) :
    MultiTree.pairsFor name db.pendingLog.deref = [] :=
  MultiTree.pairsFor_eq_nil fun cs hcs hn => h ⟨cs, hcs, hn⟩

theorem LogValid.withUpgrades (h : db.LogValid) (t : MultiTree) (upgrades : List TreeNameUpgrade) :
    DB.LogValid { db with mtree := t, pendingLog := { db.pendingLog with upgrades := upgrades } } where
  valid := ⟨h.valid.nodup, h.valid.lt⟩
  maps hne := by
    obtain ⟨map, hcache, hmap⟩ := h.maps hne
    exact ⟨map, hcache, ⟨hmap.fresh, hmap.last⟩⟩

variable {upgrades : List TreeNameUpgrade}

/-- The upgrades go to the trees before the change sets of the log. -/
theorem Pending.applyUpgrades {m : MultiTree} (h : db.Pending m)
    (hsep : db.Separate (.upgrades upgrades)) (hok : db.applyUpgrades upgrades = .ok db') :
    ∃ m', m.applyUpgrades upgrades = .ok m' ∧ db'.Pending m' ∧
      MultiTree.distinctThroughout (nextVersion m.version m.initialVersion) upgrades m.trees = true ∧
      db'.pendingLog.upgrades = db.pendingLog.upgrades ++ upgrades := by
  obtain ⟨t, ht, -, rfl⟩ := applyUpgrades_ok hok
  obtain ⟨hspare, hd⟩ := hsep
  rw [h.mtree] at ht hd
  obtain ⟨m', hm', rfl, hknown, hd'⟩ := MultiTree.applyUpgrades_applyPairs
    (fun name ⟨cs, hcs, hn⟩ => hn ▸ h.known cs hcs) (fun _ => pairsFor_eq_nil_of_not_written) hspare hd ht
  exact ⟨m', hm', ⟨h.toLogValid.withUpgrades _ _, rfl, fun cs hcs => hknown _ ⟨cs, hcs, rfl⟩⟩, hd', rfl⟩

theorem PendingFrom.apply {t : MultiTree} (h : db.PendingFrom t) (hsep : db.Separate a)
    (hok : db.apply a = .ok db') : db'.PendingFrom t := by
  obtain ⟨m, hm, him, hp⟩ := h
  cases a with
  | upgrades upgrades =>
    obtain ⟨m', hm', hp', hd, hu⟩ := hp.applyUpgrades hsep hok
    refine ⟨m', ?_, him.applyUpgrades hm', hp'⟩
    rw [hu]
    exact MultiTree.applyUpgrades_append hm hm' hd
  | changeSets c =>
    obtain ⟨hp', hu⟩ := hp.call him hok
    exact ⟨m, hu ▸ hm, him, hp'⟩

theorem Applied.pending (hb : db₀.AtBoundary) (hi : db₀.mtree.Indexed)
    (hrun : Applied Separate db₀ db) : db.PendingFrom db₀.mtree := by
  induction hrun with
  | init => exact hb.pendingFrom hi
  | step _ hmeets hdone ih => exact ih.apply hmeets hdone

/-- Whatever calls a block is made of, in any order and number: if upgrades leave alone what
was written to and have different names throughout, the pending log leads from the trees at
the boundary to the live trees. -/
theorem pendingLog_faithful (hb : db₀.AtBoundary) (hi : db₀.mtree.Indexed)
    (hrun : Applied Separate db₀ db) :
    db₀.mtree.applyWALEntry db.pendingLog.entry = .ok db.mtree := by
  have hp := hrun.pending hb hi
  exact hp.applyWALEntry

def twoStores : DB :=
  let db := stateAfter ((DB.new (.fresh 0) false).applyUpgrades [⟨[1], [], false⟩, ⟨[2], [], false⟩])
  @DB.commit Sha256.zero (stateAfter (db.applyChangeSet [2] [⟨false, [7], some [7]⟩]))

theorem twoStores_atBoundary : twoStores.AtBoundary := ⟨rfl, rfl⟩

theorem twoStores_indexed : twoStores.mtree.Indexed := ⟨by decide, rfl⟩

/-- A store is added after another was written to, and then both are written. -/
theorem pendingLog_faithful_added : ∃ db db' db'',
    twoStores.apply (.changeSets (.applyChangeSet [2] [⟨false, [8], none⟩])) = .ok db ∧
      db.apply (.upgrades [⟨[3], [], false⟩, ⟨[0], [1], false⟩]) = .ok db' ∧
      db'.apply (.changeSets (.applyChangeSets [⟨[3], [⟨false, [8], none⟩]⟩, ⟨[2], [⟨true, [7], none⟩]⟩])) =
        .ok db'' ∧
      twoStores.mtree.applyWALEntry db''.pendingLog.entry = .ok db''.mtree := by
  obtain ⟨db, hdb⟩ : ∃ db, twoStores.apply
      (.changeSets (.applyChangeSet [2] [⟨false, [8], none⟩])) = .ok db := ⟨_, rfl⟩
  have hstate : db = stateAfter (twoStores.apply
      (.changeSets (.applyChangeSet [2] [⟨false, [8], none⟩]))) := by rw [hdb, stateAfter_ok]
  have hsep : db.Separate (.upgrades [⟨[3], [], false⟩, ⟨[0], [1], false⟩]) := by
    have hspare : ¬db.Written [1] := by
      rintro ⟨cs, hcs, hname⟩
      rw [hstate] at hcs
      rw [mem_singleton.mp hcs] at hname
      revert hname
      decide
    refine ⟨fun u hu => ?_, by rw [hstate]; decide⟩
    simp only [mem_cons, not_mem_nil, or_false] at hu
    rcases hu with rfl | rfl
    · exact fun hne => absurd rfl hne
    · exact fun _ => hspare
  obtain ⟨db', hdb'⟩ : ∃ db', db.apply (.upgrades [⟨[3], [], false⟩, ⟨[0], [1], false⟩]) = .ok db' := by
    rw [hstate]
    exact ⟨_, rfl⟩
  have hstate' : db' = stateAfter (db.apply (.upgrades [⟨[3], [], false⟩, ⟨[0], [1], false⟩])) := by
    rw [hdb', stateAfter_ok]
  obtain ⟨db'', hdb''⟩ : ∃ db'', db'.apply (.changeSets (.applyChangeSets
      [⟨[3], [⟨false, [8], none⟩]⟩, ⟨[2], [⟨true, [7], none⟩]⟩])) = .ok db'' := by
    rw [hstate', hstate]
    exact ⟨_, rfl⟩
  refine ⟨db, db', db'', hdb, hdb', hdb'', ?_⟩
  apply pendingLog_faithful twoStores_atBoundary twoStores_indexed
  apply Applied.step _ trivial hdb''
  apply Applied.step _ hsep hdb'
  apply Applied.step .init _ hdb
  exact trivial

/-- A store is written to and then deleted: the entry does not apply. -/
theorem exists_unfaithful_entry : ∃ db db',
    twoStores.AtBoundary ∧ twoStores.mtree.Indexed ∧
      twoStores.applyChangeSet [1] [⟨false, [8], none⟩] = .ok db ∧
      db.applyUpgrades [⟨[1], [], true⟩] = .ok db' ∧
      (twoStores.mtree.applyWALEntry db'.pendingLog.entry).toOption = none :=
  ⟨_, _, twoStores_atBoundary, twoStores_indexed, rfl, rfl, by decide⟩

-- A store is renamed from `[2]` to `[0]`, then another one of that name is added, `[1]` is
-- deleted and so is `[0]`. In two batches the renamed store is the first of its name and goes;
-- in one batch the deletion of `[1]` moves the new one before it.
example : ∃ db db',
    twoStores.applyUpgrades [⟨[0], [2], false⟩] = .ok db ∧
      db.applyUpgrades [⟨[0], [], false⟩, ⟨[1], [], true⟩, ⟨[0], [], true⟩] = .ok db' ∧
      db'.mtree.treeByName [0] = some ⟨1, none⟩ ∧
      (twoStores.mtree.applyUpgrades db'.pendingLog.upgrades).toOption.bind (·.treeByName [0]) ≠
        some ⟨1, none⟩ :=
  ⟨_, _, rfl, rfl, by decide, by decide⟩

/-! ## Calls that fail -/

section Reached

variable [Sha256]

inductive Reached (db₀ : DB) : DB → Prop
  | init : Reached db₀ db₀
  | apply {db : DB} (run : Reached db₀ db) (a : Apply) : Reached db₀ (stateAfter (db.apply a))
  | commit {db : DB} (run : Reached db₀ db) : Reached db₀ db.commit

end Reached

def Unchanged (db db' : DB) : Prop :=
  db'.mtree = db.mtree ∧ db'.pendingLog.entry = db.pendingLog.entry

theorem stateAfter_onTrees (db : DB) (r : Update MultiTreeError MultiTree) :
    stateAfter (db.onTrees r) = { db with mtree := stateAfter r } := by
  cases r with
  | ok t => rfl
  | error f => rfl

theorem LogValid.withTrees (h : db.LogValid) (t : MultiTree) :
    DB.LogValid { db with mtree := t } :=
  h.withUpgrades t db.pendingLog.upgrades

structure Grown (db db' : DB) : Prop extends db'.LogValid where
  readOnly : db'.readOnly = db.readOnly
  pairs : ∀ n, MultiTree.pairsFor n db.pendingLog.deref <+: MultiTree.pairsFor n db'.pendingLog.deref

theorem LogValid.grown (h : db.LogValid) : Grown db db :=
  ⟨h, rfl, fun _ => prefix_rfl⟩

theorem Grown.trans {db'' : DB} (h : Grown db db') (h' : Grown db' db'') : Grown db db'' :=
  ⟨h'.toLogValid, h'.readOnly.trans h.readOnly, fun n => (h.pairs n).trans (h'.pairs n)⟩

theorem LogValid.applyChangeSet_grown (h : db.LogValid) (hro : db.readOnly = false) (name : Name)
    (cs : ChangeSet) :
    Grown db (stateAfter (db.applyChangeSet name cs)) ∧
      ∀ f, db.applyChangeSet name cs = .error f →
        MultiTree.pairsFor name db.pendingLog.deref ≠ MultiTree.pairsFor name f.state.pendingLog.deref := by
  by_cases hne : cs = []
  · rw [DB.applyChangeSet, if_pos hne]
    exact ⟨h.grown, fun f hf => by cases hf⟩
  obtain ⟨db1, hm, heq⟩ := h.applyChangeSet name hne hro
  have hstate := stateAfter_onTrees db1 (db.mtree.applyChangeSet name cs)
  refine ⟨?_, fun f hf hsame => hne ?_⟩
  · rw [heq, hstate]
    exact ⟨hm.toLogValid.withTrees _, hm.readOnly, fun n => ⟨_, (hm.pairs n).symm⟩⟩
  · rw [heq] at hf
    rw [hf, stateAfter_error] at hstate
    have hp := hm.pairs name
    have hlog : f.state.pendingLog = db1.pendingLog := by rw [hstate]
    rw [← hlog, ← hsame, if_pos rfl] at hp
    exact self_eq_append_right.mp hp

theorem LogValid.applyEach_grown (h : db.LogValid) (hro : db.readOnly = false)
    (changeSets : List NamedChangeSet) :
    Grown db (stateAfter (db.applyEach changeSets)) ∧
      ∀ f, db.applyEach changeSets = .error f →
        ∃ n, MultiTree.pairsFor n db.pendingLog.deref ≠ MultiTree.pairsFor n f.state.pendingLog.deref := by
  induction changeSets generalizing db with
  | nil => exact ⟨h.grown, fun f hf => by cases hf⟩
  | cons cs changeSets ih =>
    obtain ⟨hgrown, hne⟩ := h.applyChangeSet_grown hro cs.name cs.changeset
    rw [DB.applyEach]
    cases h1 : db.applyChangeSet cs.name cs.changeset with
    | error f =>
      rw [h1] at hgrown
      refine ⟨hgrown, fun g hg => ⟨cs.name, ?_⟩⟩
      cases hg
      exact hne f h1
    | ok db1 =>
      rw [h1, stateAfter_ok] at hgrown
      obtain ⟨hgrown', hne'⟩ := ih hgrown.toLogValid (hgrown.readOnly.trans hro)
      refine ⟨hgrown.trans hgrown', fun f hf => ?_⟩
      obtain ⟨n, hn⟩ := hne' f hf
      refine ⟨n, fun hsame => hn ?_⟩
      -- what was there before is between the two
      simp only at hf
      rw [hf, stateAfter_error] at hgrown'
      have hle := hgrown.pairs n
      have hle' := hgrown'.pairs n
      apply hle'.eq_of_length_le
      exact (congrArg List.length hsame).symm.trans_le hle.length_le

/-- What a call with change sets leaves, on a database that is not read-only. -/
theorem LogValid.call (h : db.LogValid) (hro : db.readOnly = false) (c : Call) :
    (stateAfter (db.call c)).LogValid ∧ (stateAfter (db.call c)).readOnly = false ∧
      ∀ f, db.call c = .error f → db.pendingLog.deref ≠ f.state.pendingLog.deref := by
  cases c with
  | applyChangeSet name cs =>
    obtain ⟨hgrown, hne⟩ := h.applyChangeSet_grown hro name cs
    exact ⟨hgrown.toLogValid, hgrown.readOnly.trans hro, fun f hf hsame => hne f hf (by rw [hsame])⟩
  | applyChangeSets changeSets =>
    rw [DB.call, DB.applyChangeSets]
    by_cases hne : changeSets = []
    · rw [if_pos hne]
      exact ⟨h, hro, fun f hf => by cases hf⟩
    rw [if_neg hne, if_neg (by simp [hro])]
    by_cases hnil : db.pendingLog.changesets = []
    · rw [if_pos hnil]
      obtain ⟨hvalid, hderef, -, -, hro'⟩ := setPendingChangeSets_ok db hne
      have hstate := stateAfter_onTrees (db.setPendingChangeSets changeSets)
        ((db.setPendingChangeSets changeSets).mtree.applyChangeSets changeSets)
      simp only at hstate ⊢
      refine ⟨hstate ▸ hvalid.withTrees _, ?_, fun f hf hsame => hne ?_⟩
      · rw [hstate]
        exact hro'.trans hro
      · rw [hf, stateAfter_error] at hstate
        have hlog : f.state.pendingLog = _ := congrArg DB.pendingLog hstate
        rw [← hderef, ← hlog, ← hsame, PendingLog.deref, hnil]
        rfl
    · rw [if_neg hnil]
      obtain ⟨hgrown, hne⟩ := h.applyEach_grown hro changeSets
      refine ⟨hgrown.toLogValid, hgrown.readOnly.trans hro, fun f hf hsame => ?_⟩
      obtain ⟨n, hn⟩ := hne f hf
      exact hn (by rw [hsame])

theorem apply_readOnly (hro : db.readOnly = true) (a : Apply) : stateAfter (db.apply a) = db := by
  have hset : ∀ name cs, stateAfter (db.applyChangeSet name cs) = db := by
    intro name cs
    rw [DB.applyChangeSet, if_pos hro]
    split_ifs <;> rfl
  cases a with
  | upgrades upgrades =>
    rw [DB.apply, DB.applyUpgrades, if_pos hro]
    rfl
  | changeSets c =>
    cases c with
    | applyChangeSet name cs => exact hset name cs
    | applyChangeSets changeSets =>
      rw [DB.apply, DB.call, DB.applyChangeSets, if_pos hro]
      split_ifs <;> rfl

/-- The upgrades that went through are not in the log if a later one fails. -/
theorem applyUpgrades_error {f : Failure DBError DB}
    (hro : db.readOnly = false) (h : db.applyUpgrades upgrades = .error f) :
    ∃ g, db.mtree.applyUpgrades upgrades = .error g ∧ f.state = { db with mtree := g.state } := by
  rw [DB.applyUpgrades, if_neg (by simp [hro])] at h
  cases hu : db.mtree.applyUpgrades upgrades with
  | ok t =>
    rw [hu] at h
    cases h
  | error g =>
    rw [hu] at h
    cases h
    exact ⟨g, rfl, rfl⟩

theorem LogValid.apply (h : db.LogValid) (a : Apply) : (stateAfter (db.apply a)).LogValid := by
  cases hro : db.readOnly with
  | true =>
    rw [apply_readOnly hro]
    exact h
  | false =>
    cases a with
    | changeSets c => exact (h.call hro c).1
    | upgrades upgrades =>
      cases hu : db.applyUpgrades upgrades with
      | ok db' =>
        obtain ⟨t, -, -, rfl⟩ := applyUpgrades_ok hu
        rw [DB.apply, hu]
        exact h.withUpgrades _ _
      | error f =>
        obtain ⟨g, -, hf⟩ := applyUpgrades_error hro hu
        rw [DB.apply, hu, stateAfter_error, hf]
        exact h.withTrees _

theorem Reached.logValid [Sha256] (hb : db₀.AtBoundary) (hrun : Reached db₀ db) : db.LogValid := by
  induction hrun with
  | init => exact (pending_of_nil hb.changesets).toLogValid
  | apply _ a ih => exact ih.apply a
  | commit _ ih =>
    rename_i db _
    unfold DB.commit
    cases hs : db.saveVersion with
    | ok r =>
      have hnil : r.2.clearPending.pendingLog.changesets = [] := rfl
      exact (pending_of_nil hnil).toLogValid
    | error f =>
      unfold DB.saveVersion at hs
      split_ifs at hs with hro
      · cases hs
        exact ih
      · have hstate := stateAfter_onTrees db (db.mtree.saveVersion true)
        cases ht : db.onTrees (db.mtree.saveVersion true) with
        | ok db' =>
          rw [ht] at hs
          cases hs
        | error g =>
          rw [ht] at hs hstate
          cases hs
          rw [stateAfter_error] at hstate
          simp only [hstate]
          exact ih.withTrees _

theorem applyUpgrades_error_ne {t : MultiTree} (hi : t.Indexed) (hne : t.trees ≠ [])
    {g : Failure MultiTreeError MultiTree} (h : t.applyUpgrades upgrades = .error g) : g.state ≠ t := by
  intro heq
  unfold MultiTree.applyUpgrades at h
  split_ifs at h
  split at h
  · cases h
    have hindex : [] = indexFrom 0 t.trees :=
      (congrArg MultiTree.treesByName heq).trans hi.index
    obtain ⟨e, trees, hcons⟩ := exists_cons_of_ne_nil hne
    rw [hcons] at hindex
    cases hindex
  · rename_i T _
    simp only at h
    split at h
    · rename_i f hf
      cases h
      have htrees : MultiTree.sortByName T = t.trees := congrArg MultiTree.trees heq
      have hnd : (t.trees.map NamedTree.name).Nodup := by
        rw [List.Nodup, pairwise_map]
        exact hi.sorted.imp fun hlt => hlt.ne
      obtain ⟨index, hok⟩ : ∃ index, MultiTree.indexTrees 0 t.trees [] = .ok index :=
        MultiTree.exists_indexTrees hnd fun _ _ => rfl
      rw [htrees, hok] at hf
      cases hf
    · cases h

variable [Sha256]

/-- From any database that calls and commits lead to, failed ones included: a call that fails
leaves the database as it was if it is read-only. Otherwise change sets are in the pending log
already, and upgrades have changed the stores or their index. -/
theorem failed_call_unchanged_iff {f : Failure DBError DB} (hb : db₀.AtBoundary)
    (hrun : Reached db₀ db) (hfail : db.apply a = .error f) :
    (db.readOnly = true → db.Unchanged f.state) ∧
    ((∃ c, a = .changeSets c) ∨ db.mtree.Indexed ∧ db.mtree.trees ≠ [] →
      (db.Unchanged f.state ↔ db.readOnly = true)) := by
  have hvalid := hrun.logValid hb
  have hreadOnly : db.readOnly = true → db.Unchanged f.state := by
    intro hro
    have hstate := apply_readOnly hro a
    rw [hfail, stateAfter_error] at hstate
    rw [hstate]
    exact ⟨rfl, rfl⟩
  refine ⟨hreadOnly, fun hcase => ⟨fun hsame => ?_, hreadOnly⟩⟩
  by_contra hne
  have hro := Bool.eq_false_iff.mpr hne
  cases a with
  | changeSets c => exact (hvalid.call hro c).2.2 f hfail (congrArg WALEntry.changesets hsame.2).symm
  | upgrades upgrades =>
    obtain ⟨c, hc⟩ | ⟨hi, htrees⟩ := hcase
    · cases hc
    · obtain ⟨g, hg, hf⟩ := applyUpgrades_error hro hfail
      refine applyUpgrades_error_ne hi htrees hg ?_
      rw [← hsame.1, hf]

omit [Sha256] in
/-- Read-only and with stores; the upgrade is refused. -/
theorem failed_call_unchanged_readOnly : ∃ f,
    DB.apply { twoStores with readOnly := true } (.upgrades [⟨[3], [], true⟩]) = .error f ∧
      DB.Unchanged { twoStores with readOnly := true } f.state := by
  let _ := Sha256.zero
  have hb : DB.AtBoundary { twoStores with readOnly := true } := ⟨rfl, rfl⟩
  obtain ⟨f, hf⟩ : ∃ f, DB.apply { twoStores with readOnly := true }
      (.upgrades [⟨[3], [], true⟩]) = .error f := ⟨_, rfl⟩
  refine ⟨f, hf, ?_⟩
  exact ((failed_call_unchanged_iff hb .init hf).2 (.inr ⟨⟨by decide, rfl⟩, by decide⟩)).mpr rfl

omit [Sha256] in
/-- Change sets for a store that is not there are refused, and then committed: the log keeps
them, and the entry does not apply. A failed upgrade loses the index of the names. -/
theorem exists_failed_call_changes : ∃ f g,
    twoStores.apply (.changeSets (.applyChangeSet [3] [⟨false, [8], none⟩])) = .error f ∧
      f.state.pendingLog.entry ≠ twoStores.pendingLog.entry ∧
      (∃ e db, @DB.saveVersion Sha256.zero f.state = .ok (e, db) ∧
        (twoStores.mtree.applyWALEntry e.data).toOption = none) ∧
      twoStores.apply (.upgrades [⟨[3], [], true⟩]) = .error g ∧
      twoStores.mtree.treeByName [2] ≠ none ∧ g.state.mtree.treeByName [2] = none :=
  ⟨_, _, rfl, by decide, ⟨_, _, rfl, by decide⟩, rfl, by decide, by decide⟩

end DB

end CronosStore.Memiavl
