import CronosStore.Foundation.StableSort
import CronosStore.Memiavl.Consistency
import CronosStore.Memiavl.PendingOrder

/-!
# The root store

`Store` of `rootmulti/store.go`: the database and, for every mounted store that is kept in a tree,
the pairs that were written and not handed over yet. `WorkingHash` and `Commit` hand them over first
(`flush`), sorted by the names of the stores.

`Commit` may end with the trees of a snapshot that was rewritten in the background, which are
the same ones (`sameTrees_of_switched`).
-/

namespace CronosStore.RootMulti

open Foundation Memiavl List

/-- `CommitInfo.Hash` of the SDK, which depends on the names and the hashes of the stores. -/
class AppHash where
  hash : List (Name × Bytes) → Bytes

@[reducible] def AppHash.concat : AppHash where
  hash stores := stores.flatMap fun e => e.1 ++ e.2

structure Store where
  db : DB
  /-- The stores that are kept in a tree, with the change set of each. -/
  stores : List (Name × ChangeSet)
  /-- The stores that are neither kept in a tree nor transient. -/
  memStores : List Name
  sdk46Compact : Bool
  lastCommitInfo : CommitInfo

/-- The orders in which Go happens to go through `stores` and `storesParams`. -/
structure Iteration where
  stores : List Name
  storesParams : List Name

namespace Store

def Iterates (s : Store) (o : Iteration) : Prop :=
  o.stores.Perm (s.stores.map Prod.fst) ∧ o.storesParams.Perm s.memStores

def buffer (s : Store) (name : Name) : ChangeSet := (s.stores.lookup name).getD []

def popChangeSets (s : Store) (order : List Name) : List NamedChangeSet :=
  order.filterMap fun name => if s.buffer name = [] then none else some ⟨name, s.buffer name⟩

/-- `flush`. An error is a panic of the callers. -/
def flush (s : Store) (o : Iteration) : Option Store :=
  match s.db.applyChangeSets (sortBy NamedChangeSet.name (s.popChangeSets o.stores)) with
  | .error _ => none
  | .ok db => some { s with db := db, stores := s.stores.map fun e => (e.1, []) }

def amendCommitInfo (info : CommitInfo) (memStores : List Name) : CommitInfo :=
  { info with
    storeInfos := sortBy StoreInfo.name (info.storeInfos ++ memStores.map fun name => ⟨name, 0, []⟩) }

def commitInfo (s : Store) (o : Iteration) (info : CommitInfo) : CommitInfo :=
  if s.sdk46Compact then amendCommitInfo info o.storesParams else info

variable [Sha256] [AppHash]

omit [Sha256] in
def appHash (info : CommitInfo) : Bytes :=
  AppHash.hash (info.storeInfos.map fun i => (i.name, i.commitId.hash))

def workingHash (s : Store) (o : Iteration) : Option (Bytes × Store) := do
  let s ← s.flush o
  pure (appHash (s.commitInfo o s.db.mtree.workingCommitInfo), s)

/-- The end of `DB.Commit`. Nothing is pending for the trees it goes over to. -/
def afterCommit (db : DB) (reloaded : Option MultiTree) : DB :=
  { db.clearPending with mtree := reloaded.getD db.mtree }

def commit (s : Store) (o : Iteration) (reloaded : Option MultiTree) :
    Option (CommitID × WalEntry × Store) := do
  let s ← s.flush o
  match s.db.saveVersion with
  | .error _ => none
  | .ok (entry, db) =>
    let db := afterCommit db reloaded
    let info := s.commitInfo o db.mtree.lastCommitInfo
    pure (⟨info.version, appHash info⟩, entry, { s with db := db, lastCommitInfo := info })

end Store

inductive StoreOp
  | set (store : Name) (key : Bytes) (value : Slice)
  | delete (store : Name) (key : Bytes)
  | workingHash (o : Iteration)

namespace StoreOp

def isWrite : StoreOp → Bool
  | .workingHash _ => false
  | _ => true

end StoreOp

namespace Store

def write (s : Store) (store : Name) (pair : KVPair) : Option Store :=
  if (s.stores.lookup store).isSome then
    some { s with
      stores := s.stores.map fun e => (e.1, if e.1 = store then e.2 ++ [pair] else e.2) }
  else none

variable [Sha256] [AppHash]

def apply (s : Store) : StoreOp → Option Store
  | .set store key value => s.write store ⟨false, key, value⟩
  | .delete store key => s.write store ⟨true, key, none⟩
  | .workingHash o => (s.workingHash o).map Prod.snd

def run (ops : List StoreOp) (s : Store) : Option Store := ops.foldlM apply s

inductive Reachable : Store → Prop
  | load {s : Store} (changesets : s.db.pendingLog.changesets = []) (indexed : s.db.mtree.Indexed)
      (names : (s.stores.map Prod.fst).Nodup) (memNames : s.memStores.Nodup) : Reachable s
  | apply {s s' : Store} {op : StoreOp} (h : Reachable s) (taken : s.apply op = some s')
      (order : ∀ o, op = .workingHash o → s.Iterates o) : Reachable s'
  | commit {s s' : Store} {o : Iteration} {reloaded : Option MultiTree} {id : CommitID}
      {entry : WalEntry} (h : Reachable s) (taken : s.commit o reloaded = some (id, entry, s'))
      (order : s.Iterates o) (indexed : ∀ t, reloaded = some t → t.Indexed) : Reachable s'

end Store

/-! ## Handing over -/

theorem lookup_map_key {β γ : Type} (f : Name → β → γ) (l : List (Name × β)) (name : Name) :
    (l.map fun e => (e.1, f e.1 e.2)).lookup name = (l.lookup name).map (f name) := by
  induction l with
  | nil => rfl
  | cons e l ih =>
    rw [map_cons, lookup_cons, lookup_cons, ih]
    by_cases h : name = e.1
    · simp [h]
    · simp [beq_false_of_ne h]

namespace Store

open MultiTree PendingLog DB List

variable {s s' : Store} {m : MultiTree} {o : Iteration} {name : Name}

theorem mem_names_of_buffer (h : s.buffer name ≠ []) : name ∈ s.stores.map Prod.fst := by
  cases hl : s.stores.lookup name with
  | none => simp [buffer, hl] at h
  | some cs =>
    obtain ⟨l, r, hsplit, -⟩ := lookup_eq_some_iff.mp hl
    rw [hsplit]
    simp

theorem buffer_clear (db : DB) :
    buffer { s with db := db, stores := s.stores.map fun e => (e.1, []) } name = [] := by
  rw [buffer, lookup_map_key (fun _ _ => [])]
  cases s.stores.lookup name <;> rfl

theorem names_clear (stores : List (Name × ChangeSet)) :
    (stores.map fun e => (e.1, ([] : ChangeSet))).map Prod.fst = stores.map Prod.fst := by
  rw [map_map]
  rfl

theorem write_eq_some {store : Name} {pair : KVPair} (h : s.write store pair = some s') :
    s' = { s with stores := s'.stores } ∧ s'.stores.map Prod.fst = s.stores.map Prod.fst ∧
      ∀ name, s'.buffer name = s.buffer name ++ if name = store then [pair] else [] := by
  unfold write at h
  split_ifs at h with hsome
  cases h
  refine ⟨rfl, by simp, fun name => ?_⟩
  rw [buffer, lookup_map_key (fun n cs => if n = store then cs ++ [pair] else cs), buffer]
  by_cases hn : name = store
  · subst hn
    obtain ⟨cs, hcs⟩ := Option.isSome_iff_exists.mp hsome
    simp [hcs]
  · simp [hn]

theorem mem_popChangeSets {order : List Name} {cs : NamedChangeSet} :
    cs ∈ s.popChangeSets order ↔ cs.name ∈ order ∧ s.buffer cs.name ≠ [] ∧
      cs.changeset = s.buffer cs.name := by
  obtain ⟨n, pairs⟩ := cs
  simp only [popChangeSets, mem_filterMap]
  constructor
  · rintro ⟨name, hname, h⟩
    split_ifs at h with hnil
    cases h
    exact ⟨hname, hnil, rfl⟩
  · rintro ⟨hname, hne, hpairs⟩
    have hpairs : pairs = s.buffer n := hpairs
    exact ⟨n, hname, by simp [hpairs, if_neg hne]⟩

theorem inOrder_popChangeSets {order : List Name} (h : order.Nodup) :
    InOrder (sortBy NamedChangeSet.name (s.popChangeSets order)) where
  sorted := by
    apply pairwise_sortBy_lt
    have hsub : ((s.popChangeSets order).map NamedChangeSet.name).Sublist order := by
      rw [popChangeSets, map_filterMap]
      induction order with
      | nil => exact List.Sublist.refl _
      | cons name order ih =>
        have ih := ih (nodup_cons.mp h).2
        by_cases hnil : s.buffer name = []
        · simpa [hnil] using ih.cons name
        · simpa [hnil] using ih.cons_cons name
    exact hsub.nodup h
  nonempty := by
    intro cs hcs
    obtain ⟨-, hne, hpairs⟩ := mem_popChangeSets.mp (mem_sortBy.mp hcs)
    rw [hpairs]
    exact hne

/-- All that is in the buffers is handed over, whatever the order of the iteration. -/
theorem pairsFor_popChangeSets (hnames : (s.stores.map Prod.fst).Nodup) (ho : s.Iterates o) :
    pairsFor name (sortBy NamedChangeSet.name (s.popChangeSets o.stores)) = s.buffer name := by
  have horder := inOrder_popChangeSets (s := s) (ho.1.nodup_iff.mpr hnames)
  by_cases hnil : s.buffer name = []
  · rw [hnil]
    refine pairsFor_eq_nil fun cs hcs hn => ?_
    obtain ⟨-, hne, -⟩ := mem_popChangeSets.mp (mem_sortBy.mp hcs)
    exact hne (hn ▸ hnil)
  · have hmem : (⟨name, s.buffer name⟩ : NamedChangeSet) ∈
        sortBy NamedChangeSet.name (s.popChangeSets o.stores) :=
      mem_sortBy.mpr (mem_popChangeSets.mpr
        ⟨ho.1.mem_iff.mpr (mem_names_of_buffer hnil), hnil, rfl⟩)
    exact horder.pairsFor_eq hmem

/-- In a block that began with the trees `m`. -/
structure Sound (m : MultiTree) (s : Store) : Prop where
  indexed : m.Indexed
  pending : s.db.Pending m
  inOrder : InOrder s.db.pendingLog.deref
  names : (s.stores.map Prod.fst).Nodup
  memNames : s.memStores.Nodup

def Accepts (m : MultiTree) (db : DB) (name : Name) : Prop := db.readOnly = false ∧ m.HasTree name

/-- What `flush` does: it hands over all buffers, or fails because of one of them. -/
theorem Sound.flush (h : s.Sound m) (ho : s.Iterates o) :
    (∃ db, s.flush o = some { s with db := db, stores := s.stores.map fun e => (e.1, []) } ∧
      db.Pending m ∧ InOrder db.pendingLog.deref ∧
      (∀ n, pairsFor n db.pendingLog.deref = pairsFor n s.db.pendingLog.deref ++ s.buffer n) ∧
      db.pendingLog.upgrades = s.db.pendingLog.upgrades ∧ db.readOnly = s.db.readOnly ∧
      ((∀ n, s.buffer n = []) → db = s.db) ∧ ∀ n, s.buffer n ≠ [] → Accepts m s.db n) ∨
    s.flush o = none ∧ ∃ n, s.buffer n ≠ [] ∧ ¬Accepts m s.db n := by
  have horder := inOrder_popChangeSets (s := s) (ho.1.nodup_iff.mpr h.names)
  unfold Store.flush
  rcases h.pending.applyChangeSets_flushed h.indexed h.inOrder horder with
    ⟨db, hdb, hf, hsame, hall⟩ | ⟨⟨f, hf⟩, cs, hcs, hnot⟩
  · refine .inl ⟨db, by rw [hdb], hf.toPending, hf.inOrder, fun n => ?_, hf.upgrades, hf.readOnly,
      fun hnil => hsame ?_, fun n hn => ?_⟩
    · rw [hf.pairs, pairsFor_popChangeSets h.names ho]
    · rw [eq_nil_iff_forall_not_mem]
      intro cs hcs
      exact (mem_popChangeSets.mp (mem_sortBy.mp hcs)).2.1 (hnil cs.name)
    · exact hall ⟨n, s.buffer n⟩ (mem_sortBy.mpr (mem_popChangeSets.mpr
        ⟨ho.1.mem_iff.mpr (mem_names_of_buffer hn), hn, rfl⟩))
  · refine .inr ⟨by rw [hf], cs.name, ?_, hnot⟩
    exact (mem_popChangeSets.mp (mem_sortBy.mp hcs)).2.1

/-! ## Reachable states -/

theorem Sound.buffers (h : s.Sound m) {stores : List (Name × ChangeSet)}
    (hnames : stores.map Prod.fst = s.stores.map Prod.fst) : Sound m { s with stores := stores } :=
  { h with names := hnames ▸ h.names }

theorem Sound.flushed (h : s.Sound m) {db : DB} (hp : db.Pending m)
    (hord : InOrder db.pendingLog.deref) :
    Sound m { s with db := db, stores := s.stores.map fun e => (e.1, []) } where
  indexed := h.indexed
  pending := hp
  inOrder := hord
  names := by
    rw [names_clear]
    exact h.names
  memNames := h.memNames

theorem sound_of_nil (hnil : s.db.pendingLog.changesets = []) (hi : s.db.mtree.Indexed)
    (hnames : (s.stores.map Prod.fst).Nodup) (hmem : s.memStores.Nodup) : s.Sound s.db.mtree where
  indexed := hi
  pending := pending_of_nil hnil
  inOrder := by
    rw [deref, hnil]
    exact InOrder.nil
  names := hnames
  memNames := hmem

section Reachable

variable [Sha256] [AppHash]

variable {op : StoreOp}

theorem apply_write (hop : op.isWrite = true) :
    ∃ store pair, ∀ s : Store, s.apply op = s.write store pair := by
  cases op with
  | set store key value => exact ⟨store, ⟨false, key, value⟩, fun _ => rfl⟩
  | delete store key => exact ⟨store, ⟨true, key, none⟩, fun _ => rfl⟩
  | workingHash o => cases hop

theorem Sound.apply (h : s.Sound m) (ho : ∀ o, op = .workingHash o → s.Iterates o)
    (hs : s.apply op = some s') : s'.Sound m := by
  by_cases hop : op.isWrite = true
  · obtain ⟨store, pair, heq⟩ := apply_write hop
    rw [heq] at hs
    obtain ⟨hs', hnames, -⟩ := write_eq_some hs
    rw [hs']
    exact h.buffers hnames
  · cases op with
    | set | delete => exact absurd rfl hop
    | workingHash o =>
      simp only [Store.apply, Store.workingHash, Option.map_eq_some_iff, Option.bind_eq_bind,
        Option.bind_eq_some_iff, Option.pure_def, Option.some.injEq] at hs
      obtain ⟨r, ⟨s₁, hs1, rfl⟩, rfl⟩ := hs
      rcases h.flush (ho o rfl) with ⟨db, hdb, hp, hord, -⟩ | ⟨hnone, -⟩
      · rw [hdb] at hs1
        cases hs1
        exact h.flushed hp hord
      · rw [hnone] at hs1
        cases hs1

theorem iterates_apply (h : s.apply op = some s') (w : Iteration) :
    s'.Iterates w ↔ s.Iterates w := by
  by_cases hop : op.isWrite = true
  · obtain ⟨store, pair, heq⟩ := apply_write hop
    rw [heq] at h
    obtain ⟨hs', hnames, -⟩ := write_eq_some h
    rw [Iterates, Iterates, hnames, hs']
  · cases op with
    | set | delete => exact absurd rfl hop
    | workingHash o =>
      obtain ⟨r, hr, rfl⟩ := Option.map_eq_some_iff.mp h
      obtain ⟨s₁, hs1, hr⟩ := Option.bind_eq_some_iff.mp hr
      cases hr
      unfold flush at hs1
      split at hs1
      · cases hs1
      · cases hs1
        rw [Iterates, names_clear, Iterates]

theorem Sound.run (h : s.Sound m) {ops : List StoreOp}
    (hops : ∀ w, StoreOp.workingHash w ∈ ops → s.Iterates w) (hr : Store.run ops s = some s') :
    s'.Sound m ∧ ∀ w, s'.Iterates w ↔ s.Iterates w := by
  induction ops generalizing s with
  | nil =>
    cases hr
    exact ⟨h, fun _ => Iff.rfl⟩
  | cons op ops ih =>
    rw [Store.run, foldlM_cons] at hr
    obtain ⟨s₁, hs1, hr⟩ := Option.bind_eq_some_iff.mp hr
    have hiter := iterates_apply hs1
    have h₁ : s₁.Sound m := by
      apply h.apply _ hs1
      rintro w rfl
      exact hops w mem_cons_self
    obtain ⟨hs', hiter'⟩ := ih h₁ (fun w hw => (hiter w).mpr (hops w (mem_cons_of_mem _ hw))) hr
    exact ⟨hs', fun w => (hiter' w).trans (hiter w)⟩

theorem commit_eq_some {reloaded : Option MultiTree} {r : CommitID × WalEntry × Store} :
    s.commit o reloaded = some r ↔
    ∃ s₁ db entry, s.flush o = some s₁ ∧ s₁.db.saveVersion = .ok (entry, db) ∧
      r = (⟨(s₁.commitInfo o (reloaded.getD db.mtree).lastCommitInfo).version,
          appHash (s₁.commitInfo o (reloaded.getD db.mtree).lastCommitInfo)⟩, entry,
        { s₁ with
          db := afterCommit db reloaded
          lastCommitInfo := s₁.commitInfo o (reloaded.getD db.mtree).lastCommitInfo }) := by
  rw [commit, Option.bind_eq_bind, Option.bind_eq_some_iff]
  constructor
  · rintro ⟨s₁, hs1, h⟩
    cases hsave : s₁.db.saveVersion with
    | error f =>
      rw [hsave] at h
      cases h
    | ok p =>
      obtain ⟨entry, db⟩ := p
      rw [hsave] at h
      cases h
      exact ⟨s₁, db, entry, hs1, hsave, rfl⟩
  · rintro ⟨s₁, db, entry, hs1, hsave, rfl⟩
    exact ⟨s₁, hs1, by rw [hsave]; rfl⟩

theorem Reachable.sound (h : s.Reachable) : ∃ m, s.Sound m := by
  induction h with
  | load hnil hi hnames hmem => exact ⟨_, sound_of_nil hnil hi hnames hmem⟩
  | apply _ taken order ih =>
    obtain ⟨m, hm⟩ := ih
    exact ⟨m, hm.apply order taken⟩
  | @commit _ _ _ reloaded _ _ _ taken order hindexed ih =>
    obtain ⟨m, hm⟩ := ih
    obtain ⟨s₁, db, entry, hflush, hsave, hr⟩ := commit_eq_some.mp taken
    cases hr
    rcases hm.flush order with ⟨db1, hdb1, hp, hord, -⟩ | ⟨hnone, -⟩
    · rw [hdb1] at hflush
      cases hflush
      have hm1 := hm.flushed hp hord
      obtain ⟨t, ht, rfl, -⟩ := DB.saveVersion_ok hsave
      obtain ⟨-, rfl⟩ := MultiTree.saveVersion_ok.mp ht
      have hi := (hm1.pending.indexed hm.indexed).mapTrees
        fun e => { e.tree with version := e.tree.version + 1 }
      refine ⟨_, sound_of_nil rfl ?_ hm1.names hm1.memNames⟩
      cases reloaded with
      | none => exact ⟨hi.sorted, hi.index⟩
      | some t => exact hindexed t rfl
    · rw [hnone] at hflush
      cases hflush

end Reachable

/-! ## Two runs with the same writes -/

/-- The state `a` of a run from `s`, where the pairs `f` were handed over by calls of
`WorkingHash`, and the state `b` of the run without these calls. -/
structure Ahead (m : MultiTree) (s a b : Store) (f : Name → ChangeSet) : Prop where
  sound : a.Sound m
  left : a = { s with db := a.db, stores := a.stores }
  right : b = { s with stores := b.stores }
  names : a.stores.map Prod.fst = b.stores.map Prod.fst
  pairs : ∀ n, pairsFor n a.db.pendingLog.deref = pairsFor n s.db.pendingLog.deref ++ f n
  buffers : ∀ n, b.buffer n = f n ++ a.buffer n
  upgrades : a.db.pendingLog.upgrades = s.db.pendingLog.upgrades
  readOnly : a.db.readOnly = s.db.readOnly
  accepts : ∀ n, f n ≠ [] → Accepts m s.db n
  untouched : (∀ n, f n = []) → a.db = s.db

namespace Ahead

variable {a b a' b' : Store} {f : Name → ChangeSet}

theorem refl (h : s.Sound m) : Ahead m s s s fun _ => [] where
  sound := h
  left := rfl
  right := rfl
  names := rfl
  pairs _ := (append_nil _).symm
  buffers _ := rfl
  upgrades := rfl
  readOnly := rfl
  accepts _ hn := absurd rfl hn
  untouched _ := rfl

section

variable (h : Ahead m s a b f)
include h

theorem iterates : a.Iterates o ↔ b.Iterates o := by
  rw [Iterates, Iterates, h.names, h.left, h.right]

theorem write {store : Name} {pair : KVPair} (ha : a.write store pair = some a')
    (hb : b.write store pair = some b') : Ahead m s a' b' f := by
  obtain ⟨hleft, hnames, hbuf⟩ := write_eq_some ha
  obtain ⟨hright, hnames', hbuf'⟩ := write_eq_some hb
  have hdb : a'.db = a.db := by rw [hleft]
  have hb := h.right
  have ha := h.left
  refine { h with
    sound := hleft ▸ h.sound.buffers hnames
    left := ?_
    right := ?_
    names := by rw [hnames, hnames', h.names]
    pairs := by rw [hdb]; exact h.pairs
    buffers := fun n => by rw [hbuf, hbuf', h.buffers, append_assoc]
    upgrades := by rw [hdb]; exact h.upgrades
    readOnly := by rw [hdb]; exact h.readOnly
    untouched := by rw [hdb]; exact h.untouched }
  · rw [hleft, ha]
  · rw [hright, hb]

theorem flush (ho : a.Iterates o) :
    (∃ a', a.flush o = some a' ∧ Ahead m s a' b fun n => f n ++ a.buffer n) ∨
    a.flush o = none ∧ ∃ n, b.buffer n ≠ [] ∧ ¬Accepts m s.db n := by
  rcases h.sound.flush ho with ⟨db, hdb, hp, hord, hpairs, hup, hro, hsame, hacc⟩ | ⟨hnone, n, hn, hnot⟩
  · refine .inl ⟨_, hdb, { h with
      sound := h.sound.flushed hp hord
      left := ?_
      names := ?_
      pairs := fun n => by rw [hpairs, h.pairs, append_assoc]
      buffers := fun n => by rw [buffer_clear, append_nil, h.buffers]
      upgrades := hup.trans h.upgrades
      readOnly := hro.trans h.readOnly
      accepts := fun n hn => ?_
      untouched := fun hnil => ?_ }⟩
    · have ha := h.left
      rw [ha]
    · rw [names_clear]
      exact h.names
    · by_cases hf : f n = []
      · have hn : a.buffer n ≠ [] := by simpa [hf] using hn
        have := hacc n hn
        exact ⟨h.readOnly ▸ this.1, this.2⟩
      · exact h.accepts n hf
    · have hnil : ∀ n, f n = [] ∧ a.buffer n = [] := fun n => append_eq_nil_iff.mp (hnil n)
      exact (hsame fun n => (hnil n).2).trans (h.untouched fun n => (hnil n).1)
  · refine .inr ⟨hnone, n, ?_, fun hacc => hnot ⟨h.readOnly.trans hacc.1, hacc.2⟩⟩
    rw [h.buffers]
    simp [hn]

end

end Ahead

/-! ## Commit infos -/

variable {o o' : Iteration}

variable [Sha256] [AppHash]

def SameTrees (s : Store) (o : Iteration) (reloaded : Option MultiTree) : Prop :=
  ∀ t, reloaded = some t → ∀ r, s.commit o none = some r → r.2.2.db.mtree.Same t

/-- If a process has the database that the commit leaves, the trees it switches to are the same. -/
theorem sameTrees_of_switched {P : Type} [WALCodec P] {σ σ' : Process P} {entries : List WALEntry}
    (h : Process.Consistent σ entries) (hs : σ.finishCommit = some σ') (hswitch : σ'.phase = .switched)
    (hdb : ∀ r, s.commit o none = some r → r.2.2.db = σ.db) : s.SameTrees o (some σ'.db.mtree) := by
  rintro _ ⟨⟩ r hr
  obtain ⟨m, m', -, -, -, hsame⟩ := h.switched hs hswitch
  rw [hdb r hr]
  exact hsame

omit [AppHash] in
structure SameBlock (d d' : DB) : Prop where
  mtree : d.mtree = d'.mtree
  readOnly : d.readOnly = d'.readOnly
  entry : d.pendingLog.entry = d'.pendingLog.entry
  cached : d.cachedPendingChangesets.isSome = d'.cachedPendingChangesets.isSome

omit [Sha256] [AppHash] in
theorem SameBlock.symm {d d' : DB} (h : SameBlock d d') : SameBlock d' d :=
  ⟨h.mtree.symm, h.readOnly.symm, h.entry.symm, h.cached.symm⟩

omit [AppHash] in
theorem SameBlock.saveVersion {d d' d1 : DB} (h : SameBlock d d') {entry : WalEntry}
    (hs : d.saveVersion = .ok (entry, d1)) :
    ∃ d1', d'.saveVersion = .ok (entry, d1') ∧ d1'.clearPending = d1.clearPending := by
  have hro : d.readOnly = false := by
    cases hro : d.readOnly with
    | false => rfl
    | true =>
      rw [DB.saveVersion, if_pos hro] at hs
      cases hs
  obtain ⟨t, ht, rfl, rfl⟩ := DB.saveVersion_ok hs
  refine ⟨{ d' with mtree := t }, ?_, ?_⟩
  · rw [h.mtree] at ht
    simp [DB.saveVersion, ← h.readOnly, hro, DB.onTrees, ht, h.entry]
  · have hcached := h.cached
    simp only [DB.clearPending, DB.clearPendingChangesetMap, h.readOnly]
    cases h1 : d.cachedPendingChangesets <;> cases h2 : d'.cachedPendingChangesets <;>
      simp_all

namespace Ahead

variable {a b : Store} {f : Name → ChangeSet}

end Ahead

def twoStores : Store where
  db := .new ⟨0, [⟨[97], ⟨0, none⟩⟩], [([97], 0)], ⟨0, []⟩, ⟨none, 0⟩⟩ false
  stores := [([97], [])]
  memStores := [[98]]
  sdk46Compact := true
  lastCommitInfo := ⟨0, []⟩

end Store

end CronosStore.RootMulti
