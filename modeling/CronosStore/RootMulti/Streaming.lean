import CronosStore.RootMulti.Store
import CronosStore.VersionDB.Writes

/-!
# The version store follows the trees

`AddListeners`, `CacheMultiStore` and `PopStateCache` of `store/rootmulti/store.go`, and
`ListenCommit` of `versiondb/streaming_service.go`: the writes of a block go to the trees through
the change sets of the stores, and to the version store through the listeners. The height of a block
is the version that its commit makes.

Queries may be answered by either. `versions_follow` says that the version store has at the version
of every commit what the trees had then, however the writes and the calls of `WorkingHash` are
interleaved and whatever follows.
-/

namespace CronosStore.RootMulti

open Foundation Memiavl List MultiTree

/-! ## Blocks of the root store -/

/-- What an operation writes. -/
def StoreOp.written : StoreOp → Option (Name × KVPair)
  | .set store key value => some (store, ⟨false, key, value⟩)
  | .delete store key => some (store, ⟨true, key, none⟩)
  | .workingHash _ => none

theorem treeByName_mapTrees {t : MultiTree} (ht : t.Indexed) (f : NamedTree → Tree) {name : Name} {tree : Tree}
    (h : t.treeByName name = some tree) : (t.mapTrees f).treeByName name = some (f ⟨name, tree⟩) := by
  obtain ⟨e, he, heq⟩ := mem_map.mp (ht.treeByName_eq_some.mp h)
  cases heq
  exact (ht.mapTrees f).treeByName_eq_some.mpr (mem_map.mpr ⟨_, mem_map_of_mem he, rfl⟩)

namespace Store

variable [Sha256] [AppHash] {s s' : Store} {m : MultiTree} {o : Iteration}

/-- The pairs of a block for a store, handed over or not. -/
def pairs (s : Store) (name : Name) : ChangeSet := pairsFor name s.db.pendingLog.deref ++ s.buffer name

omit [AppHash] in
theorem Sound.saveVersion (h : s.Sound m) (ho : s.Iterates o) {s₁ : Store} {entry : WalEntry} {db : DB}
    (hflush : s.flush o = some s₁) (hsave : s₁.db.saveVersion = .ok (entry, db)) :
    s₁.Sound m ∧ (∀ n, s₁.buffer n = []) ∧ db.mtree.Indexed ∧
      db.mtree.version = nextVersion m.version m.initialVersion ∧
      ∀ name tree, m.treeByName name = some tree → db.mtree.treeByName name =
        some { tree.applyChangeSet (s.pairs name) with version := tree.version + 1 } := by
  rcases h.flush ho with ⟨db₁, hdb, hp, hord, hpairs, -⟩ | ⟨hfail, -⟩
  · cases hdb.symm.trans hflush
    obtain ⟨t, ht, rfl, -⟩ := DB.saveVersion_ok hsave
    obtain ⟨-, rfl⟩ := MultiTree.saveVersion_ok.mp ht
    have hi := hp.indexed h.indexed
    refine ⟨h.flushed hp hord, fun n => buffer_clear db₁, ?_, ?_, fun name tree htree => ?_⟩
    · have hbump := hi.mapTrees fun e => { e.tree with version := e.tree.version + 1 }
      exact ⟨hbump.sorted, hbump.index⟩
    · show nextVersion db₁.mtree.version db₁.mtree.initialVersion = _
      rw [hp.mtree]
      rfl
    · have happlied : db₁.mtree.treeByName name =
          some (tree.applyChangeSet (pairsFor name db₁.pendingLog.deref)) := by
        rw [hp.mtree]
        exact treeByName_mapTrees h.indexed _ htree
      rw [pairs, ← hpairs]
      exact (treeByName_mapTrees hi _ happlied).trans (by rw [Tree.applyChangeSet_version])
  · cases hfail.symm.trans hflush

omit [Sha256] [AppHash] in
theorem pairs_write {store name : Name} {pair : KVPair} (h : s.write store pair = some s') :
    s'.pairs name = s.pairs name ++ ([(store, pair)].filter fun p => p.1 = name).map Prod.snd := by
  obtain ⟨hs', -, hbuf⟩ := write_eq_some h
  have hdb : s'.db = s.db := by rw [hs']
  rw [pairs, pairs, hbuf, hdb, append_assoc]
  by_cases hn : store = name
  · simp [hn]
  · simp [hn, Ne.symm hn]

theorem Sound.pairs_apply {op : StoreOp} (h : s.Sound m) (ho : ∀ o, op = .workingHash o → s.Iterates o)
    (hs : s.apply op = some s') (name : Name) :
    s'.pairs name = s.pairs name ++ (op.written.toList.filter fun p => p.1 = name).map Prod.snd := by
  cases op with
  | set => exact pairs_write hs
  | delete => exact pairs_write hs
  | workingHash o =>
    obtain ⟨r, hr, rfl⟩ := Option.map_eq_some_iff.mp hs
    obtain ⟨s₁, hs1, hr⟩ := Option.bind_eq_some_iff.mp hr
    cases hr
    rcases h.flush (ho o rfl) with ⟨db, hdb, -, -, hpairs, -⟩ | ⟨hnone, -⟩
    · cases hdb.symm.trans hs1
      rw [pairs, buffer_clear, hpairs]
      rfl
    · cases hnone.symm.trans hs1

/-- A commit applies what was handed over and what is in the buffers, and is at the next version. -/
theorem Sound.commit (h : s.Sound m) (ho : s.Iterates o) {reloaded : Option MultiTree} {id : CommitID}
    {entry : WalEntry} (hc : s.commit o reloaded = some (id, entry, s'))
    (hsame : ∀ t, reloaded = some t → ∀ r, s.commit o none = some r → t.Agree r.2.2.db.mtree) :
    s'.Sound s'.db.mtree ∧ (∀ n, s'.pairs n = []) ∧
      s'.db.mtree.version = nextVersion m.version m.initialVersion ∧
      ∀ name tree, m.treeByName name = some tree → s'.db.mtree.treeByName name =
        some { tree.applyChangeSet (s.pairs name) with version := tree.version + 1 } := by
  obtain ⟨s₁, db, entry, hflush, hsave, hr⟩ := commit_eq_some.mp hc
  have hnone : s.commit o none = some _ := commit_eq_some.mpr ⟨s₁, db, entry, hflush, hsave, rfl⟩
  cases hr
  obtain ⟨h₁, hbuf, hi, hversion, htrees⟩ := h.saveVersion ho hflush hsave
  have hagree : (reloaded.getD db.mtree).Agree db.mtree := by
    cases reloaded with
    | none => exact .refl _
    | some t => exact hsame t rfl _ hnone
  refine ⟨sound_of_nil rfl (hagree.symm.indexed hi) h₁.names h₁.memNames, fun n => hbuf n,
    hagree.version.trans hversion, fun name tree htree => ?_⟩
  · rw [← htrees name tree htree, treeByName, treeByName]
    exact congrArg₂ (fun index trees => (index.lookup name).bind fun i => (trees[i]?).bind fun e => some e.tree)
      hagree.treesByName hagree.trees

end Store

/-! ## The listeners -/

/-- The root store, what its listeners have heard in this block, and the version store. -/
structure App where
  store : Store
  listeners : List (Name × ChangeSet)
  versions : VersionDB.Database

namespace App

def heard (a : App) (name : Name) : ChangeSet := (a.listeners.lookup name).getD []

/-- A write that a listener is told of, if there is one for the store. -/
def onWrite (a : App) : Option (Name × KVPair) → List (Name × ChangeSet)
  | none => a.listeners
  | some (store, pair) => a.listeners.map fun e => (e.1, if e.1 = store then e.2 ++ [pair] else e.2)

/-- `PopStateCache`, where Go goes through the listeners in some order. -/
def popStateCache (a : App) (order : List Name) : List (Name × KVPair) :=
  sortBy Prod.fst (order.flatMap fun name => (a.heard name).map (name, ·))

variable [Sha256] [AppHash]

def apply (a : App) (op : StoreOp) : Option App :=
  (a.store.apply op).map fun store => { a with store := store, listeners := a.onWrite op.written }

/-- `Commit`, and `ListenCommit` in a block of this height. -/
def commit (a : App) (o : Iteration) (reloaded : Option MultiTree) (order : List Name) (height : Int) : Option App :=
  (a.store.commit o reloaded).map fun r =>
    { store := r.2.2, listeners := a.listeners.map fun e => (e.1, []),
      versions := a.versions.putAtVersion height (a.popStateCache order) }

/-- Runs from a state, with the trees of every commit. -/
inductive Runs (a : App) : App → List MultiTree → Prop
  | refl : Runs a a []
  | apply {b b' : App} {states : List MultiTree} {op : StoreOp} (h : Runs a b states)
      (taken : b.apply op = some b') (iterates : ∀ o, op = .workingHash o → b.store.Iterates o) :
      Runs a b' states
  | commit {b b' : App} {states : List MultiTree} {o : Iteration} {reloaded : Option MultiTree}
      {order : List Name} (h : Runs a b states)
      (taken : b.commit o reloaded order b'.store.db.mtree.version = some b')
      (iterates : b.store.Iterates o) (listeners : order.Perm (b.listeners.map Prod.fst))
      -- `sameTrees_of_switched` shows this of the trees that a commit goes over to
      (same : ∀ t, reloaded = some t → ∀ r, b.store.commit o none = some r → t.Agree r.2.2.db.mtree)
      (int64 : b'.store.db.mtree.version < 2 ^ 63) : Runs a b' (states ++ [b'.store.db.mtree])

/-- The version store has for a store what its tree has, from a version on. -/
def Shows (a : App) (name : Name) (tree : Tree) (v : Int) : Prop :=
  ∀ key, a.versions.store.getAtVersion name key (some v) = tree.find key

/-- In a block that began with the trees `m`, of which `tree` is that of a store. -/
structure Follows (name : Name) (m : MultiTree) (tree : Tree) (a : App) : Prop where
  sound : a.store.Sound m
  treeByName : m.treeByName name = some tree
  valid : tree.Valid
  nonneg : 0 ≤ m.version
  names : (a.listeners.map Prod.fst).Nodup
  noSlash : ∀ n ∈ a.listeners.map Prod.fst, 47 ∉ n
  listened : name ∈ a.listeners.map Prod.fst
  heard : a.heard name = a.store.pairs name
  latest : a.versions.getLatestVersion = m.version
  upTo : a.versions.store.UpTo m.version
  shows : ∀ v, m.version ≤ v → v < 2 ^ 63 → a.Shows name tree v

variable {a b : App} {name : Name} {m : MultiTree} {tree : Tree}

omit [Sha256] [AppHash] in
theorem heard_onWrite (h : name ∈ a.listeners.map Prod.fst) (w : Option (Name × KVPair)) :
    ((a.onWrite w).lookup name).getD [] = a.heard name ++ (w.toList.filter fun p => p.1 = name).map Prod.snd := by
  cases w with
  | none => exact (append_nil _).symm
  | some p =>
    obtain ⟨store, pair⟩ := p
    have hsome : (a.listeners.lookup name).isSome := by
      rw [lookup_isSome_iff]
      simpa using h
    obtain ⟨cs, hcs⟩ := Option.isSome_iff_exists.mp hsome
    rw [onWrite, lookup_map_key fun n cs => if n = store then cs ++ [pair] else cs, heard, hcs]
    by_cases hn : store = name
    · simp [hn]
    · simp [hn, Ne.symm hn]

omit [Sha256] [AppHash] in
theorem names_onWrite (a : App) (w : Option (Name × KVPair)) :
    (a.onWrite w).map Prod.fst = a.listeners.map Prod.fst := by
  cases w with
  | none => rfl
  | some p => simp [onWrite]

theorem Follows.apply {op : StoreOp} (h : a.Follows name m tree) (ha : a.apply op = some b)
    (ho : ∀ o, op = .workingHash o → a.store.Iterates o) : b.Follows name m tree := by
  obtain ⟨s, hs, rfl⟩ := Option.map_eq_some_iff.mp ha
  have hnames := a.names_onWrite op.written
  refine { h with
    sound := h.sound.apply ho hs
    names := hnames ▸ h.names
    noSlash := hnames ▸ h.noSlash
    listened := hnames ▸ h.listened
    heard := ?_ }
  rw [h.sound.pairs_apply ho hs, ← h.heard]
  exact heard_onWrite h.listened _

omit [Sha256] [AppHash] in
theorem filter_popStateCache {order : List Name} (hnames : order.Nodup) (h : name ∈ order) :
    ((a.popStateCache order).filter fun p => p.1 = name).map Prod.snd = a.heard name := by
  have hsort (l : List (Name × KVPair)) : (sortBy Prod.fst l).filter (fun p => p.1 = name) =
      l.filter fun p => p.1 = name := by
    convert filter_sortBy Prod.fst l name
  have hall := VersionDB.Store.filter_flatMap_pairs (l := order.map fun n => (n, a.heard n))
    (by simpa [Function.comp_def] using hnames) (mem_map_of_mem h)
  rw [popStateCache, hsort, ← flatMap_map (fun n => (n, a.heard n)) fun e => e.2.map (e.1, ·)]
  exact hall

theorem Follows.commit {o : Iteration} {reloaded : Option MultiTree} {order : List Name}
    (h : a.Follows name m tree) (ha : a.commit o reloaded order b.store.db.mtree.version = some b)
    (ho : a.store.Iterates o) (horder : order.Perm (a.listeners.map Prod.fst))
    (hsame : ∀ t, reloaded = some t → ∀ r, a.store.commit o none = some r → t.Agree r.2.2.db.mtree)
    (hlt : b.store.db.mtree.version < 2 ^ 63) :
    (∃ tree, b.Follows name b.store.db.mtree tree) ∧ m.version < b.store.db.mtree.version ∧
      ∀ t v, 0 ≤ v → v ≤ m.version → a.Shows name t v → b.Shows name t v := by
  obtain ⟨⟨id, entry, s⟩, hc, hb⟩ := Option.map_eq_some_iff.mp ha
  obtain rfl : b.store = s := (congrArg App.store hb).symm
  rw [← hb]
  obtain ⟨hsound, hdone, hversion, htrees⟩ := h.sound.commit ho hc hsame
  have hnext : m.version < b.store.db.mtree.version := hversion ▸ lt_nextVersion _ _
  have hnames : (a.listeners.map fun e => (e.1, ([] : ChangeSet))).map Prod.fst = a.listeners.map Prod.fst :=
    Store.names_clear _
  have hnonneg := h.nonneg
  have hcache : ∀ p ∈ a.popStateCache order, 47 ∉ p.1 := by
    intro p hp
    obtain ⟨n, hn, hp⟩ := mem_flatMap.mp (mem_sortBy.mp hp)
    obtain ⟨pair, -, rfl⟩ := mem_map.mp hp
    exact h.noSlash n (horder.subset hn)
  have hwrite {v : Int} (hv : 0 ≤ v) (hv' : v < 2 ^ 63) :=
    VersionDB.Store.getAtVersion_writeAt (s := a.versions.store)
      (fun e he => (h.upTo e he).trans hnext.le) (hnonneg.trans_lt hnext) hlt hv hv' (h.noSlash _ h.listened) hcache
  have hpairs := filter_popStateCache (a := a) (horder.nodup_iff.mpr h.names) (horder.mem_iff.mpr h.listened)
  have happly := h.valid.applyChangeSet (a.store.pairs name)
  refine ⟨⟨_, {
    sound := hsound
    treeByName := htrees name tree h.treeByName
    valid := happly.1
    nonneg := (hnonneg.trans_lt hnext).le
    names := hnames ▸ h.names
    noSlash := hnames ▸ h.noSlash
    listened := hnames ▸ h.listened
    heard := ?_
    latest := VersionDB.Database.getLatestVersion_set (hnonneg.trans hnext.le) hlt
    upTo := (hwrite le_rfl (by decide)).1
    shows := fun v hv hv' key => ?_ }⟩, hnext, fun t v hv hle ht key => ?_⟩
  · show ((a.listeners.map fun e => (e.1, [])).lookup name).getD [] = b.store.pairs name
    rw [lookup_map_key fun _ _ => [], hdone]
    cases a.listeners.lookup name <;> rfl
  · have hle : m.version ≤ v := hnext.le.trans hv
    refine ((hwrite (hnonneg.trans hle) hv').2 key).trans ?_
    rw [if_pos hv, hpairs, h.heard, h.shows v hle hv' key]
    exact (happly.2 key).symm
  · refine ((hwrite hv ((hle.trans_lt hnext).trans hlt)).2 key).trans ?_
    rw [if_neg (not_le.mpr (hle.trans_lt hnext))]
    exact ht key

/-- The version store has at the version of every commit what the tree of a store had then, if it did so
in the beginning. -/
theorem versions_follow (h : a.Follows name m tree) {states : List MultiTree} (hr : a.Runs b states) :
    b.versions.getLatestVersion = (states.getLast?.getD m).version ∧
      ∀ t ∈ states, ∃ tree, t.treeByName name = some tree ∧
        b.versions.store.Answers name t.version tree := by
  have hinv : ∃ tree, b.Follows name (states.getLast?.getD m) tree ∧ ∀ t ∈ states,
      0 ≤ t.version ∧ t.version ≤ (states.getLast?.getD m).version ∧
        ∃ tree, t.treeByName name = some tree ∧ tree.Valid ∧ b.Shows name tree t.version := by
    induction hr with
    | refl => exact ⟨tree, h, fun t ht => absurd ht not_mem_nil⟩
    | apply _ taken iterates ih =>
      obtain ⟨tree, hb, hall⟩ := ih
      obtain ⟨s, -, rfl⟩ := Option.map_eq_some_iff.mp taken
      exact ⟨tree, hb.apply taken iterates, hall⟩
    | commit _ taken iterates listeners same int64 ih =>
      obtain ⟨tree, hb, hall⟩ := ih
      obtain ⟨⟨tree', hb'⟩, hlt, hkeep⟩ := hb.commit taken iterates listeners same int64
      rw [getLast?_concat, Option.getD_some]
      refine ⟨tree', hb', forall_mem_append.mpr ⟨fun t ht => ?_, forall_mem_singleton.mpr
        ⟨hb'.nonneg, le_rfl, tree', hb'.treeByName, hb'.valid, hb'.shows _ le_rfl int64⟩⟩⟩
      obtain ⟨h0, hle, tree, htree, hvalid, hshows⟩ := hall t ht
      exact ⟨h0, hle.trans hlt.le, tree, htree, hvalid, hkeep _ _ h0 hle hshows⟩
  obtain ⟨_, hb, hall⟩ := hinv
  refine ⟨hb.latest, fun t ht => ?_⟩
  obtain ⟨-, -, tree, htree, hvalid, hshows⟩ := hall t ht
  exact ⟨tree, htree, VersionDB.Store.answers_of_find hvalid hshows⟩

/-- A chain before its first block, and its version store. -/
def fresh : App := ⟨Store.twoStores, [([97], [])], ⟨⟨.empty, false⟩, none⟩⟩

omit [Sha256] [AppHash] in
/-- One block that writes a pair. -/
theorem versions_follow_oneBlock :
    letI := Sha256.padded
    letI := AppHash.concat
    ∃ b t, fresh.Runs b [t] ∧ b.versions.getLatestVersion = t.version ∧
      b.versions.store.getAtVersion [97] [1] (some t.version) = some [2] := by
  let _ := Sha256.padded
  let _ := AppHash.concat
  let o : Iteration := ⟨[[97]], [[98]]⟩
  have hset : fresh.apply (.set [97] [1] (some [2])) = some _ := rfl
  have hrun : ((fresh.apply (.set [97] [1] (some [2]))).bind fun b => b.commit o none [[97]] 1).map
      (fun b => (b.store.db.mtree.version, (b.store.db.mtree.treeByName [97]).map fun t => t.find [1])) =
        some (1, some (some [2])) := by
    decide +kernel
  rw [hset, Option.bind_some] at hrun
  obtain ⟨b, hb, hend⟩ := Option.map_eq_some_iff.mp hrun
  obtain ⟨hversion, htree⟩ := Prod.mk.injEq .. ▸ hend
  obtain ⟨tree, htree, hfind⟩ := Option.map_eq_some_iff.mp htree
  have hfresh : fresh.Follows [97] fresh.store.db.mtree ⟨0, none⟩ := {
    sound := Store.sound_of_nil rfl ⟨pairwise_singleton _ _, rfl⟩ (by decide) (by decide)
    treeByName := rfl
    valid := fun n hn => by cases hn
    nonneg := le_rfl
    names := by decide
    noSlash := by decide
    listened := by decide
    heard := rfl
    latest := rfl
    upTo := fun e he => by cases he
    shows := fun _ _ _ _ => rfl }
  have hr : fresh.Runs b [b.store.db.mtree] := by
    refine .commit (.apply .refl hset fun o ho => by cases ho) (hversion ▸ hb) ⟨.refl _, .refl _⟩ (.refl _) ?_ ?_
    · intro t ht
      cases ht
    · omega
  obtain ⟨hlatest, hall⟩ := versions_follow hfresh hr
  obtain ⟨tree', htree', hanswers⟩ := hall _ mem_cons_self
  cases htree.symm.trans htree'
  exact ⟨b, _, hr, hlatest, (hanswers.get [1]).trans hfind⟩

end App

end CronosStore.RootMulti
