import CronosStore.Memiavl.MultiTreeImport

/-!
# Restoring a snapshot of the state

`restore` of `store/rootmulti/import.go`: the loop that reads the messages of a state-sync stream
and drives the importer of the trees. The stream is the list of what `ReadMsg` gives, `none` for a
message that cannot be decoded; the loop ends with the list or at a message of another kind. What
makes the messages is `Snapshot` of `store/rootmulti/snapshot.go`; bytes that are empty arrive as
nil.

The importer does not touch the log, and `Finalize` gives the snapshot an initial version that makes
the first entry of the log the one behind the snapshot.
-/

namespace CronosStore.RootMulti

open Foundation Memiavl List

inductive SnapshotItem
  | store (name : Name)
  | iavl (key value : Slice) (height version : Int)
  /-- An item of another kind, such as an extension. -/
  | other (payload : Bytes)
deriving DecidableEq

inductive RestoreError
  | invalidMessage
  | nodeHeight (height : Int)
  | importer (error : MultiTreeImportError)
deriving DecidableEq

def maxInt8 : Int := 127

def int8 (n : Int) : Int := (n + 128) % 256 - 128

/-- The node of a message. Neither keys nor the values of leaves are nil. -/
def receivedNode (key value : Slice) (height version : Int) : ExportNode where
  key := key.getD []
  value := if int8 height = 0 then some (value.getD []) else value
  version := version
  height := int8 height

section Definitions

variable {P : Type} [Sha256]

def restoreLoop : List (Option SnapshotItem) → MultiTreeImporter P →
    Except RestoreError (Option SnapshotItem × MultiTreeImporter P)
  | [], mti => .ok (none, mti)
  | none :: _, _ => .error .invalidMessage
  | some (.store name) :: stream, mti =>
    match mti.addTree name with
    | .error e => .error (.importer e)
    | .ok mti => restoreLoop stream mti
  | some (.iavl key value height version) :: stream, mti =>
    if height > maxInt8 then .error (.nodeHeight height)
    else
      match mti.addNode (receivedNode key value height version) with
      | .error e => .error (.importer e)
      | .ok mti => restoreLoop stream mti
  | some (.other payload) :: _, mti => .ok (some (.other payload), mti)

def restore (dir : Directory P) (height : Nat) (stream : List (Option SnapshotItem)) :
    Except RestoreError (Option SnapshotItem × Directory P) :=
  match newMultiTreeImporter dir height with
  | .error e => .error (.importer e)
  | .ok mti =>
    match restoreLoop stream mti with
    | .error e => .error e
    | .ok (item, mti) =>
      match mti.finalize with
      | .error e => .error (.importer e)
      | .ok dir => .ok (item, dir)

end Definitions

def wire (b : Bytes) : Slice := if b = [] then none else some b

def SnapshotItem.ofNode (n : ExportNode) : SnapshotItem :=
  .iavl (wire n.key) (n.value.bind wire) n.height n.version

def received (n : ExportNode) : ExportNode :=
  receivedNode (wire n.key) (n.value.bind wire) n.height n.version

theorem wire_getD (b : Bytes) : (wire b).getD [] = b := by
  unfold wire
  split_ifs with h
  · exact h.symm
  · rfl

theorem bind_wire_getD {x : Slice} (h : x ≠ none) : some ((x.bind wire).getD []) = x := by
  cases x with
  | none => exact absurd rfl h
  | some b => exact congrArg some (wire_getD b)

theorem int8_toInt8 (n : Nat) : int8 (toInt8 n) = toInt8 n := by
  unfold int8 toInt8
  split_ifs <;> omega

theorem exports_received {n : Node} (hn : n.Valid) {es : List ExportNode} (he : n.Exports es) :
    n.Exports (es.map received) ∧ ∀ e ∈ es, e.height ≤ maxInt8 := by
  induction n generalizing es with
  | leaf v k x =>
    cases he
    have hx : x ≠ none := hn.stored (k, x) (mem_singleton_self _)
    refine ⟨?_, fun e he => ?_⟩
    · have hint : int8 0 = 0 := by decide
      simp only [map_cons, map_nil, received, receivedNode, Node.Exports, wire_getD, hint,
        if_true, bind_wire_getD hx]
    · rw [mem_singleton.mp he]
      show (0 : Int) ≤ maxInt8
      decide
  | branch h s v k l r ihl ihr =>
    obtain ⟨el, er, x, hel, her, rfl⟩ := he
    obtain ⟨hl, hlh⟩ := ihl hn.left hel
    obtain ⟨hr, hrh⟩ := ihr hn.right her
    refine ⟨⟨el.map received, er.map received, (received ⟨k, x, v, toInt8 h⟩).value, hl, hr, ?_⟩,
      fun e he => ?_⟩
    · rw [map_append, map_append]
      simp only [map_cons, map_nil, received, receivedNode, wire_getD, int8_toInt8]
    · rcases mem_append.mp he with he | he
      · rcases mem_append.mp he with he | he
        · exact hlh e he
        · exact hrh e he
      · rw [mem_singleton.mp he]
        unfold toInt8 maxInt8
        split_ifs <;> simp only <;> omega

/-- A well-formed stream: for each tree of the height its name and a stream of its nodes, the
names being different. An extension may follow, and whatever comes after that is not read. -/
inductive Streams (height : Nat) : List (Name × Tree) → List (Option SnapshotItem) → Prop
  | done : Streams height [] []
  | extension (payload : Bytes) (rest : List (Option SnapshotItem)) :
      Streams height [] (some (.other payload) :: rest)
  | tree {name : Name} {v : Tree} {es : List ExportNode} {trees : List (Name × Tree)}
      {items : List (Option SnapshotItem)} (hver : v.version = height) (hv : v.Persistable)
      (he : v.Exports es) (hname : name ∉ trees.map Prod.fst) (hs : Streams height trees items) :
      Streams height ((name, v) :: trees)
        (some (.store name) :: (es.map fun e => some (.ofNode e)) ++ items)

variable {height : Nat}

theorem Streams.nodup {trees : List (Name × Tree)} {items : List (Option SnapshotItem)}
    (h : Streams height trees items) : (trees.map Prod.fst).Nodup := by
  induction h with
  | done => exact nodup_nil
  | extension => exact nodup_nil
  | tree _ _ _ hname _ ih => exact nodup_cons.mpr ⟨hname, ih⟩

theorem Streams.version {trees : List (Name × Tree)} {items : List (Option SnapshotItem)}
    (h : Streams height trees items) : ∀ e ∈ trees, e.2.version = height := by
  induction h with
  | done => exact fun e he => absurd he not_mem_nil
  | extension => exact fun e he => absurd he not_mem_nil
  | tree hver _ _ _ _ ih => exact forall_mem_cons.mpr ⟨hver, ih⟩

theorem Streams.persistable {trees : List (Name × Tree)} {items : List (Option SnapshotItem)}
    (h : Streams height trees items) : ∀ e ∈ trees, e.2.Persistable := by
  induction h with
  | done => exact fun e he => absurd he not_mem_nil
  | extension => exact fun e he => absurd he not_mem_nil
  | tree _ hv _ _ _ ih => exact forall_mem_cons.mpr ⟨hv, ih⟩

/-! ## What the loop writes -/

section Loop

variable {P : Type}

def putTrees (d : Directory P) (dir : Name) (trees : List (Name × Tree)) : Directory P :=
  trees.foldl (fun d e => d.putTree dir e.1 e.2) d

def writeTrees (content : MultiTreeDir) (trees : List (Name × Tree)) : MultiTreeDir :=
  trees.foldl (fun content e => content.writeTree e.1 e.2) content

theorem content_putTrees (d : Directory P) (dir : Name) (trees : List (Name × Tree)) :
    (putTrees d dir trees).content dir = writeTrees (d.content dir) trees ∧
      (putTrees d dir trees).wal = d.wal := by
  induction trees generalizing d with
  | nil => exact ⟨rfl, rfl⟩
  | cons e trees ih =>
    obtain ⟨hcontent, hwal⟩ := ih (d.putTree dir e.1 e.2)
    have hput : (d.putTree dir e.1 e.2).content dir = (d.content dir).writeTree e.1 e.2 := by
      rw [Directory.content, Directory.putTree, Directory.get_put_self]
      rfl
    rw [hput] at hcontent
    exact ⟨hcontent, hwal⟩

theorem mem_writeTrees {trees : List (Name × Tree)} (hnd : (trees.map Prod.fst).Nodup)
    {content : MultiTreeDir} {e : Name × Tree} : e ∈ (writeTrees content trees).trees ↔
      e ∈ trees ∨ e ∈ content.trees ∧ e.1 ∉ trees.map Prod.fst := by
  induction trees generalizing content with
  | nil => simp [writeTrees]
  | cons f trees ih =>
    rw [map_cons, nodup_cons] at hnd
    have hmem : e ∈ (content.writeTree f.1 f.2).trees ↔ e = f ∨ e ∈ content.trees ∧ e.1 ≠ f.1 :=
      SortedAssoc.mem_insert content.sorted
    show e ∈ (writeTrees (content.writeTree f.1 f.2) trees).trees ↔ _
    rw [ih hnd.2, hmem, mem_cons, map_cons, mem_cons, not_or]
    constructor
    · rintro (he | ⟨rfl | ⟨he, hne⟩, hnot⟩)
      · exact .inl (.inr he)
      · exact .inl (.inl rfl)
      · exact .inr ⟨he, hne, hnot⟩
    · rintro ((rfl | he) | ⟨he, hne, hnot⟩)
      · exact .inr ⟨.inl rfl, hnd.1⟩
      · exact .inl he
      · exact .inr ⟨.inr ⟨he, hne⟩, hnot⟩

variable [Sha256]

theorem restoreLoop_nodes {es : List ExportNode} (hes : ∀ e ∈ es, e.height ≤ maxInt8)
    (items : List (Option SnapshotItem)) (d : Directory P) (height : Nat) (name : Name)
    (nodes : List ExportNode) :
    restoreLoop ((es.map fun e => some (.ofNode e)) ++ items) ⟨d, height, some (name, nodes)⟩ =
      restoreLoop items ⟨d, height, some (name, nodes ++ es.map received)⟩ := by
  induction es generalizing nodes with
  | nil => simp
  | cons e es ih =>
    obtain ⟨he, hes⟩ := forall_mem_cons.mp hes
    rw [map_cons, cons_append, SnapshotItem.ofNode, restoreLoop, if_neg (by omega)]
    simp only [MultiTreeImporter.addNode]
    have happ : nodes ++ List.map received (e :: es) = nodes ++ [received e] ++ es.map received := by
      simp
    rw [happ]
    exact ih hes (nodes ++ [received e])

/-- When the loop has ended and the last tree is closed, the trees of the stream were written
behind those before. -/
theorem Streams.restoreLoop {height : Nat} {trees : List (Name × Tree)}
    {items : List (Option SnapshotItem)} (hs : Streams height trees items)
    {mti mti' mti'' : MultiTreeImporter P} {item : Option SnapshotItem} (hh : mti.height = height)
    (hl : RootMulti.restoreLoop items mti = .ok (item, mti')) (hc : mti'.closeTree = .ok mti'') :
    ∃ mti0, mti.closeTree = .ok mti0 ∧
      mti''.dir = putTrees mti0.dir (snapshotName height ++ tmpSuffix) trees ∧
      mti''.height = height := by
  induction hs generalizing mti with
  | done =>
    cases hl
    exact ⟨mti'', hc, rfl, (MultiTreeImporter.height_closeTree hc).trans hh⟩
  | extension =>
    cases hl
    exact ⟨mti'', hc, rfl, (MultiTreeImporter.height_closeTree hc).trans hh⟩
  | @tree name v es trees items hver hv he hname hs ih =>
    rw [cons_append, RootMulti.restoreLoop, MultiTreeImporter.addTree] at hl
    cases h0 : mti.closeTree with
    | error e =>
      rw [h0] at hl
      cases hl
    | ok mti0 =>
      rw [h0] at hl
      simp only [Results.ok_bind, Results.pure_eq_ok] at hl
      have hh0 : mti0.height = height := (MultiTreeImporter.height_closeTree h0).trans hh
      obtain ⟨hes, hheights⟩ : v.Exports (es.map received) ∧ ∀ e ∈ es, e.height ≤ maxInt8 := by
        unfold Tree.Exports at he ⊢
        cases hroot : v.root with
        | none =>
          rw [hroot] at he
          cases he
          exact ⟨rfl, fun e he => absurd he not_mem_nil⟩
        | some n =>
          rw [hroot] at he
          exact exports_received (hv.valid n hroot) he
      rw [restoreLoop_nodes hheights] at hl
      have hver' : v.version = MultiTreeImporter.height
          { mti0 with importer := some (name, es.map received) } := hver.trans hh0.symm
      have hclosed := MultiTreeImporter.closeTree_eq rfl hv hver' hes
      obtain ⟨mti1, h1, hdir, hheight⟩ := ih (hver'.symm.trans hver) hl
      rw [hclosed] at h1
      split_ifs at h1
      cases h1
      refine ⟨mti0, rfl, ?_, hheight⟩
      rw [hdir, MultiTreeImporter.tmpDir, hh0]
      rfl

end Loop

/-! ## What is loaded then -/

section Restored

variable {P : Type} [Sha256]

def leftTrees (d : Directory P) (height : Nat) : List Name :=
  (d.content (snapshotName height ++ tmpSuffix)).trees.map Prod.fst

theorem restore_ok {d d' : Directory P} {height : Nat} {trees : List (Name × Tree)}
    {items : List (Option SnapshotItem)} (hs : Streams height trees items)
    {item : Option SnapshotItem} (hr : restore d height items = .ok (item, d')) :
    d'.current = some (snapshotName height) ∧ d'.wal = d.wal ∧
      d'.get (snapshotName height) = some (updateMetadataFile
        (writeTrees (d.content (snapshotName height ++ tmpSuffix)) trees) height) := by
  unfold restore newMultiTreeImporter at hr
  split_ifs at hr
  simp only at hr
  cases hl : RootMulti.restoreLoop items (⟨d, height, none⟩ : MultiTreeImporter P) with
  | error e =>
    rw [hl] at hr
    cases hr
  | ok r =>
    obtain ⟨item', mti⟩ := r
    simp only [hl] at hr
    cases hf : mti.finalize with
    | error e =>
      rw [hf] at hr
      cases hr
    | ok d1 =>
      rw [hf] at hr
      cases hr
      rw [MultiTreeImporter.finalize, Results.bind_eq_ok] at hf
      obtain ⟨mti', hclose, hf⟩ := hf
      obtain ⟨mti0, h0, hdir, hheight⟩ := hs.restoreLoop rfl hl hclose
      cases h0
      obtain ⟨hcontent, hwal⟩ := content_putTrees d (snapshotName height ++ tmpSuffix) trees
      rw [MultiTreeImporter.tmpDir, hheight, hdir] at hf
      split at hf
      · cases hf
      · rename_i content hget
        rw [Directory.content, hget, Option.getD_some] at hcontent
        split at hf
        · cases hf
        · rename_i dir hsteps
          cases hf
          obtain ⟨hcur, hget', hwal'⟩ := Directory.runSteps_finalize hsteps
          exact ⟨hcur, hwal'.trans hwal, hcontent ▸ hget'⟩

omit [Sha256] in
/-- The first entry of the log is the one behind the snapshot. -/
theorem atIndex_zero {t : MultiTree} {height : Nat} (hv : t.version = height)
    (hiv : t.initialVersion = height + 1) (hlt : height < maxUint32) : t.AtIndex 0 := by
  rw [maxUint32] at hlt
  refine ⟨.inl ?_, by omega⟩
  rw [hv, hiv, walVersion]
  split_ifs <;> push_cast <;> omega

variable [WALCodec P]

/-- The directory holds the trees at the height and nothing else: they are what is loaded, and
the next block has the version behind them and is accepted by the log. -/
def Replaced (d : Directory P) (height : Nat) (trees : List (Name × Tree)) : Prop :=
  ∃ m d', d.load ⟨0, false, false⟩ = .ok (m, d') ∧ m.version = height ∧
    (m.trees.map fun e => (e.name, e.tree)).Perm trees ∧
    (∀ name v, m.treeByName name = some v ↔ (name, v) ∈ trees) ∧
    ∀ block db, (DB.new m false).applyBlock block = .ok db →
      ∃ entry db' wal, (DB.new m false).commitBlock block = .ok (entry, db') ∧
        db'.mtree.version = height + 1 ∧ writeEntries d'.wal [entry] = some wal

/-- A restore replaces the state exactly if there was no log, the next version is one that
`uint32` can count, and nothing was left of an attempt to restore other trees. -/
theorem restore_replaces_iff {d d' : Directory P} {height : Nat} {trees : List (Name × Tree)}
    {items : List (Option SnapshotItem)} (hs : Streams height trees items)
    {item : Option SnapshotItem} (hr : restore d height items = .ok (item, d')) :
    Replaced d' height trees ↔ d.wal.lastIndex = 0 ∧ height < maxUint32 ∧
      ∀ name ∈ leftTrees d height, name ∈ trees.map Prod.fst := by
  obtain ⟨hcur, hwal, hget⟩ := restore_ok hs hr
  have hnd := hs.nodup
  have hload := Directory.load_latest hcur (isTmpName_snapshotName _)
  rw [Directory.openTrees, hget] at hload
  simp only at hload
  constructor
  · rintro ⟨m, d'', hm, hver, hperm, -⟩
    rw [hload] at hm
    cases hopen : loadMultiTree (updateMetadataFile
        (writeTrees (d.content (snapshotName height ++ tmpSuffix)) trees) height) with
    | error e =>
      rw [hopen] at hm
      cases hm
    | ok t =>
      obtain ⟨hlt, hi, htv, htiv, hnames⟩ := loadMultiTree_updateMetadataFile hopen
      rw [hopen] at hm
      simp only [Except.mapError] at hm
      cases hcatch : t.catchupWAL d'.wal 0 with
      | error e =>
        rw [hcatch] at hm
        cases hm
      | ok m' =>
        rw [hcatch] at hm
        cases hm
        rcases MultiTree.catchupWAL_eq_version hi (atIndex_zero htv htiv hlt) hcatch with
          ⟨hlast, rfl⟩ | ⟨-, hgt⟩
        · refine ⟨hwal ▸ hlast, hlt, fun name hname => ?_⟩
          by_contra hnot
          -- the tree that was left is loaded with the others
          obtain ⟨e, he, rfl⟩ := mem_map.mp hname
          have hwritten := (mem_writeTrees hnd).mpr (.inr ⟨he, hnot⟩)
          have hloaded : e.1 ∈ m.trees.map NamedTree.name := hnames ▸ mem_map_of_mem hwritten
          obtain ⟨f, hf, hfe⟩ := mem_map.mp hloaded
          have hmem := hperm.subset (mem_map_of_mem hf)
          exact hnot (hfe ▸ mem_map_of_mem (f := Prod.fst) hmem)
        · omega
  · rintro ⟨hlast, hlt, hleft⟩
    have hmem : ∀ e, e ∈ (writeTrees (d.content (snapshotName height ++ tmpSuffix)) trees).trees ↔
        e ∈ trees := by
      intro e
      rw [mem_writeTrees hnd]
      constructor
      · rintro (he | ⟨he, hnot⟩)
        · exact he
        · exact absurd (hleft _ (mem_map_of_mem he)) hnot
      · exact .inl
    obtain ⟨t, ht, htrees⟩ := exists_loadMultiTree_updateMetadataFile hlt
      fun e he => hs.version e ((hmem e).mp he)
    obtain ⟨-, hi, htv, htiv, -⟩ := loadMultiTree_updateMetadataFile ht
    have hat := atIndex_zero htv htiv hlt
    have hpairs : t.trees.map (fun e => (e.name, e.tree)) =
        (writeTrees (d.content (snapshotName height ++ tmpSuffix)) trees).trees := by
      rw [htrees, map_map]
      exact map_id _
    refine ⟨t, d'.clean, ?_, htv, ?_, fun name v => ?_, fun block db hdb => ?_⟩
    · rw [hload, ht]
      simp only [Except.mapError, MultiTree.catchupWAL_empty hat (hwal ▸ hlast)]
    · rw [hpairs]
      refine (perm_ext_iff_of_nodup ?_ (List.Nodup.of_map _ hnd)).mpr hmem
      exact (writeTrees _ trees).sorted.imp fun hlt heq => absurd (heq ▸ hlt) (lt_irrefl _)
    · rw [hi.treeByName_eq_some, hpairs, hmem]
    · have hnext : nextVersion t.version t.initialVersion = height + 1 := by
        rw [htv, htiv, nextVersion]
        split_ifs <;> omega
      have hal : MultiTree.Aligned (nextVersion t.version t.initialVersion) t.trees := by
        intro e he
        have hmem' := (hmem (e.name, e.tree)).mp (hpairs ▸ mem_map_of_mem he)
        have hv := hs.version _ hmem'
        simp only at hv
        omega
      obtain ⟨entry, db', hcommit⟩ := DB.commitBlock_of_applyBlock hi (by omega) (by omega) hal hdb
      obtain ⟨hentry, -⟩ := DB.commitBlock_ok (DB.atBoundary_new t false) hi hcommit
      obtain ⟨-, -, hver, -⟩ := MultiTree.commitEntry_fields hi hentry
      have hat' : t.AtIndex d'.clean.wal.lastIndex := by
        rw [show d'.clean.wal.lastIndex = 0 from hwal ▸ hlast]
        exact hat
      obtain ⟨-, wal, hwrite⟩ := DB.commitBlock_accepted hi hat' hcommit
      exact ⟨entry, db', wal, hcommit, hver.trans hnext, hwrite⟩

end Restored

def twoStores (height : Nat) : List (Name × Tree) :=
  [([98], ⟨height, some (.leaf 2 [1] (some [7]))⟩), ([97], ⟨height, none⟩)]

def twoStoresStream : List (Option SnapshotItem) :=
  [some (.store [98]), some (.iavl (some [1]) (some [7]) 0 2), some (.store [97])]

theorem streams_twoStores (h : height ≤ maxUint32) :
    Streams height (twoStores height) twoStoresStream := by
  have hlt : height < 2 ^ 32 := Nat.lt_succ_of_le h
  have hleaf : Tree.Persistable ⟨height, some (.leaf 2 [1] (some [7]))⟩ := by
    refine ⟨?_, hlt, Nat.one_lt_two_pow (by decide), ?_⟩
    · rintro n ⟨rfl⟩
      exact ⟨trivial, trivial, trivial, by simp [Node.Stored, Node.toList]⟩
    · rintro n ⟨rfl⟩
      simp [Node.Fits]
  have hnone : Tree.Persistable ⟨height, none⟩ :=
    ⟨fun n hn => (by cases hn), hlt, Nat.two_pow_pos 32, fun n hn => (by cases hn)⟩
  have hpair : Tree.Exports ⟨height, some (.leaf 2 [1] (some [7]))⟩ [⟨[1], some [7], 2, 0⟩] := rfl
  have hempty : Tree.Exports ⟨height, none⟩ [] := rfl
  exact .tree rfl hleaf hpair (by simp) (.tree rfl hnone hempty not_mem_nil .done)

/-- What a restore at height 3 leaves, with a log. -/
def restoredDir [Sha256] (wal : IndexedLog WALEntry) : Directory WALEntry :=
  ⟨some (snapshotName 3), none,
    [(snapshotName 3, updateMetadataFile (writeTrees .empty (twoStores 3)) 3)], pairwise_singleton _ _, wal⟩

/-- The two stores are restored over an older snapshot of them. -/
theorem restore_replaces_iff_older : ∃ (d d' : Directory WALEntry) (item : Option SnapshotItem),
    d.current = some (snapshotName 3) ∧ @restore _ Sha256.zero d 5 twoStoresStream = .ok (item, d') ∧
      @Replaced _ Sha256.zero _ d' 5 (twoStores 5) := by
  let _ := Sha256.zero
  have hok : (restore (restoredDir .empty) 5 twoStoresStream).toOption.isSome := by decide +kernel
  obtain ⟨⟨item, d'⟩, hr⟩ := Option.isSome_iff_exists.mp hok
  have hr := Results.toOption_eq_some.mp hr
  refine ⟨restoredDir .empty, d', item, rfl, hr, ?_⟩
  exact (restore_replaces_iff (streams_twoStores (by decide)) hr).mpr
    ⟨rfl, by decide, fun name hname => absurd hname not_mem_nil⟩

/-- A node that was restored at height 3 and made a block is restored at height 5. The old
entry is replayed on top: the version is 6, and the store has a pair that was not imported. -/
theorem exists_restore_over_log : ∃ (d : Directory WALEntry) (item : Option SnapshotItem)
    (d' d'' : Directory WALEntry) (m : MultiTree) (t : Tree), d.current = some (snapshotName 3) ∧
      d.wal.entries = [⟨[⟨[98], [⟨false, [2], some [9]⟩]⟩], []⟩] ∧
      Streams 5 (twoStores 5) twoStoresStream ∧
      @restore _ Sha256.zero d 5 twoStoresStream = .ok (item, d') ∧
      @Directory.load _ Sha256.zero _ d' ⟨0, false, false⟩ = .ok (m, d'') ∧ m.version = 6 ∧
      m.treeByName [98] = some t ∧ t.toList = [([1], some [7]), ([2], some [9])] := by
  let _ := Sha256.zero
  let d := restoredDir (IndexedLog.empty.append ⟨[⟨[98], [⟨false, [2], some [9]⟩]⟩], []⟩)
  have hrun : ((restore d 5 twoStoresStream).toOption.bind fun r =>
      (r.2.load ⟨0, false, false⟩).toOption.bind fun l =>
        (l.1.treeByName [98]).map fun t => (l.1.version, t.toList)) =
      some (6, [([1], some [7]), ([2], some [9])]) := by decide +kernel
  obtain ⟨⟨item, d'⟩, hr, hl⟩ := Option.bind_eq_some_iff.mp hrun
  obtain ⟨⟨m, d''⟩, hm, hend⟩ := Option.bind_eq_some_iff.mp hl
  obtain ⟨t, ht, hend⟩ := Option.map_eq_some_iff.mp hend
  obtain ⟨hver, htree⟩ := Prod.mk.inj hend
  exact ⟨d, item, d', d'', m, t, rfl, rfl, streams_twoStores (by decide),
    Results.toOption_eq_some.mp hr, Results.toOption_eq_some.mp hm, hver, ht, htree⟩

end CronosStore.RootMulti
