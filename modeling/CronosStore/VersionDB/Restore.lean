import CronosStore.RootMulti.Restore
import CronosStore.VersionDB.Writes

/-!
# Restoring the version store

`restore-versiondb` of `versiondb/client/restore.go`: `readSnapshotEntries` reads the leaves out of
a snapshot of the state, and `Import` writes them at its height. The channel between them is the
list of what goes through it. From then on the version store follows the trees
(`RootMulti/Streaming`).
-/

namespace CronosStore.VersionDB

open Foundation Memiavl RootMulti List

inductive ReadError
  | invalidMessage
  | emptyStoreName
deriving DecidableEq

/-- What is sent to the channel, and the error. -/
def readSnapshotEntries : List (Option SnapshotItem) → Name → List (Name × KVPair) × Option ReadError
  | [], _ => ([], none)
  | none :: _, _ => ([], some .invalidMessage)
  | some (.store name) :: items, _ => readSnapshotEntries items name
  | some (.iavl key value height _) :: items, storeKey =>
    if height ≠ 0 then readSnapshotEntries items storeKey
    else if storeKey = [] then ([], some .emptyStoreName)
    else
      let r := readSnapshotEntries items storeKey
      ((storeKey, ⟨false, key.getD [], value⟩) :: r.1, r.2)
  | some (.other _) :: _, _ => ([], none)

/-- The command, on a version store that was opened. Entries before an error are written. -/
def restoreVersionDB (d : Database) (height : Nat) (items : List (Option SnapshotItem)) :
    Option ReadError × Database :=
  let r := readSnapshotEntries items []
  let d := d.importEntries height r.1
  match r.2 with
  | some e => (some e, d)
  | none => (none, d.setLatestVersion height)

/-- A leaf, as it is put. -/
def putOf (p : Bytes × Slice) : KVPair := ⟨false, p.1, p.2.bind wire⟩

theorem readSnapshotEntries_nodes {name : Name} (hname : name ≠ []) {items : List (Option SnapshotItem)} {n : Node}
    (hb : n.Balanced) (hlen : n.toList.length < 2 ^ 32) {es : List ExportNode} (he : n.Exports es) :
    readSnapshotEntries ((es.map fun e => some (.ofNode e)) ++ items) name =
      (n.toList.map (fun p => (name, putOf p)) ++ (readSnapshotEntries items name).1,
        (readSnapshotEntries items name).2) := by
  induction n generalizing es items with
  | leaf v k x =>
    cases he
    simp [SnapshotItem.ofNode, readSnapshotEntries, hname, putOf, wire_getD, Node.toList]
  | branch h s v k l r ihl ihr =>
    obtain ⟨el, er, x, hel, her, rfl⟩ := he
    have hh : h < 64 := hb.height_lt hlen
    have hpos : toInt8 h ≠ 0 := by
      rw [toInt8_of_lt (hh.trans (by decide))]
      have := hb.2.2.1
      omega
    rw [Node.toList, length_append] at hlen
    rw [map_append, map_append, append_assoc, append_assoc, ihl hb.1 (by omega) hel, ihr hb.2.1 (by omega) her]
    simp [SnapshotItem.ofNode, readSnapshotEntries, hpos, Node.toList]

theorem readSnapshotEntries_streams {height : Nat} {trees : List (Name × Tree)}
    {items : List (Option SnapshotItem)} (hs : Streams height trees items) (hnames : ∀ e ∈ trees, e.1 ≠ [])
    (storeKey : Name) : readSnapshotEntries items storeKey =
      ((trees.map fun e => (e.1, e.2.toList.map putOf)).flatMap fun e => e.2.map (e.1, ·), none) := by
  induction hs generalizing storeKey with
  | done => rfl
  | extension => rfl
  | @tree name v es trees items _ hv he _ _ ih =>
    obtain ⟨hname, hnames⟩ := forall_mem_cons.mp hnames
    rw [cons_append, readSnapshotEntries, map_cons, flatMap_cons]
    cases hroot : v.root with
    | none =>
      rw [Tree.Exports, hroot] at he
      cases he
      rw [map_nil, nil_append, ih hnames]
      simp [Tree.toList, hroot]
    | some n =>
      rw [Tree.Exports, hroot] at he
      have htl : v.toList = n.toList := by simp [Tree.toList, hroot]
      rw [readSnapshotEntries_nodes hname (hv.valid n hroot).balanced (htl ▸ hv.length) he, ih hnames, htl]
      simp [Function.comp_def]

theorem foldl_overwrite_putOf {l : List (Bytes × Slice)} (hsorted : SortedAssoc.Sorted l)
    (hval : ∀ p ∈ l, p.2 ≠ none) (key : Bytes) (old : Slice) :
    (l.map putOf).foldl (KVPair.overwrite key) old = (l.lookup key).getD old := by
  induction l generalizing old with
  | nil => rfl
  | cons p l ih =>
    obtain ⟨k, x⟩ := p
    obtain ⟨hlt, hsorted⟩ := pairwise_cons.mp hsorted
    obtain ⟨hx, hval⟩ := forall_mem_cons.mp hval
    rw [map_cons, foldl_cons, ih hsorted hval]
    by_cases hk : k = key
    · subst hk
      have habs : l.lookup k = none := lookup_eq_none_iff.mpr fun q hq => by simpa using (hlt q hq).ne
      simp [habs, KVPair.overwrite, putOf, bind_wire_getD hx]
    · have hbeq : (key == k) = false := by simpa using Ne.symm hk
      simp [lookup_cons, hbeq, KVPair.overwrite, putOf, hk]

/-- From the height of a well-formed snapshot on, a version store that is restored from it answers as the
trees of the snapshot do. Before the height it has nothing. -/
theorem restoreVersionDB_streams {height : Nat} {trees : List (Name × Tree)} {items : List (Option SnapshotItem)}
    (hs : Streams height trees items) (hpos : 0 < height) (hlt : height < 2 ^ 63)
    (hnames : ∀ e ∈ trees, e.1 ≠ [] ∧ 47 ∉ e.1) (skipVersionZero : Bool) :
    ∃ d, restoreVersionDB ⟨⟨.empty, skipVersionZero⟩, none⟩ height items = (none, d) ∧
      d.getLatestVersion = height ∧ d.store.UpTo height ∧ ∀ e ∈ trees, ∀ v : Int, 0 ≤ v → v < 2 ^ 63 →
        (height ≤ v → d.store.Answers e.1 v e.2) ∧
        (v < height → ∀ key, d.store.getAtVersion e.1 key (some v) = none) := by
  let pairs := (trees.map fun e => (e.1, e.2.toList.map putOf)).flatMap fun e => e.2.map (e.1, ·)
  let s : Store := ⟨.empty, skipVersionZero⟩
  have hread := readSnapshotEntries_streams hs (fun e he => (hnames e he).1) []
  have hslash : ∀ p ∈ pairs, 47 ∉ p.1 := by
    intro p hp
    obtain ⟨e, he, hp⟩ := mem_flatMap.mp hp
    obtain ⟨e, htree, rfl⟩ := mem_map.mp he
    obtain ⟨pair, -, rfl⟩ := mem_map.mp hp
    exact (hnames e htree).2
  have hwrite {v : Int} (hv : 0 ≤ v) (hv' : v < 2 ^ 63) {name : Name} (hname : 47 ∉ name) :=
    Store.getAtVersion_writeAt (show s.UpTo height from fun e he => absurd he not_mem_nil) (by exact_mod_cast hpos)
      (by exact_mod_cast hlt) hv hv' hname hslash
  refine ⟨(Database.mk (s.writeAt height pairs) none).setLatestVersion height, ?_,
    Database.getLatestVersion_set (by omega) (by exact_mod_cast hlt), (hwrite le_rfl (by decide) not_mem_nil).1,
    fun e he v hv hv' => ⟨fun hle => ?_, fun hgt key => ?_⟩⟩
  · simp only [restoreVersionDB, hread, Database.importEntries, Database.importLoop_eq, nil_append]
    rfl
  · have hvalid := (hs.persistable e he).valid
    refine Store.answers_of_find hvalid fun key => ((hwrite hv hv' (hnames e he).2).2 key).trans ?_
    have hpairs := Store.filter_flatMap_pairs (l := trees.map fun e => (e.1, e.2.toList.map putOf))
      (by simpa [Function.comp_def] using hs.nodup) (mem_map_of_mem he)
    rw [if_pos hle, hpairs, foldl_overwrite_putOf hvalid.sorted hvalid.value_ne_none]
    rfl
  · refine ((hwrite hv hv' (hnames e he).2).2 key).trans ?_
    rw [if_neg (not_le.mpr hgt)]
    rfl

/-- A store with one pair, and an empty one. -/
theorem restoreVersionDB_streams_twoStores : ∃ d,
    restoreVersionDB ⟨⟨.empty, false⟩, none⟩ 3 twoStoresStream = (none, d) ∧
      d.getLatestVersion = 3 ∧ d.store.getAtVersion [98] [1] (some 5) = some [7] := by
  have hs : Streams 3 (twoStores 3) twoStoresStream := streams_twoStores (by decide)
  obtain ⟨d, hd, hlatest, -, htrees⟩ :=
    restoreVersionDB_streams hs (by decide) (by decide) (by decide) false
  have hanswers := (htrees _ mem_cons_self 5 (by decide) (by decide)).1 (by decide)
  exact ⟨d, hd, hlatest, hanswers.get [1]⟩

end CronosStore.VersionDB
