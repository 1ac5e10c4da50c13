import CronosStore.Memiavl.Lookup
import CronosStore.VersionDB.FixData

/-!
# Writing a version

`PutAtVersion`, `FeedChangeSet`, `Import`, `SetLatestVersion` and `GetLatestVersion` of
`versiondb/tsrocksdb/store.go`. A batch is written as a whole, all of it at one timestamp. Reads below
the timestamp do not see it, and from there on a key has what the last pair for it says
(`Store.getAtVersion_writeAt`), as the tree has to which the pairs are applied
(`Tree.Valid.applyChangeSet`).
-/

namespace CronosStore.Memiavl

open Foundation List SortedAssoc

/-- What a key has after a pair. -/
def KVPair.overwrite (key : Bytes) (old : Slice) (pair : KVPair) : Slice :=
  if pair.key = key then if pair.delete then none else some (pair.value.getD []) else old

theorem Tree.Valid.applyPair {t : Tree} (ht : t.Valid) (pair : KVPair) :
    (t.applyPair pair).Valid ∧ ∀ key, (t.applyPair pair).find key = pair.overwrite key (t.find key) := by
  obtain ⟨delete, k, value⟩ := pair
  cases delete with
  | true =>
    refine ⟨ht.remove k, fun key => ?_⟩
    show ((t.remove k).toList.lookup key).getD none = _
    rw [ht.toList_remove]
    by_cases h : k = key
    · subst h
      simp [KVPair.overwrite, lookup_erase_self ht.sorted]
    · simp [KVPair.overwrite, h, lookup_erase_of_ne ht.sorted (Ne.symm h), Tree.find]
  | false =>
    refine ⟨ht.set k value, fun key => ?_⟩
    show ((t.set k value).toList.lookup key).getD none = _
    rw [ht.toList_set]
    by_cases h : k = key
    · subst h
      simp [KVPair.overwrite, lookup_insert_self ht.sorted]
    · simp [KVPair.overwrite, h, lookup_insert_of_ne ht.sorted (Ne.symm h), Tree.find]

theorem Tree.Valid.applyChangeSet {t : Tree} (ht : t.Valid) (pairs : ChangeSet) :
    (t.applyChangeSet pairs).Valid ∧
      ∀ key, (t.applyChangeSet pairs).find key = pairs.foldl (KVPair.overwrite key) (t.find key) := by
  induction pairs generalizing t with
  | nil => exact ⟨ht, fun _ => rfl⟩
  | cons pair pairs ih =>
    obtain ⟨hv, hfind⟩ := ht.applyPair pair
    obtain ⟨hv', hrest⟩ := ih hv
    refine ⟨hv', fun key => ?_⟩
    rw [foldl_cons, ← hfind]
    exact hrest key

end CronosStore.Memiavl

namespace CronosStore.VersionDB

open Foundation Memiavl List

/-! ## Batches -/

namespace ColumnFamily

variable {cf cf' : ColumnFamily} {r : Nat} {key ts : Bytes}

theorem Newest.congr (h : ∀ e : SSTEntry, e.key = key → readLE e.ts ≤ r → (e ∈ cf.entries ↔ e ∈ cf'.entries))
    {e : SSTEntry} (hkey : e.key = key) (hnew : cf.Newest r e) : cf'.Newest r e := by
  obtain ⟨he, hle, hmax⟩ := hnew
  refine ⟨(h e hkey hle).mp he, hle, fun x hx hx' hxle => ?_⟩
  exact hmax x ((h x (hx'.trans hkey) hxle).mpr hx) hx' hxle

theorem getCFWithTS_congr (h : ∀ e : SSTEntry, e.key = key → readLE e.ts ≤ r → (e ∈ cf.entries ↔ e ∈ cf'.entries)) :
    cf.getCFWithTS r key = cf'.getCFWithTS r key := by
  refine Option.ext fun p => ?_
  rw [getCFWithTS_eq_some, getCFWithTS_eq_some]
  exact ⟨.congr h rfl, .congr (fun e hkey hle => (h e hkey hle).symm) rfl⟩

theorem getCFWithTS_newest {e : SSTEntry} (h : cf.Newest r e) :
    cf.getCFWithTS r e.key = e.value.map (·, e.ts) := by
  refine Option.ext fun p => ?_
  rw [getCFWithTS_eq_some, Option.map_eq_some_iff]
  constructor
  · intro hp
    rw [h.unique hp rfl]
    exact ⟨_, rfl, rfl⟩
  · rintro ⟨value, hvalue, rfl⟩
    rw [← hvalue]
    exact h

theorem getCFWithTS_writeEntry {e : SSTEntry} (hcf' : cf'.entries = writeEntry cf.entries e)
    (hn : ∀ x ∈ cf.entries, readLE x.ts ≤ readLE e.ts) :
    cf'.getCFWithTS r key =
      if e.key = key ∧ readLE e.ts ≤ r then e.value.map (·, e.ts) else cf.getCFWithTS r key := by
  split_ifs with h
  · obtain ⟨rfl, hle⟩ := h
    refine getCFWithTS_newest ⟨?_, hle, fun x hx _ _ => ?_⟩
    · rw [hcf']
      exact mem_append_right _ mem_cons_self
    · rw [hcf'] at hx
      rcases mem_append.mp hx with hx | hx
      · exact hn x (mem_filter.mp hx).1
      · rw [mem_singleton.mp hx]
  · refine getCFWithTS_congr fun x hkey hle => ?_
    have hne : ¬(x.key = e.key ∧ x.ts = e.ts) := fun hx => h ⟨hx.1 ▸ hkey, hx.2 ▸ hle⟩
    have hxe : x ≠ e := by
      rintro rfl
      exact hne ⟨rfl, rfl⟩
    rw [hcf', writeEntry, mem_append, mem_filter, mem_singleton]
    simp [hne, hxe]

/-- Reads before the timestamp of a batch do not see it. From there on the last entry of a key counts, if
nothing newer was there. -/
theorem getCFWithTS_write {batch : List SSTEntry} (hbatch : ∀ e ∈ batch, e.ts.length = timestampSize)
    (hts : ∀ e ∈ batch, e.ts = ts) (hn : ∀ x ∈ cf.entries, readLE x.ts ≤ readLE ts) (r : Nat) (key : Bytes) :
    (∀ x ∈ (cf.write batch hbatch).entries, readLE x.ts ≤ readLE ts) ∧
      (cf.write batch hbatch).getCFWithTS r key =
        if readLE ts ≤ r then
          batch.foldl (fun old e => if e.key = key then e.value.map (·, ts) else old) (cf.getCFWithTS r key)
        else cf.getCFWithTS r key := by
  induction batch generalizing cf with
  | nil => exact ⟨hn, (ite_self _).symm⟩
  | cons e batch ih =>
    obtain ⟨he, hts⟩ := forall_mem_cons.mp hts
    obtain ⟨hwidth, hbatch⟩ := forall_mem_cons.mp hbatch
    have hone : ∀ x ∈ (cf.write [e] (by simpa using hwidth)).entries, readLE x.ts ≤ readLE ts := by
      intro x hx
      rcases mem_append.mp hx with hx | hx
      · exact hn x (mem_filter.mp hx).1
      · rw [mem_singleton.mp hx, he]
    have hstep : (cf.write [e] (by simpa using hwidth)).getCFWithTS r key = _ :=
      getCFWithTS_writeEntry rfl (he ▸ hn)
    obtain ⟨hall, hrest⟩ := ih hbatch hts hone
    refine ⟨hall, hrest.trans ?_⟩
    rw [foldl_cons, hstep, he]
    split_ifs <;> simp_all

end ColumnFamily

/-! ## The store -/

namespace Store

/-- The calls for pairs of stores, as a batch at the timestamp of a version. -/
def batchAt (version : Int) (pairs : List (Name × KVPair)) : List SSTEntry :=
  pairs.map fun p => entryOf p.1 (timestamp version) p.2

theorem ts_batchAt {version : Int} {pairs : List (Name × KVPair)} :
    ∀ e ∈ batchAt version pairs, e.ts = timestamp version := by
  intro e he
  obtain ⟨p, -, rfl⟩ := mem_map.mp he
  rfl

theorem width_batchAt (version : Int) (pairs : List (Name × KVPair)) :
    ∀ e ∈ batchAt version pairs, e.ts.length = timestampSize := by
  intro e he
  rw [ts_batchAt e he]
  exact length_putLE _ _

def writeAt (s : Store) (version : Int) (pairs : List (Name × KVPair)) : Store :=
  { s with db := s.db.write (batchAt version pairs) (width_batchAt version pairs) }

/-- Nothing is stored behind a version. -/
def UpTo (s : Store) (version : Int) : Prop := ∀ e ∈ s.db.entries, (readLE e.ts : Int) ≤ version

theorem readLE_timestamp {version : Int} (h0 : 0 ≤ version) (h : version < 2 ^ 63) :
    (readLE (timestamp version) : Int) = version := by
  rw [timestamp, readLE_putLE, timestampSize]
  omega

/-- What a read answers for what RocksDB has found. -/
def shown (skipVersionZero : Bool) : Option (Bytes × Bytes) → Slice
  | none => none
  | some (value, ts) => if skipVersionZero ∧ readLE ts = 0 then none else some value

theorem shown_foldl {version : Int} {pairs : List (Name × KVPair)} {name : Name} (skip : Bool)
    (hpos : readLE (timestamp version) ≠ 0) (hname : 47 ∉ name) (hnames : ∀ p ∈ pairs, 47 ∉ p.1) (key : Bytes)
    (old : Option (Bytes × Bytes)) :
    shown skip ((batchAt version pairs).foldl (fun old e =>
        if e.key = storePrefix name ++ key then e.value.map (·, timestamp version) else old) old) =
      ((pairs.filter fun p => p.1 = name).map Prod.snd).foldl (KVPair.overwrite key) (shown skip old) := by
  induction pairs generalizing old with
  | nil => rfl
  | cons p pairs ih =>
    obtain ⟨hp, hnames⟩ := forall_mem_cons.mp hnames
    rw [batchAt, map_cons, foldl_cons]
    refine (ih hnames _).trans ?_
    by_cases hn : p.1 = name
    · subst hn
      have hkey : storePrefix p.1 ++ p.2.key = storePrefix p.1 ++ key ↔ p.2.key = key := append_right_inj _
      rw [filter_cons_of_pos (by simp), map_cons, foldl_cons]
      congr 1
      simp only [entryOf, hkey, KVPair.overwrite]
      split_ifs <;> simp [shown, hpos]
    · rw [filter_cons_of_neg (by simpa using hn), if_neg]
      exact storePrefix_append_ne hp hname (Ne.symm hn) _ _

theorem filter_flatMap_pairs {l : List (Name × ChangeSet)} {e : Name × ChangeSet} (hnd : (l.map Prod.fst).Nodup)
    (he : e ∈ l) : ((l.flatMap fun e => e.2.map (e.1, ·)).filter fun p => p.1 = e.1).map Prod.snd = e.2 := by
  have hother : ∀ l : List (Name × ChangeSet), e.1 ∉ l.map Prod.fst →
      (l.flatMap fun e => e.2.map (e.1, ·)).filter (fun p => p.1 = e.1) = [] := by
    intro l hl
    rw [filter_eq_nil_iff]
    intro p hp heq
    obtain ⟨e', he', hp⟩ := mem_flatMap.mp hp
    obtain ⟨pair, -, rfl⟩ := mem_map.mp hp
    exact hl (mem_map.mpr ⟨e', he', of_decide_eq_true heq⟩)
  obtain ⟨l, r, rfl⟩ := append_of_mem he
  rw [map_append, map_cons] at hnd
  obtain ⟨-, hr, hdisj⟩ := nodup_append.mp hnd
  have hl : e.1 ∉ l.map Prod.fst := fun hl => hdisj _ hl _ mem_cons_self rfl
  rw [flatMap_append, flatMap_cons, filter_append, filter_append, hother l hl, hother r (nodup_cons.mp hr).1]
  simp [filter_map, Function.comp_def]

/-- Reads from the version of a batch on see its pairs, and reads before it do not, if nothing newer is
stored. -/
theorem getAtVersion_writeAt {s : Store} {version v : Int} {pairs : List (Name × KVPair)} {name : Name}
    (hs : s.UpTo version) (hpos : 0 < version) (hlt : version < 2 ^ 63) (hv : 0 ≤ v) (hv' : v < 2 ^ 63)
    (hname : 47 ∉ name) (hnames : ∀ p ∈ pairs, 47 ∉ p.1) :
    (s.writeAt version pairs).UpTo version ∧ ∀ key, (s.writeAt version pairs).getAtVersion name key (some v) =
      if version ≤ v then
        ((pairs.filter fun p => p.1 = name).map Prod.snd).foldl (KVPair.overwrite key)
          (s.getAtVersion name key (some v))
      else s.getAtVersion name key (some v) := by
  have hts := readLE_timestamp hpos.le hlt
  have hold : ∀ x ∈ s.db.entries, readLE x.ts ≤ readLE (timestamp version) := by
    intro x hx
    have := hs x hx
    omega
  have hread : version ≤ v ↔ readLE (timestamp version) ≤ readTimestamp (some v) := by
    rw [readTimestamp]
    omega
  refine ⟨fun x hx => ?_, fun key => ?_⟩
  · have hle := (ColumnFamily.getCFWithTS_write (width_batchAt version pairs) ts_batchAt hold 0 []).1 x hx
    omega
  · show shown s.skipVersionZero ((s.db.write (batchAt version pairs) (width_batchAt version pairs)).getCFWithTS _ _) = _
    rw [(ColumnFamily.getCFWithTS_write _ ts_batchAt hold _ _).2]
    split_ifs with h h' h'
    · exact shown_foldl _ (by omega) hname hnames key _
    · exact absurd (hread.mpr h) h'
    · exact absurd (hread.mp h') h
    · rfl

/-- At a version the store answers all queries as a tree does. -/
structure Answers (s : Store) (name : Name) (v : Int) (tree : Tree) : Prop where
  get : ∀ key, s.getAtVersion name key (some v) = tree.find key
  has : ∀ key, s.hasAtVersion name key (some v) = (tree.find key).isSome
  iterate : ∀ start stop, start ≠ some [] → stop ≠ some [] → ∃ ps : List VersionedPair,
    (∀ fuel, s.db.entries.length < fuel →
      s.db.iterate s.skipVersionZero fuel name start stop (some v) false = some (.ok ps) ∧
      s.db.iterate s.skipVersionZero fuel name start stop (some v) true = some (.ok ps.reverse)) ∧
    ps.map (fun p => (p.key, some p.value)) = Iterator.selected start stop true tree.toList

/-- Where the reads are those of a tree, so are the iterations. -/
theorem answers_of_find {s : Store} {name : Name} {v : Int} {tree : Tree} (hv : tree.Valid)
    (h : ∀ key, s.getAtVersion name key (some v) = tree.find key) : s.Answers name v tree := by
  refine ⟨h, fun key => congrArg Option.isSome (h key), fun start stop hstart hstop => ?_⟩
  obtain ⟨ps, hiterate, hmem, hsorted⟩ := s.db.iterate_spec name hstart hstop (some v) s.skipVersionZero
  refine ⟨ps, hiterate, Pairwise.eq_of_mem_iff (r := fun a b => a.1 < b.1) (pairwise_map.mpr hsorted)
    (hv.sorted.filter _) fun q => ?_⟩
  obtain ⟨key, x⟩ := q
  simp only [Iterator.selected, if_true, mem_map, mem_filter, decide_eq_true_eq]
  constructor
  · rintro ⟨⟨k, t, value⟩, hp, heq⟩
    cases heq
    obtain ⟨hnew, hin, hskip⟩ := (hmem _).mp hp
    have hfind : tree.find k = some value := h k ▸ getAtVersion_eq_some.mpr ⟨t, hnew, hskip⟩
    refine ⟨?_, hin⟩
    rw [Tree.find] at hfind
    cases hl : tree.toList.lookup k with
    | none => simp [hl] at hfind
    | some y =>
      obtain rfl : y = some value := by simpa [hl] using hfind
      exact (SortedAssoc.lookup_eq_some_iff hv.sorted).mp hl
  · rintro ⟨hq, hin⟩
    obtain ⟨value, rfl⟩ := Option.ne_none_iff_exists'.mp (hv.value_ne_none _ hq)
    obtain ⟨t, hnew, hskip⟩ := getAtVersion_eq_some.mp ((h key).trans (hv.find_of_mem hq))
    exact ⟨⟨key, t, value⟩, (hmem _).mpr ⟨hnew, hin, hskip⟩, rfl⟩

theorem feedChangeSet_eq (s : Store) (store : Name) (e : Int × ChangeSet) :
    { s with db := s.db.feedChangeSet store e } = s.writeAt e.1 (e.2.map (store, ·)) := by
  simp [writeAt, ColumnFamily.write, ColumnFamily.feedChangeSet, VersionDB.feedChangeSet, batchAt, Function.comp_def]

theorem getAtVersion_feed {store : Name} (hstore : 47 ∉ store) {v : Int} (hv : 0 ≤ v) (hv' : v < 2 ^ 63)
    {l : List (Int × ChangeSet)} (hpos : ∀ e ∈ l, 0 < e.1 ∧ e.1 < 2 ^ 63) (hinc : l.Pairwise fun a b => a.1 < b.1)
    {s : Store} {tree : Tree} (hvalid : tree.Valid) (hup : ∀ e ∈ l, s.UpTo e.1)
    (hs : ∀ key, s.getAtVersion store key (some v) = tree.find key) :
    ((l.filter fun e => e.1 ≤ v).foldl applyAt tree).Valid ∧
      ∀ key, { s with db := l.foldl (·.feedChangeSet store ·) s.db }.getAtVersion store key (some v) =
        ((l.filter fun e => e.1 ≤ v).foldl applyAt tree).find key := by
  induction l generalizing s tree with
  | nil => exact ⟨hvalid, hs⟩
  | cons e l ih =>
    obtain ⟨⟨hpos0, hlt⟩, hpos⟩ := forall_mem_cons.mp hpos
    obtain ⟨hbefore, hinc⟩ := pairwise_cons.mp hinc
    obtain ⟨hup', hread⟩ : (s.writeAt e.1 (e.2.map (store, ·))).UpTo e.1 ∧ _ :=
      getAtVersion_writeAt (hup e mem_cons_self) hpos0 hlt hv hv' hstore (by simpa using fun _ _ => hstore)
    have hpairs : ((e.2.map (store, ·)).filter fun p => p.1 = store).map Prod.snd = e.2 := by
      simp [filter_map, Function.comp_def]
    have happly : (applyAt tree e).Valid ∧ ∀ key, (applyAt tree e).find key = _ :=
      Tree.Valid.applyChangeSet (t := ⟨e.1.toNat - 1, tree.root⟩) hvalid e.2
    rw [← s.feedChangeSet_eq store e] at hup' hread
    have hrest : ∀ c ∈ l, Store.UpTo { s with db := s.db.feedChangeSet store e } c.1 :=
      fun c hc x hx => (hup' x hx).trans (hbefore c hc).le
    by_cases hle : e.1 ≤ v
    · rw [filter_cons_of_pos (by simpa using hle), foldl_cons, foldl_cons]
      refine ih hpos hinc happly.1 hrest fun key => ?_
      rw [hread, if_pos hle, hpairs, hs]
      exact (happly.2 key).symm
    · rw [filter_cons_of_neg (by simpa using hle), foldl_cons]
      refine ih hpos hinc hvalid hrest fun key => ?_
      rw [hread, if_neg hle, hs]

/-- A version store that is fed with the change sets of a store answers at every version as the tree with
the change sets up to the version. -/
theorem feed_answers {store : Name} (hstore : 47 ∉ store) {l : List (Int × ChangeSet)}
    (hpos : ∀ e ∈ l, 0 < e.1 ∧ e.1 < 2 ^ 63) (hinc : l.Pairwise fun a b => a.1 < b.1) (skipVersionZero : Bool)
    {v : Int} (hv : 0 ≤ v) (hv' : v < 2 ^ 63) :
    Store.Answers ⟨l.foldl (·.feedChangeSet store ·) .empty, skipVersionZero⟩ store v (replayUpTo v l) := by
  have hempty : ∀ key, (Store.mk .empty skipVersionZero).getAtVersion store key (some v) = (Tree.mk 0 none).find key :=
    fun key => rfl
  obtain ⟨hvalid, hfind⟩ := getAtVersion_feed hstore hv hv' hpos hinc (fun n hn => by cases hn)
    (fun e _ x hx => absurd hx not_mem_nil) hempty
  exact answers_of_find hvalid hfind

/-- A key that is set in version 1 and deleted in version 3. -/
theorem feed_answers_deleted :
    let l : List (Int × ChangeSet) := [(1, [⟨false, [1], some [2]⟩]), (3, [⟨true, [1], none⟩])]
    let s : Store := ⟨l.foldl (·.feedChangeSet [97] ·) .empty, false⟩
    s.getAtVersion [97] [1] (some 2) = some [2] ∧ s.getAtVersion [97] [1] (some 3) = none := by
  intro l s
  have hanswers {v : Int} (hv : 0 ≤ v) (hv' : v < 2 ^ 63) : s.Answers [97] v (replayUpTo v l) :=
    feed_answers (by decide) (by decide) (by decide) false hv hv'
  exact ⟨(hanswers (by decide) (by decide)).get [1], (hanswers (by decide) (by decide)).get [1]⟩

end Store

/-! ## The database -/

/-- The timestamped column family, and what the default one has for `latestVersionKey`. -/
structure Database where
  store : Store
  latestVersion : Option Bytes

namespace Database

def setLatestVersion (d : Database) (version : Int) : Database := { d with latestVersion := some (timestamp version) }

def getLatestVersion (d : Database) : Int :=
  match d.latestVersion with
  | none => 0
  | some bz => toInt64 (readLE bz)

theorem getLatestVersion_set {d : Database} {version : Int} (h0 : 0 ≤ version) (h : version < 2 ^ 63) :
    (d.setLatestVersion version).getLatestVersion = version := by
  show toInt64 (readLE (timestamp version)) = version
  rw [timestamp, readLE_putLE]
  exact toInt64_mod (by omega) h

/-- `PutAtVersion`. The latest version is in the batch. -/
def putAtVersion (d : Database) (version : Int) (changeSet : List (Name × KVPair)) : Database :=
  { d with store := d.store.writeAt version changeSet }.setLatestVersion version

def importCommitBatchSize : Nat := 10000

/-- The loop of `Import`, with the calls that are not written yet. -/
def importLoop (version : Int) : List (Name × KVPair) → Nat → List (Name × KVPair) → Store → Store
  | [], _, batch, s => if batch.length > 0 then s.writeAt version batch else s
  | entry :: entries, counter, batch, s =>
    if (counter + 1) % importCommitBatchSize = 0 then
      importLoop version entries (counter + 1) [] (s.writeAt version (batch ++ [entry]))
    else importLoop version entries (counter + 1) (batch ++ [entry]) s

/-- `Import`, which puts every entry that comes out of the channel. -/
def importEntries (d : Database) (version : Int) (entries : List (Name × KVPair)) : Database :=
  { d with store := importLoop version entries 0 [] d.store }

end Database

theorem Store.writeAt_append (s : Store) (version : Int) (batch pairs : List (Name × KVPair)) :
    s.writeAt version (batch ++ pairs) = (s.writeAt version batch).writeAt version pairs := by
  simp only [writeAt, ColumnFamily.write, batchAt, map_append, foldl_append]

/-- Where the batches are cut does not matter. -/
theorem Database.importLoop_eq (version : Int) (entries : List (Name × KVPair)) (counter : Nat)
    (batch : List (Name × KVPair)) (s : Store) :
    importLoop version entries counter batch s = s.writeAt version (batch ++ entries) := by
  induction entries generalizing counter batch s with
  | nil =>
    rw [importLoop, append_nil]
    split_ifs with h
    · rfl
    · rw [length_eq_zero_iff.mp (Nat.eq_zero_of_not_pos h)]
      rfl
  | cons entry entries ih =>
    rw [importLoop, append_cons batch entry entries]
    split_ifs
    · rw [ih, nil_append, ← s.writeAt_append]
    · exact ih _ _ _

end CronosStore.VersionDB
