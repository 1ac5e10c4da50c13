import CronosStore.VersionDB.TSIterator

/-!
# Repairing entries without a timestamp

`FixData` of `versiondb/tsrocksdb/store.go`. An upgrade of RocksDB has stored puts wrongly: the
timestamp was taken for the end of the key, and the entry has the timestamp zero. The repair reads
the entries at version zero, cuts the timestamp off the key and writes the put again. The wrong
entries stay, and are hidden from readers that skip the version zero.

What is stored during the repair is described by the history that was intended, which of its puts
are wrong and which of these are fixed (`Holds`).

A store whose prefix ends within the timestamp of a wrong entry of another store takes that entry
for its own and fails, since less than a timestamp is left of the key (`exists_fixData_fails`).
-/

namespace CronosStore.VersionDB

open Foundation Memiavl List

/-! ## Reads and writes -/

namespace ColumnFamily

/-- `GetCFWithTS` of RocksDB: the value and the timestamp of the newest entry of a key, if that is a put. -/
def getCFWithTS (cf : ColumnFamily) (ts : Nat) (key : Bytes) : Option (Bytes × Bytes) :=
  (cf.entries.find? fun e => e.key = key ∧ cf.Newest ts e).bind fun e => e.value.map (·, e.ts)

def write (cf : ColumnFamily) (batch : List SSTEntry) (hbatch : ∀ e ∈ batch, e.ts.length = timestampSize) :
    ColumnFamily where
  entries := batch.foldl writeEntry cf.entries
  width := width_foldl_writeEntry cf.width hbatch
  nodup := nodup_foldl_writeEntry cf.nodup batch

theorem write_eq_self {cf : ColumnFamily} {batch : List SSTEntry} (h : batch = [])
    (hbatch : ∀ e ∈ batch, e.ts.length = timestampSize) : cf.write batch hbatch = cf := by
  subst h
  rfl

end ColumnFamily

structure Store where
  db : ColumnFamily
  skipVersionZero : Bool

namespace Store

def setSkipVersionZero (s : Store) (skip : Bool) : Store := { s with skipVersionZero := skip }

def getAtVersionSlice (s : Store) (storeKey : Name) (key : Bytes) (version : Option Int) : Slice :=
  match s.db.getCFWithTS (readTimestamp version) (storePrefix storeKey ++ key) with
  | none => none
  | some (value, ts) => if s.skipVersionZero ∧ readLE ts = 0 then none else some value

def getAtVersion (s : Store) (storeKey : Name) (key : Bytes) (version : Option Int) : Slice :=
  s.getAtVersionSlice storeKey key version

def hasAtVersion (s : Store) (storeKey : Name) (key : Bytes) (version : Option Int) : Bool :=
  (s.getAtVersionSlice storeKey key version).isSome

end Store

/-! ## The repair -/

structure KVPairWithTS where
  key : Bytes
  value : Bytes
  timestamp : Bytes
  width : timestamp.length = timestampSize
deriving DecidableEq

inductive FixError
  | iterate (error : IterateError)
  | invalidKeyLength (key : Bytes) (store : Name)
deriving DecidableEq

def wrongPair (store : Name) (p : VersionedPair) : Except FixError (Option KVPairWithTS) :=
  if readLE p.timestamp ≠ 0 then .ok none
  else if h : p.key.length < timestampSize then .error (.invalidKeyLength p.key store)
  else .ok (some ⟨p.key.take (p.key.length - timestampSize), p.value, p.key.drop (p.key.length - timestampSize),
    by rw [length_drop]; omega⟩)

def wrongPairs (store : Name) : List VersionedPair → Except FixError (List KVPairWithTS)
  | [] => .ok []
  | p :: ps =>
    match wrongPair store p with
    | .error e => .error e
    | .ok pair =>
      match wrongPairs store ps with
      | .error e => .error e
      | .ok pairs => .ok (pair.toList ++ pairs)

def KVPairWithTS.put (store : Name) (pair : KVPairWithTS) : SSTEntry :=
  ⟨storePrefix store ++ pair.key, pair.timestamp, some pair.value⟩

namespace Store

def loadWrongData (s : Store) (store : Name) : Option (Except FixError (List KVPairWithTS)) :=
  (s.db.iterate s.skipVersionZero (s.db.entries.length + 1) store none none (some 0) false).map fun
    | .error e => .error (.iterate e)
    | .ok ps => wrongPairs store ps

def clean (s : Store) (store : Name) (pair : KVPairWithTS) : Bool :=
  let old := s.db.getCFWithTS (readLE pair.timestamp) (storePrefix store ++ pair.key)
  (old.map Prod.fst).getD [] = pair.value ∧ (old.map Prod.snd).getD [] = pair.timestamp

def fixBatch (s : Store) (store : Name) (pairs : List KVPairWithTS) : List SSTEntry :=
  (pairs.filter fun pair => !s.clean store pair).map (KVPairWithTS.put store)

theorem width_fixBatch (s : Store) (store : Name) (pairs : List KVPairWithTS) :
    ∀ e ∈ s.fixBatch store pairs, e.ts.length = timestampSize := by
  intro e he
  obtain ⟨pair, -, rfl⟩ := mem_map.mp he
  exact pair.width

def fixDataStore (s : Store) (store : Name) (dryRun : Bool) : Option (Except FixError (Store × List SSTEntry)) :=
  (s.loadWrongData store).map fun
    | .error e => .error e
    | .ok pairs =>
      if dryRun then .ok (s, [])
      else .ok ({ s with db := s.db.write (s.fixBatch store pairs) (s.width_fixBatch store pairs) },
        s.fixBatch store pairs)

def fixData (dryRun : Bool) : List Name → Store → Option (Store × List SSTEntry × Option FixError)
  | [], s => some (s, [], none)
  | name :: names, s => do
    match ← s.fixDataStore name dryRun with
    | .error e => pure (s, [], some e)
    | .ok (s, batch) =>
      let (s, written, error) ← fixData dryRun names s
      pure (s, batch ++ written, error)

end Store

/-! ## The intended history -/

structure History extends ColumnFamily where
  positive : ∀ e ∈ entries, readLE e.ts ≠ 0

def misplaced (e : SSTEntry) : SSTEntry := ⟨e.key ++ e.ts, timestamp 0, e.value⟩

/-- What is stored of a history: all of it but the wrong entries that are not fixed, and all the wrong entries in
the wrong place. -/
structure Holds (history : History) (wrong fixed : SSTEntry → Prop) (cf : ColumnFamily) : Prop where
  puts : ∀ e ∈ history.entries, wrong e → e.value ≠ none
  mem : ∀ e, e ∈ cf.entries ↔ (e ∈ history.entries ∧ (wrong e → fixed e)) ∨
    ∃ e' ∈ history.entries, wrong e' ∧ e = misplaced e'

namespace History

variable (history : History) (wrong : SSTEntry → Prop) [DecidablePred wrong]

def place (e : SSTEntry) : SSTEntry := if wrong e then misplaced e else e

theorem place_inj {e e' : SSTEntry} (he : e ∈ history.entries) (he' : e' ∈ history.entries)
    (hkey : (place wrong e).key = (place wrong e').key)
    (hts : (place wrong e).ts = (place wrong e').ts) : e = e' := by
  have hzero : readLE (timestamp 0) = 0 := rfl
  have hsame : e.key = e'.key ∧ e.ts = e'.ts := by
    unfold place at hkey hts
    split_ifs at hkey hts
    · exact append_inj' hkey ((history.width e he).trans (history.width e' he').symm)
    · exact absurd (congrArg readLE hts.symm) (history.positive e' he')
    · exact absurd (congrArg readLE hts) (history.positive e he)
    · exact ⟨hkey, hts⟩
  exact inj_on_of_nodup_map history.nodup he he' (by rw [hsame.1, hsame.2])

def misplace : ColumnFamily where
  entries := history.entries.map (place wrong)
  width := by
    intro e he
    obtain ⟨e, hmem, rfl⟩ := mem_map.mp he
    unfold place
    split_ifs
    · exact length_putLE _ _
    · exact history.width e hmem
  nodup := by
    rw [map_map]
    refine List.Nodup.map_on ?_ (List.Nodup.of_map _ history.nodup)
    intro e he e' he' heq
    simp only [Function.comp_apply, Prod.mk.injEq] at heq
    exact history.place_inj wrong he he' heq.1 heq.2

theorem holds_misplace (hputs : ∀ e ∈ history.entries, wrong e → e.value ≠ none) :
    Holds history wrong (fun _ => False) (history.misplace wrong) where
  puts := hputs
  mem e := by
    rw [misplace, mem_map]
    constructor
    · rintro ⟨e, he, rfl⟩
      unfold place
      split_ifs with hwrong
      · exact .inr ⟨e, he, hwrong, rfl⟩
      · exact .inl ⟨he, hwrong⟩
    · rintro (⟨he, hwrong⟩ | ⟨e', he', hwrong, rfl⟩)
      · exact ⟨e, he, if_neg hwrong⟩
      · exact ⟨e', he', if_pos hwrong⟩

end History

/-- The prefix of the store ends within the timestamp behind the key. -/
def EndsInTimestamp (store : Name) (e : SSTEntry) : Prop :=
  storePrefix store <+: e.key ++ e.ts ∧ ¬ storePrefix store <+: e.key

/-! ## What is read -/

theorem ColumnFamily.getCFWithTS_eq_some {cf : ColumnFamily} {ts : Nat} {key value t : Bytes} :
    cf.getCFWithTS ts key = some (value, t) ↔ cf.Newest ts ⟨key, t, some value⟩ := by
  rw [getCFWithTS, Option.bind_eq_some_iff]
  constructor
  · rintro ⟨⟨k, t', v⟩, hfind, hvalue⟩
    have hprop := find?_some hfind
    simp only [decide_eq_true_eq] at hprop
    obtain ⟨rfl, hnew⟩ := hprop
    obtain ⟨x, rfl, hx⟩ := Option.map_eq_some_iff.mp hvalue
    cases hx
    exact hnew
  · intro hnew
    cases hfind : cf.entries.find? fun e => e.key = key ∧ cf.Newest ts e with
    | none =>
      have := find?_eq_none.mp hfind _ hnew.1
      simp [hnew] at this
    | some e =>
      have hprop := find?_some hfind
      simp only [decide_eq_true_eq] at hprop
      obtain ⟨hkey, hnew'⟩ := hprop
      rw [hnew'.unique hnew hkey]
      exact ⟨_, rfl, rfl⟩

namespace Store

variable {s : Store} {store : Name}

theorem getAtVersion_eq_some {key value : Bytes} {version : Option Int} :
    s.getAtVersion store key version = some value ↔
      ∃ t, s.db.Newest (readTimestamp version) ⟨storePrefix store ++ key, t, some value⟩ ∧
        (s.skipVersionZero = true → readLE t ≠ 0) := by
  simp only [getAtVersion, getAtVersionSlice, ← ColumnFamily.getCFWithTS_eq_some]
  cases s.db.getCFWithTS (readTimestamp version) (storePrefix store ++ key) with
  | none => simp
  | some r =>
    obtain ⟨v, t⟩ := r
    simp only [Option.some.injEq, Prod.mk.injEq]
    constructor
    · intro h
      split_ifs at h with hskip
      cases h
      exact ⟨t, ⟨rfl, rfl⟩, fun hs hz => hskip ⟨hs, hz⟩⟩
    · rintro ⟨t', ⟨rfl, rfl⟩, hskip⟩
      rw [if_neg fun h => hskip h.1 h.2]

theorem clean_iff {pair : KVPairWithTS} : s.clean store pair = true ↔ pair.put store ∈ s.db.entries := by
  rw [clean, decide_eq_true_eq]
  constructor
  · rintro ⟨hvalue, hts⟩
    cases hold : s.db.getCFWithTS (readLE pair.timestamp) (storePrefix store ++ pair.key) with
    | none =>
      have hwidth := pair.width
      rw [← hts, hold] at hwidth
      cases hwidth
    | some r =>
      obtain ⟨v, t⟩ := r
      rw [hold] at hvalue hts
      simp only [Option.map_some, Option.getD_some] at hvalue hts
      rw [hvalue, hts] at hold
      exact (ColumnFamily.getCFWithTS_eq_some.mp hold).1
  · intro hmem
    have hnew : s.db.Newest (readLE pair.timestamp) ⟨storePrefix store ++ pair.key, pair.timestamp, some pair.value⟩ :=
      ⟨hmem, le_rfl, fun e _ _ hle => hle⟩
    rw [ColumnFamily.getCFWithTS_eq_some.mpr hnew]
    exact ⟨rfl, rfl⟩

theorem mem_fixBatch {pairs : List KVPairWithTS} {e : SSTEntry} :
    e ∈ s.fixBatch store pairs ↔ (∃ pair ∈ pairs, pair.put store = e) ∧ e ∉ s.db.entries := by
  rw [fixBatch, mem_map]
  constructor
  · rintro ⟨pair, hpair, rfl⟩
    obtain ⟨hpair, hclean⟩ := mem_filter.mp hpair
    refine ⟨⟨pair, hpair, rfl⟩, fun hmem => ?_⟩
    rw [clean_iff.mpr hmem] at hclean
    cases hclean
  · rintro ⟨⟨pair, hpair, rfl⟩, hnot⟩
    refine ⟨pair, mem_filter.mpr ⟨hpair, ?_⟩, rfl⟩
    rw [Bool.not_eq_true', Bool.eq_false_iff]
    exact fun hclean => hnot (clean_iff.mp hclean)

end Store

theorem mem_foldl_writeEntry {l batch : List SSTEntry}
    (h : ∀ b ∈ batch, ∀ x, x ∈ l ∨ x ∈ batch → x.key = b.key → x.ts = b.ts → x = b) {e : SSTEntry} :
    e ∈ batch.foldl writeEntry l ↔ e ∈ l ∨ e ∈ batch := by
  induction batch generalizing l with
  | nil => simp
  | cons b batch ih =>
    have hwrite : ∀ x, x ∈ writeEntry l b ↔ x ∈ l ∨ x = b := by
      intro x
      simp only [writeEntry, mem_append, mem_filter, mem_singleton, decide_eq_true_eq]
      constructor
      · rintro (⟨hx, -⟩ | hx)
        · exact .inl hx
        · exact .inr hx
      · rintro (hx | hx)
        · by_cases hsame : x.key = b.key ∧ x.ts = b.ts
          · exact .inr (h b mem_cons_self x (.inl hx) hsame.1 hsame.2)
          · exact .inl ⟨hx, hsame⟩
        · exact .inr hx
    rw [foldl_cons, ih, hwrite, mem_cons, or_assoc]
    intro b' hb' x hx
    refine h b' (mem_cons_of_mem _ hb') x ?_
    rw [hwrite] at hx
    rw [mem_cons]
    tauto

theorem wrongPairs_spec (store : Name) {ps : List VersionedPair}
    (hps : ∀ p ∈ ps, readLE p.timestamp = 0 ∧ timestampSize ≤ p.key.length) :
    ∃ pairs, wrongPairs store ps = .ok pairs ∧
      ∀ pair : KVPairWithTS, pair ∈ pairs ↔ ∃ p ∈ ps, p.key = pair.key ++ pair.timestamp ∧ p.value = pair.value := by
  induction ps with
  | nil => exact ⟨[], rfl, by simp⟩
  | cons p ps ih =>
    obtain ⟨⟨hzero, hlen⟩, hps⟩ := forall_mem_cons.mp hps
    obtain ⟨pairs, hpairs, hmem⟩ := ih hps
    rw [wrongPairs, wrongPair, if_neg (not_not.mpr hzero), dif_neg (not_lt.mpr hlen), hpairs]
    refine ⟨_, rfl, fun pair => ?_⟩
    rw [Option.toList_some, singleton_append, mem_cons, hmem, exists_mem_cons_iff]
    refine or_congr_left ?_
    constructor
    · rintro rfl
      exact ⟨(take_append_drop _ _).symm, rfl⟩
    · rintro ⟨hkey, hvalue⟩
      obtain ⟨k, v, t, hwidth⟩ := pair
      simp only at hkey hvalue
      have hk : p.key.length - timestampSize = k.length := by
        rw [hkey, length_append, hwidth, Nat.add_sub_cancel]
      simp only [KVPairWithTS.mk.injEq, hk]
      rw [hkey, hvalue]
      exact ⟨take_left.symm, rfl, drop_left.symm⟩

/-! ## Repairing a store -/

namespace Holds

variable {history : History} {wrong fixed : SSTEntry → Prop} {cf : ColumnFamily} {store : Name}

variable {e : SSTEntry}

section

variable (h : Holds history wrong fixed cf)
include h

theorem newest_zero :
    cf.Newest 0 e ↔ ∃ e' ∈ history.entries, wrong e' ∧ e = misplaced e' := by
  constructor
  · rintro ⟨hmem, hle, -⟩
    rcases (h.mem e).mp hmem with ⟨he, -⟩ | hwrong
    · exact absurd (Nat.le_zero.mp hle) (history.positive e he)
    · exact hwrong
  · intro hwrong
    have hzero : readLE e.ts = 0 := by
      obtain ⟨e', -, -, rfl⟩ := hwrong
      rfl
    exact ⟨(h.mem e).mpr (.inr hwrong), hzero.le, fun e' _ _ hle => hle.trans (Nat.zero_le _)⟩

theorem loadWrongData
    (hends : ∀ e ∈ history.entries, wrong e → ¬ EndsInTimestamp store e) :
    ∃ pairs, (Store.mk cf false).loadWrongData store = some (.ok pairs) ∧
      ∀ e, (∃ pair ∈ pairs, KVPairWithTS.put store pair = e) ↔
        e ∈ history.entries ∧ wrong e ∧ storePrefix store <+: e.key := by
  obtain ⟨ps, hps, hmem, -⟩ := cf.iterate_spec store (show (none : Slice) ≠ some [] by simp)
    (show (none : Slice) ≠ some [] by simp) (some 0) false
  have hfound : ∀ p, p ∈ ps ↔ ∃ e ∈ history.entries, wrong e ∧
      SSTEntry.mk (storePrefix store ++ p.key) p.timestamp (some p.value) = misplaced e := by
    intro p
    rw [hmem p, show readTimestamp (some 0) = 0 from rfl, h.newest_zero]
    simp [Iterator.InRange]
  -- the key of a wrong entry that is found is a key of the store
  have hsplit : ∀ {p : VersionedPair} {e : SSTEntry}, e ∈ history.entries → wrong e →
      SSTEntry.mk (storePrefix store ++ p.key) p.timestamp (some p.value) = misplaced e →
      ∃ k, e.key = storePrefix store ++ k ∧ p.key = k ++ e.ts ∧ e.value = some p.value ∧ readLE p.timestamp = 0 := by
    intro p e he hwrong heq
    simp only [misplaced, SSTEntry.mk.injEq] at heq
    obtain ⟨hkey, hts, hvalue⟩ := heq
    obtain ⟨k, hk⟩ : storePrefix store <+: e.key := by
      by_contra hnot
      exact hends e he hwrong ⟨⟨p.key, hkey⟩, hnot⟩
    rw [← hk, append_assoc] at hkey
    exact ⟨k, hk.symm, append_cancel_left hkey, hvalue.symm, by rw [hts]; rfl⟩
  have hlong : ∀ p ∈ ps, readLE p.timestamp = 0 ∧ timestampSize ≤ p.key.length := by
    intro p hp
    obtain ⟨e, he, hwrong, heq⟩ := (hfound p).mp hp
    obtain ⟨k, -, hpkey, -, hzero⟩ := hsplit he hwrong heq
    rw [hpkey, length_append, history.width e he]
    exact ⟨hzero, Nat.le_add_left _ _⟩
  obtain ⟨pairs, hpairs, hmem'⟩ := wrongPairs_spec store hlong
  refine ⟨pairs, ?_, fun e => ?_⟩
  · rw [Store.loadWrongData, (hps _ (Nat.lt_succ_self _)).1]
    exact congrArg some hpairs
  · constructor
    · rintro ⟨pair, hpair, rfl⟩
      obtain ⟨p, hp, hkey, hvalue⟩ := (hmem' pair).mp hpair
      obtain ⟨e, he, hwrong, heq⟩ := (hfound p).mp hp
      obtain ⟨k, hek, hpkey, hevalue, -⟩ := hsplit he hwrong heq
      obtain ⟨rfl, hts⟩ := append_inj' (hkey.symm.trans hpkey) (pair.width.trans (history.width e he).symm)
      have hput : KVPairWithTS.put store pair = e := by
        obtain ⟨ekey, ets, evalue⟩ := e
        simp only at hek hts hevalue
        rw [KVPairWithTS.put, hek, hts, hevalue, hvalue]
      rw [hput]
      exact ⟨he, hwrong, ⟨pair.key, hek.symm⟩⟩
    · rintro ⟨he, hwrong, k, hk⟩
      obtain ⟨v, hv⟩ := Option.ne_none_iff_exists'.mp (h.puts e he hwrong)
      refine ⟨⟨k, v, e.ts, history.width e he⟩, ?_, ?_⟩
      · refine (hmem' _).mpr ⟨⟨k ++ e.ts, timestamp 0, v⟩, (hfound _).mpr ⟨e, he, hwrong, ?_⟩, rfl, rfl⟩
        rw [misplaced, ← hk, hv, append_assoc]
      · rw [KVPairWithTS.put]
        simp only [hk, ← hv]

theorem mem_iff (he : e ∈ history.entries) :
    e ∈ cf.entries ↔ (wrong e → fixed e) := by
  rw [h.mem]
  constructor
  · rintro (⟨-, hfixed⟩ | ⟨e', -, -, rfl⟩)
    · exact hfixed
    · exact absurd rfl (history.positive _ he)
  · exact fun hfixed => .inl ⟨he, hfixed⟩

theorem eq_of_same {x : SSTEntry} (he : e ∈ history.entries)
    (hx : x ∈ cf.entries ∨ x ∈ history.entries) (hkey : x.key = e.key) (hts : x.ts = e.ts) : x = e := by
  have hhistory : x ∈ history.entries := by
    rcases hx with hx | hx
    · rcases (h.mem x).mp hx with ⟨hx, -⟩ | ⟨e', -, -, rfl⟩
      · exact hx
      · exact absurd (congrArg readLE hts.symm) (history.positive e he)
    · exact hx
  exact inj_on_of_nodup_map history.nodup hhistory he (by rw [hkey, hts])

/-- A store is fixed by what is written, and nothing is written if all was fixed before. -/
theorem fixDataStore_spec
    (hends : ∀ e ∈ history.entries, wrong e → ¬ EndsInTimestamp store e) :
    ∃ cf' batch, (Store.mk cf false).fixDataStore store false = some (.ok (⟨cf', false⟩, batch)) ∧
      Holds history wrong (fun e => fixed e ∨ storePrefix store <+: e.key) cf' ∧
      ((∀ e ∈ history.entries, wrong e → fixed e) → cf' = cf ∧ batch = []) := by
  obtain ⟨pairs, hload, hpairs⟩ := h.loadWrongData hends
  have hbatch : ∀ e, e ∈ (Store.mk cf false).fixBatch store pairs ↔
      (e ∈ history.entries ∧ wrong e ∧ storePrefix store <+: e.key) ∧ e ∉ cf.entries := by
    intro e
    rw [Store.mem_fixBatch, hpairs]
  have hsame : ∀ b ∈ (Store.mk cf false).fixBatch store pairs, ∀ x,
      x ∈ cf.entries ∨ x ∈ (Store.mk cf false).fixBatch store pairs → x.key = b.key → x.ts = b.ts → x = b := by
    intro b hb x hx
    exact h.eq_of_same ((hbatch b).mp hb).1.1 (hx.imp_right fun hx => ((hbatch x).mp hx).1.1)
  refine ⟨_, _, by rw [Store.fixDataStore, hload]; rfl, ⟨h.puts, fun e => ?_⟩, fun hall => ?_⟩
  · rw [ColumnFamily.write, mem_foldl_writeEntry hsame, hbatch]
    constructor
    · rintro (he | ⟨⟨he, -, hprefix⟩, -⟩)
      · rcases (h.mem e).mp he with ⟨he, hfixed⟩ | hwrong
        · exact .inl ⟨he, fun hw => .inl (hfixed hw)⟩
        · exact .inr hwrong
      · exact .inl ⟨he, fun _ => .inr hprefix⟩
    · rintro (⟨he, hfixed⟩ | hwrong)
      · by_cases hold : e ∈ cf.entries
        · exact .inl hold
        · have hnew := hold
          rw [h.mem_iff he] at hnew
          push Not at hnew
          exact .inr ⟨⟨he, hnew.1, (hfixed hnew.1).resolve_left hnew.2⟩, hold⟩
      · exact .inl ((h.mem e).mpr (.inr hwrong))
  · have hnil : (Store.mk cf false).fixBatch store pairs = [] := by
      apply eq_nil_iff_forall_not_mem.mpr
      intro e he
      obtain ⟨⟨he, -, -⟩, hnot⟩ := (hbatch e).mp he
      exact hnot ((h.mem_iff he).mpr (hall e he))
    exact ⟨ColumnFamily.write_eq_self hnil _, hnil⟩

theorem fixData_spec {names : List Name}
    (hends : ∀ name ∈ names, ∀ e ∈ history.entries, wrong e → ¬ EndsInTimestamp name e) :
    ∃ cf' written, Store.fixData false names ⟨cf, false⟩ = some (⟨cf', false⟩, written, none) ∧
      Holds history wrong (fun e => fixed e ∨ ∃ name ∈ names, storePrefix name <+: e.key) cf' ∧
      ((∀ e ∈ history.entries, wrong e → fixed e) → cf' = cf ∧ written = []) := by
  induction names generalizing fixed cf with
  | nil => exact ⟨cf, [], rfl, by simpa using h, fun _ => ⟨rfl, rfl⟩⟩
  | cons name names ih =>
    obtain ⟨hfirst, hends⟩ := forall_mem_cons.mp hends
    obtain ⟨cf1, batch, hstore, h1, hnone1⟩ := h.fixDataStore_spec hfirst
    obtain ⟨cf', written, hrest, h', hnone⟩ := ih h1 hends
    refine ⟨cf', batch ++ written, ?_, ?_, fun hall => ?_⟩
    · rw [Store.fixData, hstore, Results.some_bind]
      simp only [hrest]
      rfl
    · simpa only [exists_mem_cons_iff, or_assoc] using h'
    · obtain ⟨rfl, rfl⟩ := hnone1 hall
      obtain ⟨rfl, rfl⟩ := hnone fun e he hw => .inl (hall e he hw)
      exact ⟨rfl, rfl⟩

/-- Where all is fixed, a reader that skips the version zero sees the history. -/
theorem newest_iff (hall : ∀ e ∈ history.entries, wrong e → fixed e)
    {ts : Nat} : cf.Newest ts e ∧ readLE e.ts ≠ 0 ↔ history.Newest ts e := by
  constructor
  · rintro ⟨⟨hmem, hle, hmax⟩, hpos⟩
    have he : e ∈ history.entries := by
      rcases (h.mem e).mp hmem with ⟨he, -⟩ | ⟨e', -, -, rfl⟩
      · exact he
      · exact absurd rfl hpos
    exact ⟨he, hle, fun e' he' => hmax e' ((h.mem_iff he').mpr (hall e' he'))⟩
  · rintro ⟨he, hle, hmax⟩
    refine ⟨⟨(h.mem_iff he).mpr (hall e he), hle, fun e' he' hkey hle' => ?_⟩, history.positive e he⟩
    rcases (h.mem e').mp he' with ⟨he', -⟩ | ⟨e'', -, -, rfl⟩
    · exact hmax e' he' hkey hle'
    · exact Nat.zero_le _

end

end Holds

theorem Store.fixData_skipped (names : List Name) (cf : ColumnFamily) :
    Store.fixData false names ⟨cf, true⟩ = some (⟨cf, true⟩, [], none) := by
  induction names with
  | nil => rfl
  | cons name names ih =>
    obtain ⟨ps, hps, hmem, -⟩ := cf.iterate_spec name (show (none : Slice) ≠ some [] by simp)
      (show (none : Slice) ≠ some [] by simp) (some 0) true
    obtain rfl : ps = [] := by
      apply eq_nil_iff_forall_not_mem.mpr
      intro p hp
      obtain ⟨hnew, -, hpos⟩ := (hmem p).mp hp
      exact hpos rfl (Nat.le_zero.mp hnew.2.1)
    have hstore : (Store.mk cf true).fixDataStore name false = some (.ok (⟨cf, true⟩, [])) := by
      rw [Store.fixDataStore, Store.loadWrongData, (hps _ (Nat.lt_succ_self _)).1]
      rfl
    rw [Store.fixData, hstore, Results.some_bind]
    simp only [ih]
    rfl

/-- The prefix of a store without a slash in its name does not end in a timestamp of another one. -/
theorem not_endsInTimestamp {store other : Name} (hstore : 47 ∉ store) (hother : 47 ∉ other) {e : SSTEntry}
    (he : storePrefix other <+: e.key) : ¬ EndsInTimestamp store e := by
  rintro ⟨⟨k, hk⟩, hnot⟩
  obtain ⟨k', hk'⟩ := he
  by_cases hne : other = store
  · exact hnot ⟨k', hne ▸ hk'⟩
  · refine storePrefix_append_ne hstore hother hne k (k' ++ e.ts) ?_
    rw [hk, ← hk', append_assoc]

/-! ## The repair restores the history -/

/-- After the repair of the stores that have wrong entries, a reader that skips the version zero gets and
iterates over what the history says, and another repair writes nothing. -/
theorem fixData_restores {history : History} {wrong : SSTEntry → Prop} {cf : ColumnFamily}
    (hcf : Holds history wrong (fun _ => False) cf) {names : List Name}
    (haffected : ∀ e ∈ history.entries, wrong e → ∃ name ∈ names, storePrefix name <+: e.key)
    (hends : ∀ name ∈ names, ∀ e ∈ history.entries, wrong e → ¬ EndsInTimestamp name e) :
    ∃ cf' written, Store.fixData false names ⟨cf, false⟩ = some (⟨cf', false⟩, written, none) ∧
      (∀ store key version,
        (∀ value, ((Store.mk cf' false).setSkipVersionZero true).getAtVersion store key version = some value ↔
          ∃ t, history.Newest (readTimestamp version) ⟨storePrefix store ++ key, t, some value⟩) ∧
        (((Store.mk cf' false).setSkipVersionZero true).hasAtVersion store key version = true ↔
          ∃ t value, history.Newest (readTimestamp version) ⟨storePrefix store ++ key, t, some value⟩)) ∧
      (∀ store start stop version, start ≠ some [] → stop ≠ some [] →
        ∃ ps : List VersionedPair,
          (∀ fuel, cf'.entries.length < fuel →
            cf'.iterate true fuel store start stop version false = some (.ok ps)) ∧
          (∀ p, p ∈ ps ↔
            history.Newest (readTimestamp version) ⟨storePrefix store ++ p.key, p.timestamp, some p.value⟩ ∧
            Iterator.InRange start stop p.key) ∧
          ps.Pairwise fun a b => a.key < b.key) ∧
      ∀ skip, Store.fixData false names ⟨cf', skip⟩ = some (⟨cf', skip⟩, [], none) := by
  obtain ⟨cf', written, hrun, hcf', -⟩ := hcf.fixData_spec hends
  have hall : ∀ e ∈ history.entries, wrong e → False ∨ ∃ name ∈ names, storePrefix name <+: e.key :=
    fun e he hwrong => .inr (haffected e he hwrong)
  have hget : ∀ store key version value,
      ((Store.mk cf' false).setSkipVersionZero true).getAtVersion store key version = some value ↔
        ∃ t, history.Newest (readTimestamp version) ⟨storePrefix store ++ key, t, some value⟩ := by
    intro store key version value
    rw [Store.getAtVersion_eq_some]
    exact exists_congr fun t => Iff.trans (by simp [Store.setSkipVersionZero]) (hcf'.newest_iff hall)
  refine ⟨cf', written, hrun, ?_, ?_, ?_⟩
  · intro store key version
    refine ⟨hget store key version, ?_⟩
    rw [Store.hasAtVersion, Option.isSome_iff_exists, exists_comm]
    exact exists_congr fun value => hget store key version value
  · intro store start stop version hstart hstop
    obtain ⟨ps, hps, hmem, hsorted⟩ := cf'.iterate_spec store hstart hstop version true
    refine ⟨ps, fun fuel hfuel => (hps fuel hfuel).1, fun p => ?_, hsorted⟩
    rw [hmem p, ← hcf'.newest_iff hall]
    tauto
  · intro skip
    cases skip with
    | true => exact Store.fixData_skipped names cf'
    | false =>
      obtain ⟨cf'', written', hagain, -, hnone⟩ := hcf'.fixData_spec hends
      obtain ⟨rfl, rfl⟩ := hnone hall
      exact hagain

def History.putDelete : History where
  entries := [⟨storePrefix [97] ++ [1], timestamp 3, some [7]⟩, ⟨storePrefix [97] ++ [1], timestamp 5, none⟩]
  width := by decide
  nodup := by decide
  positive := by decide

/-- The put is wrong, and is read between the two versions after the repair. -/
theorem fixData_restores_putDelete :
    ∃ cf' written,
      Store.fixData false [[97]] ⟨History.putDelete.misplace (·.value ≠ none), false⟩ =
        some (⟨cf', false⟩, written, none) ∧
      ((Store.mk cf' false).setSkipVersionZero true).getAtVersion [97] [1] (some 4) = some [7] ∧
      ((Store.mk cf' false).setSkipVersionZero true).hasAtVersion [97] [1] (some 5) = false := by
  have hcf := History.putDelete.holds_misplace (·.value ≠ none) fun _ _ h => h
  have haffected : ∀ e ∈ History.putDelete.entries, e.value ≠ none → ∃ name ∈ [[97]], storePrefix name <+: e.key := by
    decide
  have hends : ∀ name ∈ [[97]], ∀ e ∈ History.putDelete.entries, e.value ≠ none → ¬ EndsInTimestamp name e := by
    intro name hname e he hwrong
    obtain ⟨other, hother, hprefix⟩ := haffected e he hwrong
    rw [mem_singleton] at hname hother
    subst hname hother
    exact not_endsInTimestamp (by decide) (by decide) hprefix
  obtain ⟨cf', written, hrun, hread, -⟩ := fixData_restores hcf haffected hends
  refine ⟨cf', written, hrun, ((hread [97] [1] (some 4)).1 [7]).mpr ⟨timestamp 3, by decide⟩, ?_⟩
  rw [Bool.eq_false_iff]
  intro hhas
  obtain ⟨t, value, hnew⟩ := (hread [97] [1] (some 5)).2.mp hhas
  have hdelete : History.putDelete.Newest 5 ⟨storePrefix [97] ++ [1], timestamp 5, none⟩ := by decide
  cases hnew.unique hdelete rfl

/-- A put of the store `a` at version 12130, whose timestamp begins with `b/`, and one of the store `a/bb`. -/
def History.slash : History where
  entries := [⟨storePrefix [97] ++ [98], timestamp 12130, some [7]⟩,
    ⟨storePrefix [97, 47, 98, 98] ++ [1], timestamp 1, some [8]⟩]
  width := by decide
  nodup := by decide
  positive := by decide

/-- Both puts are wrong. The store `a/bb` takes the put of the other store for its own, which ends the repair, and its
put is not seen later. -/
theorem exists_fixData_fails :
    Holds .slash (fun _ => True) (fun _ => False) (History.slash.misplace fun _ => True) ∧
    (∀ e ∈ History.slash.entries, ∃ name ∈ [[97, 47, 98, 98], [97]], storePrefix name <+: e.key) ∧
    ∃ s written,
      Store.fixData false [[97, 47, 98, 98], [97]] ⟨History.slash.misplace fun _ => True, false⟩ =
        some (s, written, some (.invalidKeyLength [0, 0, 0, 0, 0, 0] [97, 47, 98, 98])) ∧
      (s.setSkipVersionZero true).hasAtVersion [97, 47, 98, 98] [1] (some 1) = false ∧
      History.slash.Newest 1 ⟨storePrefix [97, 47, 98, 98] ++ [1], timestamp 1, some [8]⟩ := by
  refine ⟨History.slash.holds_misplace _ (by decide), by decide, ?_⟩
  have hrun : ((Store.fixData false [[97, 47, 98, 98], [97]]
      ⟨History.slash.misplace fun _ => True, false⟩).map fun r => (r.2.2,
        (r.1.setSkipVersionZero true).hasAtVersion [97, 47, 98, 98] [1] (some 1))) =
      some (some (.invalidKeyLength [0, 0, 0, 0, 0, 0] [97, 47, 98, 98]), false) := by decide +kernel
  obtain ⟨⟨s, written, error⟩, hs, hresult⟩ := Option.map_eq_some_iff.mp hrun
  rw [Prod.mk.injEq] at hresult
  exact ⟨s, written, by rw [hs, ← hresult.1], hresult.2, by decide⟩

end CronosStore.VersionDB
