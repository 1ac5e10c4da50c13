import CronosStore.Foundation.Cursor
import CronosStore.Foundation.StableSort
import CronosStore.Memiavl.Iterator
import CronosStore.VersionDB.ConvertToSST

/-!
# Iterating at a version

`versiondb/tsrocksdb/iterator.go` and `iteratorAtVersion` of `store.go`. The column family holds
puts and deletions of keys at timestamps; a RocksDB iterator that reads at a timestamp stands on the
keys whose newest entry up to there is a put (`ColumnFamily.visible`).

The iterator of a store works on the keys with the prefix of the store. It starts at one bound and
checks the other while it walks, so what it has still to give is the part of what is ahead of the
source up to the first key that is out of bounds (`RocksDBIterator.walk`).

Errors of the source are left out, and so is `Domain`.
-/

namespace CronosStore.VersionDB

open Foundation Memiavl List

/-! ## The column family -/

/-- Entries of RocksDB, at most one for a key and a timestamp. -/
structure ColumnFamily where
  entries : List SSTEntry
  width : ∀ e ∈ entries, e.ts.length = timestampSize
  nodup : (entries.map fun e => (e.key, e.ts)).Nodup

structure VersionedPair where
  key : Bytes
  timestamp : Bytes
  value : Bytes
deriving DecidableEq

namespace ColumnFamily

/-- The newest entry of its key that is not after a timestamp. -/
def Newest (cf : ColumnFamily) (ts : Nat) (e : SSTEntry) : Prop :=
  e ∈ cf.entries ∧ readLE e.ts ≤ ts ∧
    ∀ e' ∈ cf.entries, e'.key = e.key → readLE e'.ts ≤ ts → readLE e'.ts ≤ readLE e.ts

instance (cf : ColumnFamily) (ts : Nat) : DecidablePred (cf.Newest ts) := fun _ =>
  inferInstanceAs (Decidable (_ ∧ _ ∧ _))

def empty : ColumnFamily := ⟨[], by simp, by simp⟩

variable {l : List SSTEntry}

theorem nodup_writeEntry (h : (l.map fun e => (e.key, e.ts)).Nodup) (e : SSTEntry) :
    ((writeEntry l e).map fun e => (e.key, e.ts)).Nodup := by
  rw [writeEntry, map_append]
  refine List.Nodup.append (h.sublist (filter_sublist.map _)) (nodup_singleton _) ?_
  intro p hp hp'
  obtain ⟨x, hx, rfl⟩ := mem_map.mp hp
  have hne := (mem_filter.mp hx).2
  simp_all

theorem width_foldl_writeEntry {batch : List SSTEntry} (h : ∀ e ∈ l, e.ts.length = timestampSize)
    (hbatch : ∀ e ∈ batch, e.ts.length = timestampSize) :
    ∀ e ∈ batch.foldl writeEntry l, e.ts.length = timestampSize := by
  refine List.foldlRecOn (motive := fun l : List SSTEntry => ∀ e ∈ l, e.ts.length = timestampSize) _ _ h ?_
  intro l hl e he e' he'
  rcases mem_append.mp he' with hmem | hmem
  · exact hl e' (mem_filter.mp hmem).1
  · rw [mem_singleton.mp hmem]
    exact hbatch e he

theorem nodup_foldl_writeEntry (h : (l.map fun e => (e.key, e.ts)).Nodup) (batch : List SSTEntry) :
    ((batch.foldl writeEntry l).map fun e => (e.key, e.ts)).Nodup := by
  refine List.foldlRecOn (motive := fun l : List SSTEntry => (l.map fun e => (e.key, e.ts)).Nodup) _ _ h ?_
  intro l hl e _
  exact nodup_writeEntry hl e

def feedChangeSet (cf : ColumnFamily) (store : Name) (cs : Int × ChangeSet) : ColumnFamily where
  entries := VersionDB.feedChangeSet store cf.entries cs
  width := by
    refine width_foldl_writeEntry cf.width ?_
    intro e he
    obtain ⟨pair, -, rfl⟩ := mem_map.mp he
    exact length_putLE _ _
  nodup := nodup_foldl_writeEntry cf.nodup _

def visible (cf : ColumnFamily) (ts : Nat) : List VersionedPair :=
  sortBy VersionedPair.key <| (cf.entries.filter fun e => cf.Newest ts e).filterMap fun e =>
    e.value.map (VersionedPair.mk e.key e.ts)

end ColumnFamily

/-! ## Ranges of a store -/

def incrLE : Bytes → Slice
  | [] => none
  | b :: bs => if b < 255 then some ((b + 1) :: bs) else (incrLE bs).map (0 :: ·)

/-- `cpIncr`, which is called with a byte string that is not empty. It is nil on overflow. -/
def cpIncr (bz : Bytes) : Slice := (incrLE bz.reverse).map List.reverse

def iterateWithPrefix (keyPrefix : Bytes) (start stop : Slice) : Slice × Slice :=
  if keyPrefix.length = 0 then (start, stop)
  else
    (some (keyPrefix ++ start.getD []),
      match stop with
      | none => cpIncr keyPrefix
      | some stop => some (keyPrefix ++ stop))

def readTimestamp (version : Option Int) : Nat :=
  match version with
  | none => 2 ^ 64 - 1
  | some version => (version % 2 ^ 64).toNat

/-! ## The iterator -/

structure RocksDBIterator where
  source : Cursor VersionedPair
  keyPrefix : Bytes
  start : Slice
  stop : Slice
  isReverse : Bool
  isInvalid : Bool
  skipVersionZero : Bool

namespace RocksDBIterator

section

variable (it : RocksDBIterator)

def inBounds (e : VersionedPair) : Bool :=
  if it.isReverse then ¬ (it.start ≠ none ∧ e.key < it.start.getD [])
  else ¬ (it.stop ≠ none ∧ it.stop.getD [] ≤ e.key)

def valid : Bool × RocksDBIterator :=
  if it.isInvalid then (false, it)
  else
    match it.source.current with
    | none => (false, { it with isInvalid := true })
    | some e => if it.inBounds e then (true, it) else (false, { it with isInvalid := true })

def move : RocksDBIterator :=
  { it with source := if it.isReverse then it.source.prev else it.source.next }

def timestamp (it : RocksDBIterator) : Option Nat := do
  let e ← it.source.current
  if timestampSize ≤ e.timestamp.length then some (readLE (e.timestamp.take timestampSize)) else none

def skipZeroVersion : Nat → RocksDBIterator → Option RocksDBIterator
  | fuel, it =>
    match it.valid with
    | (false, it) => some it
    | (true, it) => do
      if (← it.timestamp) = 0 then
        match fuel with
        | 0 => none
        | fuel + 1 => skipZeroVersion fuel it.move
      else some it

def trySkipZeroVersion (fuel : Nat) (it : RocksDBIterator) : Option RocksDBIterator :=
  if it.skipVersionZero then it.skipZeroVersion fuel else some it

def next (fuel : Nat) (it : RocksDBIterator) : Option RocksDBIterator :=
  it.move.trySkipZeroVersion fuel

def pair : Option VersionedPair := do
  let e ← it.source.current
  if it.keyPrefix.length ≤ e.key.length then
    some { e with key := e.key.drop it.keyPrefix.length }
  else none

end

def consume (visits : Nat) : Nat → RocksDBIterator → Option (List VersionedPair)
  | 0, _ => none
  | calls + 1, it =>
    match it.valid with
    | (false, _) => some []
    | (true, it) => do
      let p ← it.pair
      let rest ← consume visits calls (← it.next visits)
      pure (p :: rest)

end RocksDBIterator

def seekStart (source : Cursor VersionedPair) (start stop : Slice) (isReverse : Bool) :
    Cursor VersionedPair :=
  if isReverse then
    match stop with
    | none => source.seekToLast
    | some stop =>
      let source := source.seek VersionedPair.key stop
      match source.current with
      | some e => if stop ≤ e.key then source.prev else source
      | none => source.seekToLast
  else
    match start with
    | none => source.seekToFirst
    | some start => source.seek VersionedPair.key start

def newRocksDBIterator (fuel : Nat) (source : Cursor VersionedPair) (keyPrefix : Bytes)
    (start stop : Slice) (isReverse skipVersionZero : Bool) : Option RocksDBIterator :=
  RocksDBIterator.trySkipZeroVersion fuel
    ⟨seekStart source start stop isReverse, keyPrefix, start, stop, isReverse, false, skipVersionZero⟩

inductive IterateError
  | keyEmpty
deriving DecidableEq

def ColumnFamily.iteratorAtVersion (cf : ColumnFamily) (skipVersionZero : Bool) (fuel : Nat)
    (store : Name) (start stop : Slice) (version : Option Int) (isReverse : Bool) :
    Option (Except IterateError RocksDBIterator) :=
  if start = some [] ∨ stop = some [] then some (.error .keyEmpty)
  else
    let keyPrefix := storePrefix store
    let (start, stop) := iterateWithPrefix keyPrefix start stop
    let source : Cursor VersionedPair := ⟨cf.visible (readTimestamp version), none⟩
    (newRocksDBIterator fuel source keyPrefix start stop isReverse skipVersionZero).map .ok

def ColumnFamily.iterate (cf : ColumnFamily) (skipVersionZero : Bool) (fuel : Nat) (store : Name)
    (start stop : Slice) (version : Option Int) (isReverse : Bool) :
    Option (Except IterateError (List VersionedPair)) := do
  match ← cf.iteratorAtVersion skipVersionZero fuel store start stop version isReverse with
  | .error e => pure (.error e)
  | .ok it => pure (.ok (← it.consume fuel fuel))

/-! ## What is visible -/

namespace ColumnFamily

variable {cf : ColumnFamily} {ts : Nat}

theorem Newest.unique {e e' : SSTEntry} (h : cf.Newest ts e) (h' : cf.Newest ts e')
    (hkey : e.key = e'.key) : e = e' := by
  have hle := h'.2.2 e h.1 hkey h.2.1
  have hge := h.2.2 e' h'.1 hkey.symm h'.2.1
  have hts : e.ts = e'.ts :=
    readLE_inj ((cf.width e h.1).trans (cf.width e' h'.1).symm) (le_antisymm hle hge)
  exact inj_on_of_nodup_map cf.nodup h.1 h'.1 (by rw [hkey, hts])

theorem mem_visible {p : VersionedPair} :
    p ∈ cf.visible ts ↔ cf.Newest ts ⟨p.key, p.timestamp, some p.value⟩ := by
  simp only [visible, mem_sortBy, mem_filterMap, mem_filter, decide_eq_true_eq,
    Option.map_eq_some_iff]
  constructor
  · rintro ⟨⟨k, t, x⟩, ⟨-, hnew⟩, x, rfl, rfl⟩
    exact hnew
  · intro hnew
    exact ⟨_, ⟨hnew.1, hnew⟩, p.value, rfl, rfl⟩

theorem length_visible_le : (cf.visible ts).length ≤ cf.entries.length := by
  rw [visible, sortBy, length_insertionSort]
  exact (length_filterMap_le _ _).trans (length_filter_le _ _)

theorem pairwise_visible : (cf.visible ts).Pairwise fun a b => a.key < b.key := by
  apply pairwise_sortBy_lt
  have hentries : cf.entries.Nodup := cf.nodup.of_map
  have hnodup : ((cf.entries.filter fun e => cf.Newest ts e).filterMap fun e =>
      e.value.map (VersionedPair.mk e.key e.ts)).Nodup := by
    refine (hentries.filter _).filterMap fun a b p ha hb => ?_
    obtain ⟨x, hx, rfl⟩ := Option.map_eq_some_iff.mp ha
    obtain ⟨y, hy, hxy⟩ := Option.map_eq_some_iff.mp hb
    obtain ⟨k, t, x'⟩ := a
    obtain ⟨k', t', y'⟩ := b
    cases hxy
    simp only at hx hy
    rw [hx, hy]
  refine hnodup.map_on fun p hp q hq hkey => ?_
  have hp' := mem_visible.mp (mem_sortBy.mpr hp)
  have hq' := mem_visible.mp (mem_sortBy.mpr hq)
  obtain ⟨k, t, x⟩ := p
  obtain ⟨k', t', x'⟩ := q
  cases hp'.unique hq' hkey
  rfl

end ColumnFamily

/-! ## The walk -/

namespace RocksDBIterator

variable {it : RocksDBIterator}

section

variable (it : RocksDBIterator)

def ahead : List VersionedPair :=
  if it.isReverse then it.source.backward else it.source.forward

def walk : List VersionedPair :=
  if it.isInvalid then [] else it.ahead.takeWhile it.inBounds

def keeps (e : VersionedPair) : Bool :=
  !(it.skipVersionZero && readLE e.timestamp = 0)

def strip (e : VersionedPair) : VersionedPair :=
  { e with key := e.key.drop it.keyPrefix.length }

end

theorem current_eq_head? : it.source.current = it.ahead.head? := by
  unfold ahead
  split
  · exact Cursor.current_eq_head?_backward
  · exact Cursor.current_eq_head?_forward

theorem ahead_move : it.move.ahead = it.ahead.tail := by
  cases hrev : it.isReverse with
  | true => simpa [ahead, move, hrev] using Cursor.backward_prev
  | false => simpa [ahead, move, hrev] using Cursor.forward_next

theorem valid_of_walk_nil (h : it.walk = []) : it.valid = (false, { it with isInvalid := true }) := by
  unfold valid
  cases hinv : it.isInvalid with
  | true => simp [← hinv]
  | false =>
    rw [walk, hinv, if_neg (by decide)] at h
    rw [if_neg (by decide), current_eq_head?]
    cases hahead : it.ahead with
    | nil => rfl
    | cons e l =>
      rw [hahead, takeWhile_cons] at h
      split at h
      · cases h
      · rename_i hout
        simp [hout]

theorem valid_of_walk_cons {e : VersionedPair} {l : List VersionedPair} (h : it.walk = e :: l) :
    it.valid = (true, it) ∧ it.source.current = some e ∧ it.move.walk = l := by
  unfold walk at h
  split at h
  · cases h
  · rename_i hinv
    cases hahead : it.ahead with
    | nil =>
      rw [hahead] at h
      cases h
    | cons e' l' =>
      rw [hahead, takeWhile_cons] at h
      split at h
      · rename_i hin
        cases h
        have hcur : it.source.current = some e := by rw [current_eq_head?, hahead]; rfl
        refine ⟨by simp [valid, hinv, hcur, hin], hcur, ?_⟩
        have hmove : it.move.ahead = it.ahead.tail := ahead_move
        rw [hahead, tail_cons] at hmove
        rw [walk, if_neg (by exact hinv), hmove]
        rfl
      · cases h

/-- The entries that are skipped are the zero timestamps at the head of the walk. -/
theorem skipZeroVersion_spec (fuel : Nat) (it : RocksDBIterator)
    (hwidth : ∀ e ∈ it.walk, e.timestamp.length = timestampSize) (hfuel : it.walk.length ≤ fuel) :
    ∃ it', it.skipZeroVersion fuel = some it' ∧
      it'.walk = it.walk.dropWhile (fun e => readLE e.timestamp = 0) ∧
      it'.keyPrefix = it.keyPrefix ∧ it'.skipVersionZero = it.skipVersionZero := by
  induction fuel generalizing it with
  | zero =>
    have hnil := length_eq_zero_iff.mp (Nat.le_zero.mp hfuel)
    refine ⟨{ it with isInvalid := true }, ?_, ?_, rfl, rfl⟩
    · rw [skipZeroVersion, valid_of_walk_nil hnil]
    · rw [hnil]
      rfl
  | succ fuel ih =>
    cases hwalk : it.walk with
    | nil =>
      refine ⟨{ it with isInvalid := true }, ?_, rfl, rfl, rfl⟩
      rw [skipZeroVersion, valid_of_walk_nil hwalk]
    | cons e l =>
      obtain ⟨hvalid, hcur, hmove⟩ := valid_of_walk_cons hwalk
      rw [hwalk] at hwidth hfuel
      obtain ⟨he, hl⟩ := forall_mem_cons.mp hwidth
      have hts : it.timestamp = some (readLE e.timestamp) := by
        simp [timestamp, hcur, he, take_of_length_le]
      rw [skipZeroVersion, hvalid]
      simp only [hts, Results.some_bind, dropWhile_cons, decide_eq_true_eq]
      by_cases hzero : readLE e.timestamp = 0
      · rw [if_pos hzero, if_pos hzero]
        rw [← hmove] at hl ⊢
        exact ih it.move hl (by rw [hmove]; simpa using hfuel)
      · rw [if_neg hzero, if_neg hzero]
        exact ⟨it, rfl, hwalk, rfl, rfl⟩

theorem trySkipZeroVersion_spec (fuel : Nat) (it : RocksDBIterator)
    (hwidth : ∀ e ∈ it.walk, e.timestamp.length = timestampSize) (hfuel : it.walk.length ≤ fuel) :
    ∃ it', it.trySkipZeroVersion fuel = some it' ∧
      it'.walk = it.walk.dropWhile (fun e => !it.keeps e) ∧
      it'.keyPrefix = it.keyPrefix ∧ it'.skipVersionZero = it.skipVersionZero := by
  unfold trySkipZeroVersion
  cases hskip : it.skipVersionZero with
  | true =>
    simpa [keeps, hskip] using skipZeroVersion_spec fuel it hwidth hfuel
  | false =>
    refine ⟨it, rfl, ?_, rfl, hskip⟩
    cases it.walk <;> simp [keeps, hskip]

theorem filter_dropWhile {α : Type} (p : α → Bool) (l : List α) :
    (l.dropWhile fun a => !p a).filter p = l.filter p := by
  induction l with
  | nil => rfl
  | cons a l ih => cases hp : p a <;> simp [hp, ih]

/-- The loop of a caller gives the entries of the walk that are not skipped. -/
theorem consume_eq {visits : Nat} (calls : Nat) (it : RocksDBIterator)
    (hwidth : ∀ e ∈ it.walk, e.timestamp.length = timestampSize)
    (hlong : ∀ e ∈ it.walk, it.keyPrefix.length ≤ e.key.length)
    (hvisits : it.walk.length ≤ visits) (hcalls : it.walk.length < calls) :
    ((it.trySkipZeroVersion visits).bind fun it => it.consume visits calls) =
      some ((it.walk.filter it.keeps).map it.strip) := by
  induction calls generalizing it with
  | zero => omega
  | succ calls ih =>
    obtain ⟨it', hskip, hwalk', hp, hs⟩ := trySkipZeroVersion_spec visits it hwidth hvisits
    have hkeeps : it'.keeps = it.keeps := by funext e; simp only [keeps, hs]
    have hstrip : it'.strip = it.strip := by funext e; simp only [strip, hp]
    rw [hskip, Option.bind_some, consume, ← filter_dropWhile, ← hwalk']
    cases hl : it'.walk with
    | nil => rw [valid_of_walk_nil hl]; rfl
    | cons e l =>
      obtain ⟨hvalid, hcur, hmove⟩ := valid_of_walk_cons hl
      have hdrop := hwalk'.symm.trans hl
      have hsuffix : e :: l <:+ it.walk := hdrop ▸ dropWhile_suffix _
      have hkeep : it.keeps e := by
        have hhead := head?_dropWhile_not (fun e => !it.keeps e) it.walk
        rw [hdrop] at hhead
        simpa using hhead
      have hlen := hlong e (hsuffix.subset mem_cons_self)
      have hlength := hsuffix.length_le
      rw [length_cons] at hlength
      have hpair : it'.pair = some (it.strip e) := by simp [pair, hcur, hp, hlen, strip]
      -- what comes after the entry is the walk from a later place
      have hl' : l <:+ it.walk := (suffix_cons e l).trans hsuffix
      have hrest := ih it'.move (fun e he => hwidth e (hl'.subset (hmove ▸ he)))
        (fun e he => hp ▸ hlong e (hl'.subset (hmove ▸ he))) (by rw [hmove]; omega)
        (by rw [hmove]; omega)
      rw [hmove, show it'.move.keeps = it.keeps from hkeeps, show it'.move.strip = it.strip from hstrip] at hrest
      rw [hvalid, filter_cons_of_pos hkeep, map_cons]
      simp only [hpair, Option.bind_eq_bind, Option.bind_some, next]
      rw [← Option.bind_assoc, hrest]
      rfl

theorem walk_start {source : Cursor VersionedPair} (h : source.entries.Pairwise fun a b => a.key < b.key)
    (keyPrefix : Bytes) (start stop : Slice) (isReverse skip : Bool) :
    (mk (seekStart source start stop isReverse) keyPrefix start stop isReverse false skip).walk =
      let range := source.entries.filter fun e => Iterator.InRange start stop e.key
      if isReverse then range.reverse else range := by
  cases isReverse with
  | true =>
    have hahead : (seekStart source start stop true).backward =
        (source.entries.filter fun e => stop.all fun k => !decide (k ≤ e.key)).reverse := by
      cases stop with
      | none => simp [seekStart, Cursor.backward_seekToLast]
      | some k =>
        simp only [seekStart, if_true, Option.all_some]
        cases hcur : (source.seek VersionedPair.key k).current with
        | none =>
          rw [Cursor.filter_of_seek_eq_none h hcur]
          exact Cursor.backward_seekToLast
        | some e =>
          simp only [if_pos (Cursor.le_of_seek h hcur)]
          exact Cursor.backward_prev_seek h hcur
    simp only [walk, ahead, hahead, Bool.false_eq_true, if_false, if_true]
    rw [takeWhile_eq_filter, ← filter_reverse, filter_filter, ← filter_reverse]
    · refine filter_congr fun e _ => Bool.eq_iff_iff.mpr ?_
      cases start <;> cases stop <;> simp [inBounds, Iterator.InRange]
    · refine pairwise_reverse.mpr (List.Pairwise.filter _ (h.imp ?_))
      intro a b hab
      cases start with
      | none => simp [inBounds]
      | some s => simpa [inBounds] using fun hs => hs.trans hab.le
  | false =>
    have hahead : (seekStart source start stop false).forward =
        source.entries.filter fun e => start.all fun k => k ≤ e.key := by
      cases start with
      | none => simp [seekStart, Cursor.forward_seekToFirst]
      | some k => simpa [seekStart] using Cursor.forward_seek h k
    simp only [walk, ahead, hahead, Bool.false_eq_true, if_false]
    rw [takeWhile_eq_filter, filter_filter]
    · refine filter_congr fun e _ => Bool.eq_iff_iff.mpr ?_
      cases start <;> cases stop <;> simp [inBounds, Iterator.InRange, and_comm]
    · refine List.Pairwise.filter _ (h.imp ?_)
      intro a b hab
      cases stop with
      | none => simp [inBounds]
      | some s => simpa [inBounds] using fun hs => hab.trans hs

theorem consume_newRocksDBIterator {source : Cursor VersionedPair} {keyPrefix : Bytes}
    {start stop : Slice} {fuel : Nat} (h : source.entries.Pairwise fun a b => a.key < b.key)
    (hwidth : ∀ e ∈ source.entries, e.timestamp.length = timestampSize)
    (hlong : ∀ e ∈ source.entries, Iterator.InRange start stop e.key →
      keyPrefix.length ≤ e.key.length) (hfuel : source.entries.length < fuel)
    (isReverse skip : Bool) :
    ((newRocksDBIterator fuel source keyPrefix start stop isReverse skip).bind
        fun it => it.consume fuel fuel) =
      let ps := ((source.entries.filter fun e => Iterator.InRange start stop e.key).filter fun e =>
        !(skip && readLE e.timestamp = 0)).map fun e => { e with key := e.key.drop keyPrefix.length }
      some (if isReverse then ps.reverse else ps) := by
  generalize hit : mk (seekStart source start stop isReverse) keyPrefix start stop isReverse false
    skip = it
  have hwalk := walk_start h keyPrefix start stop isReverse skip
  rw [hit] at hwalk
  have hmem : ∀ e ∈ it.walk, e ∈ source.entries ∧ Iterator.InRange start stop e.key := by
    intro e he
    rw [hwalk] at he
    have he' : e ∈ source.entries.filter fun e => Iterator.InRange start stop e.key := by
      cases isReverse with
      | true => exact mem_reverse.mp he
      | false => exact he
    simpa using he'
  have hlen : it.walk.length ≤ source.entries.length := by
    rw [hwalk]
    cases isReverse <;> simp [length_filter_le]
  have hconsume : ((it.trySkipZeroVersion fuel).bind fun it => it.consume fuel fuel) = _ :=
    consume_eq fuel it (fun e he => hwidth e (hmem e he).1)
      (fun e he => hit ▸ hlong e (hmem e he).1 (hmem e he).2) (by omega) (by omega)
  rw [newRocksDBIterator, hit, hconsume, hwalk]
  subst hit
  cases isReverse with
  | true => simp only [if_true, filter_reverse, map_reverse]; rfl
  | false => rfl

end RocksDBIterator

/-! ## Keys of a store -/

theorem cpIncr_append (p : Bytes) {b : UInt8} (hb : b < 255) : cpIncr (p ++ [b]) = some (p ++ [b + 1]) := by
  simp [cpIncr, incrLE, hb]

/-- The strings between one with a prefix and the next one of the length of the prefix. -/
theorem exists_append_of_between {p key : Bytes} {b c : UInt8} (hc : ∀ x, b ≤ x → x < c → x = b)
    (hle : p ++ [b] ≤ key) (hlt : key < p ++ [c]) : ∃ k, key = p ++ [b] ++ k := by
  induction p generalizing key with
  | nil =>
    cases key with
    | nil => exact absurd (nil_lt_cons b []) (not_lt.mpr hle)
    | cons x k =>
      have hx : x < c := by
        rcases cons_lt_cons_iff.mp hlt with hlt | ⟨-, hlt⟩
        · exact hlt
        · exact absurd hlt (not_lt_nil _)
      have hbx : b ≤ x := by
        by_contra hxb
        exact absurd (cons_lt_cons_iff.mpr (.inl (not_le.mp hxb))) (not_lt.mpr hle)
      rw [hc x hbx hx]
      exact ⟨k, rfl⟩
  | cons a p ih =>
    cases key with
    | nil => exact absurd (nil_lt_cons a _) (not_lt.mpr hle)
    | cons x k =>
      have hxa : x ≤ a := by
        rcases cons_lt_cons_iff.mp hlt with hlt | ⟨rfl, -⟩
        · exact hlt.le
        · exact le_refl _
      have hax : a ≤ x := by
        by_contra hxa
        exact absurd (cons_lt_cons_iff.mpr (.inl (not_le.mp hxa))) (not_lt.mpr hle)
      obtain rfl := le_antisymm hxa hax
      have hle' : p ++ [b] ≤ k := by
        by_contra hk
        exact absurd (cons_lt_cons_iff.mpr (.inr ⟨rfl, not_le.mp hk⟩)) (not_lt.mpr hle)
      have hlt' : k < p ++ [c] := by
        rcases cons_lt_cons_iff.mp hlt with hlt | ⟨-, hlt⟩
        · exact absurd hlt (lt_irrefl _)
        · exact hlt
      obtain ⟨k', rfl⟩ := ih hle' hlt'
      exact ⟨k', rfl⟩

theorem append_lt_append_iff (p : Bytes) {a b : Bytes} : p ++ a < p ++ b ↔ a < b :=
  StrictMono.lt_iff_lt (f := (p ++ ·)) fun _ _ h => append_left_lt h

theorem append_le_append_iff (p : Bytes) {a b : Bytes} : p ++ a ≤ p ++ b ↔ a ≤ b :=
  StrictMono.le_iff_le (f := (p ++ ·)) fun _ _ h => append_left_lt h

theorem nil_le (k : Bytes) : [] ≤ k := not_lt.mp (not_lt_nil k)

theorem le_append (p k : Bytes) : p ≤ p ++ k := by
  simpa using (append_le_append_iff p).mpr (nil_le k)

variable {start stop : Slice}

/-- The prefixed bounds enclose the keys of the store in the range, and no others. -/
theorem inRange_iterateWithPrefix (store : Name) {start' stop' : Slice}
    (h : iterateWithPrefix (storePrefix store) start stop = (start', stop')) (key : Bytes) :
    Iterator.InRange start' stop' key ↔
      ∃ k, key = storePrefix store ++ k ∧ Iterator.InRange start stop k := by
  have hpre : storePrefix store = ([115, 47, 107, 58] ++ store) ++ [47] := rfl
  have hincr : cpIncr (storePrefix store) = some (([115, 47, 107, 58] ++ store) ++ [48]) := by
    rw [hpre, cpIncr_append _ (by decide)]
    rfl
  have hlast (k : Bytes) : storePrefix store ++ k < ([115, 47, 107, 58] ++ store) ++ [48] := by
    rw [hpre, append_assoc]
    exact append_left_lt (cons_lt_cons_iff.mpr (.inl (by decide)))
  have hsome {key : Bytes} (hle : storePrefix store ≤ key)
      (hlt : key < ([115, 47, 107, 58] ++ store) ++ [48]) : ∃ k, key = storePrefix store ++ k := by
    refine exists_append_of_between (b := 47) (c := 48) (fun x hx hx' => ?_) hle hlt
    simp only [UInt8.le_iff_toNat_le, UInt8.lt_iff_toNat_lt, ← UInt8.toNat_inj] at hx hx' ⊢
    change 47 ≤ x.toNat at hx
    change x.toNat < 48 at hx'
    change x.toNat = 47
    omega
  unfold iterateWithPrefix at h
  rw [if_neg (by simp [storePrefix])] at h
  cases h
  constructor
  · rintro ⟨hstart, hstop⟩
    have hle := hstart _ rfl
    obtain ⟨k, rfl⟩ := hsome (le_trans (le_append _ _) hle) <| by
      cases stop with
      | none => exact hstop _ hincr
      | some e => exact (hstop _ rfl).trans (hlast e)
    refine ⟨k, rfl, ?_, ?_⟩
    · rintro s rfl
      exact (append_le_append_iff _).mp hle
    · rintro e rfl
      exact (append_lt_append_iff _).mp (hstop _ rfl)
  · rintro ⟨k, rfl, hstart, hstop⟩
    constructor
    · rintro s hs
      cases hs
      refine (append_le_append_iff _).mpr ?_
      cases start with
      | none => exact nil_le k
      | some s => exact hstart s rfl
    · intro e he
      cases stop with
      | none =>
        cases hincr.symm.trans he
        exact hlast k
      | some e' =>
        cases he
        exact (append_lt_append_iff _).mpr (hstop e' rfl)

theorem takeWhile_slash {name : Name} (h : 47 ∉ name) (k : Bytes) :
    (name ++ 47 :: k).takeWhile (· ≠ 47) = name := by
  rw [takeWhile_append_of_pos]
  · simp
  · intro b hb
    exact decide_eq_true fun hb' => h (hb' ▸ hb)

/-- No key belongs to two stores, for names without a slash. -/
theorem storePrefix_append_ne {store other : Name} (hstore : 47 ∉ store) (hother : 47 ∉ other)
    (hne : other ≠ store) (k k' : Bytes) : storePrefix store ++ k ≠ storePrefix other ++ k' := by
  intro heq
  simp only [storePrefix, append_assoc, cons_append, nil_append, List.cons.injEq,
    true_and] at heq
  have htake := congrArg (List.takeWhile (· ≠ 47)) heq
  rw [takeWhile_slash hstore, takeWhile_slash hother] at htake
  exact hne htake.symm

/-! ## Iteration is exact -/

theorem ColumnFamily.iterate_eq (cf : ColumnFamily) (skipVersionZero : Bool) (fuel : Nat)
    (version : Option Int) {store : Name} {start' stop' : Slice} (hstart : start ≠ some [])
    (hstop : stop ≠ some []) (hrange : iterateWithPrefix (storePrefix store) start stop = (start', stop'))
    (isReverse : Bool) : cf.iterate skipVersionZero fuel store start stop version isReverse =
      ((newRocksDBIterator fuel ⟨cf.visible (readTimestamp version), none⟩ (storePrefix store) start' stop'
        isReverse skipVersionZero).bind fun it => it.consume fuel fuel).map .ok := by
  rw [iterate, iteratorAtVersion, if_neg (by simp [hstart, hstop])]
  simp only [hrange, Option.bind_eq_bind]
  cases newRocksDBIterator fuel ⟨cf.visible (readTimestamp version), none⟩ (storePrefix store) start' stop'
    isReverse skipVersionZero with
  | none => rfl
  | some it => exact (Option.map_eq_bind ..).symm

/-- An iteration over a store ends, and gives what is visible of the store in the range, once each in
the order of the keys. The other direction gives the same in reverse. -/
theorem ColumnFamily.iterate_spec (cf : ColumnFamily) (store : Name)
    (hstart : start ≠ some []) (hstop : stop ≠ some []) (version : Option Int) (skipVersionZero : Bool) :
    ∃ ps : List VersionedPair,
      (∀ fuel, cf.entries.length < fuel →
        cf.iterate skipVersionZero fuel store start stop version false = some (.ok ps) ∧
        cf.iterate skipVersionZero fuel store start stop version true = some (.ok ps.reverse)) ∧
      (∀ p, p ∈ ps ↔
        cf.Newest (readTimestamp version) ⟨storePrefix store ++ p.key, p.timestamp, some p.value⟩ ∧
        Iterator.InRange start stop p.key ∧
        (skipVersionZero = true → readLE p.timestamp ≠ 0)) ∧
      ps.Pairwise fun a b => a.key < b.key := by
  obtain ⟨start', stop', hrange⟩ : ∃ start' stop',
      iterateWithPrefix (storePrefix store) start stop = (start', stop') := ⟨_, _, rfl⟩
  have hin := inRange_iterateWithPrefix store hrange
  let source : Cursor VersionedPair := ⟨cf.visible (readTimestamp version), none⟩
  have hsorted : source.entries.Pairwise fun a b => a.key < b.key := cf.pairwise_visible
  refine ⟨((source.entries.filter fun e => Iterator.InRange start' stop' e.key).filter
    fun e => !(skipVersionZero && readLE e.timestamp = 0)).map fun e =>
      { e with key := e.key.drop (storePrefix store).length }, ?_, ?_, ?_⟩
  · intro fuel hfuel
    have hwidth : ∀ e ∈ source.entries, e.timestamp.length = timestampSize := fun e he =>
      cf.width _ (ColumnFamily.mem_visible.mp he).1
    have hlong : ∀ e ∈ source.entries, Iterator.InRange start' stop' e.key →
        (storePrefix store).length ≤ e.key.length := by
      intro e _ he
      obtain ⟨k, hk, -⟩ := (hin e.key).mp he
      simp [hk]
    have hconsume := RocksDBIterator.consume_newRocksDBIterator hsorted hwidth hlong
      (lt_of_le_of_lt cf.length_visible_le hfuel)
    have hiterate := cf.iterate_eq skipVersionZero fuel version hstart hstop hrange
    exact ⟨by rw [hiterate, hconsume]; rfl, by rw [hiterate, hconsume]; rfl⟩
  · intro p
    simp only [mem_map, mem_filter, decide_eq_true_eq]
    constructor
    · rintro ⟨⟨key, ts, x⟩, ⟨⟨he, hkey⟩, hkeep⟩, rfl⟩
      obtain ⟨k, rfl, hk⟩ := (hin _).mp hkey
      rw [drop_left]
      refine ⟨ColumnFamily.mem_visible.mp he, hk, ?_⟩
      rintro rfl
      simpa using hkeep
    · rintro ⟨hnew, hk, hkeep⟩
      refine ⟨⟨storePrefix store ++ p.key, p.timestamp, p.value⟩,
        ⟨⟨ColumnFamily.mem_visible.mpr hnew, (hin _).mpr ⟨p.key, rfl, hk⟩⟩, ?_⟩, ?_⟩
      · cases skipVersionZero <;> simp_all
      · simp only [drop_left]
  · refine pairwise_map.mpr ?_
    have hfilter := List.Pairwise.and_mem.mp (List.Pairwise.filter (fun e : VersionedPair =>
      !(skipVersionZero && readLE e.timestamp = 0))
      (List.Pairwise.filter (fun e => decide (Iterator.InRange start' stop' e.key)) hsorted))
    refine hfilter.imp ?_
    rintro a b ⟨ha, hb, hab⟩
    simp only [mem_filter, decide_eq_true_eq] at ha hb
    obtain ⟨k, hk, -⟩ := (hin _).mp ha.1.2
    obtain ⟨k', hk', -⟩ := (hin _).mp hb.1.2
    rw [hk, hk'] at hab ⊢
    rw [drop_left, drop_left]
    exact (append_lt_append_iff _).mp hab

/-- Iteration in either direction is exact, and no key of another store is among what it gives. -/
theorem iterateAtVersion_exact (cf : ColumnFamily) (store : Name) (hstore : 47 ∉ store)
    (start stop : Slice) (hstart : start ≠ some []) (hstop : stop ≠ some []) (version : Option Int)
    (skipVersionZero : Bool) :
    ∃ ps : List VersionedPair,
      (∀ fuel, cf.entries.length < fuel →
        cf.iterate skipVersionZero fuel store start stop version false = some (.ok ps) ∧
        cf.iterate skipVersionZero fuel store start stop version true = some (.ok ps.reverse)) ∧
      (∀ p, p ∈ ps ↔
        cf.Newest (readTimestamp version) ⟨storePrefix store ++ p.key, p.timestamp, some p.value⟩ ∧
        Iterator.InRange start stop p.key ∧
        (skipVersionZero = true → readLE p.timestamp ≠ 0)) ∧
      (ps.Pairwise fun a b => a.key < b.key) ∧
      ∀ p ∈ ps, ∀ other : Name, 47 ∉ other → other ≠ store → ∀ k,
        storePrefix store ++ p.key ≠ storePrefix other ++ k := by
  obtain ⟨ps, hps, hmem, hsorted⟩ := cf.iterate_spec store hstart hstop version skipVersionZero
  refine ⟨ps, hps, hmem, hsorted, ?_⟩
  intro p _ other hother hne k
  exact storePrefix_append_ne hstore hother hne _ _

def ColumnFamily.twoStores : ColumnFamily :=
  ((ColumnFamily.empty.feedChangeSet [97] (1, [⟨false, [1], some [7]⟩, ⟨false, [2], some [8]⟩])).feedChangeSet
    [98] (1, [⟨false, [1], some [9]⟩])).feedChangeSet [97] (3, [⟨true, [1], none⟩])

theorem iterateAtVersion_exact_twoStores :
    ColumnFamily.twoStores.iterate false 6 [97] none (some [2, 0]) (some 2) true =
      some (.ok [⟨[2], timestamp 1, [8]⟩, ⟨[1], timestamp 1, [7]⟩]) ∧
    ColumnFamily.twoStores.Newest 2 ⟨storePrefix [97] ++ [1], timestamp 1, some [7]⟩ := by
  obtain ⟨ps, hps, hmem, -⟩ := iterateAtVersion_exact .twoStores [97] (by decide) none (some [2, 0])
    (by decide) (by decide) (some 2) false
  have hrun : ColumnFamily.twoStores.iterate false 6 [97] none (some [2, 0]) (some 2) true =
      some (.ok [⟨[2], timestamp 1, [8]⟩, ⟨[1], timestamp 1, [7]⟩]) := by decide +kernel
  have hreverse := (hps 6 (by decide +kernel)).2
  rw [hrun] at hreverse
  have hps' : ps.reverse = [⟨[2], timestamp 1, [8]⟩, ⟨[1], timestamp 1, [7]⟩] := by
    injection hreverse with hreverse
    injection hreverse with hreverse
    exact hreverse.symm
  refine ⟨hrun, ((hmem ⟨[1], timestamp 1, [7]⟩).mp ?_).1⟩
  rw [← mem_reverse, hps']
  exact mem_cons_of_mem _ mem_cons_self

end CronosStore.VersionDB
