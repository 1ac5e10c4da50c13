import CronosStore.VersionDB.ExtSort
import CronosStore.VersionDB.Verify
import Mathlib.Data.Prod.Lex

/-!
# Building sst files

`convertSingleStore` of `versiondb/client/convert_to_sst.go`: the pairs of all change sets of a
store go through the external sorter, and from there into sst files of about a given size. The other
way into the database is `FeedChangeSet` of `versiondb/tsrocksdb`, a batch for each change set.

The sst writer takes keys in strictly increasing order only. Pairs of one key and one version are
equal for the sorter, and both are handed to the writer, which refuses the second. So the two ways
agree if and only if no key occurs twice in a version, but for items that are too long for the
sorter (`convertSingleStore_iff`).

The names of the files and the directory for the chunks of the sorter are left out.
-/

namespace CronosStore.VersionDB

open Foundation Memiavl List

/-! ## Items of the sorter -/

def timestampSize : Nat := 8

def sizeKeyLength : Nat := 4

def encodeSorterItem (version : Nat) (pair : KVPair) : Bytes :=
  pair.key ++ putLE timestampSize version ++
    (if pair.delete then [1] else 0 :: pair.value.getD []) ++ putLE sizeKeyLength pair.key.length

def sizeOfSorterItem (pair : KVPair) : Nat :=
  let size := pair.key.length + timestampSize + 1 + sizeKeyLength
  if pair.delete then size else size + (pair.value.getD []).length

/-- `decodeSorterItem`: the timestamp and the pair. The offsets are `uint32`, and a slice out of range is
a panic. -/
def decodeSorterItem (item : Bytes) : Option (Bytes × KVPair) :=
  if item.length < sizeKeyLength then none
  else do
    let keyLen := readLE (item.drop (item.length - sizeKeyLength))
    let key ← slice item 0 keyLen
    let offset := (keyLen + timestampSize) % 2 ^ 32
    let version ← slice item keyLen offset
    if (← item[offset]?) = 1 then pure (version, ⟨true, key, none⟩)
    else
      let value ← slice item ((offset + 1) % 2 ^ 32) (item.length - sizeKeyLength)
      pure (version, ⟨false, key, some value⟩)

def compareSorterItem (a b : Bytes) : Bool :=
  let aKeyLen := readLE (a.drop (a.length - sizeKeyLength))
  let bKeyLen := readLE (b.drop (b.length - sizeKeyLength))
  if a.take aKeyLen ≠ b.take bKeyLen then decide (a.take aKeyLen < b.take bKeyLen)
  else decide (readLE ((a.drop aKeyLen).take timestampSize) > readLE ((b.drop bKeyLen).take timestampSize))

/-! ## Entries of the database -/

/-- What is stored for a key and a timestamp. A deletion has no value. -/
structure SSTEntry where
  key : Bytes
  ts : Bytes
  value : Option Bytes
deriving DecidableEq

def storePrefix (store : Name) : Bytes := [115, 47, 107, 58] ++ store ++ [47]

def entryOf (store : Name) (ts : Bytes) (pair : KVPair) : SSTEntry :=
  ⟨storePrefix store ++ pair.key, ts, if pair.delete then none else some (pair.value.getD [])⟩

def timestamp (version : Int) : Bytes := putLE timestampSize (version % 2 ^ 64).toNat

/-- A write replaces what the key had at the timestamp. -/
def writeEntry (db : List SSTEntry) (e : SSTEntry) : List SSTEntry :=
  (db.filter fun x => ¬ (x.key = e.key ∧ x.ts = e.ts)) ++ [e]

def feedChangeSet (store : Name) (db : List SSTEntry) (cs : Int × ChangeSet) : List SSTEntry :=
  (cs.2.map (entryOf store (timestamp cs.1))).foldl writeEntry db

def SSTEntry.before (a b : SSTEntry) : Bool :=
  if a.key ≠ b.key then decide (a.key < b.key) else decide (readLE a.ts > readLE b.ts)

inductive ConvertError
  | scan (error : VerifyError)
  | read (error : ChangeSetError)
  | sorter (error : SorterError)
  | keyOrder
  | noEntries
  | panic
deriving DecidableEq

structure SSTWriter where
  finished : List (List SSTEntry)
  current : List SSTEntry
deriving DecidableEq

def SSTWriter.add (w : SSTWriter) (e : SSTEntry) : Except ConvertError SSTWriter :=
  match w.current.getLast? with
  | none => .ok { w with current := [e] }
  | some last =>
    if last.before e then .ok { w with current := w.current ++ [e] } else .error .keyOrder

def SSTWriter.finish (w : SSTWriter) : Except ConvertError SSTWriter :=
  if w.current = [] then .error .noEntries else .ok ⟨w.finished ++ [w.current], []⟩

/-- The size that the writer reports, for the number of the file and what is in it. It may be
anything but for a file that has just been opened. -/
structure FileSize where
  fileSize : Nat → List SSTEntry → Nat
  opened : ∀ seq, fileSize seq [] = 0

def writeItem (size : FileSize) (store : Name) (sstFileSize : Nat) (s : SSTWriter × Bytes) (item : Bytes) :
    Except ConvertError (SSTWriter × Bytes) :=
  let (writer, lastKey) := s
  match decodeSorterItem item with
  | none => .error .panic
  | some (ts, pair) =>
    match if size.fileSize writer.finished.length writer.current ≥ sstFileSize ∧ lastKey ≠ pair.key then
        writer.finish else .ok writer with
    | .error e => .error e
    | .ok writer =>
      match writer.add (entryOf store ts pair) with
      | .error e => .error e
      | .ok writer => .ok (writer, pair.key)

def writeSorted (size : FileSize) (store : Name) (sstFileSize : Nat) (items : List Bytes) :
    Except ConvertError (List (List SSTEntry)) :=
  match items.foldlM (writeItem size store sstFileSize) (⟨[], []⟩, []) with
  | .error e => .error e
  | .ok (writer, _) => writer.finish.map SSTWriter.finished

def readItems : List FileWithVersion → List Bytes → Except ConvertError (List Bytes)
  | [], items => .ok items
  | file :: files, items =>
    match (iterateChangeSets .read
        (fun version changeSet items =>
          .ok (true, items ++ changeSet.map (encodeSorterItem (version % 2 ^ 64).toNat)))
        file.content items).result with
    | .error e => .error e
    | .ok items => readItems files items

def convertSingleStore (g : Goroutines compareSorterItem) (size : FileSize) (store : Name)
    (files : List Bytes) (sstFileSize : Nat) (sorterChunkSize : Int) :
    Except ConvertError (List (List SSTEntry)) :=
  match sortFilesByFirstVersion files with
  | .error e => .error (.scan e)
  | .ok csFiles =>
    match readItems csFiles [] with
    | .error e => .error e
    | .ok items =>
      if items = [] then .ok []
      else
        match extSort g sorterChunkSize items with
        | .error e => .error (.sorter e)
        | .ok items => writeSorted size store sstFileSize items

/-! ## The order of items and entries -/

section Order

abbrev Stamp := Bytes ×ₗ Natᵒᵈ

def stamp (key : Bytes) (version : Nat) : Stamp := toLex (key, OrderDual.toDual version)

theorem stamp_lt {a b : Bytes} {m n : Nat} :
    stamp a m < stamp b n ↔ if a ≠ b then a < b else n < m := by
  rw [stamp, stamp, Prod.Lex.toLex_lt_toLex]
  simp only [OrderDual.toDual_lt_toDual]
  by_cases h : a = b
  · rw [if_neg (not_not_intro h)]
    exact ⟨fun hlt => hlt.elim (fun hlt => absurd hlt (h ▸ lt_irrefl a)) And.right, fun hlt => .inr ⟨h, hlt⟩⟩
  · rw [if_pos h]
    exact ⟨fun hlt => hlt.elim id fun hlt => absurd hlt.1 h, .inl⟩

theorem stamp_inj {a b : Bytes} {m n : Nat} : stamp a m = stamp b n ↔ a = b ∧ m = n := by
  rw [stamp, stamp, EmbeddingLike.apply_eq_iff_eq, Prod.mk.injEq, EmbeddingLike.apply_eq_iff_eq]

theorem stamp_append_lt (keyPrefix a b : Bytes) (m n : Nat) :
    stamp (keyPrefix ++ a) m < stamp (keyPrefix ++ b) n ↔ stamp a m < stamp b n := by
  rw [stamp_lt, stamp_lt]
  by_cases h : a = b
  · subst h
    simp only [ne_eq, not_true, if_false]
  · rw [if_pos h, if_pos (fun heq => h (append_cancel_left heq))]
    refine ⟨fun hlt => ?_, append_left_lt⟩
    rcases lt_or_gt_of_ne h with hab | hba
    · exact hab
    · exact absurd hlt (append_left_lt hba).not_gt

def SSTEntry.stamp (e : SSTEntry) : Stamp := VersionDB.stamp e.key (readLE e.ts)

theorem SSTEntry.before_iff {a b : SSTEntry} : a.before b = true ↔ a.stamp < b.stamp := by
  rw [SSTEntry.before, SSTEntry.stamp, SSTEntry.stamp, stamp_lt]
  split_ifs <;> exact decide_eq_true_iff

theorem SSTEntry.key_le {a b : SSTEntry} (h : a.stamp ≤ b.stamp) : a.key ≤ b.key := by
  rcases h.lt_or_eq with h | h
  · rw [SSTEntry.stamp, SSTEntry.stamp, stamp_lt] at h
    split_ifs at h with hne
    · exact h.le
    · exact (not_not.mp hne).le
  · exact (stamp_inj.mp h).1.le

def itemStamp (item : Bytes) : Stamp :=
  let keyLen := readLE (item.drop (item.length - sizeKeyLength))
  stamp (item.take keyLen) (readLE ((item.drop keyLen).take timestampSize))

theorem compareSorterItem_eq (a b : Bytes) : compareSorterItem a b = decide (itemStamp a < itemStamp b) := by
  rw [Bool.eq_iff_iff, decide_eq_true_iff, itemStamp, itemStamp, stamp_lt, compareSorterItem]
  split_ifs <;> exact decide_eq_true_iff

theorem strictWeak_compareSorterItem : BinaryHeap.StrictWeak compareSorterItem :=
  .of_lt itemStamp fun a b => by rw [compareSorterItem_eq, decide_eq_true_iff]

end Order

/-! ## Round trip -/

section RoundTrip

variable {version : Nat} {pair : KVPair}

theorem length_encodeSorterItem (version : Nat) (pair : KVPair) :
    (encodeSorterItem version pair).length = sizeOfSorterItem pair := by
  rw [encodeSorterItem, sizeOfSorterItem]
  simp only [length_append, length_putLE]
  split_ifs
  · rfl
  · rw [length_cons]
    omega

theorem keyLen_encodeSorterItem (h : pair.key.length < 2 ^ 32) :
    readLE ((encodeSorterItem version pair).drop
      ((encodeSorterItem version pair).length - sizeKeyLength)) = pair.key.length := by
  rw [encodeSorterItem, length_append, length_putLE, Nat.add_sub_cancel, drop_left,
    readLE_putLE]
  exact Nat.mod_eq_of_lt h

theorem take_encodeSorterItem (version : Nat) (pair : KVPair) :
    (encodeSorterItem version pair).take pair.key.length = pair.key := by
  rw [encodeSorterItem, append_assoc, append_assoc, take_left]

theorem timestamp_encodeSorterItem (version : Nat) (pair : KVPair) :
    ((encodeSorterItem version pair).drop pair.key.length).take timestampSize =
      putLE timestampSize version := by
  rw [encodeSorterItem, append_assoc, append_assoc, drop_left]
  exact take_left' (length_putLE _ _)

theorem decodeSorterItem_eq (h : pair.key.length + timestampSize < 2 ^ 32) :
    decodeSorterItem (encodeSorterItem version pair) =
      if pair.delete then some (putLE timestampSize version, ⟨true, pair.key, none⟩)
      else (slice (encodeSorterItem version pair) ((pair.key.length + timestampSize + 1) % 2 ^ 32)
        ((encodeSorterItem version pair).length - sizeKeyLength)).map
          fun value => (putLE timestampSize version, ⟨false, pair.key, some value⟩) := by
  have hfits : ¬ (encodeSorterItem version pair).length < sizeKeyLength := by
    rw [encodeSorterItem, length_append, length_putLE]
    omega
  have hkey : slice (encodeSorterItem version pair) 0 pair.key.length = some pair.key := by
    refine slice_eq_of_split (a := []) (c := putLE timestampSize version ++
      (if pair.delete then [1] else 0 :: pair.value.getD []) ++ putLE sizeKeyLength pair.key.length) ?_ rfl
      (Nat.zero_add _).symm
    rw [encodeSorterItem, nil_append, append_assoc, append_assoc, append_assoc]
  have hversion : slice (encodeSorterItem version pair) pair.key.length (pair.key.length + timestampSize) =
      some (putLE timestampSize version) := by
    refine slice_eq_of_split (c := (if pair.delete then [1] else 0 :: pair.value.getD []) ++
      putLE sizeKeyLength pair.key.length) ?_ rfl (by rw [length_putLE])
    rw [encodeSorterItem, append_assoc]
  have hflag : (encodeSorterItem version pair)[pair.key.length + timestampSize]? =
      some (if pair.delete then 1 else 0) := by
    have hbefore : (pair.key ++ putLE timestampSize version).length = pair.key.length + timestampSize := by
      rw [length_append, length_putLE]
    rw [encodeSorterItem, append_assoc, ← hbefore, getElem?_append_right le_rfl, Nat.sub_self]
    split_ifs <;> rfl
  rw [decodeSorterItem, if_neg hfits]
  simp only [keyLen_encodeSorterItem (show pair.key.length < 2 ^ 32 by omega), hkey, Nat.mod_eq_of_lt h, hversion,
    hflag, Results.some_bind, Option.pure_def]
  cases pair.delete with
  | true => rfl
  | false =>
    simp only [Bool.false_eq_true, if_false]
    rw [if_neg (by decide), Option.map_eq_bind]
    rfl

def OffsetsFit (pair : KVPair) : Prop :=
  pair.key.length + timestampSize + (if pair.delete then 1 else 2) ≤ 2 ^ 32

theorem OffsetsFit.lt (h : OffsetsFit pair) : pair.key.length + timestampSize < 2 ^ 32 := by
  unfold OffsetsFit at h
  split_ifs at h <;> omega

theorem decodeSorterItem_encode (h : OffsetsFit pair) :
    decodeSorterItem (encodeSorterItem version pair) = some (putLE timestampSize version,
      ⟨pair.delete, pair.key, if pair.delete then none else some (pair.value.getD [])⟩) := by
  rw [decodeSorterItem_eq h.lt]
  cases hdelete : pair.delete with
  | true => rfl
  | false =>
    have hvalue : slice (encodeSorterItem version pair) (pair.key.length + timestampSize + 1)
        ((encodeSorterItem version pair).length - sizeKeyLength) = some (pair.value.getD []) := by
      refine slice_eq_of_split (a := pair.key ++ putLE timestampSize version ++ [0])
        (c := putLE sizeKeyLength pair.key.length) ?_ ?_ ?_
      · simp [encodeSorterItem, hdelete]
      · simp only [length_append, length_putLE, length_singleton]
      · simp only [length_encodeSorterItem, sizeOfSorterItem, hdelete, Bool.false_eq_true, if_false]
        omega
    rw [OffsetsFit, hdelete, if_neg Bool.false_ne_true] at h
    rw [Nat.mod_eq_of_lt (show pair.key.length + timestampSize + 1 < 2 ^ 32 by omega), hvalue]
    rfl

def entryOfItem (store : Name) (item : Bytes) : SSTEntry :=
  match decodeSorterItem item with
  | none => ⟨[], [], none⟩
  | some (ts, pair) => entryOf store ts pair

theorem entryOfItem_encode (store : Name) (h : OffsetsFit pair) :
    entryOfItem store (encodeSorterItem version pair) = entryOf store (putLE timestampSize version) pair := by
  rw [entryOfItem, decodeSorterItem_encode h]
  simp only [entryOf]
  cases pair.delete <;> rfl

theorem itemStamp_encode (h : pair.key.length < 2 ^ 32) : itemStamp (encodeSorterItem version pair) =
    stamp pair.key (readLE (putLE timestampSize version)) := by
  rw [itemStamp]
  simp only [keyLen_encodeSorterItem h, take_encodeSorterItem, timestamp_encodeSorterItem]

theorem stamp_entryOfItem_le (store : Name) {version' : Nat} {pair' : KVPair} (h : OffsetsFit pair)
    (h' : OffsetsFit pair')
    (hle : itemStamp (encodeSorterItem version pair) ≤ itemStamp (encodeSorterItem version' pair')) :
    (entryOfItem store (encodeSorterItem version pair)).stamp ≤
      (entryOfItem store (encodeSorterItem version' pair')).stamp := by
  rw [itemStamp_encode (Nat.lt_of_add_right_lt h.lt), itemStamp_encode (Nat.lt_of_add_right_lt h'.lt)] at hle
  rw [entryOfItem_encode store h, entryOfItem_encode store h', ← not_lt]
  exact fun hlt => hle.not_gt ((stamp_append_lt (storePrefix store) _ _ _ _).mp hlt)

end RoundTrip

/-! ## The loop over the sorted items -/

section Writing

variable {store : Name} {sstFileSize : Nat} {w : SSTWriter} {lastKey : Bytes}

def SSTWriter.written (w : SSTWriter) : List SSTEntry := w.finished.flatten ++ w.current

structure Writing (store : Name) (w : SSTWriter) (lastKey : Bytes) : Prop where
  opened : w.current = [] → w.finished = []
  last : ∀ e ∈ w.current.getLast?, e.key = storePrefix store ++ lastKey
  sorted : w.written.Pairwise fun a b => a.stamp < b.stamp
  split : ∀ x ∈ w.finished.flatten, ∀ y ∈ w.current, x.key < y.key
  finished : w.finished.Pairwise fun a b => ∀ x ∈ a, ∀ y ∈ b, x.key < y.key

theorem Writing.new (store : Name) : Writing store ⟨[], []⟩ [] where
  opened _ := rfl
  last _ h := by cases h
  sorted := .nil
  split _ h := by cases h
  finished := .nil

section

variable (h : Writing store w lastKey)
include h

theorem Writing.le_last {last : SSTEntry}
    (hlast : w.current.getLast? = some last)
    {x : SSTEntry} (hx : x ∈ w.written) : x.stamp ≤ last.stamp := by
  obtain ⟨l, hl⟩ := getLast?_eq_some_iff.mp hlast
  have hw : w.written = w.finished.flatten ++ l ++ [last] := by rw [SSTWriter.written, hl, append_assoc]
  rw [hw] at hx
  have hsorted := h.sorted
  rw [hw] at hsorted
  rcases mem_append.mp hx with hx | hx
  · exact le_of_lt ((pairwise_append.mp hsorted).2.2 x hx last mem_cons_self)
  · rw [mem_singleton.mp hx]

theorem Writing.append {e : SSTEntry} {key : Bytes}
    (hkey : e.key = storePrefix store ++ key) (hlt : ∀ last ∈ w.current.getLast?, last.stamp < e.stamp) :
    Writing store ⟨w.finished, w.current ++ [e]⟩ key ∧
      ((∀ last ∈ w.current.getLast?, last.key < e.key) → w.current ≠ [] →
        Writing store ⟨w.finished ++ [w.current], [e]⟩ key) := by
  have hstamp : ∀ x ∈ w.written, x.stamp < e.stamp := by
    intro x hx
    cases hlast : w.current.getLast? with
    | none =>
      have hnil := getLast?_eq_none_iff.mp hlast
      rw [SSTWriter.written, h.opened hnil, hnil] at hx
      cases hx
    | some last => exact (h.le_last hlast hx).trans_lt (hlt last hlast)
  have hsorted : (w.written ++ [e]).Pairwise fun a b => a.stamp < b.stamp := by
    refine pairwise_append.mpr ⟨h.sorted, pairwise_singleton _ _, fun x hx y hy => ?_⟩
    rw [mem_singleton.mp hy]
    exact hstamp x hx
  constructor
  · refine ⟨fun hnil => absurd hnil (by simp), ?_, ?_, ?_, h.finished⟩
    · intro x hx
      rw [getLast?_concat] at hx
      rw [← Option.mem_some.mp hx, hkey]
    · rw [SSTWriter.written, ← append_assoc]
      exact hsorted
    · intro x hx y hy
      rcases mem_append.mp hy with hy | hy
      · exact h.split x hx y hy
      · rw [mem_singleton.mp hy]
        cases hlast : w.current.getLast? with
        | none =>
          rw [h.opened (getLast?_eq_none_iff.mp hlast)] at hx
          cases hx
        | some last =>
          exact (h.split x hx last (mem_of_getLast? hlast)).trans_le
            (SSTEntry.key_le (hlt last hlast).le)
  · intro hne hcurrent
    refine ⟨fun hnil => (by cases hnil), ?_, ?_, ?_, ?_⟩
    · intro x hx
      cases hx
      exact hkey
    · rw [SSTWriter.written, flatten_concat]
      exact hsorted
    · intro x hx y hy
      rw [flatten_concat] at hx
      rw [mem_singleton.mp hy]
      cases hlast : w.current.getLast? with
      | none => exact absurd (getLast?_eq_none_iff.mp hlast) hcurrent
      | some last => exact (SSTEntry.key_le (h.le_last hlast hx)).trans_lt (hne last hlast)
    · refine pairwise_append.mpr ⟨h.finished, pairwise_singleton _ _, fun a ha b hb => ?_⟩
      rw [mem_singleton.mp hb]
      intro x hx
      exact h.split x (mem_flatten.mpr ⟨a, ha, hx⟩)

theorem Writing.key_lt_of_ne {last e : SSTEntry} {key : Bytes}
    (hlast : w.current.getLast? = some last) (hkey : e.key = storePrefix store ++ key)
    (hle : last.stamp ≤ e.stamp) (hne : lastKey ≠ key) : last.key < e.key ∧ last.stamp < e.stamp := by
  have hne : last.key ≠ e.key := by
    intro heq
    rw [h.last last hlast, hkey] at heq
    exact hne (append_cancel_left heq)
  have hklt := lt_of_le_of_ne (SSTEntry.key_le hle) hne
  refine ⟨hklt, ?_⟩
  rw [SSTEntry.stamp, SSTEntry.stamp, stamp_lt, if_pos hne]
  exact hklt

theorem Writing.writeItem (size : FileSize) (hsize : 0 < sstFileSize)
    {item : Bytes} (hdecode : (decodeSorterItem item).isSome)
    (hle : ∀ last ∈ w.current.getLast?, last.stamp ≤ (entryOfItem store item).stamp) :
    (∀ w' key, writeItem size store sstFileSize (w, lastKey) item = .ok (w', key) →
      Writing store w' key ∧ w'.written = w.written ++ [entryOfItem store item] ∧ w'.current ≠ []) ∧
    ((∀ last ∈ w.current.getLast?, last.stamp < (entryOfItem store item).stamp) →
      ∃ r, VersionDB.writeItem size store sstFileSize (w, lastKey) item = .ok r) := by
  obtain ⟨⟨ts, pair⟩, hitem⟩ := Option.isSome_iff_exists.mp hdecode
  have hentry : entryOfItem store item = entryOf store ts pair := by rw [entryOfItem, hitem]
  have hkey : (entryOf store ts pair).key = storePrefix store ++ pair.key := rfl
  rw [VersionDB.writeItem, hitem]
  simp only
  rw [hentry] at hle ⊢
  cases hlast : w.current.getLast? with
  | none =>
    -- the file has just been opened
    have hnil := getLast?_eq_none_iff.mp hlast
    have hno : ¬ (size.fileSize w.finished.length w.current ≥ sstFileSize ∧
        lastKey ≠ pair.key) := by
      rw [hnil, size.opened]
      omega
    rw [if_neg hno]
    simp only [SSTWriter.add, hlast]
    refine ⟨?_, fun _ => ⟨_, rfl⟩⟩
    intro w' key heq
    cases heq
    obtain ⟨happend, -⟩ := h.append hkey (fun last hl => by rw [hlast] at hl; cases hl)
    rw [hnil, nil_append] at happend
    refine ⟨happend, ?_, cons_ne_nil _ _⟩
    rw [SSTWriter.written, SSTWriter.written, hnil, append_nil]
  | some last =>
    have hle := hle last hlast
    by_cases hsplit : size.fileSize w.finished.length w.current ≥ sstFileSize ∧
        lastKey ≠ pair.key
    · have hcurrent : w.current ≠ [] := by
        intro hnil
        rw [hnil] at hlast
        cases hlast
      obtain ⟨hklt, hlt⟩ := h.key_lt_of_ne hlast hkey hle hsplit.2
      obtain ⟨-, hnew⟩ := h.append hkey (fun l hl => by rw [hlast] at hl; cases hl; exact hlt)
      rw [if_pos hsplit, SSTWriter.finish, if_neg hcurrent]
      simp only [SSTWriter.add, getLast?_nil]
      refine ⟨?_, fun _ => ⟨_, rfl⟩⟩
      intro w' key heq
      cases heq
      refine ⟨hnew (fun l hl => by rw [hlast] at hl; cases hl; exact hklt) hcurrent, ?_, cons_ne_nil _ _⟩
      rw [SSTWriter.written, flatten_concat]
      rfl
    · rw [if_neg hsplit]
      simp only [SSTWriter.add, hlast]
      constructor
      · intro w' key heq
        split_ifs at heq with hbefore
        · cases heq
          have hlt := SSTEntry.before_iff.mp hbefore
          obtain ⟨happend, -⟩ := h.append hkey (fun l hl => by rw [hlast] at hl; cases hl; exact hlt)
          refine ⟨happend, ?_, append_ne_nil_of_right_ne_nil _ (cons_ne_nil _ _)⟩
          rw [SSTWriter.written, ← append_assoc]
          rfl
      · intro hlt
        have hbefore : last.before (entryOf store ts pair) = true :=
          SSTEntry.before_iff.mpr (hlt last rfl)
        rw [if_pos hbefore]
        exact ⟨_, rfl⟩

/-- The entries of sorted items are written if and only if no two are equal in the order. -/
theorem Writing.writeItems (size : FileSize) (hsize : 0 < sstFileSize)
    {items : List Bytes} (hdecode : ∀ item ∈ items, (decodeSorterItem item).isSome)
    (hle : (w.written ++ items.map (entryOfItem store)).Pairwise fun a b => a.stamp ≤ b.stamp) :
    (∀ w' key, items.foldlM (VersionDB.writeItem size store sstFileSize) (w, lastKey) = .ok (w', key) →
      Writing store w' key ∧ w'.written = w.written ++ items.map (entryOfItem store) ∧
        (items ≠ [] → w'.current ≠ [])) ∧
    ((w.written ++ items.map (entryOfItem store)).Pairwise (fun a b => a.stamp < b.stamp) →
      ∃ r, items.foldlM (VersionDB.writeItem size store sstFileSize) (w, lastKey) = .ok r) := by
  induction items generalizing w lastKey with
  | nil =>
    refine ⟨fun w' key heq => ?_, fun _ => ⟨_, rfl⟩⟩
    cases heq
    exact ⟨h, (append_nil _).symm, fun hne => absurd rfl hne⟩
  | cons item items ih =>
    have hmem : ∀ last ∈ w.current.getLast?, last ∈ w.written := fun last hlast =>
      mem_append_right _ (mem_of_getLast? hlast)
    have hassoc : w.written ++ (item :: items).map (entryOfItem store) =
        w.written ++ [entryOfItem store item] ++ items.map (entryOfItem store) := by
      rw [map_cons, append_assoc, singleton_append]
    rw [hassoc] at hle ⊢
    have hfirst := (pairwise_append.mp (pairwise_append.mp hle).1).2.2
    obtain ⟨hitem, hdecode⟩ := forall_mem_cons.mp hdecode
    obtain ⟨hok, hex⟩ := h.writeItem size hsize hitem
      fun last hlast => hfirst last (hmem last hlast) _ mem_cons_self
    constructor
    · intro w' key heq
      rw [foldlM_cons] at heq
      cases hitem : VersionDB.writeItem size store sstFileSize (w, lastKey) item with
      | error e =>
        rw [hitem] at heq
        cases heq
      | ok r =>
        obtain ⟨w1, key1⟩ := r
        rw [hitem] at heq
        obtain ⟨h1, hwritten1, hcurrent1⟩ := hok w1 key1 hitem
        obtain ⟨ih1, -⟩ := ih h1 hdecode (hwritten1 ▸ hle)
        obtain ⟨h', hwritten, hcurrent⟩ := ih1 w' key heq
        refine ⟨h', by rw [hwritten, hwritten1], fun _ => ?_⟩
        cases items with
        | nil =>
          cases heq
          exact hcurrent1
        | cons i items => exact hcurrent (cons_ne_nil _ _)
    · intro hlt
      have hfirst := (pairwise_append.mp (pairwise_append.mp hlt).1).2.2
      obtain ⟨⟨w1, key1⟩, hitem⟩ := hex fun last hlast => hfirst last (hmem last hlast) _ mem_cons_self
      obtain ⟨h1, hwritten1, -⟩ := hok w1 key1 hitem
      obtain ⟨-, ih2⟩ := ih h1 hdecode (hwritten1 ▸ hle)
      rw [foldlM_cons, hitem]
      exact ih2 (hwritten1 ▸ hlt)

end

theorem writeSorted_spec (size : FileSize) (hsize : 0 < sstFileSize) {items : List Bytes} (hne : items ≠ [])
    (hdecode : ∀ item ∈ items, (decodeSorterItem item).isSome)
    (hle : (items.map (entryOfItem store)).Pairwise fun a b => a.stamp ≤ b.stamp) :
    (∀ ssts, writeSorted size store sstFileSize items = .ok ssts →
      (items.map (entryOfItem store)).Pairwise (fun a b => a.stamp < b.stamp)) ∧
    ((items.map (entryOfItem store)).Pairwise (fun a b => a.stamp < b.stamp) →
      ∃ ssts, writeSorted size store sstFileSize items = .ok ssts ∧
        ssts.flatten = items.map (entryOfItem store) ∧
        ssts.Pairwise fun a b => ∀ x ∈ a, ∀ y ∈ b, x.key ≠ y.key) := by
  obtain ⟨hok, hex⟩ := (Writing.new store).writeItems size hsize hdecode hle
  constructor
  · intro ssts heq
    rw [writeSorted] at heq
    cases hfold : items.foldlM (VersionDB.writeItem size store sstFileSize) (⟨[], []⟩, []) with
    | error e =>
      rw [hfold] at heq
      cases heq
    | ok r =>
      obtain ⟨w, key⟩ := r
      obtain ⟨hw, hwritten, -⟩ := hok w key hfold
      have hsorted := hw.sorted
      rw [hwritten] at hsorted
      exact hsorted
  · intro hlt
    obtain ⟨⟨w, key⟩, hfold⟩ := hex hlt
    obtain ⟨hw, hwritten, hcurrent⟩ := hok w key hfold
    refine ⟨w.finished ++ [w.current], ?_, ?_, ?_⟩
    · rw [writeSorted, hfold]
      simp only [SSTWriter.finish, if_neg (hcurrent hne)]
      rfl
    · rw [flatten_concat]
      exact hwritten
    · refine pairwise_append.mpr ⟨hw.finished.imp ?_, pairwise_singleton _ _, ?_⟩
      · intro a b hab x hx y hy
        exact (hab x hx y hy).ne
      · intro a ha b hb x hx y hy
        rw [mem_singleton.mp hb] at hy
        exact (hw.split x (mem_flatten.mpr ⟨a, ha, hx⟩) y hy).ne

end Writing

/-! ## What is fed -/

section Fed

def entriesOf (store : Name) (cs : Int × ChangeSet) : List SSTEntry :=
  cs.2.map (entryOf store (timestamp cs.1))

theorem foldl_writeEntry {db l : List SSTEntry} (h : (db ++ l).Pairwise fun a b => a.stamp ≠ b.stamp) :
    l.foldl writeEntry db = db ++ l := by
  induction l generalizing db with
  | nil => exact (append_nil db).symm
  | cons e l ih =>
    have hassoc : db ++ e :: l = db ++ [e] ++ l := by rw [append_assoc, singleton_append]
    rw [hassoc] at h
    have hfilter : db.filter (fun x => ¬ (x.key = e.key ∧ x.ts = e.ts)) = db := by
      refine filter_eq_self.mpr fun x hx => decide_eq_true fun ⟨hkey, hts⟩ => ?_
      refine (pairwise_append.mp (pairwise_append.mp h).1).2.2 x hx e mem_cons_self ?_
      rw [SSTEntry.stamp, SSTEntry.stamp, hkey, hts]
    rw [foldl_cons, writeEntry, hfilter, ih h, hassoc]

variable {l : List (Int × ChangeSet)}

theorem foldl_feedChangeSet (store : Name)
    (h : (l.flatMap (entriesOf store)).Pairwise fun a b => a.stamp ≠ b.stamp) :
    l.foldl (feedChangeSet store) [] = l.flatMap (entriesOf store) := by
  have hfold : ∀ db, l.foldl (feedChangeSet store) db = (l.flatMap (entriesOf store)).foldl writeEntry db := by
    intro db
    rw [foldl_flatMap]
    rfl
  rw [hfold, foldl_writeEntry h, nil_append]

def itemsOf (cs : Int × ChangeSet) : List Bytes := cs.2.map (encodeSorterItem (cs.1 % 2 ^ 64).toNat)

theorem readItems_eq {files : List FileWithVersion}
    (hread : ∀ f ∈ files, (fileChangeSets f.content).2 = .read .eof) (items : List Bytes) :
    readItems files items = .ok (items ++ (changeSetsOf files).flatMap itemsOf) := by
  have hfile : ∀ (l : List (Int × ChangeSet)) (items : List Bytes),
      iterateList .read (fun version changeSet items =>
        .ok (true, items ++ changeSet.map (encodeSorterItem (version % 2 ^ 64).toNat))) (.read .eof) l items =
      (.ok (items ++ l.flatMap itemsOf) : Except ConvertError (List Bytes)) := by
    intro l
    induction l with
    | nil =>
      intro items
      rw [iterateList, if_pos rfl, flatMap_nil, append_nil]
    | cons cs l ih =>
      intro items
      rw [iterateList]
      simp only [if_true]
      rw [ih, flatMap_cons, append_assoc]
      rfl
  induction files generalizing items with
  | nil =>
    rw [readItems, changeSetsOf, flatMap_nil, flatMap_nil, append_nil]
  | cons f files ih =>
    obtain ⟨hf, hread⟩ := forall_mem_cons.mp hread
    rw [readItems, iterateChangeSets_result, hf, hfile]
    simp only
    rw [ih hread, append_assoc, ← flatMap_append]
    rfl

theorem fileChangeSets_version {b : Bytes} {cs : Int × ChangeSet} (h : cs ∈ (fileChangeSets b).1) :
    -2 ^ 63 ≤ cs.1 ∧ cs.1 < 2 ^ 63 := by
  rw [fileChangeSets] at h
  generalize b.length + 1 = fuel at h
  induction fuel generalizing b with
  | zero => cases h
  | succ fuel ih =>
    rw [changeSetsFrom] at h
    cases hread : readParsed b with
    | error e =>
      rw [hread] at h
      cases h
    | ok r =>
      obtain ⟨version, changeSet, n, rest⟩ := r
      rw [hread] at h
      rcases mem_cons.mp h with rfl | h
      · obtain ⟨header, -, -, rfl⟩ := readParsed_version hread
        have hlt := readLE_take_lt 8 header
        rw [toInt64]
        split_ifs <;> omega
      · exact ih h

def keysAndVersions (l : List (Int × ChangeSet)) : List (Bytes × Int) :=
  l.flatMap fun cs => cs.2.map fun pair => (pair.key, cs.1)

theorem map_stamp_entriesOf (store : Name) (l : List (Int × ChangeSet)) :
    (l.flatMap (entriesOf store)).map SSTEntry.stamp =
      (keysAndVersions l).map fun kv => stamp (storePrefix store ++ kv.1) (readLE (timestamp kv.2)) := by
  rw [keysAndVersions, map_flatMap, map_flatMap]
  simp only [entriesOf, map_map]
  rfl

theorem nodup_stamps_iff (store : Name) (hl : ∀ cs ∈ l, -2 ^ 63 ≤ cs.1 ∧ cs.1 < 2 ^ 63) :
    ((l.flatMap (entriesOf store)).map SSTEntry.stamp).Nodup ↔ (keysAndVersions l).Nodup := by
  have hrange : ∀ kv ∈ keysAndVersions l, -2 ^ 63 ≤ kv.2 ∧ kv.2 < 2 ^ 63 := by
    intro kv hkv
    obtain ⟨cs, hcs, hkv⟩ := mem_flatMap.mp hkv
    obtain ⟨pair, -, rfl⟩ := mem_map.mp hkv
    exact hl cs hcs
  rw [map_stamp_entriesOf]
  refine ⟨fun h => h.of_map _, fun h => h.map_on fun x hx y hy heq => ?_⟩
  obtain ⟨hkey, hts⟩ := stamp_inj.mp heq
  obtain ⟨hx0, hx1⟩ := hrange x hx
  obtain ⟨hy0, hy1⟩ := hrange y hy
  have hversion : x.2 = y.2 := by
    simp only [timestamp, timestampSize, readLE_putLE] at hts
    omega
  exact Prod.ext (append_cancel_left hkey) hversion

theorem offsetsFit_of_sizeOfSorterItem {pair : KVPair} (h : sizeOfSorterItem pair ≤ maxUint32) :
    OffsetsFit pair := by
  simp only [sizeOfSorterItem, timestampSize, sizeKeyLength, maxUint32] at h
  unfold OffsetsFit timestampSize
  split_ifs at h ⊢ <;> omega

variable (store : Name) (hshort : ∀ cs ∈ l, ∀ pair ∈ cs.2, sizeOfSorterItem pair ≤ maxUint32)

include hshort

theorem map_entryOfItem :
    (l.flatMap itemsOf).map (entryOfItem store) = l.flatMap (entriesOf store) := by
  rw [map_flatMap]
  refine flatMap_congr fun cs hcs => ?_
  rw [itemsOf, entriesOf, map_map]
  refine map_congr_left fun pair hpair => ?_
  exact entryOfItem_encode store (offsetsFit_of_sizeOfSorterItem (hshort cs hcs pair hpair))

theorem exists_encode_of_mem {item : Bytes} (hitem : item ∈ l.flatMap itemsOf) :
    ∃ version pair, item = encodeSorterItem version pair ∧ OffsetsFit pair := by
  obtain ⟨cs, hcs, hitem⟩ := mem_flatMap.mp hitem
  obtain ⟨pair, hpair, rfl⟩ := mem_map.mp hitem
  exact ⟨_, pair, rfl, offsetsFit_of_sizeOfSorterItem (hshort cs hcs pair hpair)⟩

theorem pairwise_entryOfItem {out : List Bytes}
    (hperm : out.Perm (l.flatMap itemsOf)) (hsorted : out.Pairwise fun a b => compareSorterItem b a = false) :
    (out.map (entryOfItem store)).Pairwise fun a b => a.stamp ≤ b.stamp := by
  rw [pairwise_map]
  refine hsorted.imp_of_mem fun {a b} ha hb hab => ?_
  obtain ⟨v, p, rfl, hp⟩ := exists_encode_of_mem hshort (hperm.mem_iff.mp ha)
  obtain ⟨v', p', rfl, hp'⟩ := exists_encode_of_mem hshort (hperm.mem_iff.mp hb)
  rw [compareSorterItem_eq, decide_eq_false_iff_not, not_lt] at hab
  exact stamp_entryOfItem_le store hp hp' hab

end Fed

/-! ## The two ways -/

section Convert

variable {g : Goroutines compareSorterItem} {size : FileSize} {store : Name} {files : List Bytes}
  {sorted : List FileWithVersion} {sstFileSize : Nat} {l : List (Int × ChangeSet)}

/-- The sorter puts out entries in order, and they are those of the change sets. -/
theorem extSort_itemsOf (g : Goroutines compareSorterItem) (store : Name) (sorterChunkSize : Int)
    (hshort : ∀ cs ∈ l, ∀ pair ∈ cs.2, sizeOfSorterItem pair ≤ maxUint32) :
    ∃ out, extSort g sorterChunkSize (l.flatMap itemsOf) = .ok out ∧ out.length = (l.flatMap itemsOf).length ∧
      (∀ item ∈ out, (decodeSorterItem item).isSome) ∧
      (out.map (entryOfItem store)).Perm (l.flatMap (entriesOf store)) ∧
      (out.map (entryOfItem store)).Pairwise fun a b => a.stamp ≤ b.stamp := by
  have hlen : ∀ i ∈ l.flatMap itemsOf, i.length ≤ maxUint32 := by
    intro i hi
    obtain ⟨cs, hcs, hi⟩ := mem_flatMap.mp hi
    obtain ⟨pair, hpair, rfl⟩ := mem_map.mp hi
    rw [length_encodeSorterItem]
    exact hshort cs hcs pair hpair
  obtain ⟨out, hout, hperm, horder⟩ := extSort_spec strictWeak_compareSorterItem g sorterChunkSize hlen
  refine ⟨out, hout, hperm.length_eq, fun item hitem => ?_, ?_, pairwise_entryOfItem store hshort hperm horder⟩
  · obtain ⟨version, pair, rfl, hpair⟩ := exists_encode_of_mem hshort (hperm.mem_iff.mp hitem)
    rw [decodeSorterItem_encode hpair]
    rfl
  · rw [← map_entryOfItem store hshort]
    exact hperm.map _

/-- What is written is fed, if no two entries are equal in the order. Otherwise nothing is written. -/
theorem writeSorted_extSort (hsize : 0 < sstFileSize) {out : List Bytes} (hne : out ≠ [])
    (hdecode : ∀ item ∈ out, (decodeSorterItem item).isSome)
    (hperm : (out.map (entryOfItem store)).Perm (l.flatMap (entriesOf store)))
    (hle : (out.map (entryOfItem store)).Pairwise fun a b => a.stamp ≤ b.stamp) :
    (∃ ssts, writeSorted size store sstFileSize out = .ok ssts ∧
        ssts.flatten.Perm (l.foldl (feedChangeSet store) []) ∧
        ssts.Pairwise fun a b => ∀ x ∈ a, ∀ y ∈ b, x.key ≠ y.key) ↔
      ((l.flatMap (entriesOf store)).map SSTEntry.stamp).Nodup := by
  obtain ⟨hok, hex⟩ := writeSorted_spec size hsize hne hdecode hle
  rw [← (hperm.map SSTEntry.stamp).nodup_iff, List.Nodup, pairwise_map]
  constructor
  · rintro ⟨ssts, hwrite, -, -⟩
    exact (hok ssts hwrite).imp fun hlt => hlt.ne
  · intro hdistinct
    obtain ⟨ssts, hwrite, hflat, hsplit⟩ := hex ((hle.and hdistinct).imp fun h => lt_of_le_of_ne h.1 h.2)
    refine ⟨ssts, hwrite, ?_, hsplit⟩
    rw [hflat, foldl_feedChangeSet store]
    · exact hperm
    · exact hperm.pairwise hdistinct fun h => h.symm

theorem convertSingleStore_eq (hsorted : sortFilesByFirstVersion files = .ok sorted)
    (hread : ∀ f ∈ sorted, (fileChangeSets f.content).2 = .read .eof) (sorterChunkSize : Int) :
    convertSingleStore g size store files sstFileSize sorterChunkSize =
      if (changeSetsOf sorted).flatMap itemsOf = [] then .ok []
      else
        match extSort g sorterChunkSize ((changeSetsOf sorted).flatMap itemsOf) with
        | .error e => .error (.sorter e)
        | .ok items => writeSorted size store sstFileSize items := by
  rw [convertSingleStore, hsorted]
  simp only [readItems_eq hread, nil_append]

/-- The sst files hold what is left by feeding the change sets, and have no key in common, if and
only if no key occurs twice in a version and the items are short enough for the sorter. -/
theorem convertSingleStore_iff (g : Goroutines compareSorterItem) (size : FileSize) (store : Name)
    (hsorted : sortFilesByFirstVersion files = .ok sorted)
    (hread : ∀ f ∈ sorted, (fileChangeSets f.content).2 = .read .eof) (hsize : 0 < sstFileSize)
    (sorterChunkSize : Int) :
    (∃ ssts, convertSingleStore g size store files sstFileSize sorterChunkSize = .ok ssts ∧
        ssts.flatten.Perm ((changeSetsOf sorted).foldl (feedChangeSet store) []) ∧
        ssts.Pairwise fun a b => ∀ x ∈ a, ∀ y ∈ b, x.key ≠ y.key) ↔
      (keysAndVersions (changeSetsOf sorted)).Nodup ∧
        ∀ cs ∈ changeSetsOf sorted, ∀ pair ∈ cs.2, sizeOfSorterItem pair ≤ maxUint32 := by
  have hversions : ∀ cs ∈ changeSetsOf sorted, -2 ^ 63 ≤ cs.1 ∧ cs.1 < 2 ^ 63 := by
    intro cs hcs
    obtain ⟨f, -, hcs⟩ := mem_flatMap.mp hcs
    exact fileChangeSets_version hcs
  rw [convertSingleStore_eq hsorted hread, ← nodup_stamps_iff store hversions]
  generalize changeSetsOf sorted = l
  -- the items are short enough, or the sorter panics
  by_cases hshort : ∀ cs ∈ l, ∀ pair ∈ cs.2, sizeOfSorterItem pair ≤ maxUint32
  · rw [and_iff_left hshort]
    obtain ⟨out, hout, hlength, hdecode, hperm, hle⟩ := extSort_itemsOf g store sorterChunkSize hshort
    by_cases hnil : l.flatMap itemsOf = []
    · have hempty : l.flatMap (entriesOf store) = [] := by
        rw [← map_entryOfItem store hshort, hnil, map_nil]
      rw [if_pos hnil]
      refine iff_of_true ⟨[], rfl, ?_, .nil⟩ (by rw [hempty]; exact .nil)
      rw [foldl_feedChangeSet store (by rw [hempty]; exact .nil), hempty]
      exact .nil
    · have hne : out ≠ [] := by
        rintro rfl
        exact hnil (length_eq_zero_iff.mp hlength.symm)
      rw [if_neg hnil, hout]
      exact writeSorted_extSort hsize hne hdecode hperm hle
  · refine iff_of_false ?_ fun h => hshort h.2
    rintro ⟨ssts, hconvert, -, -⟩
    push Not at hshort
    obtain ⟨cs, hcs, pair, hpair, hlong⟩ := hshort
    have hitem : encodeSorterItem (cs.1 % 2 ^ 64).toNat pair ∈ l.flatMap itemsOf :=
      mem_flatMap.mpr ⟨cs, hcs, mem_map_of_mem hpair⟩
    obtain ⟨e, he⟩ := extSort_error g sorterChunkSize hitem (by rw [length_encodeSorterItem]; exact hlong)
    rw [if_neg (ne_nil_of_mem hitem), he] at hconvert
    cases hconvert

def setAndDeleted : Bytes :=
  writeChangeSet 1 [⟨false, [8], some [1]⟩, ⟨false, [7], some [2]⟩] ++ writeChangeSet 2 [⟨true, [8], none⟩]

theorem convertSingleStore_iff_setAndDeleted : ∃ ssts,
    convertSingleStore (.inOrder strictWeak_compareSorterItem) ⟨fun _ l => l.length, fun _ => rfl⟩ [98]
        [setAndDeleted] 1 20 = .ok ssts ∧
      ssts.flatten.Perm ((changeSetsOf [⟨setAndDeleted, 1⟩]).foldl (feedChangeSet [98]) []) ∧
      ssts.Pairwise fun a b => ∀ x ∈ a, ∀ y ∈ b, x.key ≠ y.key := by
  refine (convertSingleStore_iff _ _ _ ?_ ?_ Nat.one_pos 20).mpr ⟨?_, ?_⟩
  · decide +kernel
  · decide +kernel
  · decide +kernel
  · decide +kernel

def setTwice : Bytes := writeChangeSet 1 [⟨false, [7], some [1]⟩, ⟨false, [7], some [2]⟩]

/-- Feeding it leaves the last value, and the sst writer refuses it. -/
theorem exists_setTwice_refused :
    sortFilesByFirstVersion [setTwice] = .ok [⟨setTwice, 1⟩] ∧
      (∀ f ∈ [(⟨setTwice, 1⟩ : FileWithVersion)], (fileChangeSets f.content).2 = .read .eof) ∧
      convertSingleStore (.inOrder strictWeak_compareSorterItem) ⟨fun _ l => l.length, fun _ => rfl⟩ [98]
        [setTwice] 1 20 = .error .keyOrder ∧
      (changeSetsOf [⟨setTwice, 1⟩]).foldl (feedChangeSet [98]) [] =
        [⟨storePrefix [98] ++ [7], timestamp 1, some [2]⟩] := by
  refine ⟨?_, ?_, ?_, ?_⟩ <;> decide +kernel

end Convert

end CronosStore.VersionDB
