import CronosStore.Foundation.Decimal
import CronosStore.Foundation.IndexedLog
import CronosStore.Foundation.Search
import CronosStore.Foundation.SortedAssoc
import CronosStore.Memiavl.WALFiles

/-!
# Reading the log of another process

`readOnlyWAL` of `memiavl/wal.go` reads a log that another process may be writing. The log is in
segments, files that are named after the index of their first entry, with 20 digits. It loads the
last segment when it opens the log and others when an entry of them is read, of which it keeps one.
If the files hold the parts of a log, every sequence of reads gives the entries of the log
(`ReadOnlyWAL.Holds.readAll`).

A directory that is missing lists as an empty one.
-/

namespace CronosStore.Memiavl

open Foundation List

structure WALDir where
  entries : List (Bytes × Option Bytes)
  sorted : SortedAssoc.Sorted entries

inductive WALError
  | closed
  | notFound
  | corrupt
  | notExist
  | isDirectory
  | panic
deriving DecidableEq

def walStartSuffix : Bytes := [46, 83, 84, 65, 82, 84]

def walEndSuffix : Bytes := [46, 69, 78, 68]

def segmentName (index : Nat) : Bytes := padDecimal 20 index

def WALDir.readFile (d : WALDir) (path : Bytes) : Except WALError Bytes :=
  match d.entries.lookup path with
  | none => .error .notExist
  | some none => .error .isDirectory
  | some (some data) => .ok data

def WALDir.readSegment (d : WALDir) (path : Bytes) : Except WALError (List Bytes × Bool) :=
  let data := match d.readFile path with
    | .error .notExist =>
      if walStartSuffix.isSuffixOf path then d.readFile (path.take (path.length - walStartSuffix.length))
      else .error .notExist
    | r => r
  data.map readWALEntries

structure WALSegment where
  index : Nat
  path : Bytes
  entries : List Bytes
deriving DecidableEq

def parseSegment (name : Bytes) : Option (Nat × Bytes) :=
  if name.length < 20 then none
  else
    match parseUint (name.take 20) with
    | none => none
    | some index => if index ≥ 2 ^ 64 ∨ index = 0 then none else some (index, name.drop 20)

structure Listed where
  segments : List WALSegment
  hasStart : Bool
  hasEnd : Bool
deriving DecidableEq

def dropSame (segments : List WALSegment) (index : Nat) : List WALSegment :=
  match segments.getLast? with
  | none => segments
  | some last => if last.index = index then segments.dropLast else segments

def listStep (s : Listed) (entry : Bytes × Option Bytes) : Listed :=
  if entry.2.isNone then s
  else
    match parseSegment entry.1 with
    | none => s
    | some (index, suffix) =>
      let seg : WALSegment := ⟨index, entry.1, []⟩
      if suffix = [] then if s.hasEnd then s else { s with segments := s.segments ++ [seg] }
      -- every earlier segment is being removed
      else if suffix = walStartSuffix then { s with hasStart := true, segments := [seg] }
      else if suffix = walEndSuffix then
        -- it replaces the segment it was cut from, and later ones are being removed
        if s.hasEnd then s
        else { s with hasEnd := true, segments := dropSame s.segments index ++ [seg] }
      else s

def listWALSegments (d : WALDir) : Except WALError (List WALSegment) :=
  let s := d.entries.foldl listStep ⟨[], false, false⟩
  if s.hasStart && s.hasEnd then .error .corrupt else .ok s.segments

structure ReadOnlyWAL where
  segments : List WALSegment
  firstIndex : Nat
  lastIndex : Nat
  closed : Bool
  /-- The position of the segment that was read last, other than the tail. -/
  cached : Option Nat
deriving DecidableEq

def tryOpenReadOnlyWAL (d : WALDir) : Except WALError ReadOnlyWAL := do
  let segments ← listWALSegments d
  match segments.head?, segments.getLast? with
  | some first, some tail =>
    -- a torn last entry is one the writer has not finished
    let (entries, _) ← d.readSegment tail.path
    pure ⟨segments.dropLast ++ [{ tail with entries := entries }], first.index,
      (tail.index + entries.length - 1) % 2 ^ 64, false, none⟩
  | _, _ => pure ⟨segments, 0, 0, false, none⟩

/-- `openReadOnlyWAL`: three attempts, each on the directory as it is then. -/
def openReadOnlyWAL (d1 d2 d3 : WALDir) : Except WALError ReadOnlyWAL :=
  match tryOpenReadOnlyWAL d1 with
  | .error .notExist =>
    match tryOpenReadOnlyWAL d2 with
    | .error .notExist => tryOpenReadOnlyWAL d3
    | r => r
  | r => r

namespace ReadOnlyWAL

section

variable (l : ReadOnlyWAL)

def FirstIndex : Except WALError Nat :=
  if l.closed then .error .closed else if l.lastIndex = 0 then .ok 0 else .ok l.firstIndex

def LastIndex : Except WALError Nat :=
  if l.closed then .error .closed else .ok l.lastIndex

def setEntries (i : Nat) (entries : List Bytes) : ReadOnlyWAL :=
  { l with segments := l.segments.modify i fun seg => { seg with entries := entries } }

def cache (i : Nat) (entries : List Bytes) : ReadOnlyWAL :=
  let l := match l.cached with
    | none => l
    | some c => l.setEntries c []
  { l.setEntries i entries with cached := some i }

def entryAt (offset : Nat) (entries : List Bytes) :
    Except WALError Bytes × ReadOnlyWAL :=
  match entries[offset]? with
  | none => (.error .corrupt, l)
  | some entry => (.ok entry, l)

def read (d : WALDir) (index : Nat) : Except WALError Bytes × ReadOnlyWAL :=
  if l.closed then (.error .closed, l)
  else if index = 0 ∨ index < l.firstIndex ∨ l.lastIndex < index then (.error .notFound, l)
  else
    match search l.segments.length fun i => (l.segments[i]?).any fun seg => decide (index < seg.index) with
    | 0 => (.error .panic, l)
    | i + 1 =>
      match l.segments[i]? with
      | none => (.error .panic, l)
      | some seg =>
        if seg.entries = [] then
          match d.readSegment seg.path with
          | .error e => (.error e, l)
          -- only the tail can hold an entry that the writer is appending
          | .ok (_, true) => (.error .corrupt, l)
          | .ok (entries, false) => (l.cache i entries).entryAt (index - seg.index) entries
        else l.entryAt (index - seg.index) seg.entries

end

def readAll (l : ReadOnlyWAL) : List (WALDir × Nat) → List (Except WALError Bytes)
  | [] => []
  | (d, index) :: reads => (l.read d index).1 :: (l.read d index).2.readAll reads

/-! ## Reading segments -/

/-- The segments hold the parts of a log that starts at `start`; of some of them the entries are
loaded, and always those of the tail. -/
structure Holds (l : ReadOnlyWAL) (paths : List Bytes) (start : Nat) (parts : List (List Bytes)) : Prop where
  isOpen : l.closed = false
  length : l.segments.length = parts.length
  paths : l.segments.map WALSegment.path = paths
  index : ∀ (k : Nat) (seg : WALSegment), l.segments[k]? = some seg →
    seg.index = start + (parts.take k).flatten.length
  loaded : ∀ (k : Nat) (seg : WALSegment) (part : List Bytes), l.segments[k]? = some seg → parts[k]? = some part →
    seg.entries = [] ∨ seg.entries = part
  tail : ∀ (k : Nat) (seg : WALSegment) (part : List Bytes), k + 1 = parts.length →
    l.segments[k]? = some seg → parts[k]? = some part → seg.entries = part
  cached : ∀ c, l.cached = some c → c + 1 < parts.length
  first : parts ≠ [] → l.firstIndex = start
  last : l.lastIndex = start + parts.flatten.length - 1

variable {l : ReadOnlyWAL} {paths : List Bytes} {start : Nat} {parts : List (List Bytes)} {d : WALDir}

variable {i k : Nat} {part : List Bytes}

/-- Entries other than those of the tail may be changed between none and all of a part. -/
theorem Holds.setEntries (h : l.Holds paths start parts) {entries : List Bytes}
    (hi : i + 1 < parts.length) (hentries : entries = [] ∨ parts[i]? = some entries) :
    (l.setEntries i entries).Holds paths start parts := by
  have hget : ∀ k, (l.setEntries i entries).segments[k]? =
      (l.segments[k]?).map fun seg => if i = k then { seg with entries := entries } else seg := by
    intro k
    rw [ReadOnlyWAL.setEntries, getElem?_modify]
    cases l.segments[k]? with
    | none => rfl
    | some seg =>
      by_cases hk : i = k
      · simp [hk]
      · simp [hk]
  refine ⟨h.isOpen, ?_, ?_, fun k seg hk => ?_, fun k seg part hk hpart => ?_,
    fun k seg part hlast hk hpart => ?_, h.cached, h.first, h.last⟩
  · rw [ReadOnlyWAL.setEntries, length_modify, h.length]
  · rw [← h.paths]
    refine ext_getElem? fun k => ?_
    rw [getElem?_map, getElem?_map, hget, Option.map_map]
    congr 1
    funext seg
    simp only [Function.comp]
    split_ifs <;> rfl
  · rw [hget] at hk
    obtain ⟨seg', hseg', rfl⟩ := Option.map_eq_some_iff.mp hk
    rw [← h.index k seg' hseg']
    split_ifs <;> rfl
  · rw [hget] at hk
    obtain ⟨seg', hseg', rfl⟩ := Option.map_eq_some_iff.mp hk
    split_ifs with hik
    · subst hik
      rcases hentries with hnil | hall
      · exact .inl hnil
      · exact .inr (Option.some.inj (hall.symm.trans hpart))
    · exact h.loaded k seg' part hseg' hpart
  · rw [hget] at hk
    obtain ⟨seg', hseg', rfl⟩ := Option.map_eq_some_iff.mp hk
    rw [if_neg (by omega)]
    exact h.tail k seg' part hlast hseg' hpart

theorem Holds.cache (h : l.Holds paths start parts) (hi : i + 1 < parts.length)
    (hpart : parts[i]? = some part) : (l.cache i part).Holds paths start parts := by
  have hevict : (match l.cached with
      | none => l
      | some c => l.setEntries c []).Holds paths start parts := by
    cases hc : l.cached with
    | none => exact h
    | some c => exact h.setEntries (h.cached c hc) (.inl rfl)
  have hload := hevict.setEntries hi (.inr hpart)
  refine ⟨hload.isOpen, hload.length, hload.paths, hload.index, hload.loaded, hload.tail, fun c hc => ?_,
    hload.first, hload.last⟩
  cases hc
  exact hi

def Serves (d : WALDir) (paths : List Bytes) (parts : List (List Bytes)) : Prop :=
  ∀ (k : Nat) (path : Bytes) (part : List Bytes), k + 1 < parts.length → paths[k]? = some path →
    parts[k]? = some part → d.readSegment path = .ok (part, false)

/-- An entry of all parts is the one at its offset in its part. -/
theorem getElem?_flatten {parts : List (List Bytes)}
    (hpart : parts[k]? = some part) {offset : Nat} (hoffset : offset < part.length) :
    parts.flatten[(parts.take k).flatten.length + offset]? = part[offset]? := by
  obtain ⟨hk, rfl⟩ := List.getElem?_eq_some_iff.mp hpart
  have hsplit : parts.flatten = (parts.take k).flatten ++ (parts[k] ++ (parts.drop (k + 1)).flatten) := by
    conv_lhs => rw [← take_append_drop k parts, flatten_append, drop_eq_getElem_cons hk,
      flatten_cons]
  rw [hsplit, getElem?_append_right (by omega), Nat.add_sub_cancel_left,
    getElem?_append_left hoffset]

theorem length_flatten_take_succ {parts : List (List Bytes)} (hpart : parts[k]? = some part) :
    (parts.take (k + 1)).flatten.length = (parts.take k).flatten.length + part.length := by
  rw [take_add_one, hpart, flatten_append, length_append]
  simp

theorem length_flatten_take_le (parts : List (List Bytes)) (h : i ≤ k) :
    (parts.take i).flatten.length ≤ (parts.take k).flatten.length := by
  have hsplit : parts.take k = parts.take i ++ (parts.take k).drop i := by
    conv_lhs => rw [← take_append_drop i (parts.take k), take_take, Nat.min_eq_left h]
  rw [hsplit, flatten_append, length_append]
  omega

theorem Holds.search (h : l.Holds paths start parts) {index : Nat} (hparts : parts ≠ [])
    (hfirst : start ≤ index) (hlast : index < start + parts.flatten.length) :
    ∃ i seg part, Foundation.search l.segments.length
        (fun i => (l.segments[i]?).any fun seg => decide (index < seg.index)) = i + 1 ∧
      l.segments[i]? = some seg ∧ parts[i]? = some part ∧
      seg.index = start + (parts.take i).flatten.length ∧ seg.index ≤ index ∧
      index - seg.index < part.length := by
  have hsome : ∀ i < parts.length, ∃ seg, l.segments[i]? = some seg ∧
      seg.index = start + (parts.take i).flatten.length := fun i hi =>
    ⟨_, getElem?_eq_getElem (h.length ▸ hi), h.index i _ (getElem?_eq_getElem (h.length ▸ hi))⟩
  have hf : ∀ i < parts.length, ((l.segments[i]?).any fun seg => decide (index < seg.index)) =
      decide (index < start + (parts.take i).flatten.length) := by
    intro i hi
    obtain ⟨seg, hseg, hindex⟩ := hsome i hi
    rw [hseg, Option.any_some, hindex]
  have hspec := @search_spec (fun i => (l.segments[i]?).any fun seg => decide (index < seg.index))
    parts.length (fun i j hi hij hj => by
      rw [hf i (by omega), decide_eq_true_eq] at hi
      rw [hf j hj, decide_eq_true_eq]
      have := length_flatten_take_le parts hij
      omega)
  rw [h.length]
  obtain ⟨hle, hlow, hhigh⟩ := hspec
  generalize Foundation.search parts.length
    (fun i => (l.segments[i]?).any fun seg => decide (index < seg.index)) = n at hle hlow hhigh ⊢
  have hpos : 0 < parts.length := length_pos_iff.mpr hparts
  cases n with
  | zero =>
    have hzero := hhigh 0 le_rfl hpos
    rw [hf 0 hpos, decide_eq_true_eq] at hzero
    simp at hzero
    omega
  | succ i =>
    obtain ⟨seg, hseg, hindex⟩ := hsome i hle
    have hpart := getElem?_eq_getElem hle
    have hbelow := hlow i (Nat.lt_succ_self i)
    rw [hf i hle, decide_eq_false_iff_not] at hbelow
    refine ⟨i, seg, parts[i], rfl, hseg, hpart, hindex, by omega, ?_⟩
    have hnext := length_flatten_take_succ hpart
    rcases Nat.lt_or_ge (i + 1) parts.length with hlt | hge
    · have habove := hhigh (i + 1) le_rfl hlt
      rw [hf (i + 1) hlt, decide_eq_true_eq] at habove
      omega
    · rw [take_of_length_le hge] at hnext
      omega

def expected (start : Nat) (entries : List Bytes) (index : Nat) : Except WALError Bytes :=
  if index < start then .error .notFound
  else
    match entries[index - start]? with
    | none => .error .notFound
    | some entry => .ok entry

theorem Holds.read (h : l.Holds paths start parts) (hstart : 0 < start) (hempty : parts = [] → start = 1)
    (hserves : Serves d paths parts) (index : Nat) :
    (l.read d index).1 = expected start parts.flatten index ∧ (l.read d index).2.Holds paths start parts := by
  unfold ReadOnlyWAL.read
  rw [h.isOpen, if_neg Bool.false_ne_true]
  by_cases hrange : index = 0 ∨ index < l.firstIndex ∨ l.lastIndex < index
  · rw [if_pos hrange]
    refine ⟨?_, h⟩
    have hout : index < start ∨ parts.flatten.length ≤ index - start := by
      have hlast := h.last
      rcases hrange with rfl | hfirst | hlt
      · omega
      · by_cases hparts : parts = []
        · simp [hparts]
        · have := h.first hparts
          omega
      · omega
    unfold expected
    rcases hout with hlt | hge
    · rw [if_pos hlt]
    · rw [getElem?_eq_none hge]
      split_ifs <;> rfl
  · have hlast := h.last
    have hparts : parts ≠ [] := by
      rintro rfl
      have := hempty rfl
      simp at hlast
      omega
    have hfirst := h.first hparts
    obtain ⟨i, seg, part, hsearch, hseg, hpart, hindex, hle, hoffset⟩ :=
      h.search hparts (show start ≤ index by omega) (by omega)
    have hentry : expected start parts.flatten index = .ok part[index - seg.index] := by
      have hget := getElem?_flatten hpart hoffset
      rw [getElem?_eq_getElem hoffset, show (parts.take i).flatten.length + (index - seg.index) =
        index - start by omega] at hget
      rw [expected, if_neg (by omega), hget]
    have hdone : ∀ l' : ReadOnlyWAL, l'.Holds paths start parts →
        (l'.entryAt (index - seg.index) part).1 = expected start parts.flatten index ∧
          (l'.entryAt (index - seg.index) part).2.Holds paths start parts := by
      intro l' hl'
      rw [entryAt, getElem?_eq_getElem hoffset, hentry]
      exact ⟨rfl, hl'⟩
    have hne : part ≠ [] := by
      rintro rfl
      simp at hoffset
    simp only [if_neg hrange, hsearch, hseg]
    split_ifs with hnil
    · -- not the tail, which is loaded
      have hi : i + 1 < parts.length := by
        have hlt := (List.getElem?_eq_some_iff.mp hpart).1
        by_contra hge
        exact hne ((h.tail i seg part (by omega) hseg hpart).symm.trans hnil)
      have hpath : paths[i]? = some seg.path := by
        rw [← h.paths, getElem?_map, hseg]
        rfl
      rw [hserves i seg.path part hi hpath hpart]
      exact hdone _ (h.cache hi hpart)
    · have hall := (h.loaded i seg part hseg hpart).resolve_left hnil
      rw [hall]
      exact hdone l h

theorem Holds.readAll (h : l.Holds paths start parts) (hstart : 0 < start) (hempty : parts = [] → start = 1)
    {reads : List (WALDir × Nat)} (hserves : ∀ r ∈ reads, Serves r.1 paths parts) :
    l.readAll reads = reads.map fun r => expected start parts.flatten r.2 := by
  induction reads generalizing l with
  | nil => rfl
  | cons r reads ih =>
    obtain ⟨hr, hserves⟩ := forall_mem_cons.mp hserves
    obtain ⟨hfirst, hholds⟩ := h.read hstart hempty hr r.2
    rw [ReadOnlyWAL.readAll, map_cons, hfirst, ih hholds hserves]

end ReadOnlyWAL

end CronosStore.Memiavl
