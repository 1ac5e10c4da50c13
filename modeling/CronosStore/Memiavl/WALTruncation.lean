import CronosStore.Memiavl.ReadOnlyWAL

/-!
# The log while it is truncated

The writer cuts the front of the log by a file `i.START` with the entries from `i` on of its segment; it
removes the segments up to that one and renames the file to `i`. It cuts the back by a file `.END` with
the entries that stay of a segment, removes this segment and the later ones, and renames the file. In all
of these states the reader of `memiavl/wal.go` shows the log after the cut (`reads_truncated_log`): plain
names and those of the two files sort such that what is listed before a `.START` file and after an `.END`
file are just the segments that go.
-/

namespace CronosStore.Memiavl

open Foundation List SortedAssoc

def isSegmentName (name : Bytes) : Bool :=
  (parseSegment name).any fun p => decide (p.2 = [] ∨ p.2 = walStartSuffix ∨ p.2 = walEndSuffix)

variable {n m : Nat} {suffix : Bytes}

theorem parseSegment_segmentName (hpos : 0 < n) (hn : n < 2 ^ 64) (suffix : Bytes) :
    parseSegment (segmentName n ++ suffix) = some (n, suffix) := by
  have hlen : (segmentName n).length = 20 := length_padDecimal 20 n
  have hparse : parseUint (segmentName n) = some n := by
    have hdigits := parseDigits_padDecimal 20 0 n (by omega)
    rw [Nat.zero_mul, Nat.zero_add] at hdigits
    rw [parseUint, if_neg (ne_nil_of_length_pos (by omega))]
    exact hdigits
  rw [parseSegment, if_neg (by rw [length_append]; omega), take_left' hlen, hparse]
  simp only
  rw [if_neg (by omega), drop_left' hlen]

theorem isSegmentName_segmentName (hpos : 0 < n) (hn : n < 2 ^ 64)
    (hsuffix : suffix = [] ∨ suffix = walStartSuffix ∨ suffix = walEndSuffix) :
    isSegmentName (segmentName n ++ suffix) = true := by
  rw [isSegmentName, parseSegment_segmentName hpos hn]
  simpa using hsuffix

theorem segmentName_append_lt (h : m < n) (hn : n < 2 ^ 64) (s t : Bytes) :
    segmentName m ++ s < segmentName n ++ t :=
  append_lt_append_of_lt (padDecimal_lt 20 h (by omega)) (by simp) s t

theorem lt_append_suffix (name : Bytes) (h : suffix ≠ []) : name < name ++ suffix := by
  cases suffix with
  | nil => exact absurd rfl h
  | cons c suffix =>
    have hlt : name ++ [] < name ++ c :: suffix := append_left_lt (nil_lt_cons c suffix)
    rwa [append_nil] at hlt

theorem segmentName_lt (h : m < n) (hn : n < 2 ^ 64) : segmentName m < segmentName n := by
  have hlt := segmentName_append_lt h hn [] []
  rwa [append_nil, append_nil] at hlt

theorem segmentName_lt_suffix (h : m ≤ n) (hn : n < 2 ^ 64) (hs : suffix ≠ []) :
    segmentName m < segmentName n ++ suffix := by
  rcases h.lt_or_eq with hlt | rfl
  · have hname := segmentName_append_lt hlt hn [] suffix
    rwa [append_nil] at hname
  · exact lt_append_suffix _ hs

theorem suffix_lt_segmentName (h : m < n) (hn : n < 2 ^ 64) (suffix : Bytes) :
    segmentName m ++ suffix < segmentName n := by
  have hlt := segmentName_append_lt h hn suffix []
  rwa [append_nil] at hlt

/-! ## States of the directory -/

def content (part : List Bytes) (later : List (List Bytes)) (torn : Bytes) : Bytes :=
  encodeEntries part ++ if later = [] then torn else []

def plainFiles : Nat → List (List Bytes) → Bytes → List (Bytes × Option Bytes)
  | _, [], _ => []
  | start, part :: parts, torn =>
    (segmentName start, some (content part parts torn)) :: plainFiles (start + part.length) parts torn

/-- What the directory has under names of segments are just these files; there may be entries under
other names. -/
def WALDir.Lists (d : WALDir) (files : List (Bytes × Option Bytes)) : Prop :=
  ∀ entry : Bytes × Option Bytes, isSegmentName entry.1 = true → (entry ∈ d.entries ↔ entry ∈ files)

/-- A log that is split into segments. Only the last one may be empty. -/
structure SplitLog where
  log : IndexedLog Bytes
  parts : List (List Bytes)
  flatten_eq : parts.flatten = log.entries
  nonempty : ∀ part ∈ parts.dropLast, part ≠ []
  indices : log.lastIndex + 1 < 2 ^ 64
  lengths : ∀ entry ∈ log.entries, entry.length < 2 ^ 63

namespace SplitLog

def start (s : SplitLog) : Nat := s.log.dropped + 1

structure Cut (s : SplitLog) (i : Nat) where
  before : List (List Bytes)
  part : List Bytes
  later : List (List Bytes)
  split : s.parts = before ++ part :: later
  first : s.start + before.flatten.length ≤ i
  last : i < s.start + before.flatten.length + part.length

namespace Cut

variable {s : SplitLog} {i : Nat}

def index (c : s.Cut i) : Nat := s.start + c.before.flatten.length

def rest (c : s.Cut i) : List Bytes := c.part.drop (i - c.index)

def kept (c : s.Cut i) : List Bytes := c.part.take (i + 1 - c.index)

end Cut

inductive Writer (s : SplitLog)
  | idle
  | front (i : Nat) (cut : s.Cut i)
  | back (i : Nat) (cut : s.Cut i)

namespace Writer

variable {s : SplitLog}

def result : Writer s → Option (IndexedLog Bytes)
  | .idle => some s.log
  | .front i _ => s.log.truncateFront i
  | .back i _ => s.log.truncateBack i

/-- The directory while the writer is at it, before the file of the truncation is renamed to its final
name or after it. Any of the segments that are being removed may be left. -/
def Shows : Writer s → Bool → WALDir → Prop
  | .idle, _, d => ∃ torn, Stuck .binary torn ∧ d.Lists (plainFiles s.start s.parts torn)
  | .front i c, false, d => ∃ older oldTorn torn, Stuck .binary torn ∧
    older.Sublist (plainFiles s.start (c.before ++ [c.part]) oldTorn) ∧
    d.Lists (older ++ (segmentName i ++ walStartSuffix, some (content c.rest c.later torn)) ::
      plainFiles (c.index + c.part.length) c.later torn)
  | .front i c, true, d => ∃ torn, Stuck .binary torn ∧ d.Lists (plainFiles i (c.rest :: c.later) torn)
  | .back _ c, false, d => ∃ replaced later torn,
    replaced.Sublist [(segmentName c.index, some (content c.part c.later torn))] ∧
    later.Sublist (plainFiles (c.index + c.part.length) c.later torn) ∧
    d.Lists (plainFiles s.start c.before [] ++
      (replaced ++ (segmentName c.index ++ walEndSuffix, some (encodeEntries c.kept)) :: later))
  | .back _ c, true, d => ∃ torn, Stuck .binary torn ∧
    d.Lists (plainFiles s.start (c.before ++ [c.kept]) torn)

end Writer

end SplitLog

section Files

variable {start : Nat} {torn path : Bytes} {parts : List (List Bytes)} {d : WALDir}
    {files : List (Bytes × Option Bytes)} {s : Listed} {pairs : List (Bytes × List Bytes)}
    {part : List Bytes}

theorem mem_plainFiles {e : Bytes × Option Bytes}
    (h : e ∈ plainFiles start parts torn) : ∃ n c, e = (segmentName n, some c) ∧ start ≤ n ∧
      n ≤ start + parts.flatten.length ∧ (parts ≠ [] → (∀ part ∈ parts, part ≠ []) →
        n < start + parts.flatten.length) := by
  induction parts generalizing start with
  | nil => cases h
  | cons part parts ih =>
    rw [plainFiles] at h
    rcases mem_cons.mp h with rfl | h
    · refine ⟨start, _, rfl, le_rfl, Nat.le_add_right _ _, fun _ hne => ?_⟩
      have := length_pos_iff.mpr (hne part mem_cons_self)
      rw [flatten_cons, length_append]
      omega
    · obtain ⟨n, c, rfl, hle, hlast, hlt⟩ := ih h
      rw [flatten_cons, length_append]
      refine ⟨n, c, rfl, by omega, by omega, fun _ hne => ?_⟩
      have hparts : parts ≠ [] := by
        rintro rfl
        cases h
      have := hlt hparts fun p hp => hne p (mem_cons_of_mem _ hp)
      omega

theorem sorted_plainFiles (torn : Bytes)
    (hne : ∀ part ∈ parts.dropLast, part ≠ []) (hbound : start + parts.flatten.length < 2 ^ 64) :
    SortedAssoc.Sorted (plainFiles start parts torn) := by
  induction parts generalizing start with
  | nil => exact .nil
  | cons part parts ih =>
    rw [flatten_cons, length_append] at hbound
    rw [plainFiles]
    refine List.Pairwise.cons (fun e he => ?_) (ih (fun p hp => hne p ?_) (by omega))
    · obtain ⟨n, c, rfl, hle, hlast, -⟩ := mem_plainFiles he
      have hpart : part ≠ [] := by
        cases parts with
        | nil => cases he
        | cons p parts => exact hne part (by simp)
      have := length_pos_iff.mpr hpart
      exact segmentName_lt (by omega) (by omega)
    · cases parts with
      | nil => cases hp
      | cons q parts => exact mem_cons_of_mem _ hp

theorem WALDir.Lists.filter_eq (h : d.Lists files)
    (hsorted : SortedAssoc.Sorted files) (hfiles : ∀ e ∈ files, isSegmentName e.1 = true) :
    d.entries.filter (fun e => isSegmentName e.1) = files := by
  refine eq_of_lookup (d.sorted.filter _) hsorted fun name => ?_
  refine Option.ext fun c => ?_
  rw [lookup_eq_some_iff (d.sorted.filter _), lookup_eq_some_iff hsorted,
    mem_filter]
  constructor
  · rintro ⟨hmem, hseg⟩
    exact (h _ hseg).mp hmem
  · intro hmem
    exact ⟨(h _ (hfiles _ hmem)).mpr hmem, hfiles _ hmem⟩

def segmentsFrom : Nat → List (Bytes × List Bytes) → List WALSegment
  | _, [] => []
  | start, p :: pairs => ⟨start, p.1, []⟩ :: segmentsFrom (start + p.2.length) pairs

def plainPairs : Nat → List (List Bytes) → List (Bytes × List Bytes)
  | _, [] => []
  | start, part :: parts => (segmentName start, part) :: plainPairs (start + part.length) parts

theorem map_snd_plainPairs (start : Nat) (parts : List (List Bytes)) :
    (plainPairs start parts).map Prod.snd = parts := by
  induction parts generalizing start with
  | nil => rfl
  | cons part parts ih => rw [plainPairs, map_cons, ih]

theorem plainPairs_append (start : Nat) (a b : List (List Bytes)) :
    plainPairs start (a ++ b) = plainPairs start a ++ plainPairs (start + a.flatten.length) b := by
  induction a generalizing start with
  | nil => rfl
  | cons part a ih =>
    rw [cons_append, plainPairs, plainPairs, ih, flatten_cons, length_append,
      cons_append, Nat.add_assoc]

theorem listStep_segmentName (hpos : 0 < n) (hn : n < 2 ^ 64) (s : Listed) (suffix c : Bytes) :
    listStep s (segmentName n ++ suffix, some c) =
      if suffix = [] then
        if s.hasEnd then s else { s with segments := s.segments ++ [⟨n, segmentName n ++ suffix, []⟩] }
      else if suffix = walStartSuffix then
        { s with hasStart := true, segments := [⟨n, segmentName n ++ suffix, []⟩] }
      else if suffix = walEndSuffix then
        if s.hasEnd then s
        else { s with hasEnd := true, segments := dropSame s.segments n ++ [⟨n, segmentName n ++ suffix, []⟩] }
      else s := by
  rw [listStep, if_neg (by simp), parseSegment_segmentName hpos hn]

theorem listStep_plain (hpos : 0 < n) (hn : n < 2 ^ 64) (s : Listed) (c : Bytes) :
    listStep s (segmentName n, some c) =
      if s.hasEnd then s else { s with segments := s.segments ++ [⟨n, segmentName n, []⟩] } := by
  have h := listStep_segmentName hpos hn s [] c
  rwa [append_nil, if_pos rfl] at h

theorem listStep_of_not {entry : Bytes × Option Bytes} (h : isSegmentName entry.1 = false) :
    listStep s entry = s := by
  unfold isSegmentName at h
  unfold listStep
  by_cases hdir : entry.2.isNone = true
  · exact if_pos hdir
  · rw [if_neg hdir]
    cases hp : parseSegment entry.1 with
    | none => rfl
    | some p =>
      rw [hp] at h
      simp only [Option.any_some, decide_eq_false_iff_not, not_or] at h
      obtain ⟨h1, h2, h3⟩ := h
      simp only [if_neg h1, if_neg h2, if_neg h3]

theorem foldl_listStep_filter (entries : List (Bytes × Option Bytes)) (s : Listed) :
    entries.foldl listStep s = (entries.filter fun e => isSegmentName e.1).foldl listStep s := by
  induction entries generalizing s with
  | nil => rfl
  | cons e entries ih =>
    by_cases he : isSegmentName e.1 = true
    · rw [filter_cons, if_pos he, foldl_cons, foldl_cons, ih]
    · rw [filter_cons, if_neg he, foldl_cons, listStep_of_not (Bool.eq_false_iff.mpr he), ih]

theorem foldl_plainFiles (hend : s.hasEnd = false) (hstart : 0 < start)
    (hbound : start + parts.flatten.length < 2 ^ 64) (torn : Bytes) :
    (plainFiles start parts torn).foldl listStep s =
      { s with segments := s.segments ++ segmentsFrom start (plainPairs start parts) } := by
  induction parts generalizing start s with
  | nil => simp [plainFiles, plainPairs, segmentsFrom]
  | cons part parts ih =>
    rw [flatten_cons, length_append] at hbound
    rw [plainFiles, foldl_cons, listStep_plain hstart (by omega), hend, if_neg Bool.false_ne_true,
      ih rfl (by omega) (by omega), plainPairs, segmentsFrom]
    simp

theorem foldl_plain_flags
    (h : ∀ e ∈ files, ∃ n c, e = (segmentName n, some c) ∧ 0 < n ∧ n < 2 ^ 64) (s : Listed) :
    (files.foldl listStep s).hasStart = s.hasStart ∧ (files.foldl listStep s).hasEnd = s.hasEnd ∧
      (s.hasEnd = true → files.foldl listStep s = s) := by
  induction files generalizing s with
  | nil => exact ⟨rfl, rfl, fun _ => rfl⟩
  | cons e files ih =>
    obtain ⟨⟨n, c, rfl, hpos, hn⟩, hfiles⟩ := forall_mem_cons.mp h
    rw [foldl_cons, listStep_plain hpos hn]
    by_cases hend : s.hasEnd = true
    · rw [if_pos hend]
      exact ih hfiles s
    · rw [if_neg hend]
      obtain ⟨hstart, hend', -⟩ := ih hfiles { s with segments := s.segments ++ [⟨n, segmentName n, []⟩] }
      exact ⟨hstart, hend', fun ht => absurd ht hend⟩

theorem mem_segmentsFrom_plainPairs {seg : WALSegment}
    (h : seg ∈ segmentsFrom start (plainPairs start parts)) (hne : ∀ part ∈ parts, part ≠ []) :
    seg.index < start + parts.flatten.length := by
  induction parts generalizing start with
  | nil => cases h
  | cons part parts ih =>
    rw [plainPairs, segmentsFrom] at h
    rw [flatten_cons, length_append]
    obtain ⟨hpart, hne⟩ := forall_mem_cons.mp hne
    have := length_pos_iff.mpr hpart
    rcases mem_cons.mp h with rfl | h
    · simp only
      omega
    · have hlt := ih h hne
      simp only at hlt
      omega

theorem dropSame_of_ne {segments : List WALSegment} (h : ∀ seg ∈ segments, seg.index ≠ n) :
    dropSame segments n = segments := by
  unfold dropSame
  cases hlast : segments.getLast? with
  | none => rfl
  | some seg => exact if_neg (h seg (mem_of_getLast? hlast))

theorem dropSame_append (segments : List WALSegment) {seg : WALSegment} (h : seg.index = n) :
    dropSame (segments ++ [seg]) n = segments := by
  simp [dropSame, h]

theorem segmentsFrom_append (start : Nat) (a b : List (Bytes × List Bytes)) :
    segmentsFrom start (a ++ b) =
      segmentsFrom start a ++ segmentsFrom (start + (a.map Prod.snd).flatten.length) b := by
  induction a generalizing start with
  | nil => simp [segmentsFrom]
  | cons p a ih =>
    rw [cons_append, segmentsFrom, segmentsFrom, ih, map_cons, flatten_cons,
      length_append, cons_append, Nat.add_assoc]

structure WALDir.Readable (d : WALDir) (pairs : List (Bytes × List Bytes)) : Prop where
  exact : ∀ p ∈ pairs.dropLast, d.readSegment p.1 = .ok (p.2, false)
  last : ∀ p, pairs.getLast? = some p → ∃ torn, d.readSegment p.1 = .ok (p.2, torn)

theorem serves_of_exact (h : ∀ p ∈ pairs.dropLast, d.readSegment p.1 = .ok (p.2, false)) :
    ReadOnlyWAL.Serves d (pairs.map Prod.fst) (pairs.map Prod.snd) := by
  intro k path part hk hpath hpart
  rw [length_map] at hk
  rw [getElem?_map] at hpath hpart
  obtain ⟨p, hp, rfl⟩ := Option.map_eq_some_iff.mp hpath
  rw [hp] at hpart
  cases hpart
  refine h p (mem_of_getElem? (i := k) ?_)
  rw [getElem?_dropLast, if_pos (by omega), hp]

theorem getElem?_segmentsFrom {k : Nat} :
    (segmentsFrom start pairs)[k]? =
      (pairs[k]?).map fun p => ⟨start + ((pairs.map Prod.snd).take k).flatten.length, p.1, []⟩ := by
  induction pairs generalizing start k with
  | nil => rfl
  | cons p pairs ih =>
    rw [segmentsFrom]
    cases k with
    | zero => simp
    | succ k =>
      rw [getElem?_cons_succ, getElem?_cons_succ, ih]
      simp only [map_cons, take_succ_cons, flatten_cons, length_append, Nat.add_assoc]

theorem length_segmentsFrom (start : Nat) (pairs : List (Bytes × List Bytes)) :
    (segmentsFrom start pairs).length = pairs.length := by
  induction pairs generalizing start with
  | nil => rfl
  | cons p pairs ih => rw [segmentsFrom, length_cons, length_cons, ih]

def tailLoaded (start : Nat) (init : List (Bytes × List Bytes)) (p : Bytes × List Bytes) : List WALSegment :=
  segmentsFrom start init ++ [⟨start + (init.map Prod.snd).flatten.length, p.1, p.2⟩]

theorem getElem?_tailLoaded (start : Nat) (init : List (Bytes × List Bytes)) (p : Bytes × List Bytes)
    (k : Nat) :
    (tailLoaded start init p)[k]? = ((init ++ [p])[k]?).map fun q =>
      ⟨start + (((init ++ [p]).map Prod.snd).take k).flatten.length, q.1,
        if k = init.length then q.2 else []⟩ := by
  unfold tailLoaded
  rcases Nat.lt_trichotomy k init.length with hk | rfl | hk
  · rw [getElem?_append_left (by rw [length_segmentsFrom]; exact hk), getElem?_segmentsFrom,
      getElem?_append_left hk, map_append,
      take_append_of_le_length (by rw [length_map]; exact hk.le)]
    simp only [if_neg hk.ne]
  · rw [getElem?_append_right (by rw [length_segmentsFrom]), length_segmentsFrom, Nat.sub_self]
    simp
  · rw [getElem?_eq_none (by simp [length_segmentsFrom]; omega),
      getElem?_eq_none (by simp; omega)]
    rfl

theorem tryOpenReadOnlyWAL_concat {init : List (Bytes × List Bytes)}
    {p : Bytes × List Bytes} (hlist : listWALSegments d = .ok (segmentsFrom start (init ++ [p])))
    (hread : d.Readable (init ++ [p])) :
    tryOpenReadOnlyWAL d = .ok ⟨tailLoaded start init p, start,
      (start + (init.map Prod.snd).flatten.length + p.2.length - 1) % 2 ^ 64, false, none⟩ := by
  obtain ⟨torn, htail⟩ := hread.last p (by simp)
  have hsegs : segmentsFrom start (init ++ [p]) = segmentsFrom start init ++
      [⟨start + (init.map Prod.snd).flatten.length, p.1, []⟩] := segmentsFrom_append _ _ _
  obtain ⟨first, hfirst, hindex⟩ : ∃ first, (segmentsFrom start (init ++ [p])).head? = some first ∧
      first.index = start := by
    cases init with
    | nil => exact ⟨_, rfl, rfl⟩
    | cons q init => exact ⟨_, rfl, rfl⟩
  have hlast : (segmentsFrom start (init ++ [p])).getLast? =
      some ⟨start + (init.map Prod.snd).flatten.length, p.1, []⟩ := by
    rw [hsegs, getLast?_append]
    rfl
  rw [tryOpenReadOnlyWAL, hlist]
  simp only [Results.ok_bind, hfirst, hlast, htail, hindex]
  rw [hsegs, dropLast_concat]
  rfl

theorem open_holds
    (hempty : pairs = [] → start = 1) (hbound : start + (pairs.map Prod.snd).flatten.length < 2 ^ 64)
    (hlist : listWALSegments d = .ok (segmentsFrom start pairs)) (hread : d.Readable pairs) :
    ∃ l, tryOpenReadOnlyWAL d = .ok l ∧ l.Holds (pairs.map Prod.fst) start (pairs.map Prod.snd) := by
  rcases eq_nil_or_concat' pairs with rfl | ⟨init, p, rfl⟩
  · have hone := hempty rfl
    refine ⟨⟨[], 0, 0, false, none⟩, by rw [tryOpenReadOnlyWAL, hlist]; rfl, rfl, rfl, rfl, ?_, ?_, ?_, ?_,
      fun hne => absurd rfl hne, ?_⟩
    · intro k seg hk
      cases hk
    · intro k seg part hk
      cases hk
    · intro k seg part _ hk
      cases hk
    · intro c hc
      cases hc
    · simp [hone]
  · have hget := getElem?_tailLoaded start init p
    have hlength : (tailLoaded start init p).length = (init ++ [p]).length := by
      simp [tailLoaded, length_segmentsFrom]
    refine ⟨_, tryOpenReadOnlyWAL_concat hlist hread, rfl, by rw [hlength, length_map], ?_,
      fun k seg hk => ?_, fun k seg part hk hpart => ?_, fun k seg part htl hk hpart => ?_, fun c hc => ?_,
      fun _ => rfl, ?_⟩
    · refine ext_getElem? fun k => ?_
      rw [getElem?_map, getElem?_map, hget, Option.map_map]
      rfl
    · rw [hget] at hk
      obtain ⟨q, -, rfl⟩ := Option.map_eq_some_iff.mp hk
      rfl
    · rw [hget] at hk
      rw [getElem?_map] at hpart
      obtain ⟨q, hq, rfl⟩ := Option.map_eq_some_iff.mp hk
      rw [hq] at hpart
      cases hpart
      split_ifs
      · exact .inr rfl
      · exact .inl rfl
    · rw [hget] at hk
      rw [getElem?_map] at hpart
      obtain ⟨q, hq, rfl⟩ := Option.map_eq_some_iff.mp hk
      rw [hq] at hpart
      cases hpart
      exact if_pos (by simpa using htl)
    · cases hc
    · have hflat : ((init ++ [p]).map Prod.snd).flatten.length =
          (init.map Prod.snd).flatten.length + p.2.length := by simp
      rw [hflat] at hbound ⊢
      show (start + (init.map Prod.snd).flatten.length + p.2.length - 1) % 2 ^ 64 = _
      rw [Nat.mod_eq_of_lt (by omega), Nat.add_assoc]

theorem WALDir.readFile_of_mem {c : Bytes} (h : (path, some c) ∈ d.entries) :
    d.readFile path = .ok c := by
  rw [readFile, (lookup_eq_some_iff d.sorted).mpr h]

theorem readWALEntries_append (hlen : ∀ e ∈ part, e.length < 2 ^ 63) (htorn : Stuck .binary torn) :
    readWALEntries (encodeEntries part ++ torn) = (part, decide (torn ≠ [])) :=
  (readLoop_ends (fun e he => lt_trans (hlen e he) (by decide)) htorn []).result_eq

theorem WALDir.readSegment_of_mem
    (h : (path, some (encodeEntries part ++ torn)) ∈ d.entries) (hlen : ∀ e ∈ part, e.length < 2 ^ 63)
    (htorn : Stuck .binary torn) : d.readSegment path = .ok (part, decide (torn ≠ [])) := by
  rw [readSegment, readFile_of_mem h]
  exact congrArg Except.ok (readWALEntries_append hlen htorn)

theorem WALDir.readSegment_renamed {name : Bytes}
    (hgone : ∀ c, (name ++ walStartSuffix, c) ∉ d.entries)
    (h : (name, some (encodeEntries part ++ torn)) ∈ d.entries) (hlen : ∀ e ∈ part, e.length < 2 ^ 63)
    (htorn : Stuck .binary torn) :
    d.readSegment (name ++ walStartSuffix) = .ok (part, decide (torn ≠ [])) := by
  have hnone : d.readFile (name ++ walStartSuffix) = .error .notExist := by
    rw [readFile]
    cases hlookup : d.entries.lookup (name ++ walStartSuffix) with
    | none => rfl
    | some c => exact absurd ((lookup_eq_some_iff d.sorted).mp hlookup) (hgone c)
  have htrim : (name ++ walStartSuffix).take ((name ++ walStartSuffix).length - walStartSuffix.length) =
      name := take_left' (by rw [length_append]; omega)
  rw [readSegment, hnone]
  simp only [htrim, readFile_of_mem h]
  rw [if_pos (isSuffixOf_iff_suffix.mpr (suffix_append _ _))]
  exact congrArg Except.ok (readWALEntries_append hlen htorn)

theorem readable_cons (hfirst : (path, some (content part parts torn)) ∈ d.entries)
    (hpart : ∀ e ∈ part, e.length < 2 ^ 63) (htorn : Stuck .binary torn)
    (h : d.Readable (plainPairs n parts)) : d.Readable ((path, part) :: plainPairs n parts) := by
  cases parts with
  | nil =>
    refine ⟨fun p hp => absurd hp not_mem_nil, fun p hp => ?_⟩
    cases hp
    exact ⟨_, WALDir.readSegment_of_mem hfirst hpart htorn⟩
  | cons q parts =>
    refine ⟨fun p hp => ?_, fun p hp => h.last p hp⟩
    rcases mem_cons.mp hp with rfl | hp
    · exact WALDir.readSegment_of_mem hfirst hpart (.inl rfl)
    · exact h.exact p hp

theorem readable_plainFiles (h : ∀ e ∈ plainFiles start parts torn, e ∈ d.entries)
    (hlen : ∀ e ∈ parts.flatten, e.length < 2 ^ 63) (htorn : Stuck .binary torn) :
    d.Readable (plainPairs start parts) := by
  induction parts generalizing start with
  | nil => exact ⟨fun p hp => absurd hp not_mem_nil, fun p hp => absurd hp (by simp [plainPairs])⟩
  | cons part parts ih =>
    obtain ⟨hfirst, hrest⟩ := forall_mem_cons.mp h
    rw [flatten_cons] at hlen
    exact readable_cons hfirst (fun e he => hlen e (mem_append_left _ he)) htorn
      (ih hrest fun e he => hlen e (mem_append_right _ he))

theorem exact_plainFiles
    (h : ∀ e ∈ plainFiles start parts [], e ∈ d.entries) (hlen : ∀ e ∈ parts.flatten, e.length < 2 ^ 63) :
    ∀ p ∈ plainPairs start parts, d.readSegment p.1 = .ok (p.2, false) := by
  induction parts generalizing start with
  | nil => exact fun p hp => absurd hp not_mem_nil
  | cons part parts ih =>
    obtain ⟨hfirst, hrest⟩ := forall_mem_cons.mp h
    rw [flatten_cons] at hlen
    rw [content, ite_self] at hfirst
    refine forall_mem_cons.mpr ⟨?_, ih hrest fun e he => hlen e (mem_append_right _ he)⟩
    exact WALDir.readSegment_of_mem hfirst (fun e he => hlen e (mem_append_left _ he)) (.inl rfl)

theorem expected_eq_read (log : IndexedLog Bytes) (index : Nat) :
    ReadOnlyWAL.expected (log.dropped + 1) log.entries index =
      match log.read index with
      | some entry => .ok entry
      | none => .error .notFound := by
  unfold ReadOnlyWAL.expected IndexedLog.read
  by_cases hle : index ≤ log.dropped
  · rw [if_pos (by omega), if_pos hle]
  · rw [if_neg (by omega), if_neg hle, Nat.sub_sub]
    cases log.entries[index - (log.dropped + 1)]? <;> rfl

theorem listWALSegments_eq (h : d.Lists files)
    (hsorted : SortedAssoc.Sorted files) (hfiles : ∀ e ∈ files, isSegmentName e.1 = true)
    (hs : files.foldl listStep ⟨[], false, false⟩ = s) :
    listWALSegments d = if s.hasStart && s.hasEnd then .error .corrupt else .ok s.segments := by
  rw [listWALSegments, foldl_listStep_filter, h.filter_eq hsorted hfiles, hs]

theorem isSegmentName_plainFiles
    (hstart : 0 < start) (hbound : start + parts.flatten.length < 2 ^ 64) :
    ∀ e ∈ plainFiles start parts torn, isSegmentName e.1 = true := by
  intro e he
  obtain ⟨n, c, rfl, hle, hlast, -⟩ := mem_plainFiles he
  have hname := isSegmentName_segmentName (show 0 < n by omega) (by omega) (.inl rfl)
  rwa [append_nil] at hname

theorem listWALSegments_plain (h : d.Lists (plainFiles start parts torn)) (hstart : 0 < start)
    (hbound : start + parts.flatten.length < 2 ^ 64) (hne : ∀ part ∈ parts.dropLast, part ≠ []) :
    listWALSegments d = .ok (segmentsFrom start (plainPairs start parts)) := by
  rw [listWALSegments_eq h (sorted_plainFiles torn hne hbound) (isSegmentName_plainFiles hstart hbound)
    (foldl_plainFiles rfl hstart hbound torn)]
  simp

end Files

namespace SplitLog

variable {s : SplitLog} {i : Nat}

theorem start_pos (s : SplitLog) : 0 < s.start := Nat.succ_pos _

theorem bound (s : SplitLog) : s.start + s.parts.flatten.length < 2 ^ 64 := by
  have := s.indices
  rw [IndexedLog.lastIndex, ← s.flatten_eq] at this
  rw [start]
  omega

theorem lengths_parts (s : SplitLog) : ∀ e ∈ s.parts.flatten, e.length < 2 ^ 63 := by
  rw [s.flatten_eq]
  exact s.lengths

namespace Cut

section

variable (c : s.Cut i)
include c

theorem flatten_eq :
    s.parts.flatten = c.before.flatten ++ (c.part ++ c.later.flatten) := by
  rw [c.split, flatten_append, flatten_cons]

theorem length_eq :
    s.parts.flatten.length = c.before.flatten.length + c.part.length + c.later.flatten.length := by
  rw [c.flatten_eq, length_append, length_append, Nat.add_assoc]

theorem before_nonempty : ∀ part ∈ c.before, part ≠ [] := by
  intro part hpart
  refine s.nonempty part ?_
  rw [c.split, dropLast_append_of_ne_nil (cons_ne_nil _ _)]
  exact mem_append_left _ hpart

theorem later_nonempty : ∀ part ∈ c.later.dropLast, part ≠ [] := by
  intro part hpart
  refine s.nonempty part ?_
  rw [c.split, dropLast_append_of_ne_nil (cons_ne_nil _ _)]
  cases hl : c.later with
  | nil =>
    rw [hl] at hpart
    cases hpart
  | cons q later =>
    rw [hl] at hpart
    exact mem_append_right _ (mem_cons_of_mem _ hpart)

theorem inRange : s.log.InRange i := by
  have hlen := c.length_eq
  rw [s.flatten_eq] at hlen
  have hfirst := c.first
  have hlast := c.last
  rw [start] at hfirst hlast
  rw [IndexedLog.inRange_iff, IndexedLog.lastIndex]
  omega

theorem length_rest : i + c.rest.length = c.index + c.part.length := by
  have hfirst := c.first
  have hlast := c.last
  rw [rest, length_drop, index]
  omega

theorem length_kept : c.index + c.kept.length = i + 1 := by
  have hfirst := c.first
  have hlast := c.last
  rw [kept, length_take, index]
  omega

end

end Cut

namespace Writer

def first : Writer s → Nat
  | .idle => s.start
  | .front i _ => i
  | .back _ _ => s.start

def parts : Writer s → List (List Bytes)
  | .idle => s.parts
  | .front _ c => c.rest :: c.later
  | .back _ c => c.before ++ [c.kept]

def pairs : Writer s → Bool → List (Bytes × List Bytes)
  | .front i c, false =>
    (segmentName i ++ walStartSuffix, c.rest) :: plainPairs (c.index + c.part.length) c.later
  | .back _ c, false => plainPairs s.start c.before ++ [(segmentName c.index ++ walEndSuffix, c.kept)]
  | w, _ => plainPairs w.first w.parts

theorem map_snd_pairs (w : Writer s) (renamed : Bool) : (w.pairs renamed).map Prod.snd = w.parts := by
  cases w with
  | idle => exact map_snd_plainPairs _ _
  | front i c =>
    cases renamed with
    | false => simp only [pairs, parts, map_cons, map_snd_plainPairs]
    | true => exact map_snd_plainPairs _ _
  | back i c =>
    cases renamed with
    | false => simp only [pairs, parts, map_append, map_snd_plainPairs, map_cons, map_nil]
    | true => exact map_snd_plainPairs _ _

theorem result_eq (w : Writer s) : ∃ log, w.result = some log ∧ log.dropped + 1 = w.first ∧
    log.entries = w.parts.flatten := by
  cases w with
  | idle => exact ⟨s.log, rfl, rfl, s.flatten_eq.symm⟩
  | front i c =>
    have hrange := c.inRange
    refine ⟨_, dif_pos hrange, ?_, ?_⟩
    · have := hrange.1
      simp only [first]
      omega
    · have hfirst := c.first
      have hlast := c.last
      have hdrop : i - 1 - s.log.dropped = c.before.flatten.length + (i - c.index) := by
        rw [Cut.index]
        rw [start] at *
        omega
      have hle : i - c.index ≤ c.part.length := by
        rw [Cut.index]
        omega
      simp only [parts, flatten_cons, Cut.rest]
      rw [← s.flatten_eq, c.flatten_eq, hdrop, drop_length_add_append,
        drop_append_of_le_length hle]
  | back i c =>
    refine ⟨_, dif_pos c.inRange, rfl, ?_⟩
    have hfirst := c.first
    have hlast := c.last
    have htake : i - s.log.dropped = c.before.flatten.length + (i + 1 - c.index) := by
      rw [Cut.index]
      rw [start] at *
      omega
    have hle : i + 1 - c.index ≤ c.part.length := by
      rw [Cut.index]
      omega
    simp only [parts, flatten_append, Cut.kept]
    rw [← s.flatten_eq, c.flatten_eq, htake, take_length_add_append,
      take_append_of_le_length hle]
    simp

end Writer

end SplitLog

theorem SplitLog.Cut.mem_older {s : SplitLog} {i : Nat} (c : s.Cut i) {torn : Bytes}
    {e : Bytes × Option Bytes} (h : e ∈ plainFiles s.start (c.before ++ [c.part]) torn) :
    ∃ n content, e = (segmentName n, some content) ∧ 0 < n ∧ n ≤ c.index := by
  have hbefore : ∀ (start : Nat) (before : List (List Bytes)), 0 < start →
      e ∈ plainFiles start (before ++ [c.part]) torn →
      ∃ n content, e = (segmentName n, some content) ∧ 0 < n ∧ n ≤ start + before.flatten.length := by
    intro start before hstart he
    induction before generalizing start with
    | nil =>
      rw [nil_append, plainFiles, plainFiles, mem_singleton] at he
      exact ⟨start, _, he, hstart, Nat.le_add_right _ _⟩
    | cons part before ih =>
      rw [cons_append, plainFiles] at he
      rw [flatten_cons, length_append]
      rcases mem_cons.mp he with rfl | he
      · exact ⟨start, _, rfl, hstart, Nat.le_add_right _ _⟩
      · obtain ⟨n, content, heq, hpos, hle⟩ := ih (start + part.length) (by omega) he
        exact ⟨n, content, heq, hpos, by omega⟩
  exact hbefore s.start c.before s.start_pos h

namespace SplitLog

variable {s : SplitLog} {i : Nat} {d : WALDir}

namespace Cut

theorem index_le (c : s.Cut i) : c.index ≤ i ∧ i < c.index + c.part.length ∧ 0 < c.index ∧
    c.index + c.part.length + c.later.flatten.length < 2 ^ 64 := by
  have hfirst := c.first
  have hlast := c.last
  have hbound := s.bound
  have hstart := s.start_pos
  rw [c.length_eq] at hbound
  rw [index]
  omega

theorem bound_older (c : s.Cut i) : s.start + (c.before ++ [c.part]).flatten.length < 2 ^ 64 := by
  have hbound := c.index_le.2.2.2
  rw [index] at hbound
  rw [flatten_append, length_append]
  simp only [flatten_cons, flatten_nil, append_nil]
  omega

variable {older : List (Bytes × Option Bytes)} {oldTorn torn : Bytes}

section

variable (c : s.Cut i)
include c

theorem sorted_front (torn : Bytes)
    (holder : older.Sublist (plainFiles s.start (c.before ++ [c.part]) oldTorn)) :
    SortedAssoc.Sorted (older ++ (segmentName i ++ walStartSuffix, some (content c.rest c.later torn)) ::
      plainFiles (c.index + c.part.length) c.later torn) := by
  obtain ⟨hle, hlt, hpos, hbound⟩ := c.index_le
  refine sorted_append.mpr ⟨?_, List.Pairwise.cons (fun e he => ?_)
    (sorted_plainFiles torn c.later_nonempty hbound), fun a ha b hb => ?_⟩
  · refine (sorted_plainFiles oldTorn ?_ c.bound_older).sublist holder
    rw [dropLast_concat]
    exact c.before_nonempty
  · obtain ⟨n, _, rfl, hn, hn', -⟩ := mem_plainFiles he
    exact suffix_lt_segmentName (by omega) (by omega) _
  · obtain ⟨m, _, rfl, -, hm⟩ := c.mem_older (holder.subset ha)
    rcases mem_cons.mp hb with rfl | hb
    · exact segmentName_lt_suffix (by omega) (by omega) (by decide)
    · obtain ⟨n, _, rfl, hn, hn', -⟩ := mem_plainFiles hb
      exact segmentName_lt (by omega) (by omega)

theorem isSegmentName_front
    (holder : older.Sublist (plainFiles s.start (c.before ++ [c.part]) oldTorn)) :
    ∀ e ∈ older ++ (segmentName i ++ walStartSuffix, some (content c.rest c.later torn)) ::
      plainFiles (c.index + c.part.length) c.later torn, isSegmentName e.1 = true := by
  obtain ⟨hle, hlt, hpos, hbound⟩ := c.index_le
  intro e he
  rcases mem_append.mp he with he | he
  · exact isSegmentName_plainFiles s.start_pos c.bound_older e (holder.subset he)
  · rcases mem_cons.mp he with rfl | he
    · exact isSegmentName_segmentName (by omega) (by omega) (.inr (.inl rfl))
    · exact isSegmentName_plainFiles (by omega) hbound e he

theorem listWALSegments_front
    (holder : older.Sublist (plainFiles s.start (c.before ++ [c.part]) oldTorn))
    (h : d.Lists (older ++ (segmentName i ++ walStartSuffix, some (content c.rest c.later torn)) ::
      plainFiles (c.index + c.part.length) c.later torn)) :
    listWALSegments d = .ok (segmentsFrom i
      ((segmentName i ++ walStartSuffix, c.rest) :: plainPairs (c.index + c.part.length) c.later)) := by
  obtain ⟨hle, hlt, hpos, hbound⟩ := c.index_le
  obtain ⟨hstart, hend, -⟩ := foldl_plain_flags (fun e he => by
    obtain ⟨n, content, heq, hn, hn'⟩ := c.mem_older (holder.subset he)
    exact ⟨n, content, heq, hn, by omega⟩) ⟨[], false, false⟩
  have hfold : (older ++ (segmentName i ++ walStartSuffix, some (content c.rest c.later torn)) ::
      plainFiles (c.index + c.part.length) c.later torn).foldl listStep ⟨[], false, false⟩ =
      ⟨[⟨i, segmentName i ++ walStartSuffix, []⟩] ++
        segmentsFrom (c.index + c.part.length) (plainPairs (c.index + c.part.length) c.later), true, false⟩ := by
    rw [foldl_append, foldl_cons, listStep_segmentName (by omega) (by omega), if_neg (by decide),
      if_pos rfl, hend, foldl_plainFiles rfl (by omega) hbound]
  rw [listWALSegments_eq h (c.sorted_front torn holder) (c.isSegmentName_front holder) hfold, segmentsFrom,
    c.length_rest]
  rfl

theorem bound_before : s.start + c.before.flatten.length < 2 ^ 64 := by
  have hbound := c.index_le.2.2.2
  rw [index] at hbound
  omega

theorem mem_later {e : Bytes × Option Bytes}
    (he : e ∈ plainFiles (c.index + c.part.length) c.later torn) :
    ∃ n content, e = (segmentName n, some content) ∧ c.index < n ∧ n < 2 ^ 64 := by
  obtain ⟨hle, hlt, hpos, hbound⟩ := c.index_le
  obtain ⟨n, _, rfl, hn, hn', -⟩ := mem_plainFiles he
  exact ⟨n, _, rfl, by omega, by omega⟩

theorem mem_before {e : Bytes × Option Bytes} (he : e ∈ plainFiles s.start c.before []) :
    ∃ n content, e = (segmentName n, some content) ∧ n < c.index := by
  obtain ⟨n, _, rfl, -, -, hn⟩ := mem_plainFiles he
  refine ⟨n, _, rfl, hn (fun hnil => ?_) c.before_nonempty⟩
  rw [hnil] at he
  cases he

end

section Back

variable {replaced later : List (Bytes × Option Bytes)} {torn : Bytes}

variable (c : s.Cut i)
  (hreplaced : replaced.Sublist [(segmentName c.index, some (content c.part c.later torn))])

include hreplaced

theorem sorted_back (hlater : later.Sublist (plainFiles (c.index + c.part.length) c.later torn)) :
    SortedAssoc.Sorted (plainFiles s.start c.before [] ++
      (replaced ++ (segmentName c.index ++ walEndSuffix, some (encodeEntries c.kept)) :: later)) := by
  obtain ⟨hle, hlt, hpos, hbound⟩ := c.index_le
  have hreplaced' : ∀ e ∈ replaced, e = (segmentName c.index, some (content c.part c.later torn)) :=
    fun e he => mem_singleton.mp (hreplaced.subset he)
  refine sorted_append.mpr ⟨?_, sorted_append.mpr ⟨?_, List.Pairwise.cons ?_ ?_, ?_⟩,
    ?_⟩
  · exact sorted_plainFiles [] (fun p hp => c.before_nonempty p (dropLast_subset _ hp)) c.bound_before
  · exact (pairwise_singleton _ _).sublist hreplaced
  · intro e he
    obtain ⟨n, _, rfl, hn, hn'⟩ := c.mem_later (hlater.subset he)
    exact suffix_lt_segmentName hn hn' _
  · exact (sorted_plainFiles torn c.later_nonempty hbound).sublist hlater
  · intro a ha b hb
    rw [hreplaced' a ha]
    rcases mem_cons.mp hb with rfl | hb
    · exact segmentName_lt_suffix le_rfl (by omega) (by decide)
    · obtain ⟨n, _, rfl, hn, hn'⟩ := c.mem_later (hlater.subset hb)
      exact segmentName_lt hn hn'
  · intro a ha b hb
    obtain ⟨m, _, rfl, hm⟩ := c.mem_before ha
    rcases mem_append.mp hb with hb | hb
    · rw [hreplaced' b hb]
      exact segmentName_lt hm (by omega)
    · rcases mem_cons.mp hb with rfl | hb
      · exact segmentName_lt_suffix hm.le (by omega) (by decide)
      · obtain ⟨n, _, rfl, hn, hn'⟩ := c.mem_later (hlater.subset hb)
        exact segmentName_lt (by omega) hn'

theorem isSegmentName_back
    (hlater : later.Sublist (plainFiles (c.index + c.part.length) c.later torn)) :
    ∀ e ∈ plainFiles s.start c.before [] ++
      (replaced ++ (segmentName c.index ++ walEndSuffix, some (encodeEntries c.kept)) :: later),
      isSegmentName e.1 = true := by
  obtain ⟨hle, hlt, hpos, hbound⟩ := c.index_le
  intro e he
  rcases mem_append.mp he with he | he
  · exact isSegmentName_plainFiles s.start_pos c.bound_before e he
  · rcases mem_append.mp he with he | he
    · have hname := isSegmentName_segmentName hpos (show c.index < 2 ^ 64 by omega) (.inl rfl)
      rw [append_nil] at hname
      rw [mem_singleton.mp (hreplaced.subset he)]
      exact hname
    · rcases mem_cons.mp he with rfl | he
      · exact isSegmentName_segmentName (by omega) (by omega) (.inr (.inr rfl))
      · exact isSegmentName_plainFiles (by omega) hbound e (hlater.subset he)

/-- The segment that is replaced is taken out again if it is still there. -/
theorem foldl_replaced :
    dropSame (replaced.foldl listStep
        ⟨segmentsFrom s.start (plainPairs s.start c.before), false, false⟩).segments c.index =
        segmentsFrom s.start (plainPairs s.start c.before) ∧
      (replaced.foldl listStep ⟨segmentsFrom s.start (plainPairs s.start c.before), false, false⟩).hasStart =
        false ∧
      (replaced.foldl listStep ⟨segmentsFrom s.start (plainPairs s.start c.before), false, false⟩).hasEnd =
        false := by
  obtain ⟨hle, hlt, hpos, hbound⟩ := c.index_le
  rcases sublist_singleton.mp hreplaced with rfl | rfl
  · refine ⟨dropSame_of_ne fun seg hseg => ?_, rfl, rfl⟩
    exact (mem_segmentsFrom_plainPairs hseg c.before_nonempty).ne
  · rw [foldl_cons, foldl_nil, listStep_plain hpos (by omega)]
    exact ⟨dropSame_append _ rfl, rfl, rfl⟩

theorem listWALSegments_back
    (hlater : later.Sublist (plainFiles (c.index + c.part.length) c.later torn))
    (h : d.Lists (plainFiles s.start c.before [] ++
      (replaced ++ (segmentName c.index ++ walEndSuffix, some (encodeEntries c.kept)) :: later))) :
    listWALSegments d = .ok (segmentsFrom s.start
      (plainPairs s.start c.before ++ [(segmentName c.index ++ walEndSuffix, c.kept)])) := by
  obtain ⟨hle, hlt, hpos, hbound⟩ := c.index_le
  obtain ⟨hsegments, hstart, hend⟩ := c.foldl_replaced hreplaced
  have hfold : (plainFiles s.start c.before [] ++
      (replaced ++ (segmentName c.index ++ walEndSuffix, some (encodeEntries c.kept)) :: later)).foldl listStep
        ⟨[], false, false⟩ = ⟨segmentsFrom s.start (plainPairs s.start c.before) ++
          [⟨c.index, segmentName c.index ++ walEndSuffix, []⟩], false, true⟩ := by
    rw [foldl_append, foldl_plainFiles rfl s.start_pos c.bound_before, foldl_append, foldl_cons,
      nil_append, listStep_segmentName hpos (by omega), if_neg (by decide), if_neg (by decide), if_pos rfl,
      hend, if_neg Bool.false_ne_true, hsegments, hstart,
      (foldl_plain_flags (fun e he => ?_) _).2.2 rfl]
    obtain ⟨n, content, heq, hn, hn'⟩ := c.mem_later (hlater.subset he)
    exact ⟨n, content, heq, by omega, hn'⟩
  rw [listWALSegments_eq h (c.sorted_back hreplaced hlater) (c.isSegmentName_back hreplaced hlater) hfold,
    segmentsFrom_append, map_snd_plainPairs]
  rfl

end Back

end Cut

namespace Writer

section

variable (w : Writer s)
include w

theorem parts_nonempty : ∀ part ∈ w.parts.dropLast, part ≠ [] := by
  cases w with
  | idle => exact s.nonempty
  | front i c =>
    intro part hpart
    have hrest : c.rest ≠ [] := by
      have hlen := c.length_rest
      obtain ⟨-, hlt, -, -⟩ := c.index_le
      refine ne_nil_of_length_pos ?_
      omega
    simp only [parts] at hpart
    cases hl : c.later with
    | nil =>
      rw [hl] at hpart
      cases hpart
    | cons q later =>
      rw [hl, dropLast_cons_cons] at hpart
      rcases mem_cons.mp hpart with rfl | hpart
      · exact hrest
      · exact c.later_nonempty part (hl ▸ hpart)
  | back i c =>
    intro part hpart
    simp only [parts, dropLast_concat] at hpart
    exact c.before_nonempty part hpart

theorem first_pos : 0 < w.first := by
  cases w with
  | idle => exact s.start_pos
  | front i c =>
    obtain ⟨hle, -, hpos, -⟩ := c.index_le
    exact lt_of_lt_of_le hpos hle
  | back i c => exact s.start_pos

theorem mem_flatten_parts {e : Bytes} (h : e ∈ w.parts.flatten) : e ∈ s.parts.flatten := by
  cases w with
  | idle => exact h
  | front i c =>
    rw [c.flatten_eq]
    simp only [parts, flatten_cons] at h
    refine mem_append_right _ ?_
    rcases mem_append.mp h with h | h
    · exact mem_append_left _ (mem_of_mem_drop h)
    · exact mem_append_right _ h
  | back i c =>
    rw [c.flatten_eq]
    simp only [parts, flatten_append, flatten_cons, flatten_nil, append_nil] at h
    rcases mem_append.mp h with h | h
    · exact mem_append_left _ h
    · exact mem_append_right _ (mem_append_left _ (mem_of_mem_take h))

theorem lengths_parts : ∀ e ∈ w.parts.flatten, e.length < 2 ^ 63 :=
  fun e he => s.lengths_parts e (w.mem_flatten_parts he)

theorem first_bound : w.first + w.parts.flatten.length < 2 ^ 64 := by
  cases w with
  | idle => exact s.bound
  | front i c =>
    obtain ⟨-, -, -, hbound⟩ := c.index_le
    have := c.length_rest
    simp only [first, parts, flatten_cons, length_append]
    omega
  | back i c =>
    obtain ⟨-, hlt, -, hbound⟩ := c.index_le
    have := c.length_kept
    rw [Cut.index] at *
    simp only [first, parts, flatten_append, length_append, flatten_cons, flatten_nil,
      append_nil]
    omega

theorem first_of_nil (h : w.parts = []) : w.first = 1 := by
  obtain ⟨log, -, hfirst, hentries⟩ := w.result_eq
  rw [h, flatten_nil] at hentries
  rw [← hfirst, log.dropped_eq_zero hentries]

end

variable {w : Writer s} {renamed : Bool}

theorem Shows.listWALSegments_eq (h : w.Shows renamed d) :
    listWALSegments d = .ok (segmentsFrom w.first (w.pairs renamed)) := by
  have hplain : ∀ torn, d.Lists (plainFiles w.first w.parts torn) →
      listWALSegments d = .ok (segmentsFrom w.first (plainPairs w.first w.parts)) := fun torn hlists =>
    listWALSegments_plain hlists w.first_pos w.first_bound w.parts_nonempty
  cases w with
  | idle =>
    obtain ⟨torn, -, hlists⟩ := h
    exact hplain torn hlists
  | front i c =>
    cases renamed with
    | false =>
      obtain ⟨older, oldTorn, torn, -, holder, hlists⟩ := h
      exact c.listWALSegments_front holder hlists
    | true =>
      obtain ⟨torn, -, hlists⟩ := h
      exact hplain torn hlists
  | back i c =>
    cases renamed with
    | false =>
      obtain ⟨replaced, later, torn, hreplaced, hlater, hlists⟩ := h
      exact c.listWALSegments_back hreplaced hlater hlists
    | true =>
      obtain ⟨torn, -, hlists⟩ := h
      exact hplain torn hlists

theorem plain_mem (w : Writer s) {torn : Bytes} (h : d.Lists (plainFiles w.first w.parts torn)) :
    ∀ e ∈ plainFiles w.first w.parts torn, e ∈ d.entries := fun e he =>
  (h e (isSegmentName_plainFiles w.first_pos w.first_bound e he)).mpr he

theorem Shows.readable (h : w.Shows renamed d) :
    d.Readable (w.pairs renamed) := by
  have hplain : ∀ torn, Stuck .binary torn → d.Lists (plainFiles w.first w.parts torn) →
      d.Readable (plainPairs w.first w.parts) := fun torn htorn hlists =>
    readable_plainFiles (w.plain_mem hlists) w.lengths_parts htorn
  have hlen := w.lengths_parts
  cases w with
  | idle =>
    obtain ⟨torn, htorn, hlists⟩ := h
    exact hplain torn htorn hlists
  | front i c =>
    cases renamed with
    | false =>
      obtain ⟨older, oldTorn, torn, htorn, -, hlists⟩ := h
      obtain ⟨hle, hlt, hpos, hbound⟩ := c.index_le
      simp only [parts, flatten_cons] at hlen
      refine readable_cons ?_ (fun e he => hlen e (mem_append_left _ he)) htorn
        (readable_plainFiles (fun e he => ?_) (fun e he => hlen e (mem_append_right _ he)) htorn)
      · exact (hlists _ (isSegmentName_segmentName (by omega) (by omega) (.inr (.inl rfl)))).mpr (by simp)
      · refine (hlists e (isSegmentName_plainFiles (by omega) hbound e he)).mpr ?_
        exact mem_append_right _ (mem_cons_of_mem _ he)
    | true =>
      obtain ⟨torn, htorn, hlists⟩ := h
      exact hplain torn htorn hlists
  | back i c =>
    cases renamed with
    | false =>
      obtain ⟨replaced, later, torn, -, -, hlists⟩ := h
      obtain ⟨hle, hlt, hpos, hbound⟩ := c.index_le
      simp only [parts, flatten_append, flatten_cons, flatten_nil, append_nil] at hlen
      refine ⟨?_, ?_⟩
      · simp only [pairs, dropLast_concat]
        refine exact_plainFiles (fun e he => (hlists e ?_).mpr (mem_append_left _ he))
          (fun e he => hlen e (mem_append_left _ he))
        exact isSegmentName_plainFiles s.start_pos (show s.start + c.before.flatten.length < _ by
          rw [Cut.index] at hbound
          omega) e he
      · intro p hp
        simp only [pairs, getLast?_concat, Option.some.injEq] at hp
        subst hp
        have hmem : (segmentName c.index ++ walEndSuffix, some (encodeEntries c.kept ++ [])) ∈ d.entries := by
          rw [append_nil]
          exact (hlists _ (isSegmentName_segmentName hpos (by omega) (.inr (.inr rfl)))).mpr (by simp)
        exact ⟨_, WALDir.readSegment_of_mem hmem (fun e he => hlen e (mem_append_right _ he)) (.inl rfl)⟩
    | true =>
      obtain ⟨torn, htorn, hlists⟩ := h
      exact hplain torn htorn hlists

/-- After the file of a cut of the front was renamed, it is still read under its former name. -/
theorem Shows.exact_front {c : s.Cut i} (h : (Writer.front i c).Shows true d) :
    ∀ p ∈ ((Writer.front i c).pairs false).dropLast, d.readSegment p.1 = .ok (p.2, false) := by
  have hread := h.readable.exact
  obtain ⟨torn, -, hlists⟩ := h
  have hmem := (Writer.front i c).plain_mem hlists
  have hlen := (Writer.front i c).lengths_parts
  obtain ⟨hle, hlt, hpos, hbound⟩ := c.index_le
  have hgone : ∀ content, (segmentName i ++ walStartSuffix, content) ∉ d.entries := by
    intro content hin
    have hname := isSegmentName_segmentName (show 0 < i by omega) (by omega) (.inr (.inl rfl))
    obtain ⟨n, _, heq, -⟩ := mem_plainFiles ((hlists _ hname).mp hin)
    have hlength := congrArg (fun e => e.1.length) heq
    simp [segmentName, length_padDecimal, walStartSuffix] at hlength
  simp only [pairs, parts, first, plainFiles, plainPairs, c.length_rest, flatten_cons] at hread hmem hlen ⊢
  cases hl : c.later with
  | nil => exact fun p hp => absurd hp not_mem_nil
  | cons q later =>
    rw [hl] at hread hmem
    rw [plainPairs] at hread ⊢
    rw [dropLast_cons_cons] at hread ⊢
    refine forall_mem_cons.mpr ⟨?_, fun p hp => hread p (mem_cons_of_mem _ hp)⟩
    have hfirst := hmem _ mem_cons_self
    exact WALDir.readSegment_renamed hgone hfirst (fun e he => hlen e (mem_append_left _ he)) (.inl rfl)

/-- What the reader listed it can still read when the writer is further on. -/
theorem Shows.exact {renamed' : Bool} (hle : renamed ≤ renamed') (h : w.Shows renamed' d) :
    ∀ p ∈ (w.pairs renamed).dropLast, d.readSegment p.1 = .ok (p.2, false) := by
  have hread := h.readable.exact
  cases w with
  | idle => exact hread
  | front i c =>
    cases renamed with
    | false =>
      cases renamed' with
      | false => exact hread
      | true => exact h.exact_front
    | true =>
      rw [Bool.eq_true_of_true_le hle] at hread
      exact hread
  | back i c =>
    have hpairs : ∀ r, ((Writer.back i c).pairs r).dropLast = plainPairs s.start c.before := by
      intro r
      cases r with
      | false => exact dropLast_concat
      | true =>
        simp only [pairs, first, parts]
        rw [plainPairs_append]
        exact dropLast_concat
    rw [hpairs] at hread ⊢
    exact hread

/-- The reader that is opened holds the log as the truncation leaves it. -/
theorem Shows.opened (h : w.Shows renamed d) :
    ∃ log l, w.result = some log ∧ log.dropped + 1 = w.first ∧ log.entries = w.parts.flatten ∧
      tryOpenReadOnlyWAL d = .ok l ∧ l.Holds ((w.pairs renamed).map Prod.fst) w.first w.parts ∧
      l.lastIndex = log.lastIndex := by
  obtain ⟨log, hlog, hdropped, hentries⟩ := w.result_eq
  have hparts := w.map_snd_pairs renamed
  have hnil : w.pairs renamed = [] → w.first = 1 := fun hpairs =>
    w.first_of_nil (by rw [← hparts, hpairs, map_nil])
  obtain ⟨l, hopen, hholds⟩ := open_holds hnil (by rw [hparts]; exact w.first_bound) h.listWALSegments_eq
    h.readable
  rw [hparts] at hholds
  refine ⟨log, l, hlog, hdropped, hentries, hopen, hholds, ?_⟩
  rw [hholds.last, IndexedLog.lastIndex, hentries]
  omega

end Writer

/-- The reader shows the log as the truncation leaves it, from its first to its last index, whatever
the writer has done of it. It reads the log in any order, and while the writer goes on. -/
theorem reads_truncated_log (s : SplitLog) (w : Writer s) {renamed : Bool} {d d₂ d₃ : WALDir}
    (h : w.Shows renamed d) :
    ∃ log l, w.result = some log ∧ openReadOnlyWAL d d₂ d₃ = .ok l ∧
      l.FirstIndex = .ok log.firstIndex ∧ l.LastIndex = .ok log.lastIndex ∧
      ∀ reads : List (WALDir × Nat),
        (∀ r ∈ reads, ∃ renamed', renamed ≤ renamed' ∧ w.Shows renamed' r.1) →
        l.readAll reads = reads.map fun r =>
          match log.read r.2 with
          | some entry => .ok entry
          | none => .error .notFound := by
  obtain ⟨log, l, hlog, hdropped, hentries, hopen, hholds, hlast⟩ := h.opened
  refine ⟨log, l, hlog, by rw [openReadOnlyWAL, hopen], ?_, ?_, fun reads hreads => ?_⟩
  · rw [ReadOnlyWAL.FirstIndex, hholds.isOpen, hlast, if_neg Bool.false_ne_true, IndexedLog.firstIndex]
    by_cases hempty : log.entries = []
    · rw [if_pos hempty, if_pos (by rw [IndexedLog.lastIndex, log.dropped_eq_zero hempty, hempty]; rfl)]
    · have hpos := length_pos_iff.mpr hempty
      have hne : w.parts ≠ [] := by
        intro hnone
        rw [hnone] at hentries
        exact hempty hentries
      rw [if_neg hempty, if_neg (by rw [IndexedLog.lastIndex]; omega), hholds.first hne, hdropped]
  · rw [ReadOnlyWAL.LastIndex, hholds.isOpen, hlast]
    rfl
  · rw [hholds.readAll w.first_pos w.first_of_nil fun r hr => ?_]
    · exact map_congr_left fun r _ => by rw [← hdropped, ← hentries, expected_eq_read]
    · obtain ⟨renamed', hle, hshows⟩ := hreads r hr
      have hserves := serves_of_exact (hshows.exact hle)
      rwa [w.map_snd_pairs renamed] at hserves

def three : SplitLog where
  log := ⟨0, [[1], [2], [3]], by decide⟩
  parts := [[[1]], [[2], [3]]]
  flatten_eq := rfl
  nonempty := by decide
  indices := by decide
  lengths := by decide

def three.cut : three.Cut 3 := ⟨[[[1]]], [[2], [3]], [], rfl, by decide, by decide⟩

def three.cutting : WALDir where
  entries := [(segmentName 2, some (encodeEntries [[2], [3]])),
    (segmentName 3 ++ walStartSuffix, some (encodeEntries [[3]]))]
  sorted := by
    refine pairwise_pair.mpr ?_
    exact segmentName_lt_suffix (by decide) (by decide) (by decide)

theorem three.reads : ∃ log l, (Writer.front 3 three.cut).result = some log ∧
    openReadOnlyWAL three.cutting three.cutting three.cutting = .ok l ∧
    l.FirstIndex = .ok log.firstIndex ∧ l.LastIndex = .ok log.lastIndex ∧
    l.readAll [(three.cutting, 3), (three.cutting, 2)] = [.ok [3], .error .notFound] := by
  have hshows : (Writer.front 3 three.cut).Shows false three.cutting := by
    refine ⟨[(segmentName 2, some (encodeEntries [[2], [3]]))], [], [], .inl rfl, ?_, fun _ _ => Iff.rfl⟩
    exact sublist_cons_self _ _
  obtain ⟨log, l, hlog, hopen, hfirst, hlast, hreads⟩ :=
    reads_truncated_log three (.front 3 three.cut) hshows
  refine ⟨log, l, hlog, hopen, hfirst, hlast, ?_⟩
  rw [hreads _ fun r hr => ⟨false, le_rfl, ?_⟩]
  · cases hlog
    rfl
  · have hr : r.1 = three.cutting := by
      revert r
      simp
    rw [hr]
    exact hshows

end SplitLog

end CronosStore.Memiavl
