import CronosStore.Foundation.ByteReader
import CronosStore.Foundation.Loop
import Mathlib.Order.Bounds.Basic

/-!
# Segments of the log with a torn tail

A segment in the binary format is a sequence of entries, each behind its length. The last one may be
torn: the writer was stopped in it, or is still appending it. `readWALEntries` and
`truncateCorruptedTail` of `memiavl/wal.go` are two loops over the bytes, and both come to the same
place, the end of the last entry that is complete (`torn_tail`).

The loop that truncates takes the loader of the format; that of JSON lines, which `memiavl` never
chooses, is left out.
-/

namespace CronosStore.Memiavl

open Foundation List

/-- `binary.Uvarint`: the number and the bytes it takes, or none where the count is not positive. -/
def uvarint (data : Bytes) : Option (Nat × Nat) :=
  match readUvarint data with
  | .error _ => none
  | .ok (x, rest) => some (x, data.length - rest.length)

/-- `loadNextBinaryEntry`: the length of an entry and that of its size. None is `ErrCorrupt`. -/
def loadNextBinaryEntry (data : Bytes) : Option (Nat × Nat) :=
  match uvarint data with
  | none => none
  | some (size, header) => if data.length - header < size then none else some (header + size, header)

def encodeEntry (entry : Bytes) : Bytes := putUvarint entry.length ++ entry

def encodeEntries (entries : List Bytes) : Bytes := entries.flatMap encodeEntry

/-- The bytes that an entry is loaded from are its size and its data; what follows does not matter. -/
theorem loadNextBinaryEntry_eq_some {data : Bytes} {n header : Nat} :
    loadNextBinaryEntry data = some (n, header) ↔ ∃ p entry rest, data = p ++ entry ++ rest ∧
      p ≠ [] ∧ header = p.length ∧ n = p.length + entry.length ∧
      ∀ c, readUvarint (p ++ c) = .ok (entry.length, c) := by
  unfold loadNextBinaryEntry uvarint
  constructor
  · intro h
    cases hr : readUvarint data with
    | error e =>
      rw [hr] at h
      cases h
    | ok r =>
      obtain ⟨size, rest⟩ := r
      obtain ⟨p, hp, rfl, hlocal⟩ := readUvarint_local hr
      simp only [hr, length_append] at h
      split_ifs at h with hlen
      cases h
      have htake : (rest.take size).length = size := by
        rw [length_take]
        omega
      refine ⟨p, rest.take size, rest.drop size, ?_, hp, by omega, by omega, ?_⟩
      · rw [append_assoc, take_append_drop]
      · rwa [htake]
  · rintro ⟨p, entry, rest, rfl, hp, rfl, rfl, hlocal⟩
    rw [append_assoc, hlocal]
    simp only [length_append]
    rw [if_neg (by omega)]
    congr 2
    · omega
    · omega

theorem loadNextBinaryEntry_encodeEntry {entry : Bytes} (h : entry.length < 2 ^ 64) (rest : Bytes) :
    loadNextBinaryEntry (encodeEntry entry ++ rest) =
      some ((encodeEntry entry).length, (putUvarint entry.length).length) := by
  refine loadNextBinaryEntry_eq_some.mpr ⟨putUvarint entry.length, entry, rest, rfl, ?_, rfl, ?_, ?_⟩
  · intro hnil
    have hread := readUvarint_append h ([] : Bytes)
    rw [hnil] at hread
    cases hread
  · rw [encodeEntry, length_append]
  · exact readUvarint_append h

theorem loadNextBinaryEntry_take {entry : Bytes} (h : entry.length < 2 ^ 64) {k : Nat}
    (hk : k < (encodeEntry entry).length) : loadNextBinaryEntry ((encodeEntry entry).take k) = none := by
  cases hload : loadNextBinaryEntry ((encodeEntry entry).take k) with
  | none => rfl
  | some r =>
    exfalso
    obtain ⟨n, header⟩ := r
    obtain ⟨p, x, rest, hsplit, -, -, -, hlocal⟩ := loadNextBinaryEntry_eq_some.mp hload
    -- the whole entry would be read from the same size, and be shorter than it says
    have hwhole : encodeEntry entry = p ++ (x ++ rest ++ (encodeEntry entry).drop k) := by
      conv_lhs => rw [← take_append_drop k (encodeEntry entry), hsplit]
      simp only [append_assoc]
    have hread := readUvarint_append h entry
    rw [← encodeEntry, hwhole, hlocal] at hread
    simp only [Except.ok.injEq, Prod.mk.injEq] at hread
    obtain ⟨hx, hentry⟩ := hread
    have hlen := congrArg List.length hentry
    simp only [length_append, length_drop] at hlen
    omega

structure EntryLoader where
  loadNext : Bytes → Option Nat
  inRange : ∀ data n, loadNext data = some n → 0 < n ∧ n ≤ data.length
  stable : ∀ data n, loadNext data = some n → ∀ c, loadNext (data.take n ++ c) = some n

namespace EntryLoader

def binary : EntryLoader where
  loadNext data := (loadNextBinaryEntry data).map Prod.fst
  inRange data n h := by
    obtain ⟨⟨n, header⟩, hload, rfl⟩ := Option.map_eq_some_iff.mp h
    obtain ⟨p, entry, rest, rfl, hp, -, hn, -⟩ := loadNextBinaryEntry_eq_some.mp hload
    have := length_pos_of_ne_nil hp
    simp only [length_append]
    omega
  stable data n h c := by
    obtain ⟨⟨n, header⟩, hload, rfl⟩ := Option.map_eq_some_iff.mp h
    obtain ⟨p, entry, rest, rfl, hp, hheader, hn, hlocal⟩ := loadNextBinaryEntry_eq_some.mp hload
    have htake : (p ++ entry ++ rest).take n = p ++ entry := take_left' (by simp [hn])
    have hagain : loadNextBinaryEntry (p ++ entry ++ c) = some (n, header) :=
      loadNextBinaryEntry_eq_some.mpr ⟨p, entry, c, rfl, hp, hheader, hn, hlocal⟩
    rw [htake, hagain]
    rfl

end EntryLoader

/-! ## The loops -/

def truncateLoop (loader : EntryLoader) : Loop (Bytes × Nat) Nat where
  turn s :=
    if s.1 = [] then .done s.2
    else
      match loader.loadNext s.1 with
      | none => .done s.2
      | some n => .next (s.1.drop n, s.2 + n)
  weight s := s.1.length
  decreases s s' h := by
    split_ifs at h
    split at h
    · cases h
    · rename_i n hn
      cases h
      have := loader.inRange _ _ hn
      simp only [length_drop]
      omega

def truncateCorruptedTail (loader : EntryLoader) (data : Bytes) : Bytes :=
  let pos := (truncateLoop loader).result (data, 0)
  if pos < data.length then data.take pos else data

def readLoop : Loop (Bytes × List Bytes) (List Bytes × Bool) where
  turn s :=
    if s.1 = [] then .done (s.2, false)
    else
      match loadNextBinaryEntry s.1 with
      | none => .done (s.2, true)
      | some (n, header) => .next (s.1.drop n, s.2 ++ [(s.1.take n).drop header])
  weight s := s.1.length
  decreases s s' h := by
    split_ifs at h
    split at h
    · cases h
    · rename_i n header hn
      cases h
      have := EntryLoader.binary.inRange s.1 n (Option.map_eq_some_iff.mpr ⟨_, hn, rfl⟩)
      simp only [length_drop]
      omega

def readWALEntries (data : Bytes) : List Bytes × Bool := readLoop.result (data, [])

section Truncate

variable {loader : EntryLoader}

inductive Chain (loader : EntryLoader) : Bytes → Prop
  | nil : Chain loader []
  | cons {x rest : Bytes} (hx : x ≠ []) (hload : ∀ c, loader.loadNext (x ++ c) = some x.length)
      (hrest : Chain loader rest) : Chain loader (x ++ rest)

def Stuck (loader : EntryLoader) (rest : Bytes) : Prop := rest = [] ∨ loader.loadNext rest = none

theorem exists_chain (loader : EntryLoader) (data : Bytes) :
    ∃ p rest, data = p ++ rest ∧ Chain loader p ∧ Stuck loader rest := by
  induction hlen : data.length using Nat.strong_induction_on generalizing data with
  | _ len ih =>
    cases hload : loader.loadNext data with
    | none => exact ⟨[], data, rfl, .nil, .inr hload⟩
    | some n =>
      obtain ⟨hpos, hle⟩ := loader.inRange data n hload
      obtain ⟨p, rest, hsplit, hchain, hstuck⟩ := ih (data.drop n).length
        (by rw [length_drop]; omega) (data.drop n) rfl
      have htake : (data.take n).length = n := by
        rw [length_take]
        omega
      refine ⟨data.take n ++ p, rest, ?_, .cons ?_ ?_ hchain, hstuck⟩
      · rw [append_assoc, ← hsplit, take_append_drop]
      · exact ne_nil_of_length_pos (by omega)
      · intro c
        rw [htake]
        exact loader.stable data n hload c

theorem Chain.ends {p rest : Bytes} (h : Chain loader p) (hstuck : Stuck loader rest) (pos : Nat) :
    (truncateLoop loader).Ends (p ++ rest, pos) (pos + p.length) := by
  induction h generalizing pos with
  | nil =>
    refine .done ?_
    rcases hstuck with rfl | hnone
    · rfl
    · simp only [truncateLoop, nil_append, hnone, ite_self, length_nil, Nat.add_zero]
  | @cons x p hx hload _ ih =>
    have hne : x ++ (p ++ rest) ≠ [] := by simp [hx]
    have hturn : (truncateLoop loader).turn (x ++ (p ++ rest), pos) =
        .next (p ++ rest, pos + x.length) := by
      simp only [truncateLoop, if_neg hne, hload, drop_left]
    rw [append_assoc, length_append, ← Nat.add_assoc]
    exact .next hturn (ih _)

theorem Chain.truncateCorruptedTail_eq {p rest : Bytes} (h : Chain loader p) (hstuck : Stuck loader rest) :
    truncateCorruptedTail loader (p ++ rest) = p := by
  have hpos := (h.ends hstuck 0).result_eq
  rw [Nat.zero_add] at hpos
  simp only [truncateCorruptedTail, hpos, length_append]
  split_ifs with hlt
  · exact take_left
  · have hnil : rest = [] := eq_nil_of_length_eq_zero (by omega)
    rw [hnil, append_nil]

theorem truncateCorruptedTail_idem (loader : EntryLoader) (data : Bytes) :
    (truncateCorruptedTail loader data).length ≤ data.length ∧
      truncateCorruptedTail loader (truncateCorruptedTail loader data) =
        truncateCorruptedTail loader data := by
  obtain ⟨p, rest, rfl, hchain, hstuck⟩ := exists_chain loader data
  rw [hchain.truncateCorruptedTail_eq hstuck]
  refine ⟨by simp, ?_⟩
  have hagain := hchain.truncateCorruptedTail_eq (.inl rfl)
  rwa [append_nil] at hagain

end Truncate

variable {entries : List Bytes}

section

variable (h : ∀ e ∈ entries, e.length < 2 ^ 64)
include h

theorem chain_encodeEntries :
    Chain .binary (encodeEntries entries) := by
  induction entries with
  | nil => exact .nil
  | cons e entries ih =>
    obtain ⟨he, h⟩ := forall_mem_cons.mp h
    have hload : ∀ c, EntryLoader.binary.loadNext (encodeEntry e ++ c) = some (encodeEntry e).length :=
      fun c => Option.map_eq_some_iff.mpr ⟨_, loadNextBinaryEntry_encodeEntry he c, rfl⟩
    refine .cons (fun hnil => ?_) hload (ih h)
    have hpos := (EntryLoader.binary.inRange _ _ (hload [])).1
    rw [hnil] at hpos
    exact absurd hpos (by decide)

theorem readLoop_ends {rest : Bytes}
    (hstuck : Stuck .binary rest) (before : List Bytes) :
    readLoop.Ends (encodeEntries entries ++ rest, before) (before ++ entries, decide (rest ≠ [])) := by
  induction entries generalizing before with
  | nil =>
    refine .done ?_
    by_cases hnil : rest = []
    · subst hnil
      simp [readLoop, encodeEntries]
    · have hnone : loadNextBinaryEntry rest = none :=
        Option.map_eq_none_iff.mp (hstuck.resolve_left hnil)
      simp [readLoop, encodeEntries, hnil, hnone]
  | cons e entries ih =>
    obtain ⟨he, h⟩ := forall_mem_cons.mp h
    have hload := loadNextBinaryEntry_encodeEntry he (encodeEntries entries ++ rest)
    have hsplit : encodeEntries (e :: entries) ++ rest =
        encodeEntry e ++ (encodeEntries entries ++ rest) := by
      rw [encodeEntries, flatMap_cons, append_assoc]
      rfl
    have hne : encodeEntry e ++ (encodeEntries entries ++ rest) ≠ [] := by
      intro hnil
      rw [hnil] at hload
      cases hload
    have hturn : readLoop.turn (encodeEntry e ++ (encodeEntries entries ++ rest), before) =
        .next (encodeEntries entries ++ rest, before ++ [e]) := by
      have hentry : (encodeEntry e).drop (putUvarint e.length).length = e := drop_left
      simp only [readLoop, if_neg hne, hload, drop_left, take_left, hentry]
    have hrest := ih h (before ++ [e])
    rw [append_assoc, singleton_append] at hrest
    rw [hsplit]
    exact .next hturn hrest

/-- The bytes before a cut: entries that are complete, and a part of the next one. -/
theorem take_encodeEntries (k : Nat) :
    ∃ m ≤ entries.length, ∃ rest, (encodeEntries entries).take k = encodeEntries (entries.take m) ++ rest ∧
      Stuck .binary rest ∧ ∀ j ≤ entries.length, (encodeEntries (entries.take j)).length ≤ k → j ≤ m := by
  induction entries generalizing k with
  | nil => exact ⟨0, le_rfl, [], by simp [encodeEntries], .inl rfl, fun j hj _ => hj⟩
  | cons e entries ih =>
    obtain ⟨he, h⟩ := forall_mem_cons.mp h
    have hcons : ∀ es, encodeEntries (e :: es) = encodeEntry e ++ encodeEntries es := fun es => rfl
    by_cases hk : k < (encodeEntry e).length
    · refine ⟨0, Nat.zero_le _, (encodeEntry e).take k, ?_, .inr ?_, fun j hj hle => ?_⟩
      · rw [hcons, take_append_of_le_length hk.le]
        rfl
      · exact Option.map_eq_none_iff.mpr (loadNextBinaryEntry_take he hk)
      · cases j with
        | zero => exact le_rfl
        | succ j =>
          rw [take_succ_cons, hcons, length_append] at hle
          omega
    · obtain ⟨m, hm, rest, htake, hstuck, hmax⟩ := ih h (k - (encodeEntry e).length)
      refine ⟨m + 1, Nat.succ_le_succ hm, rest, ?_, hstuck, fun j hj hle => ?_⟩
      · rw [hcons, take_append, take_of_length_le (by omega), htake, take_succ_cons, hcons,
          append_assoc]
      · cases j with
        | zero => exact Nat.zero_le _
        | succ j =>
          rw [take_succ_cons, hcons, length_append] at hle
          have := hmax j (Nat.le_of_succ_le_succ hj) (by omega)
          omega

end

/-- Whatever the cut, the entries that are complete before it are read, and `torn` says whether bytes
are left over; the file is truncated to the end of these entries. A truncated file is not longer
than it was and is not truncated again, and both loops end on all bytes. -/
theorem torn_tail (h : ∀ e ∈ entries, e.length < 2 ^ 63) (k : Nat) :
    (∃ m, IsGreatest {j | j ≤ entries.length ∧ (encodeEntries (entries.take j)).length ≤
          ((encodeEntries entries).take k).length} m ∧
      readWALEntries ((encodeEntries entries).take k) = (entries.take m,
        decide ((encodeEntries (entries.take m)).length < ((encodeEntries entries).take k).length)) ∧
      truncateCorruptedTail .binary ((encodeEntries entries).take k) =
        ((encodeEntries entries).take k).take (encodeEntries (entries.take m)).length ∧
      ((encodeEntries (entries.take m)).length = ((encodeEntries entries).take k).length →
        truncateCorruptedTail .binary ((encodeEntries entries).take k) = (encodeEntries entries).take k)) ∧
    (∀ data, (truncateCorruptedTail .binary data).length ≤ data.length ∧
      truncateCorruptedTail .binary (truncateCorruptedTail .binary data) =
        truncateCorruptedTail .binary data) ∧
    (∀ data, ∃ r, readLoop.Ends (data, []) r) ∧
    ∀ data, ∃ pos, (truncateLoop .binary).Ends (data, 0) pos := by
  have hlt : ∀ e ∈ entries, e.length < 2 ^ 64 := fun e he => lt_trans (h e he) (by decide)
  refine ⟨?_, truncateCorruptedTail_idem .binary, fun data => ⟨_, readLoop.ends_result _⟩,
    fun data => ⟨_, (truncateLoop .binary).ends_result _⟩⟩
  obtain ⟨m, hm, rest, htake, hstuck, hmax⟩ := take_encodeEntries hlt k
  have hmem : ∀ e ∈ entries.take m, e.length < 2 ^ 64 := fun e he => hlt e (mem_of_mem_take he)
  have hread : readWALEntries ((encodeEntries entries).take k) = (entries.take m, decide (rest ≠ [])) := by
    rw [htake]
    exact (readLoop_ends hmem hstuck []).result_eq
  have htruncate : truncateCorruptedTail .binary ((encodeEntries entries).take k) =
      encodeEntries (entries.take m) := by
    rw [htake]
    exact (chain_encodeEntries hmem).truncateCorruptedTail_eq hstuck
  have hlen : ((encodeEntries entries).take k).length =
      (encodeEntries (entries.take m)).length + rest.length := by rw [htake, length_append]
  refine ⟨m, ⟨⟨hm, by omega⟩, fun j ⟨hj, hle⟩ => hmax j hj ?_⟩, ?_, ?_, fun heq => ?_⟩
  · exact hle.trans (length_take_le _ _)
  · have htorn : rest ≠ [] ↔
        (encodeEntries (entries.take m)).length < ((encodeEntries entries).take k).length := by
      rw [hlen, ← length_pos_iff]
      omega
    rw [hread, decide_eq_decide.mpr htorn]
  · rw [htruncate, htake, take_left]
  · have hnil : rest = [] := eq_nil_of_length_eq_zero (by omega)
    rw [htruncate, htake, hnil, append_nil]

/-- A cut in the second entry, behind its length. -/
theorem torn_tail_second_entry :
    (∀ e ∈ ([[1], [2, 3]] : List Bytes), e.length < 2 ^ 63) ∧ ∃ m, IsGreatest {j | j ≤ 2 ∧
        (encodeEntries ([[1], [2, 3]].take j)).length ≤ ((encodeEntries [[1], [2, 3]]).take 4).length} m ∧
      readWALEntries ((encodeEntries [[1], [2, 3]]).take 4) = ([[1], [2, 3]].take m,
        decide ((encodeEntries ([[1], [2, 3]].take m)).length <
          ((encodeEntries [[1], [2, 3]]).take 4).length)) := by
  have h : ∀ e ∈ ([[1], [2, 3]] : List Bytes), e.length < 2 ^ 63 := by decide
  obtain ⟨m, hm, hread, -⟩ := (torn_tail h 4).1
  exact ⟨h, m, hm, hread⟩

end CronosStore.Memiavl
