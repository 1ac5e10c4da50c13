import CronosStore.VersionDB.ExtSort

/-!
# The sorter with its options

`ExtSorter` of `versiondb/extsort` takes the size of a chunk and the encoding of the chunk files as
options. It counts the bytes of the current chunk in an `int64`. As long as the counter does not overflow,
it feeds as `ExtSorter.feed` does (`foldlM_feedInt64`), and draining the merge puts out the items in order
and nil after the last one, whatever the options are (`sorts`). A counter that has overflowed is negative,
and then the chunk is dropped in the end (`exists_not_sorted`).
-/

namespace CronosStore.VersionDB

open Foundation Memiavl List

/-- `Options`; the function that compares the items stands for itself, and the compression is lossless. -/
structure SorterOptions where
  deltaEncoding : Bool
  maxChunkSize : Int
deriving DecidableEq

def SorterOptions.encoding (opts : SorterOptions) : ItemEncoding :=
  if opts.deltaEncoding then .delta else .plain

def addInt64 (a b : Int) : Int := (a + b + 2 ^ 63) % 2 ^ 64 - 2 ^ 63

theorem addInt64_eq {a b : Int} (h : -2 ^ 63 ≤ a + b) (h' : a + b < 2 ^ 63) : addInt64 a b = a + b := by
  unfold addInt64
  omega

def totalSize (items : List Bytes) : Nat := (items.map fun i => i.length + 4).sum

theorem totalSize_cons (item : Bytes) (items : List Bytes) :
    totalSize (item :: items) = item.length + 4 + totalSize items := by
  rw [totalSize, map_cons, sum_cons, totalSize]

namespace ExtSorter

def feedInt64 (opts : SorterOptions) : ExtSorter → Bytes → Except SorterError ExtSorter :=
  feedWith addInt64 opts.maxChunkSize

variable {opts : SorterOptions} {s : ExtSorter} {item : Bytes} {items : List Bytes}

def Room (opts : SorterOptions) (s : ExtSorter) (items : List Bytes) : Prop :=
  (opts.maxChunkSize ≤ 2 ^ 63 - 2 ^ 32 - 3 ∧ (s.currentChunkSize = 0 ∨ s.currentChunkSize < opts.maxChunkSize)) ∨
    s.currentChunkSize + totalSize items < 2 ^ 63

section

variable (h : Room opts s (item :: items))
include h

theorem Room.lt (hs : s.Sound) (hlen : item.length ≤ maxUint32) :
    s.currentChunkSize + (item.length + 4) < 2 ^ 63 := by
  have hnonneg := hs.nonneg
  simp only [maxUint32] at hlen
  rcases h with ⟨hmax, hsize⟩ | hsum
  · omega
  · rw [totalSize_cons] at hsum
    omega

theorem feedInt64_eq (hs : s.Sound) (hlen : item.length ≤ maxUint32) :
    s.feedInt64 opts item = s.feed opts.maxChunkSize item := by
  have hnonneg := hs.nonneg
  have hlt := h.lt hs hlen
  rw [feedInt64, feed, feedWith, feedWith, addInt64_eq (by omega) hlt]

theorem Room.feed (hs : s.Sound) {s' : ExtSorter}
    (hfeed : s.feed opts.maxChunkSize item = .ok s') : Room opts s' items := by
  have hnonneg := hs.nonneg
  unfold ExtSorter.feed feedWith at hfeed
  split_ifs at hfeed with hlen
  simp only [Except.ok.injEq] at hfeed
  subst hfeed
  unfold Room at h ⊢
  rw [totalSize_cons] at h
  split_ifs with hrotate
  · simp only [sortChunkAndRotate]
    rcases h with ⟨hmax, -⟩ | hsum
    · exact .inl ⟨hmax, .inl trivial⟩
    · exact .inr (by omega)
  · simp only at hrotate ⊢
    rcases h with ⟨hmax, -⟩ | hsum
    · exact .inl ⟨hmax, .inr (by omega)⟩
    · exact .inr (by omega)

end

end ExtSorter

open ExtSorter BinaryHeap List

theorem foldlM_feedInt64 {opts : SorterOptions} {s : ExtSorter} {items : List Bytes} (h : Room opts s items)
    (hs : s.Sound) (hlen : ∀ i ∈ items, i.length ≤ maxUint32) :
    items.foldlM (ExtSorter.feedInt64 opts) s = items.foldlM (ExtSorter.feed opts.maxChunkSize) s := by
  induction items generalizing s with
  | nil => rfl
  | cons item items ih =>
    obtain ⟨hitem, hlen⟩ := forall_mem_cons.mp hlen
    obtain ⟨s', hfeed, hs', -⟩ := hs.feed hitem opts.maxChunkSize
    rw [foldlM_cons, foldlM_cons, feedInt64_eq h hs hitem, hfeed]
    exact ih (h.feed hs hfeed) hs' hlen

theorem exists_foldlM_feedInt64 (opts : SorterOptions) {items : List Bytes} (hlen : ∀ i ∈ items, i.length ≤ maxUint32)
    (hsize : opts.maxChunkSize ≤ 2 ^ 63 - 2 ^ 32 - 3 ∨ totalSize items < 2 ^ 63) :
    ∃ s, items.foldlM (ExtSorter.feedInt64 opts) ExtSorter.new = .ok s ∧ s.rotatePending.chunks.flatten = items := by
  have hroom : Room opts ExtSorter.new items := by
    rcases hsize with hmax | hsum
    · exact .inl ⟨hmax, .inl rfl⟩
    · refine .inr ?_
      simp only [ExtSorter.new]
      omega
  obtain ⟨s, hfeed, hs, heq⟩ := foldlM_feed hlen opts.maxChunkSize sound_new
  exact ⟨s, (foldlM_feedInt64 hroom sound_new hlen).trans hfeed, hs.rotatePending_flatten.trans heq⟩

/-- The items come out in order, they are those that were fed, and nil comes after the last one. -/
theorem sorts {less : Bytes → Bytes → Bool} (hl : StrictWeak less) (g : Goroutines less)
    (opts : SorterOptions)
    {items : List Bytes} (hlen : ∀ i ∈ items, i.length ≤ maxUint32)
    (hsize : opts.maxChunkSize ≤ 2 ^ 63 - 2 ^ 32 - 3 ∨ totalSize items < 2 ^ 63) :
    ∃ s merge out, items.foldlM (ExtSorter.feedInt64 opts) ExtSorter.new = .ok s ∧
      s.finalize opts.encoding g = .ok merge ∧ Yields opts.encoding less merge out ∧ out.Perm items ∧
      out.Pairwise fun a b => less b a = false := by
  obtain ⟨s, hfeed, hall⟩ := exists_foldlM_feedInt64 opts hlen hsize
  obtain ⟨merge, out, hmerge, hyields, hperm, hsorted⟩ := ExtSorter.finalize_spec opts.encoding hl g hall hlen
  exact ⟨s, merge, out, hfeed, hmerge, hyields, hperm, hsorted⟩

/-- Three items in two chunks, without delta encoding. -/
theorem sorts_three : ∃ (g : Goroutines fun a b => decide (a < b)) (s : ExtSorter) (merge : Array HeapEntry)
    (out : List Bytes), [[2], [1], []].foldlM (ExtSorter.feedInt64 ⟨false, 6⟩) ExtSorter.new = .ok s ∧
      s.finalize .plain g = .ok merge ∧ Yields .plain (fun a b => decide (a < b)) merge out ∧
      out.Perm [[2], [1], []] ∧ out.Pairwise fun a b => decide (b < a) = false := by
  have hl : StrictWeak fun a b : Bytes => decide (a < b) := .of_lt id fun _ _ => decide_eq_true_iff
  exact ⟨.inOrder hl, sorts hl (.inOrder hl) ⟨false, 6⟩ (by decide) (.inl (by decide))⟩

def spawn {less : Bytes → Bytes → Bool} (g : Goroutines less) (opts : SorterOptions) (items : List Bytes) :
    Except SorterError (List Bytes) :=
  spawnWith (ExtSorter.feedInt64 opts) opts.encoding g items

theorem spawn_spec {less : Bytes → Bytes → Bool} (hl : StrictWeak less) (g : Goroutines less)
    (opts : SorterOptions) {items : List Bytes} (hlen : ∀ i ∈ items, i.length ≤ maxUint32)
    (hsize : opts.maxChunkSize ≤ 2 ^ 63 - 2 ^ 32 - 3 ∨ totalSize items < 2 ^ 63) :
    ∃ out, spawn g opts items = .ok out ∧ out.Perm items ∧ out.Pairwise fun a b => less b a = false := by
  obtain ⟨s, hfeed, hall⟩ := exists_foldlM_feedInt64 opts hlen hsize
  exact spawnWith_spec opts.encoding hl g hfeed hall hlen

/-- If the order tells all items apart, `Spawn` puts out the same items whatever their order, the options and
the goroutines are. -/
theorem spawn_unique {less : Bytes → Bytes → Bool} (hl : StrictWeak less)
    (htotal : ∀ a b, less a b = false → less b a = false → a = b) (g g' : Goroutines less)
    (opts opts' : SorterOptions) {items items' : List Bytes} (hperm : items.Perm items') (hlen : ∀ i ∈ items, i.length ≤ maxUint32)
    (hsize : totalSize items < 2 ^ 63) :
    ∃ out, spawn g opts items = .ok out ∧ spawn g' opts' items' = .ok out := by
  obtain ⟨out, hout, hp, hs⟩ := spawn_spec hl g opts hlen (.inr hsize)
  obtain ⟨out', hout', hp', hs'⟩ := spawn_spec hl g' opts' (fun i hi => hlen i (hperm.mem_iff.mpr hi))
    (.inr (by rwa [totalSize, ← (hperm.map _).sum_nat]))
  have hsame : out = out' :=
    (hp.trans (hperm.trans hp'.symm)).eq_of_pairwise (fun a b _ _ hab hba => htotal a b hba hab) hs hs'
  exact ⟨out, hout, hsame ▸ hout'⟩

/-- The same items in other chunks, in another order and in another encoding. -/
theorem spawn_unique_two : ∃ g g' : Goroutines fun a b => decide (a < b),
    ∃ out, spawn g ⟨false, 6⟩ [[2], [1]] = .ok out ∧ spawn g' ⟨true, 1⟩ [[1], [2]] = .ok out := by
  have hl : StrictWeak fun a b : Bytes => decide (a < b) := .of_lt id fun _ _ => decide_eq_true_iff
  refine ⟨.inOrder hl, .inOrder hl, spawn_unique hl (fun a b hab hba => ?_) _ _ _ _ (.swap _ _ _) (by decide) (by decide)⟩
  exact le_antisymm (not_lt.mp (of_decide_eq_false hba)) (not_lt.mp (of_decide_eq_false hab))

/-- The counter goes up to the last multiple of `2 ^ 32`. -/
theorem foldlM_feedInt64_replicate {item : Bytes} (hitem : item.length + 4 = 2 ^ 32) {k : Nat}
    (hk : k < 2 ^ 31) :
    (List.replicate k item).foldlM (ExtSorter.feedInt64 ⟨true, 2 ^ 63 - 1⟩) ExtSorter.new =
      .ok ⟨List.replicate k item, k * 2 ^ 32, []⟩ := by
  induction k with
  | zero => rfl
  | succ k ih =>
    rw [replicate_succ', foldlM_append, ih (by omega)]
    have hsize : addInt64 (k * 2 ^ 32) (item.length + 4) = (k + 1) * 2 ^ 32 := by
      rw [addInt64_eq (by omega) (by omega)]
      omega
    simp only [Results.ok_bind, foldlM_cons, foldlM_nil, ExtSorter.feedInt64, feedWith, hsize]
    rw [if_neg (by simp only [maxUint32]; omega), if_neg (by omega)]
    push_cast
    rfl

/-- An item of `2 ^ 32` bytes is refused, and `2 ^ 31` items that bring the counter to `2 ^ 63` are lost if
no chunk is too large. -/
theorem exists_not_sorted :
    (∃ item : Bytes, ∀ opts, ExtSorter.new.feedInt64 opts item = .error (.itemTooLong (2 ^ 32))) ∧
    ∃ (items : List Bytes) (s : ExtSorter), items ≠ [] ∧ (∀ i ∈ items, i.length ≤ maxUint32) ∧
      items.foldlM (ExtSorter.feedInt64 ⟨true, 2 ^ 63 - 1⟩) ExtSorter.new = .ok s ∧
      ∀ (less : Bytes → Bytes → Bool) (g : Goroutines less), s.finalize .delta g = .ok #[] := by
  constructor
  · refine ⟨List.replicate (2 ^ 32) 0, fun opts => ?_⟩
    rw [ExtSorter.feedInt64, feedWith, length_replicate, if_pos (by simp only [maxUint32]; omega)]
  · obtain ⟨item, hitem⟩ : ∃ item : Bytes, item.length = 2 ^ 32 - 4 :=
      ⟨List.replicate (2 ^ 32 - 4) 0, length_replicate⟩
    obtain ⟨k, hk⟩ : ∃ k, k + 1 = 2 ^ 31 := ⟨2 ^ 31 - 1, by decide⟩
    refine ⟨List.replicate k item ++ [item], ⟨List.replicate k item ++ [item], -2 ^ 63, []⟩, by simp, ?_, ?_, ?_⟩
    · intro i hi
      have hi : i = item := by
        rcases mem_append.mp hi with hi | hi
        · exact (mem_replicate.mp hi).2
        · exact mem_singleton.mp hi
      rw [hi]
      simp only [maxUint32]
      omega
    · have hsize : addInt64 (k * 2 ^ 32) (item.length + 4) = -2 ^ 63 := by
        unfold addInt64
        omega
      rw [foldlM_append, foldlM_feedInt64_replicate (show item.length + 4 = 2 ^ 32 by omega) (by omega)]
      simp only [Results.ok_bind, foldlM_cons, foldlM_nil, ExtSorter.feedInt64, feedWith, hsize]
      rw [if_neg (by simp only [maxUint32]; omega), if_neg (by decide)]
      rfl
    · intro less g
      have hnone : g.finished [] = [] := (g.perm_finished []).eq_nil
      have hfiles : ExtSorter.chunkFiles .delta g ⟨List.replicate k item ++ [item], -2 ^ 63, []⟩ = [] := by
        rw [ExtSorter.chunkFiles, ExtSorter.rotatePending, if_neg (show ¬ (-2 ^ 63 : Int) > 0 by decide), hnone,
          map_nil]
      rw [ExtSorter.finalize, hfiles]
      rfl

end CronosStore.VersionDB
