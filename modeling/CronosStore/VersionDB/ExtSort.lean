import CronosStore.Foundation.BinaryHeap
import CronosStore.Foundation.ByteReader
import CronosStore.Memiavl.Node
import Mathlib.Data.List.Sort

/-!
# The external sorter

`versiondb/extsort`: items are collected in chunks, each chunk is sorted and saved in a file of
its own, and the files are merged. The files may be delta encoded; their compression is taken to
be lossless.

How `sort.Slice` places equal items and in which order the goroutines of the chunks end is
left open (`Goroutines`). Whatever they do, the items come out in order, and they are those that
were fed (`extSort_spec`).
-/

namespace CronosStore.VersionDB

open Foundation Memiavl List

/-! ## Delta encoding -/

def diffOffset : Bytes → Bytes → Nat
  | x :: a, y :: b => if x = y then diffOffset a b + 1 else 0
  | _, _ => 0

def deltaWrite (last key : Bytes) : Bytes :=
  let shared := diffOffset last key
  putUvarint shared ++ putUvarint (key.length - shared) ++ key.drop shared

inductive SorterError
  | itemTooLong (length : Nat)
  | read (error : ReadError)
  | panic
deriving DecidableEq

def deltaRead (last b : Bytes) : Except SorterError (Bytes × Bytes) :=
  match readUvarint b with
  | .error e => .error (.read e)
  | .ok (shared, b) =>
    match readUvarint b with
    | .error e => .error (.read e)
    | .ok (nonShared, b) =>
      let size := (shared + nonShared) % 2 ^ 64
      -- the length of the new item is no `int`, or the front of it or of the last item is out of range
      if 2 ^ 63 ≤ size ∨ size < shared ∨ last.length < shared then .error .panic
      else
        match readFull (size - shared) b with
        | .error e => .error (.read e)
        | .ok (tail, b) => .ok (last.take shared ++ tail, b)

inductive ItemEncoding
  | plain
  | delta
deriving DecidableEq

def ItemEncoding.write : ItemEncoding → Bytes → Bytes → Bytes
  | .plain, _, item => putUvarint item.length ++ item
  | .delta, last, item => deltaWrite last item

def encodeItems (enc : ItemEncoding) : Bytes → List Bytes → Bytes
  | _, [] => []
  | last, item :: items => enc.write last item ++ encodeItems enc item items

def nextItem : ItemEncoding → Bytes → Bytes → Except SorterError (Option (Bytes × Bytes))
  | .plain, _, b =>
    match readUvarint b with
    | .error e => if e = .eof then .ok none else .error (.read e)
    | .ok (size, b) =>
      match readFull size b with
      | .error e => .error (.read e)
      | .ok r => .ok (some r)
  | .delta, last, b =>
    match deltaRead last b with
    | .error e => if e = .read .eof then .ok none else .error e
    | .ok r => .ok (some r)

/-- A chunk that is being read: the item in front and the rest of the file. A delta decoder keeps
the item as its last one. -/
structure HeapEntry where
  value : Bytes
  reader : Bytes
deriving DecidableEq

section Merge

variable (enc : ItemEncoding)

def newHeapEntry (stream : Bytes) : Except SorterError (Option HeapEntry) :=
  (nextItem enc [] stream).map fun r => r.map fun r => ⟨r.1, r.2⟩

def HeapEntry.update (entry : HeapEntry) : Except SorterError (Option HeapEntry) :=
  (nextItem enc entry.value entry.reader).map fun r => r.map fun r => ⟨r.1, r.2⟩

def heapEntries : List Bytes → Except SorterError (List HeapEntry)
  | [] => .ok []
  | stream :: streams =>
    match newHeapEntry enc stream with
    | .error e => .error e
    | .ok entry =>
      match heapEntries streams with
      | .error e => .error e
      | .ok entries => .ok (entry.toList ++ entries)

variable (less : Bytes → Bytes → Bool)

def entryLess (a b : HeapEntry) : Bool := less a.value b.value

def newMultiWayMerge (streams : List Bytes) : Except SorterError (Array HeapEntry) :=
  (heapEntries enc streams).map fun entries => BinaryHeap.init (entryLess less) entries.toArray

def next (merge : Array HeapEntry) : Except SorterError (Option (Bytes × Array HeapEntry)) :=
  if h : 0 < merge.size then
    match merge[0].update enc with
    | .error e => .error e
    | .ok none => .ok (some (merge[0].value, BinaryHeap.removeTop (entryLess less) merge))
    | .ok (some entry) =>
      .ok (some (merge[0].value, BinaryHeap.fixTop (entryLess less) (merge.set 0 entry)))
  else .ok none

def drain : Nat → Array HeapEntry → Except SorterError (List Bytes)
  | 0, _ => .ok []
  | fuel + 1, merge =>
    match next enc less merge with
    | .error e => .error e
    | .ok none => .ok []
    | .ok (some (item, merge)) => (drain fuel merge).map (item :: ·)

end Merge

/-! ## The sorter -/

/-- The current chunk and those that were handed to goroutines. -/
structure ExtSorter where
  currentChunk : List Bytes
  currentChunkSize : Int
  chunks : List (List Bytes)

namespace ExtSorter

def new : ExtSorter := ⟨[], 0, []⟩

def sortChunkAndRotate (s : ExtSorter) : ExtSorter := ⟨[], 0, s.chunks ++ [s.currentChunk]⟩

/-- `Feed`; `add` is the addition of the counter. -/
def feedWith (add : Int → Int → Int) (maxChunkSize : Int) (s : ExtSorter) (item : Bytes) :
    Except SorterError ExtSorter :=
  if item.length > maxUint32 then .error (.itemTooLong item.length)
  else
    let s := { s with
      currentChunk := s.currentChunk ++ [item]
      currentChunkSize := add s.currentChunkSize (item.length + 4) }
    .ok (if s.currentChunkSize ≥ maxChunkSize then s.sortChunkAndRotate else s)

/-- A chunk is in memory, so its size is below the bound of an `int64` in practice. -/
def feed : Int → ExtSorter → Bytes → Except SorterError ExtSorter := feedWith (· + ·)

def rotatePending (s : ExtSorter) : ExtSorter :=
  if s.currentChunkSize > 0 then s.sortChunkAndRotate else s

end ExtSorter

structure Goroutines (less : Bytes → Bytes → Bool) where
  sortSlice : List Bytes → List Bytes
  perm_sortSlice : ∀ l, (sortSlice l).Perm l
  sorted_sortSlice : ∀ l, (sortSlice l).Pairwise fun a b => less b a = false
  finished : List (List Bytes) → List (List Bytes)
  perm_finished : ∀ l, (finished l).Perm l

def Goroutines.inOrder {less : Bytes → Bytes → Bool} (hl : BinaryHeap.StrictWeak less) : Goroutines less where
  sortSlice := List.insertionSort fun a b => less b a = false
  perm_sortSlice := perm_insertionSort _
  sorted_sortSlice l :=
    have : IsTrans Bytes fun a b => less b a = false := ⟨fun _ _ _ h h' => hl.trans h h'⟩
    have : Std.Total fun a b : Bytes => less b a = false := ⟨fun a b => by
      cases h : less b a with
      | false => exact .inl rfl
      | true => exact .inr (hl.asymm h)⟩
    pairwise_insertionSort _ l
  finished := id
  perm_finished := .refl

def ExtSorter.chunkFiles {less : Bytes → Bytes → Bool} (enc : ItemEncoding) (g : Goroutines less)
    (s : ExtSorter) : List Bytes :=
  (g.finished s.rotatePending.chunks).map fun c => encodeItems enc [] (g.sortSlice c)

def ExtSorter.finalize {less : Bytes → Bytes → Bool} (enc : ItemEncoding) (g : Goroutines less)
    (s : ExtSorter) : Except SorterError (Array HeapEntry) :=
  newMultiWayMerge enc less (s.chunkFiles enc g)

/-- `Spawn`: the items that are put out, for those that are put in. An error is a panic of the goroutine. -/
def spawnWith {less : Bytes → Bytes → Bool} (feed : ExtSorter → Bytes → Except SorterError ExtSorter)
    (enc : ItemEncoding) (g : Goroutines less) (items : List Bytes) : Except SorterError (List Bytes) :=
  match items.foldlM feed ExtSorter.new with
  | .error e => .error e
  | .ok s =>
    match s.finalize enc g with
    | .error e => .error e
    -- an item takes a byte of a chunk file
    | .ok merge => drain enc less ((s.chunkFiles enc g).flatten.length + 1) merge

def extSort {less : Bytes → Bytes → Bool} (g : Goroutines less) (maxChunkSize : Int) (items : List Bytes) :
    Except SorterError (List Bytes) :=
  spawnWith (ExtSorter.feed maxChunkSize) .delta g items

/-! ## Round trip -/

theorem diffOffset_spec (a b : Bytes) : diffOffset a b ≤ a.length ∧ diffOffset a b ≤ b.length ∧
    a.take (diffOffset a b) = b.take (diffOffset a b) := by
  induction a generalizing b with
  | nil => simp [diffOffset]
  | cons x a ih =>
    cases b with
    | nil => simp [diffOffset]
    | cons y b =>
      rw [diffOffset]
      split_ifs with h
      · obtain ⟨h1, h2, h3⟩ := ih b
        simp only [length_cons, take_succ_cons, h, h3, and_true]
        omega
      · simp

theorem deltaRead_append {last key : Bytes} (hlen : key.length < 2 ^ 63) (b : Bytes) :
    deltaRead last (deltaWrite last key ++ b) = .ok (key, b) := by
  obtain ⟨hlast, hkey, htake⟩ := diffOffset_spec last key
  have hsize : (diffOffset last key + (key.length - diffOffset last key)) % 2 ^ 64 = key.length := by omega
  rw [deltaWrite, append_assoc, append_assoc, deltaRead, readUvarint_append (by omega)]
  simp only
  rw [readUvarint_append (by omega)]
  simp only [hsize]
  rw [if_neg (by omega), readFull_append length_drop]
  simp only [htake, take_append_drop]

section Streams

variable (enc : ItemEncoding)

theorem nextItem_nil (last : Bytes) : nextItem enc last [] = .ok none := by
  cases enc <;> rfl

theorem nextItem_cons {last item : Bytes} (hlen : item.length < 2 ^ 63) (items : List Bytes) :
    nextItem enc last (encodeItems enc last (item :: items)) = .ok (some (item, encodeItems enc item items)) := by
  rw [encodeItems]
  cases enc with
  | plain =>
    rw [ItemEncoding.write, append_assoc, nextItem, readUvarint_append (by omega)]
    simp only [readFull_append]
  | delta => rw [ItemEncoding.write, nextItem, deltaRead_append hlen]

theorem length_write_pos (last item : Bytes) : 0 < (enc.write last item).length := by
  have hpos : ∀ x, 0 < (putUvarint x).length := by
    intro x
    have : putUvarint x ≠ [] := by
      unfold putUvarint putUvarintAux
      split_ifs <;> simp
    exact length_pos_of_ne_nil this
  cases enc with
  | plain =>
    rw [ItemEncoding.write, length_append]
    exact Nat.add_pos_left (hpos _) _
  | delta =>
    rw [ItemEncoding.write, deltaWrite, length_append, length_append]
    exact Nat.add_pos_left (Nat.add_pos_left (hpos _) _) _

theorem length_le_encodeItems (last : Bytes) (items : List Bytes) :
    items.length ≤ (encodeItems enc last items).length := by
  induction items generalizing last with
  | nil => exact Nat.le_refl 0
  | cons item items ih =>
    have hpos := length_write_pos enc last item
    have := ih item
    rw [encodeItems, length_append, length_cons]
    omega

end Streams

/-! ## The merge -/

section Merge

variable {enc : ItemEncoding}

def decodeItems (enc : ItemEncoding) : Nat → Bytes → Bytes → List Bytes
  | 0, _, _ => []
  | fuel + 1, last, b =>
    match nextItem enc last b with
    | .ok (some (item, b)) => item :: decodeItems enc fuel item b
    | _ => []

theorem decodeItems_encodeItems {items : List Bytes} (hlen : ∀ i ∈ items, i.length < 2 ^ 63) {fuel : Nat}
    (hfuel : items.length ≤ fuel) (last : Bytes) :
    decodeItems enc fuel last (encodeItems enc last items) = items := by
  induction items generalizing fuel last with
  | nil =>
    cases fuel with
    | zero => rfl
    | succ fuel => rw [decodeItems, encodeItems, nextItem_nil]
  | cons item items ih =>
    obtain ⟨hitem, hlen⟩ := forall_mem_cons.mp hlen
    cases fuel with
    | zero => cases hfuel
    | succ fuel =>
      rw [decodeItems, nextItem_cons enc hitem]
      simp only [ih hlen (Nat.le_of_succ_le_succ hfuel) item]

namespace HeapEntry

def items (enc : ItemEncoding) (e : HeapEntry) : List Bytes :=
  e.value :: decodeItems enc e.reader.length e.value e.reader

def Sound (enc : ItemEncoding) (less : Bytes → Bytes → Bool) (e : HeapEntry) : Prop :=
  ∃ items, e.reader = encodeItems enc e.value items ∧ (∀ i ∈ items, i.length < 2 ^ 63) ∧
    (e.value :: items).Pairwise fun a b => less b a = false

variable {less : Bytes → Bytes → Bool} {e : HeapEntry}

theorem items_eq {items : List Bytes} (hreader : e.reader = encodeItems enc e.value items)
    (hlen : ∀ i ∈ items, i.length < 2 ^ 63) : e.items enc = e.value :: items := by
  rw [HeapEntry.items, hreader, decodeItems_encodeItems hlen (length_le_encodeItems _ _ _)]

theorem Sound.value_le (h : e.Sound enc less) (hl : BinaryHeap.StrictWeak less) {x : Bytes}
    (hx : x ∈ e.items enc) : less x e.value = false := by
  obtain ⟨items, hreader, hlen, hsorted⟩ := h
  rw [items_eq hreader hlen] at hx
  rcases mem_cons.mp hx with rfl | hx
  · exact hl.irrefl _
  · exact (pairwise_cons.mp hsorted).1 x hx

theorem Sound.update (h : e.Sound enc less) : e.update enc = .ok none ∧ e.items enc = [e.value] ∨
    ∃ e', e.update enc = .ok (some e') ∧ e.items enc = e.value :: e'.items enc ∧ e'.Sound enc less := by
  obtain ⟨items, hreader, hlen, hsorted⟩ := h
  cases items with
  | nil =>
    refine .inl ⟨?_, items_eq hreader hlen⟩
    rw [HeapEntry.update, hreader, encodeItems, nextItem_nil]
    rfl
  | cons item items =>
    obtain ⟨hitem, hlen'⟩ := forall_mem_cons.mp hlen
    refine .inr ⟨⟨item, encodeItems enc item items⟩, ?_, ?_, items, rfl, hlen', (pairwise_cons.mp hsorted).2⟩
    · rw [HeapEntry.update, hreader, nextItem_cons enc hitem]
      rfl
    · rw [items_eq hreader hlen, items_eq rfl hlen']

end HeapEntry

open BinaryHeap List

variable {less : Bytes → Bytes → Bool}

theorem strictWeak_entryLess (hl : StrictWeak less) : StrictWeak (entryLess less) :=
  ⟨fun h => hl.asymm h, fun h h' => hl.trans h h'⟩

structure Merging (enc : ItemEncoding) (less : Bytes → Bytes → Bool) (h : Array HeapEntry) : Prop where
  ordered : OrderedFrom (entryLess less) 0 h
  sound : ∀ e ∈ h.toList, e.Sound enc less

def remaining (enc : ItemEncoding) (h : Array HeapEntry) : List Bytes := h.toList.flatMap (HeapEntry.items enc)

variable {h : Array HeapEntry}

theorem Merging.top_le (hm : Merging enc less h) (hl : StrictWeak less) (hpos : 0 < h.size) {x : Bytes}
    (hx : x ∈ remaining enc h) : less x h[0].value = false := by
  obtain ⟨e, he, hxe⟩ := mem_flatMap.mp hx
  have htop : less e.value h[0].value = false := BinaryHeap.top_le (strictWeak_entryLess hl) hm.ordered
    (Array.getElem?_eq_getElem hpos) (Array.mem_toList_iff.mp he)
  exact hl.trans htop ((hm.sound e he).value_le hl hxe)

theorem Merging.next (hm : Merging enc less h) (hl : StrictWeak less) (hpos : 0 < h.size) :
    ∃ item h', next enc less h = .ok (some (item, h')) ∧ Merging enc less h' ∧
      (remaining enc h).Perm (item :: remaining enc h') ∧ ∀ x ∈ remaining enc h, less x item = false := by
  have hmem : h[0] ∈ h.toList := Array.mem_toList_iff.mpr (Array.getElem_mem hpos)
  rw [VersionDB.next, dif_pos hpos]
  rcases (hm.sound _ hmem).update with ⟨hupdate, hitems⟩ | ⟨e', hupdate, hitems, hsound⟩
  · obtain ⟨hordered, hperm⟩ := removeTop_spec (strictWeak_entryLess hl) hm.ordered hpos
    rw [hupdate]
    refine ⟨_, _, rfl, ⟨hordered, fun e he => hm.sound e (hperm.mem_iff.mpr (mem_cons_of_mem _ he))⟩,
      ?_, fun x hx => hm.top_le hl hpos hx⟩
    have hall := hperm.flatMap_right (HeapEntry.items enc)
    rw [flatMap_cons, hitems] at hall
    exact hall
  · have hfix : (fixTop (entryLess less) (h.set 0 e')).toList.Perm (h.set 0 e').toList :=
      (down_perm _ 0).toList
    obtain ⟨rest, hrest⟩ : ∃ rest, h.toList = h[0] :: rest := by
      obtain ⟨l⟩ := h
      cases l with
      | nil => cases hpos
      | cons a l => exact ⟨l, rfl⟩
    have hset : (h.set 0 e').toList = e' :: rest := by
      rw [Array.toList_set, hrest]
      rfl
    rw [hset] at hfix
    rw [hupdate]
    refine ⟨_, _, rfl, ⟨?_, fun e he => ?_⟩, ?_, fun x hx => hm.top_le hl hpos hx⟩
    · refine fixTop_ordered (strictWeak_entryLess hl) hm.ordered fun k hk _ => ?_
      rw [Array.getElem?_set, if_neg (by omega)]
    · rcases mem_cons.mp (hfix.mem_iff.mp he) with rfl | he
      · exact hsound
      · exact hm.sound e (hrest ▸ mem_cons_of_mem _ he)
    · have hall := hfix.flatMap_right (HeapEntry.items enc)
      rw [flatMap_cons] at hall
      rw [remaining, hrest, flatMap_cons, hitems, cons_append]
      exact (hall.symm).cons _

def Yields (enc : ItemEncoding) (less : Bytes → Bytes → Bool) : Array HeapEntry → List Bytes → Prop
  | merge, [] => VersionDB.next enc less merge = .ok none
  | merge, item :: items => ∃ merge', VersionDB.next enc less merge = .ok (some (item, merge')) ∧
      Yields enc less merge' items

theorem Merging.yields (hm : Merging enc less h) (hl : StrictWeak less) :
    ∃ out, Yields enc less h out ∧ out.Perm (remaining enc h) ∧ out.Pairwise fun a b => less b a = false := by
  generalize hn : (remaining enc h).length = n
  induction n generalizing h with
  | zero =>
    by_cases hpos : 0 < h.size
    · obtain ⟨item, h', -, -, hperm, -⟩ := hm.next hl hpos
      have hlen := hperm.length_eq
      rw [hn] at hlen
      cases hlen
    · refine ⟨[], dif_neg hpos, ?_, .nil⟩
      rw [length_eq_zero_iff.mp hn]
  | succ n ih =>
    have hpos : 0 < h.size := by
      by_contra hpos
      rw [Array.eq_empty_of_size_eq_zero (Nat.eq_zero_of_not_pos hpos)] at hn
      cases hn
    obtain ⟨item, h', hnext, hm', hperm, hmin⟩ := hm.next hl hpos
    have hlen := hperm.length_eq
    rw [length_cons] at hlen
    obtain ⟨out, hout, hp, hs⟩ := ih hm' (by omega)
    refine ⟨item :: out, ⟨h', hnext, hout⟩, (hp.cons item).trans hperm.symm, ?_⟩
    refine pairwise_cons.mpr ⟨fun x hx => ?_, hs⟩
    exact hmin x (hperm.mem_iff.mpr (mem_cons_of_mem _ (hp.mem_iff.mp hx)))

theorem Yields.drain {out : List Bytes} (hy : Yields enc less h out) {fuel : Nat}
    (hfuel : out.length < fuel) : drain enc less fuel h = .ok out := by
  induction out generalizing h fuel with
  | nil =>
    cases fuel with
    | zero => cases hfuel
    | succ fuel =>
      have hnext : VersionDB.next enc less h = .ok none := hy
      rw [VersionDB.drain, hnext]
  | cons item out ih =>
    cases fuel with
    | zero => cases hfuel
    | succ fuel =>
      obtain ⟨h', hnext, hout⟩ := hy
      rw [VersionDB.drain, hnext]
      simp only [ih hout (Nat.lt_of_succ_lt_succ hfuel), Except.map]

theorem heapEntries_spec {chunks : List (List Bytes)}
    (hlen : ∀ c ∈ chunks, ∀ i ∈ c, i.length < 2 ^ 63)
    (hsorted : ∀ c ∈ chunks, c.Pairwise fun a b => less b a = false) :
    ∃ entries, heapEntries enc (chunks.map (encodeItems enc [])) = .ok entries ∧
      (∀ e ∈ entries, e.Sound enc less) ∧ entries.flatMap (HeapEntry.items enc) = chunks.flatten := by
  induction chunks with
  | nil => exact ⟨[], rfl, fun e he => absurd he not_mem_nil, rfl⟩
  | cons c chunks ih =>
    obtain ⟨hlen1, hlen⟩ := forall_mem_cons.mp hlen
    obtain ⟨hsorted1, hsorted⟩ := forall_mem_cons.mp hsorted
    obtain ⟨entries, hentries, hsound, hitems⟩ := ih hlen hsorted
    cases c with
    | nil =>
      refine ⟨entries, ?_, hsound, by rw [hitems, flatten_cons, nil_append]⟩
      rw [map_cons, heapEntries, newHeapEntry, encodeItems, nextItem_nil, hentries]
      rfl
    | cons item items =>
      obtain ⟨hitem, hrest⟩ := forall_mem_cons.mp hlen1
      have hnew : newHeapEntry enc (encodeItems enc [] (item :: items)) =
          .ok (some ⟨item, encodeItems enc item items⟩) := by
        rw [newHeapEntry, nextItem_cons enc hitem]
        rfl
      refine ⟨⟨item, encodeItems enc item items⟩ :: entries, ?_, ?_, ?_⟩
      · rw [map_cons, heapEntries, hnew, hentries]
        rfl
      · exact forall_mem_cons.mpr ⟨⟨items, rfl, hrest, hsorted1⟩, hsound⟩
      · rw [flatMap_cons, HeapEntry.items_eq rfl hrest, hitems, flatten_cons]

theorem merge_spec (hl : StrictWeak less) {chunks : List (List Bytes)}
    (hlen : ∀ c ∈ chunks, ∀ i ∈ c, i.length < 2 ^ 63)
    (hsorted : ∀ c ∈ chunks, c.Pairwise fun a b => less b a = false) :
    ∃ merge out, newMultiWayMerge enc less (chunks.map (encodeItems enc [])) = .ok merge ∧
      Yields enc less merge out ∧ out.Perm chunks.flatten ∧ out.Pairwise fun a b => less b a = false := by
  obtain ⟨entries, hentries, hsound, hitems⟩ := @heapEntries_spec enc less chunks hlen hsorted
  obtain ⟨hordered, hperm⟩ := init_spec (strictWeak_entryLess hl) entries.toArray
  have hperm := hperm.toList
  have hm : Merging enc less (init (entryLess less) entries.toArray) :=
    ⟨hordered, fun e he => hsound e (hperm.mem_iff.mp he)⟩
  have hremaining : (remaining enc (init (entryLess less) entries.toArray)).Perm chunks.flatten := by
    rw [← hitems]
    exact hperm.flatMap_right (HeapEntry.items enc)
  obtain ⟨out, hout, hp, hs⟩ := hm.yields hl
  refine ⟨_, out, ?_, hout, hp.trans hremaining, hs⟩
  rw [newMultiWayMerge, hentries]
  rfl

end Merge

/-! ## What comes out -/

section Sorter

open BinaryHeap List

variable {less : Bytes → Bytes → Bool}

variable {s : ExtSorter} {items : List Bytes} {item : Bytes}

theorem ExtSorter.finalize_spec (enc : ItemEncoding) (hl : StrictWeak less) (g : Goroutines less)
    (hall : s.rotatePending.chunks.flatten = items) (hlen : ∀ i ∈ items, i.length ≤ maxUint32) :
    ∃ merge out, s.finalize enc g = .ok merge ∧ Yields enc less merge out ∧ out.Perm items ∧
      out.Pairwise fun a b => less b a = false := by
  let chunks := (g.finished s.rotatePending.chunks).map g.sortSlice
  have hflat : chunks.flatten.Perm items := by
    have hsort : ∀ cs : List (List Bytes), (cs.map g.sortSlice).flatten.Perm cs.flatten := by
      intro cs
      induction cs with
      | nil => exact .refl _
      | cons c cs ih => exact (g.perm_sortSlice c).append ih
    exact (hsort _).trans (hall ▸ (g.perm_finished _).flatten)
  have hshort : ∀ c ∈ chunks, ∀ i ∈ c, i.length < 2 ^ 63 := by
    intro c hc i hi
    have := hlen i (hflat.mem_iff.mp (mem_flatten.mpr ⟨c, hc, hi⟩))
    simp only [maxUint32] at this
    omega
  have hsorted : ∀ c ∈ chunks, c.Pairwise fun a b => less b a = false := by
    intro c hc
    obtain ⟨c', -, rfl⟩ := mem_map.mp hc
    exact g.sorted_sortSlice c'
  obtain ⟨merge, out, hmerge, hyields, hp, hout⟩ := @merge_spec enc less hl chunks hshort hsorted
  refine ⟨merge, out, ?_, hyields, hp.trans hflat, hout⟩
  rw [ExtSorter.finalize, ← hmerge, ExtSorter.chunkFiles, map_map]
  rfl

theorem ExtSorter.length_le_chunkFiles (enc : ItemEncoding) (g : Goroutines less) (s : ExtSorter) :
    s.rotatePending.chunks.flatten.length ≤ (s.chunkFiles enc g).flatten.length := by
  rw [ExtSorter.chunkFiles, ← (g.perm_finished s.rotatePending.chunks).flatten.length_eq]
  induction g.finished s.rotatePending.chunks with
  | nil => exact Nat.le_refl _
  | cons c chunks ih =>
    have hc := length_le_encodeItems enc [] (g.sortSlice c)
    rw [(g.perm_sortSlice c).length_eq] at hc
    rw [map_cons, flatten_cons, flatten_cons, length_append, length_append]
    exact Nat.add_le_add hc ih

theorem spawnWith_spec {feed : ExtSorter → Bytes → Except SorterError ExtSorter} (enc : ItemEncoding)
    (hl : StrictWeak less) (g : Goroutines less) (hfeed : items.foldlM feed ExtSorter.new = .ok s)
    (hall : s.rotatePending.chunks.flatten = items) (hlen : ∀ i ∈ items, i.length ≤ maxUint32) :
    ∃ out, spawnWith feed enc g items = .ok out ∧ out.Perm items ∧ out.Pairwise fun a b => less b a = false := by
  obtain ⟨merge, out, hmerge, hyields, hperm, hout⟩ := ExtSorter.finalize_spec enc hl g hall hlen
  refine ⟨out, ?_, hperm, hout⟩
  have hfuel : out.length < (s.chunkFiles enc g).flatten.length + 1 := by
    rw [hperm.length_eq, ← hall]
    exact Nat.lt_succ_of_le (s.length_le_chunkFiles enc g)
  rw [spawnWith, hfeed]
  simp only [hmerge]
  exact hyields.drain hfuel

structure ExtSorter.Sound (s : ExtSorter) : Prop where
  nonneg : 0 ≤ s.currentChunkSize
  pending : s.currentChunk ≠ [] → 0 < s.currentChunkSize

theorem ExtSorter.Sound.feed (hs : s.Sound) (hlen : item.length ≤ maxUint32)
    (maxChunkSize : Int) : ∃ s', s.feed maxChunkSize item = .ok s' ∧ s'.Sound ∧
      s'.chunks.flatten ++ s'.currentChunk = s.chunks.flatten ++ s.currentChunk ++ [item] := by
  have hnonneg := hs.nonneg
  rw [ExtSorter.feed, feedWith, if_neg (by omega)]
  refine ⟨_, rfl, ?_⟩
  split_ifs
  · refine ⟨⟨Int.le_refl 0, fun h => absurd rfl h⟩, ?_⟩
    simp [ExtSorter.sortChunkAndRotate]
  · refine ⟨⟨by simp only; omega, fun _ => by simp only; omega⟩, ?_⟩
    simp

theorem ExtSorter.Sound.rotatePending_flatten (hs : s.Sound) :
    s.rotatePending.chunks.flatten = s.chunks.flatten ++ s.currentChunk := by
  rw [ExtSorter.rotatePending]
  split_ifs with hsize
  · simp [ExtSorter.sortChunkAndRotate]
  · have hempty : s.currentChunk = [] := by
      by_contra hne
      exact hsize (hs.pending hne)
    rw [hempty, append_nil]

theorem ExtSorter.sound_new : ExtSorter.new.Sound := ⟨Int.le_refl 0, fun h => absurd rfl h⟩

theorem foldlM_feed (hlen : ∀ i ∈ items, i.length ≤ maxUint32) (maxChunkSize : Int) (hs : s.Sound) :
    ∃ s', items.foldlM (ExtSorter.feed maxChunkSize) s = .ok s' ∧ s'.Sound ∧
      s'.chunks.flatten ++ s'.currentChunk = s.chunks.flatten ++ s.currentChunk ++ items := by
  induction items generalizing s with
  | nil => exact ⟨s, rfl, hs, (append_nil _).symm⟩
  | cons item items ih =>
    obtain ⟨hitem, hlen⟩ := forall_mem_cons.mp hlen
    obtain ⟨s1, hfeed, hs1, heq1⟩ := hs.feed hitem maxChunkSize
    obtain ⟨s', hfold, hs', heq⟩ := ih hlen hs1
    refine ⟨s', ?_, hs', by rw [heq, heq1, append_assoc, singleton_append]⟩
    rw [foldlM_cons, hfeed]
    exact hfold

theorem foldlM_feed_error (hitem : item ∈ items)
    (hlen : maxUint32 < item.length) (maxChunkSize : Int) (s : ExtSorter) :
    ∃ e, items.foldlM (ExtSorter.feed maxChunkSize) s = .error e := by
  induction items generalizing s with
  | nil => cases hitem
  | cons i items ih =>
    rw [foldlM_cons]
    cases hfeed : s.feed maxChunkSize i with
    | error e => exact ⟨e, rfl⟩
    | ok s' =>
      rcases mem_cons.mp hitem with rfl | hitem
      · rw [ExtSorter.feed, ExtSorter.feedWith, if_pos hlen] at hfeed
        cases hfeed
      · exact ih hitem s'

theorem extSort_spec (hl : StrictWeak less) (g : Goroutines less) (maxChunkSize : Int)
    (hlen : ∀ i ∈ items, i.length ≤ maxUint32) :
    ∃ out, extSort g maxChunkSize items = .ok out ∧ out.Perm items ∧
      out.Pairwise fun a b => less b a = false := by
  obtain ⟨s, hfeed, hs, heq⟩ := foldlM_feed hlen maxChunkSize ExtSorter.sound_new
  exact spawnWith_spec .delta hl g hfeed (hs.rotatePending_flatten.trans heq) hlen

theorem extSort_error (g : Goroutines less) (maxChunkSize : Int) (hitem : item ∈ items)
    (hlen : maxUint32 < item.length) : ∃ e, extSort g maxChunkSize items = .error e := by
  obtain ⟨e, he⟩ := foldlM_feed_error hitem hlen maxChunkSize ExtSorter.new
  rw [extSort, spawnWith, he]
  exact ⟨e, rfl⟩

end Sorter

end CronosStore.VersionDB
