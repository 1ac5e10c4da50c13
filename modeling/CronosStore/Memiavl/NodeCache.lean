import CronosStore.Memiavl.World
import CronosStore.Memiavl.Lookup

/-!
# The node cache

A tree may keep values it has read or written in a cache, and `Get` asks the cache first. The cache
is split into shards, each an iavl cache, which may evict anything when a node is added. What such a
cache is assumed to do is `CacheLib.Lawful`.

Here `Copy` is as the code has it: it may be taken of a tree with unsaved changes, and then it
shares cells that both trees go on writing in place, under the cache of the other. If every copy is
taken of a saved tree, the cached values stay the values of the tree (`CachedWorld.Coherent`),
whatever is evicted.
-/

namespace CronosStore.Memiavl

open Foundation List Option

/-- What the node cache takes from elsewhere: the checksum that picks a shard, and the iavl cache
with its constructor. `get` returns the value of the node it finds. Which nodes `add` evicts may
depend on anything the cache holds. -/
structure CacheLib where
  checksumIEEE : Bytes → UInt32
  Cache : Type
  new : Int → Cache
  add : Cache → Bytes → Slice → Cache
  get : Cache → Bytes → Option Slice × Cache
  remove : Cache → Bytes → Cache

structure CacheLib.Lawful (L : CacheLib) : Prop where
  get_new : ∀ (capacity : Int) (key : Bytes), (L.get (L.new capacity) key).1 = none
  get_add : ∀ (c : L.Cache) (key : Bytes) (value : Slice) (key' : Bytes) (x : Slice),
    (L.get (L.add c key value) key').1 = some x →
      if key' = key then x = value else (L.get c key').1 = some x
  get_get : ∀ (c : L.Cache) (key key' : Bytes) (x : Slice),
    (L.get (L.get c key).2 key').1 = some x → (L.get c key').1 = some x
  get_remove : ∀ (c : L.Cache) (key key' : Bytes) (x : Slice),
    (L.get (L.remove c key) key').1 = some x → key' ≠ key ∧ (L.get c key').1 = some x

def maxSharedCacheShards : Nat := 16

structure SharedCache (L : CacheLib) where
  shards : List L.Cache
  shardMask : UInt32

namespace SharedCache

variable {L : CacheLib}

def growShards (size : Int) : Nat → Nat → Nat
  | 0, shardCount => shardCount
  | rounds + 1, shardCount =>
    if shardCount < maxSharedCacheShards ∧ (2 * shardCount : Nat) ≤ size then
      growShards size rounds (2 * shardCount)
    else shardCount

def newSharedCache (L : CacheLib) (size : Int) : SharedCache L :=
  -- the loop starts from one shard, so it ends before a round for each of the shards
  let shardCount := growShards size maxSharedCacheShards 1
  let base := size.tdiv shardCount
  let rem := size.tmod shardCount
  { shards := (List.range shardCount).map fun i : Nat => L.new (if i < rem then base + 1 else base)
    shardMask := UInt32.ofNat (shardCount - 1) }

def shardForKey (c : SharedCache L) (key : Bytes) : Nat :=
  if c.shardMask = 0 then 0 else (L.checksumIEEE key &&& c.shardMask).toNat

def onShard (c : SharedCache L) (key : Bytes) (f : L.Cache → L.Cache) : SharedCache L :=
  { c with shards := c.shards.modify (c.shardForKey key) f }

def add (c : SharedCache L) (key : Bytes) (value : Slice) : SharedCache L :=
  c.onShard key fun shard => L.add shard key value

def get (c : SharedCache L) (key : Bytes) : Option Slice × SharedCache L :=
  ((c.shards[c.shardForKey key]?).bind fun shard => (L.get shard key).1,
    c.onShard key fun shard => (L.get shard key).2)

def remove (c : SharedCache L) (key : Bytes) : SharedCache L :=
  c.onShard key fun shard => L.remove shard key

end SharedCache

def newCache (L : CacheLib) (cacheSize : Int) : Option (SharedCache L) :=
  if cacheSize = 0 then none else some (.newSharedCache L cacheSize)

/-! ## Trees with a cache -/

structure CachedTree (L : CacheLib) extends Handle where
  cache : Option (SharedCache L)

namespace CachedTree

variable {L : CacheLib}

/-- The tree changes by `f`, and its cache, if it has one, by `g`. -/
def write (f : Heap → Handle → Option (Handle × Heap)) (g : SharedCache L → SharedCache L)
    (h : Heap) (t : CachedTree L) : Option (CachedTree L × Heap) := do
  let (hd, h) ← f h t.toHandle
  pure ({ toHandle := hd, cache := t.cache.map g }, h)

def set (key : Bytes) (value : Slice) : Heap → CachedTree L → Option (CachedTree L × Heap) :=
  write (Handle.set key value) fun c => c.add key (some (value.getD []))

def remove (key : Bytes) : Heap → CachedTree L → Option (CachedTree L × Heap) :=
  write (Handle.remove key) fun c => c.remove key

def saveVersion [Sha256] (updateHash : Bool) : Heap → CachedTree L → Option (CachedTree L × Heap) :=
  write (Handle.saveVersion updateHash) id

def get (h : Heap) (t : CachedTree L) (key : Bytes) : Option (Slice × CachedTree L) :=
  match t.cache with
  | none => do
    let (_, value) ← t.tree.getWithIndex h key
    pure (value, t)
  | some c =>
    match c.get key with
    | (some value, c) => pure (value, { t with cache := some c })
    | (none, c) => do
      let (_, value) ← t.tree.getWithIndex h key
      match value with
      | none => pure (none, { t with cache := some c })
      | some x => pure (some x, { t with cache := some (c.add key (some x)) })

def has (h : Heap) (t : CachedTree L) (key : Bytes) : Option (Bool × CachedTree L) := do
  let (value, t) ← t.get h key
  pure (value.isSome, t)

def copy (t : CachedTree L) (cacheSize : Int) : CachedTree L × CachedTree L :=
  ({ t with tree := t.tree.copy.1 },
    { tree := t.tree.copy.2, changed := t.changed, cache := newCache L cacheSize })

end CachedTree

structure CachedWorld (L : CacheLib) where
  heap : Heap
  trees : List (CachedTree L)

inductive CacheOp
  | set (i : Nat) (key : Bytes) (value : Slice)
  | remove (i : Nat) (key : Bytes)
  | saveVersion (i : Nat) (updateHash : Bool)
  | get (i : Nat) (key : Bytes)
  | has (i : Nat) (key : Bytes)
  | copy (i : Nat) (cacheSize : Int)
deriving DecidableEq

inductive Answer
  | value (value : Slice)
  | found (found : Bool)
deriving DecidableEq

def CacheOp.uncached : CacheOp → CacheOp
  | .copy i _ => .copy i 0
  | op => op

namespace CachedWorld

variable {L : CacheLib}

def start (L : CacheLib) (hd : Handle) (cacheSize : Int) : CachedWorld L :=
  { heap := [], trees := [{ toHandle := hd, cache := newCache L cacheSize }] }

def change (w : CachedWorld L) (i : Nat)
    (f : Heap → CachedTree L → Option (CachedTree L × Heap)) : Option (CachedWorld L) :=
  match w.trees[i]? with
  | none => some w
  | some t => do
    let (t, h) ← f w.heap t
    pure { heap := h, trees := w.trees.set i t }

def read (w : CachedWorld L) (i : Nat) (f : CachedTree L → Option (Answer × CachedTree L)) :
    Option (CachedWorld L × Option Answer) :=
  match w.trees[i]? with
  | none => some (w, none)
  | some t => do
    let (answer, t) ← f t
    pure ({ w with trees := w.trees.set i t }, some answer)

variable [Sha256]

def step (w : CachedWorld L) : CacheOp → Option (CachedWorld L × Option Answer)
  | .set i key value => (w.change i (CachedTree.set key value)).map (·, none)
  | .remove i key => (w.change i (CachedTree.remove key)).map (·, none)
  | .saveVersion i updateHash => (w.change i (CachedTree.saveVersion updateHash)).map (·, none)
  | .get i key => w.read i fun t => do
    let (value, t) ← t.get w.heap key
    pure (.value value, t)
  | .has i key => w.read i fun t => do
    let (found, t) ← t.has w.heap key
    pure (.found found, t)
  | .copy i cacheSize =>
    match w.trees[i]? with
    | none => some (w, none)
    | some t =>
      let (orig, copied) := t.copy cacheSize
      some ({ w with trees := w.trees.set i orig ++ [copied] }, none)

def answers (w : CachedWorld L) : List CacheOp → Option (List (Option Answer))
  | [] => some []
  | op :: ops => do
    let (w, answer) ← w.step op
    let rest ← w.answers ops
    pure (answer :: rest)

omit [Sha256] in
def copiesSaved (w : CachedWorld L) : CacheOp → Bool
  | .copy i _ => !(w.trees[i]?).any (·.changed)
  | _ => true

/-- Only saved trees are copied along the way. -/
def saved (w : CachedWorld L) : List CacheOp → Bool
  | [] => true
  | op :: ops => w.copiesSaved op &&
    match w.step op with
    | none => true
    | some (w, _) => w.saved ops

end CachedWorld

/-! ## What a cache finds -/

namespace SharedCache

variable {L : CacheLib} {c : SharedCache L} {key key' : Bytes} {value x : Slice}

/-- What is found after a change is found in another shard, or in the shard that was changed. -/
theorem get_onShard {f : L.Cache → L.Cache} (h : ((c.onShard key f).get key').1 = some x) :
    (c.shardForKey key' ≠ c.shardForKey key ∧ (c.get key').1 = some x) ∨
      ∃ shard, (c.get key').1 = (L.get shard key').1 ∧ (L.get (f shard) key').1 = some x := by
  have hfor : (c.onShard key f).shardForKey key' = c.shardForKey key' := rfl
  simp only [get, hfor] at h ⊢
  simp only [onShard, getElem?_modify] at h
  cases hs : c.shards[c.shardForKey key']? with
  | none =>
    rw [hs] at h
    cases h
  | some shard =>
    rw [hs] at h
    simp only [Option.map_eq_map, Option.map_some, Option.bind_some] at h ⊢
    split_ifs at h with heq
    · exact .inr ⟨shard, rfl, h⟩
    · exact .inl ⟨fun he => heq he.symm, h⟩

variable (hL : L.Lawful)

include hL

theorem get_new (size : Int) (key : Bytes) : ((newSharedCache L size).get key).1 = none := by
  simp only [get, newSharedCache, getElem?_map]
  cases (List.range (growShards size maxSharedCacheShards 1))[shardForKey _ key]? with
  | none => rfl
  | some i => exact hL.get_new _ key

theorem get_add (h : ((c.add key value).get key').1 = some x) :
    if key' = key then x = value else (c.get key').1 = some x := by
  rcases get_onShard h with ⟨hne, hx⟩ | ⟨shard, heq, hx⟩
  · rwa [if_neg (show key' ≠ key from fun hk => hne (congrArg c.shardForKey hk))]
  · rw [heq]
    exact hL.get_add shard key value key' x hx

theorem get_get (h : ((c.get key).2.get key').1 = some x) : (c.get key').1 = some x := by
  rcases get_onShard h with ⟨-, hx⟩ | ⟨shard, heq, hx⟩
  · exact hx
  · rw [heq]
    exact hL.get_get shard key key' x hx

theorem get_remove (h : ((c.remove key).get key').1 = some x) :
    key' ≠ key ∧ (c.get key').1 = some x := by
  rcases get_onShard h with ⟨hne, hx⟩ | ⟨shard, heq, hx⟩
  · exact ⟨fun hk => hne (congrArg c.shardForKey hk), hx⟩
  · rw [heq]
    exact hL.get_remove shard key key' x hx

end SharedCache

/-! ## Values of a tree -/

namespace Tree.Valid

variable {v : Tree}

theorem find_set_self (hv : v.Valid) (key : Bytes) (value : Slice) :
    (v.set key value).find key = some (value.getD []) := by
  rw [Tree.find, hv.toList_set, SortedAssoc.lookup_insert_self hv.sorted]
  rfl

theorem find_set_of_ne (hv : v.Valid) {key key' : Bytes} (value : Slice) (hne : key' ≠ key) :
    (v.set key value).find key' = v.find key' := by
  rw [Tree.find, hv.toList_set, SortedAssoc.lookup_insert_of_ne hv.sorted hne]
  rfl

theorem find_remove_of_ne (hv : v.Valid) {key key' : Bytes} (hne : key' ≠ key) :
    (v.remove key).find key' = v.find key' := by
  rw [Tree.find, hv.toList_remove, SortedAssoc.lookup_erase_of_ne hv.sorted hne]
  rfl

end Tree.Valid

theorem Tree.find_saveVersion (v : Tree) (key : Bytes) :
    (v.saveVersion.getD v).find key = v.find key := by
  unfold Tree.saveVersion
  split_ifs <;> rfl

/-! ## Agreement with the tree -/

def SharedCache.Agrees {L : CacheLib} (c : SharedCache L) (v : Tree) : Prop :=
  ∀ key x, (c.get key).1 = some x → v.find key = x

namespace SharedCache.Agrees

variable {L : CacheLib} {c : SharedCache L} {v : Tree} (hL : L.Lawful)

include hL

theorem set (hv : v.Valid) (key : Bytes) (value : Slice) (h : c.Agrees v) :
    (c.add key (some (value.getD []))).Agrees (v.set key value) := by
  intro key' x hx
  have hadd := get_add hL hx
  split_ifs at hadd with hk
  · rw [hk, hadd, hv.find_set_self]
  · rw [hv.find_set_of_ne value hk]
    exact h key' x hadd

theorem remove (hv : v.Valid) (key : Bytes) (h : c.Agrees v) :
    (c.remove key).Agrees (v.remove key) := by
  intro key' x hx
  obtain ⟨hne, hx⟩ := get_remove hL hx
  rw [hv.find_remove_of_ne hne]
  exact h key' x hx

theorem get (key : Bytes) (h : c.Agrees v) : (c.get key).2.Agrees v :=
  fun key' x hx => h key' x (get_get hL hx)

theorem add {key : Bytes} {value : Slice} (hfind : v.find key = value) (h : c.Agrees v) :
    (c.add key value).Agrees v := by
  intro key' x hx
  have hadd := get_add hL hx
  split_ifs at hadd with hk
  · rw [hk, hadd, hfind]
  · exact h key' x hadd

end SharedCache.Agrees

theorem newCache_agrees {L : CacheLib} (hL : L.Lawful) (cacheSize : Int) (v : Tree) :
    ∀ c ∈ newCache L cacheSize, c.Agrees v := by
  intro c hc key x hx
  unfold newCache at hc
  split_ifs at hc with hzero
  · cases hc
  · cases hc
    rw [SharedCache.get_new hL] at hx
    cases hx

namespace CachedTree

variable [Sha256] {L : CacheLib} {h : Heap} {t : CachedTree L} {v : Tree}

theorem get_spec (hL : L.Lawful) (hs : t.tree.Stands h v) (ha : ∀ c ∈ t.cache, c.Agrees v)
    (key : Bytes) :
    ∃ cache, t.get h key = some (v.find key, { t with cache := cache }) ∧ (∀ c ∈ cache, c.Agrees v) ∧
      (t.cache = none → cache = none) := by
  obtain ⟨hd, cache⟩ := t
  have hlook := hs.getWithIndex_eq key
  cases cache with
  | none =>
    refine ⟨none, ?_, ha, fun _ => rfl⟩
    simp only [get, hlook, Results.some_bind, Option.pure_def]
  | some c =>
    have hc : c.Agrees v := ha c rfl
    have hget := hc.get hL key
    simp only [get]
    cases hfound : c.get key with
    | mk found c' =>
      rw [hfound] at hget
      cases found with
      | some value =>
        rw [hc key value (congrArg Prod.fst hfound)]
        exact ⟨some c', rfl, fun c hc => Option.some.inj hc ▸ hget, fun h => by cases h⟩
      | none =>
        simp only [hlook, Results.some_bind]
        cases hvalue : v.find key with
        | none => exact ⟨some c', rfl, fun c hc => Option.some.inj hc ▸ hget, fun h => by cases h⟩
        | some x =>
          exact ⟨some (c'.add key (some x)), rfl,
            fun c hc => Option.some.inj hc ▸ hget.add hL hvalue, fun h => by cases h⟩

end CachedTree

/-! ## Worlds with and without caches -/

def World.uncached (L : CacheLib) (w : World) : CachedWorld L :=
  { heap := w.heap, trees := w.handles.map fun hd => { toHandle := hd, cache := none } }

def CachedWorld.world {L : CacheLib} (w : CachedWorld L) : World :=
  { heap := w.heap, handles := w.trees.map (·.toHandle) }

section Changes

variable {L : CacheLib} {i : Nat} {f : Heap → Handle → Option (Handle × Heap)}
  {g : SharedCache L → SharedCache L}

theorem World.uncached_change (w : World) :
    (w.uncached L).change i (CachedTree.write f g) = (w.change i f).map (World.uncached L) := by
  unfold World.change CachedWorld.change
  simp only [World.uncached, getElem?_map]
  cases w.handles[i]? with
  | none => rfl
  | some hd =>
    simp only [map_some, CachedTree.write, bind_eq_bind]
    cases f w.heap hd with
    | none => rfl
    | some res => simp [World.uncached, map_set]

variable {w : CachedWorld L} {t : CachedTree L}

theorem CachedWorld.world_get (ht : w.trees[i]? = some t) :
    w.world.handles[i]? = some t.toHandle := by
  simp only [CachedWorld.world, getElem?_map, ht, map_some]

theorem CachedWorld.uncached_get (ht : w.trees[i]? = some t) :
    (w.world.uncached L).trees[i]? = some { t with cache := none } := by
  simp only [World.uncached, getElem?_map, CachedWorld.world_get ht, map_some]

theorem CachedWorld.uncached_get_none (ht : w.trees[i]? = none) :
    (w.world.uncached L).trees[i]? = none := by
  simp only [World.uncached, CachedWorld.world, getElem?_map, ht, map_none]

theorem CachedWorld.change_write {w1 : World} (hs : w.world.change i f = some w1) :
    ∃ w', w.change i (CachedTree.write f g) = some w' ∧ w'.world = w1 ∧
      ∀ j t', w'.trees[j]? = some t' → ∃ t, w.trees[j]? = some t ∧
        t'.cache = if j = i then t.cache.map g else t.cache := by
  cases hi : w.trees[i]? with
  | none =>
    have hnone : w.world.handles[i]? = none := by
      simp only [CachedWorld.world, getElem?_map, hi, map_none]
    cases (World.change_none hnone f).symm.trans hs
    refine ⟨w, ?_, rfl, fun j t' ht' => ⟨t', ht', ?_⟩⟩
    · simp only [CachedWorld.change, hi]
    · rw [if_neg]
      rintro rfl
      cases hi.symm.trans ht'
  | some t =>
    simp only [World.change, CachedWorld.world_get hi, bind_eq_bind,
      bind_eq_some_iff, Prod.exists] at hs
    obtain ⟨hd, h, hf, hs⟩ := hs
    cases hs
    refine ⟨{ heap := h, trees := w.trees.set i { toHandle := hd, cache := t.cache.map g } }, ?_, ?_, ?_⟩
    · have hf : f w.heap t.toHandle = some (hd, h) := hf
      simp only [CachedWorld.change, hi, CachedTree.write, hf, Results.some_bind,
        Option.pure_def]
    · simp only [CachedWorld.world, map_set]
    · intro j t' ht'
      simp only [getElem?_set] at ht'
      by_cases hij : j = i
      · subst hij
        rw [if_pos rfl, if_pos (List.getElem?_eq_some_iff.mp hi).1] at ht'
        cases ht'
        exact ⟨t, hi, (if_pos rfl).symm⟩
      · rw [if_neg (Ne.symm hij)] at ht'
        exact ⟨t', ht', (if_neg hij).symm⟩

end Changes

/-! ## Coherence -/

section Made

variable [Sha256]

def World.Made (w : World) : Prop :=
  ∀ hd ∈ w.handles, hd.tree.Made PersistedNode.InFile w.heap

theorem World.Made.change {w w' : World} {i : Nat} {f : Heap → Handle → Option (Handle × Heap)}
    (hm : w.Made) (hf : ∀ hd hd' h', hd.tree.Made PersistedNode.InFile w.heap →
      f w.heap hd = some (hd', h') → hd'.tree.Made PersistedNode.InFile h')
    (hs : w.change i f = some w') : w'.Made := by
  unfold World.change at hs
  cases hi : w.handles[i]? with
  | none =>
    rw [hi] at hs
    cases hs
    exact hm
  | some hd =>
    simp only [hi, bind_eq_bind, bind_eq_some_iff, Prod.exists] at hs
    obtain ⟨hd', h', hfd, hs⟩ := hs
    cases hs
    have hnew := hf hd hd' h' (hm hd (mem_of_getElem? hi)) hfd
    intro hd1 hmem
    rcases mem_or_eq_of_mem_set hmem with hmem | rfl
    · exact ⟨hnew.cells, (hm hd1 hmem).root⟩
    · exact hnew

variable {hd hd' : Handle} {h h' : Heap} (hm : hd.tree.Made PersistedNode.InFile h)

include hm

theorem Handle.made_set {key : Bytes} {value : Slice} (hf : Handle.set key value h hd = some (hd', h')) :
    hd'.tree.Made PersistedNode.InFile h' := by
  obtain ⟨⟨t, h1⟩, ht, he⟩ := bind_eq_some_iff.mp hf
  cases he
  exact hm.set persistedClosed_inFile ht

theorem Handle.made_remove {key : Bytes} (hf : Handle.remove key h hd = some (hd', h')) :
    hd'.tree.Made PersistedNode.InFile h' := by
  obtain ⟨⟨t, h1⟩, ht, he⟩ := bind_eq_some_iff.mp hf
  cases he
  exact hm.remove persistedClosed_inFile ht

theorem Handle.made_saveVersion {updateHash : Bool}
    (hf : Handle.saveVersion updateHash h hd = some (hd', h')) :
    hd'.tree.Made PersistedNode.InFile h' := by
  obtain ⟨⟨res, t, h1⟩, ht, he⟩ := bind_eq_some_iff.mp hf
  cases he
  exact hm.saveVersion ht

end Made

namespace CachedWorld

variable [Sha256] {L : CacheLib}

/-- Cached values are those of the trees. -/
structure Coherent (w : CachedWorld L) (val : Nat → Tree) (fp : Nat → Set CellHeap.Addr) : Prop where
  inv : w.world.Inv val fp
  made : w.world.Made
  agrees : ∀ (i : Nat) (t : CachedTree L), w.trees[i]? = some t → ∀ c ∈ t.cache, c.Agrees (val i)

namespace Coherent

variable {w : CachedWorld L} {val : Nat → Tree} {fp : Nat → Set CellHeap.Addr} {i : Nat} {t : CachedTree L}

theorem stands (hc : w.Coherent val fp) (ht : w.trees[i]? = some t) : t.tree.Stands w.heap (val i) := by
  have hi := world_get ht
  have hok := hc.inv.ok i _ hi
  exact ⟨⟨_, hok.rep⟩, hok.valid, hc.made _ (mem_of_getElem? hi)⟩

theorem write (hc : w.Coherent val fp) (op : Op) (o : TreeOp)
    {f : Heap → Handle → Option (Handle × Heap)} {g : SharedCache L → SharedCache L}
    (hstep : w.world.step op = w.world.change i f) (hon : ∀ j, op.on j = if i = j then some o else none)
    (hmade : ∀ hd hd' h', hd.tree.Made PersistedNode.InFile w.heap →
      f w.heap hd = some (hd', h') → hd'.tree.Made PersistedNode.InFile h')
    (hg : ∀ (c : SharedCache L) (v : Tree), v.Valid → c.Agrees v → (g c).Agrees (v.apply o)) :
    ∃ w' val' fp', w.change i (CachedTree.write f g) = some w' ∧
      (w.world.uncached L).change i (CachedTree.write f g) = some (w'.world.uncached L) ∧
      w'.Coherent val' fp' := by
  obtain ⟨w1, hs, val', fp', hinv, -, hval⟩ := hc.inv.step op
  rw [hstep] at hs
  obtain ⟨w', hw', rfl, htrees⟩ := change_write (g := g) hs
  refine ⟨w', val', fp', hw', ?_, hinv, hc.made.change hmade hs, ?_⟩
  · rw [World.uncached_change, hs]
    rfl
  · intro j t' ht' c hcache
    obtain ⟨t, ht, he⟩ := htrees j t' ht'
    have hj := world_get ht
    rw [hval j (List.getElem?_eq_some_iff.mp hj).1, hon j]
    rw [he] at hcache
    by_cases hij : j = i
    · subst hij
      rw [if_pos rfl] at hcache ⊢
      obtain ⟨c0, hc0, rfl⟩ := map_eq_some_iff.mp hcache
      exact hg c0 (val j) (hc.inv.ok j _ hj).valid (hc.agrees j t ht c0 hc0)
    · rw [if_neg hij] at hcache
      rw [if_neg (Ne.symm hij)]
      exact hc.agrees j t ht c hcache

theorem read (hL : L.Lawful) (hc : w.Coherent val fp) (i : Nat) (key : Bytes) (answer : Slice → Answer)
    {f : CachedTree L → Option (Answer × CachedTree L)}
    (hf : ∀ t, f t = (t.get w.heap key).map fun res => (answer res.1, res.2)) :
    ∃ w' a, w.read i f = some (w', a) ∧
      (w.world.uncached L).read i f = some (w'.world.uncached L, a) ∧ w'.Coherent val fp := by
  cases ht : w.trees[i]? with
  | none =>
    refine ⟨w, none, ?_, ?_, hc⟩
    · simp only [CachedWorld.read, ht]
    · simp only [CachedWorld.read, uncached_get_none ht]
  | some t =>
    have hs := hc.stands ht
    obtain ⟨cache, hget, hagrees, -⟩ := CachedTree.get_spec hL hs (hc.agrees i t ht) key
    obtain ⟨cache', hget', -, hnone⟩ := CachedTree.get_spec (t := { t with cache := none }) hL hs
      (fun c hcache => by cases hcache) key
    cases hnone rfl
    have hworld : CachedWorld.world ⟨w.heap, w.trees.set i { t with cache := cache }⟩ = w.world := by
      simp only [CachedWorld.world, map_set]
      exact congrArg (World.mk w.heap) (World.set_self (w := w.world) (world_get ht))
    refine ⟨⟨w.heap, w.trees.set i { t with cache := cache }⟩, some (answer ((val i).find key)), ?_, ?_, ?_⟩
    · simp only [CachedWorld.read, ht, hf, hget, Option.map_some, Results.some_bind,
        Option.pure_def]
    · have hself := uncached_get ht
      have hset : (w.world.uncached L).trees.set i { t with cache := none } = (w.world.uncached L).trees := by
        obtain ⟨hlt, heq⟩ := List.getElem?_eq_some_iff.mp hself
        rw [← heq]
        exact set_getElem_self hlt
      rw [hworld]
      simp only [CachedWorld.read, hself, hf, hget', map_some, Results.some_bind,
        Option.pure_def]
      rw [hset]
    · refine ⟨hworld ▸ hc.inv, ?_, ?_⟩
      · rw [hworld]
        exact hc.made
      · intro j t' ht' c hcache
        simp only [getElem?_set] at ht'
        by_cases hij : i = j
        · subst hij
          rw [if_pos rfl, if_pos (List.getElem?_eq_some_iff.mp ht).1] at ht'
          cases ht'
          exact hagrees c hcache
        · rw [if_neg hij] at ht'
          exact hc.agrees j t' ht' c hcache

theorem copy (hL : L.Lawful) (hc : w.Coherent val fp) (ht : w.trees[i]? = some t)
    (hsaved : t.changed = false) (cacheSize : Int) :
    Coherent ⟨w.heap, w.trees.set i (t.copy cacheSize).1 ++ [(t.copy cacheSize).2]⟩
      (Function.update val w.trees.length (val i)) (Function.update fp w.trees.length (fp i)) := by
  have hi := world_get ht
  have hlen : w.world.handles.length = w.trees.length := length_map _
  have hworld : CachedWorld.world ⟨w.heap, w.trees.set i (t.copy cacheSize).1 ++ [(t.copy cacheSize).2]⟩ =
      ⟨w.heap, w.world.handles.set i { t.toHandle with tree := t.tree.copy.1 } ++
        [{ tree := t.tree.copy.2, changed := false }]⟩ := by
    simp only [CachedWorld.world, map_append, map_set, map_cons, map_nil,
      CachedTree.copy, hsaved]
  have hroot : t.tree.copy.2.root = t.tree.root := by
    unfold HeapTree.copy
    split <;> rfl
  have hmade := hc.made _ (mem_of_getElem? hi)
  have hcopied : t.tree.copy.2.Made PersistedNode.InFile w.heap := by
    refine ⟨hmade.cells, fun r hr => hmade.root r ?_⟩
    rw [← hr, hroot]
  refine ⟨?_, ?_, ?_⟩
  · rw [hworld, ← hlen]
    exact hc.inv.copy hi hsaved
  · rw [hworld]
    intro hd hmem
    rcases mem_append.mp hmem with hmem | hmem
    · rcases mem_or_eq_of_mem_set hmem with hmem | rfl
      · exact hc.made hd hmem
      · exact hcopied
    · cases mem_singleton.mp hmem
      exact hcopied
  · intro j t' ht' c hcache
    rw [getElem?_append, length_set] at ht'
    split_ifs at ht' with hj
    · rw [Function.update_of_ne hj.ne]
      rw [getElem?_set] at ht'
      split_ifs at ht' with hij
      · subst hij
        cases ht'
        exact hc.agrees i t ht c hcache
      · exact hc.agrees j t' ht' c hcache
    · obtain ⟨hlt, heq⟩ := List.getElem?_eq_some_iff.mp ht'
      have hj : j - w.trees.length = 0 := Nat.lt_one_iff.mp hlt
      simp only [hj, getElem_cons_zero] at heq
      subst heq
      exact newCache_agrees hL cacheSize _ c hcache

/-- One operation: it answers as it does without caches, and the caches go on agreeing. -/
theorem step (hL : L.Lawful) (hc : w.Coherent val fp) {op : CacheOp} (hsaved : w.copiesSaved op = true) :
    ∃ w' a val' fp', w.step op = some (w', a) ∧
      (w.world.uncached L).step op.uncached = some (w'.world.uncached L, a) ∧ w'.Coherent val' fp' := by
  cases op with
  | set i key value =>
    obtain ⟨w', val', fp', hs, hs', hc'⟩ := hc.write (.set i key value) (.set key value)
      (g := fun c => c.add key (some (value.getD []))) rfl (fun _ => rfl)
      (fun _ _ _ hm hf => Handle.made_set hm hf) fun c v hv ha => ha.set hL hv key value
    exact ⟨w', none, val', fp', congrArg (Option.map (·, none)) hs, congrArg (Option.map (·, none)) hs', hc'⟩
  | remove i key =>
    obtain ⟨w', val', fp', hs, hs', hc'⟩ := hc.write (.remove i key) (.remove key)
      (g := fun c => c.remove key) rfl (fun _ => rfl)
      (fun _ _ _ hm hf => Handle.made_remove hm hf) fun c v hv ha => ha.remove hL hv key
    exact ⟨w', none, val', fp', congrArg (Option.map (·, none)) hs, congrArg (Option.map (·, none)) hs', hc'⟩
  | saveVersion i updateHash =>
    obtain ⟨w', val', fp', hs, hs', hc'⟩ := hc.write (.saveVersion i updateHash) .saveVersion
      (g := id) rfl (fun _ => rfl) (fun _ _ _ hm hf => Handle.made_saveVersion hm hf)
      fun c v _ ha key x hx => (v.find_saveVersion key).trans (ha key x hx)
    exact ⟨w', none, val', fp', congrArg (Option.map (·, none)) hs, congrArg (Option.map (·, none)) hs', hc'⟩
  | get i key =>
    obtain ⟨w', a, hs, hs', hc'⟩ := hc.read hL i key .value
      (f := fun t => do
        let (value, t) ← t.get w.heap key
        pure (.value value, t)) fun t => by cases t.get w.heap key <;> rfl
    exact ⟨w', a, val, fp, hs, hs', hc'⟩
  | has i key =>
    obtain ⟨w', a, hs, hs', hc'⟩ := hc.read hL i key (fun x => .found x.isSome)
      (f := fun t => do
        let (found, t) ← t.has w.heap key
        pure (.found found, t)) fun t => by
          unfold CachedTree.has
          cases t.get w.heap key <;> rfl
    exact ⟨w', a, val, fp, hs, hs', hc'⟩
  | copy i cacheSize =>
    cases ht : w.trees[i]? with
    | none =>
      refine ⟨w, none, val, fp, ?_, ?_, hc⟩
      · simp only [CachedWorld.step, ht]
      · simp only [CachedWorld.step, CacheOp.uncached, uncached_get_none ht]
    | some t =>
      have hch : t.changed = false := by
        simpa [copiesSaved, ht] using hsaved
      refine ⟨_, none, _, _, ?_, ?_, hc.copy hL ht hch cacheSize⟩
      · simp only [CachedWorld.step, ht]
      · simp only [CachedWorld.step, CacheOp.uncached, uncached_get ht]
        simp [CachedTree.copy, World.uncached, CachedWorld.world, newCache, map_set]

theorem answers (hL : L.Lawful) {ops : List CacheOp} (hc : w.Coherent val fp) (hsaved : w.saved ops = true) :
    ∃ answers, w.answers ops = some answers ∧
      (w.world.uncached L).answers (ops.map CacheOp.uncached) = some answers := by
  induction ops generalizing w val fp with
  | nil => exact ⟨[], rfl, rfl⟩
  | cons op ops ih =>
    rw [CachedWorld.saved, Bool.and_eq_true] at hsaved
    obtain ⟨w', a, val', fp', hs, hs', hc'⟩ := hc.step hL hsaved.1
    rw [hs] at hsaved
    obtain ⟨rest, hrest, hrest'⟩ := ih hc' hsaved.2
    refine ⟨a :: rest, ?_, ?_⟩
    · simp only [CachedWorld.answers, hs, hrest, Results.some_bind, Option.pure_def]
    · simp only [map_cons, CachedWorld.answers, hs', hrest', Results.some_bind,
        Option.pure_def]

end Coherent

end CachedWorld

section Transparency

variable [Sha256]

/-- The trees that the constructors give: an empty one, or one opened from the snapshot of a tree. A
snapshot of a tree with unsaved changes counts as changed. -/
inductive Fresh : Handle → Prop
  | newEmptyTree {version : Nat} {t : HeapTree} (ht : HeapTree.newEmptyTree version = some t) :
      Fresh ⟨t, false⟩
  | newFromSnapshot {h : Heap} {t : HeapTree} {v : Tree} {dir : SnapshotDir} {s : Snapshot} {changed : Bool}
      (hd : t.Denotes h v) (hv : v.Persistable) (hw : t.writeSnapshot h = .ok dir)
      (ho : openSnapshot dir = .ok s) (hle : v.VersionsLE (v.version + 1))
      (hsaved : changed = false → v.VersionsLE v.version) : Fresh ⟨.newFromSnapshot s, changed⟩

theorem Fresh.coherent {L : CacheLib} (hL : L.Lawful) {hd : Handle} (hf : Fresh hd) (cacheSize : Int) :
    ∃ val fp, (CachedWorld.start L hd cacheSize).Coherent val fp := by
  have hagrees (val : Nat → Tree) : ∀ (i : Nat) (t : CachedTree L),
      (CachedWorld.start L hd cacheSize).trees[i]? = some t → ∀ c ∈ t.cache, c.Agrees (val i) := by
    intro i t ht c hc
    cases mem_singleton.mp (mem_of_getElem? ht)
    exact newCache_agrees hL cacheSize _ c hc
  cases hf with
  | newEmptyTree ht =>
    obtain ⟨val, fp, hinv⟩ := (World.Reachable.newEmptyTree .init ht).inv
    refine ⟨val, fp, hinv, ?_, hagrees val⟩
    intro hd hmem
    cases mem_singleton.mp hmem
    exact (Edited.empty ht).stands.1.made
  | @newFromSnapshot h t v dir s changed hd hv hw ho hle hsaved =>
    have hmade := (Edited.opened hd hv hw ho).stands.1.made
    obtain ⟨rfl, hsize⟩ := writeSnapshot_eq_ok hd hv hw
    cases hv.openSnapshot_eq.symm.trans ho
    obtain ⟨val, fp, hinv⟩ :=
      (World.Reachable.openSnapshot .init rfl (hv.rootDenotes hsize) hv.valid hle hsaved).inv
    refine ⟨val, fp, hinv, ?_, hagrees val⟩
    intro hd hmem
    cases mem_singleton.mp hmem
    exact hmade

/-- A fresh tree and its copies are used in any way that copies no tree with unsaved changes. Whatever the
cache sizes are and whatever the caches evict, nothing panics, and each `Get` and `Has` returns what it
returns without caches. -/
theorem cache_transparent {L : CacheLib} (hL : L.Lawful) {hd : Handle} (hf : Fresh hd) (cacheSize : Int)
    (ops : List CacheOp) (hsaved : (CachedWorld.start L hd cacheSize).saved ops = true) :
    ∃ answers, (CachedWorld.start L hd cacheSize).answers ops = some answers ∧
      (CachedWorld.start L hd 0).answers (ops.map CacheOp.uncached) = some answers := by
  obtain ⟨val, fp, hc⟩ := hf.coherent hL cacheSize
  exact hc.answers hL hsaved

end Transparency

def CacheLib.single : CacheLib where
  checksumIEEE _ := 0
  Cache := Option (Bytes × Slice)
  new _ := none
  add _ key value := some (key, value)
  get c key := ((c.filter fun node => node.1 = key).map Prod.snd, c)
  remove c key := c.filter fun node => node.1 ≠ key

theorem CacheLib.lawful_single : CacheLib.single.Lawful where
  get_new _ _ := rfl
  get_add c key value key' x h := by
    obtain ⟨node, hn, rfl⟩ := map_eq_some_iff.mp h
    obtain ⟨hnode, hkey⟩ := filter_eq_some_iff.mp hn
    cases hnode
    rw [if_pos (of_decide_eq_true hkey).symm]
  get_get _ _ _ _ h := h
  get_remove c key key' x h := by
    obtain ⟨node, hn, rfl⟩ := map_eq_some_iff.mp h
    obtain ⟨hkept, hkey⟩ := filter_eq_some_iff.mp hn
    obtain ⟨hnode, hne⟩ := filter_eq_some_iff.mp hkept
    have hkey : node.1 = key' := of_decide_eq_true hkey
    have hne : node.1 ≠ key := of_decide_eq_true hne
    refine ⟨hkey ▸ hne, map_eq_some_iff.mpr ⟨node, ?_, rfl⟩⟩
    exact filter_eq_some_iff.mpr ⟨hnode, decide_eq_true hkey⟩

/-- A tree of one leaf is saved and copied into a smaller cache, and both go on. -/
theorem cache_transparent_copy :
    ∃ answers, @CachedWorld.answers _ Sha256.zero (CachedWorld.start .single ⟨⟨3, 0, none⟩, false⟩ 40)
        [.set 0 [5] none, .get 0 [5], .saveVersion 0 true, .copy 0 (-1), .set 1 [5] (some [9]), .remove 0 [5],
          .has 0 [5], .get 1 [5]] = some answers ∧
      @CachedWorld.answers _ Sha256.zero (CachedWorld.start .single ⟨⟨3, 0, none⟩, false⟩ 0)
        [.set 0 [5] none, .get 0 [5], .saveVersion 0 true, .copy 0 0, .set 1 [5] (some [9]), .remove 0 [5],
          .has 0 [5], .get 1 [5]] = some answers ∧
      answers = [none, some (.value (some [])), none, none, none, none, some (.found false),
        some (.value (some [9]))] := by
  let _ := Sha256.zero
  obtain ⟨answers, hs, hs'⟩ := cache_transparent CacheLib.lawful_single
    (.newEmptyTree (show HeapTree.newEmptyTree 3 = _ from rfl)) 40
    [.set 0 [5] none, .get 0 [5], .saveVersion 0 true, .copy 0 (-1), .set 1 [5] (some [9]), .remove 0 [5],
      .has 0 [5], .get 1 [5]] rfl
  exact ⟨answers, hs, hs', Option.some.inj (hs.symm.trans rfl)⟩

/-- The copy of a tree with an unsaved leaf has cached the value when the original changes the leaf, which
is the leaf of the copy too. -/
theorem exists_stale_get :
    CacheLib.single.Lawful ∧ @Fresh Sha256.zero ⟨⟨3, 0, none⟩, false⟩ ∧ ∃ ops : List CacheOp,
      @CachedWorld.answers _ Sha256.zero (CachedWorld.start .single ⟨⟨3, 0, none⟩, false⟩ 1) ops =
        some [none, none, some (.value (some [7])), none, some (.value (some [7]))] ∧
      @CachedWorld.answers _ Sha256.zero (CachedWorld.start .single ⟨⟨3, 0, none⟩, false⟩ 0)
        (ops.map CacheOp.uncached) =
        some [none, none, some (.value (some [7])), none, some (.value (some [8]))] := by
  let _ := Sha256.zero
  refine ⟨CacheLib.lawful_single, .newEmptyTree (show HeapTree.newEmptyTree 3 = _ from rfl),
    [.set 0 [5] (some [7]), .copy 0 1, .get 1 [5], .set 0 [5] (some [8]), .get 1 [5]], ?_, ?_⟩
  · rfl
  · rfl

end CronosStore.Memiavl
