import CronosStore.VersionDB.ConvertToSST

/-!
# The order of the sorter and that of the database

`versiondb/tsrocksdb/comparator.go` compares the internal keys of the database, a user key and the
eight bytes of a timestamp: by the user key, and for one key with the larger timestamp first. In
these terms a key is a stamp, and the comparison is the three-way comparison of stamps
(`Comparator.compare_eq`), which are linearly ordered. The external sorter compares items, in which
the key stands in front and its length at the end; its order is the same, since the prefix of a
store changes nothing (`sorter_order`).
-/

namespace CronosStore.VersionDB

open Foundation Memiavl List

/-! ## Three-way comparison -/

section ThreeWay

variable {α : Type} [LinearOrder α]

def threeWay (a b : α) : Int := if a < b then -1 else if a = b then 0 else 1

variable {a b : α}

theorem threeWay_neg_iff : threeWay a b < 0 ↔ a < b := by
  unfold threeWay
  split_ifs with h h' <;> simp [h]

theorem threeWay_eq_zero_iff : threeWay a b = 0 ↔ a = b := by
  unfold threeWay
  split_ifs with h h'
  · exact iff_of_false (by decide) h.ne
  · exact iff_of_true rfl h'
  · exact iff_of_false (by decide) h'

theorem threeWay_nonpos_iff : threeWay a b ≤ 0 ↔ a ≤ b := by
  rw [Int.le_iff_lt_or_eq, threeWay_neg_iff, threeWay_eq_zero_iff, le_iff_lt_or_eq]

theorem threeWay_swap (a b : α) : threeWay b a = -threeWay a b := by
  unfold threeWay
  rcases lt_trichotomy a b with h | rfl | h
  · rw [if_neg h.not_gt, if_neg h.ne', if_pos h]
    rfl
  · simp
  · rw [if_pos h, if_neg h.not_gt, if_neg h.ne']

end ThreeWay

/-! ## The comparator -/

namespace Comparator

/-- A timestamp that is nil is not set. One that is too short is a panic. -/
def compareTS (bz1 bz2 : Slice) : Option Int :=
  match bz1, bz2 with
  | none, none => some 0
  | some _, none => some 1
  | none, some _ => some (-1)
  | some bz1, some bz2 =>
    if bz1.length < timestampSize ∨ bz2.length < timestampSize then none
    else
      let ts1 := readLE (bz1.take timestampSize)
      let ts2 := readLE (bz2.take timestampSize)
      some (if ts1 < ts2 then -1 else if ts1 > ts2 then 1 else 0)

/-- `bytes.Compare` of the user keys. A key that is too short for a timestamp is a panic. -/
def compareWithoutTS (a : Bytes) (aHasTS : Bool) (b : Bytes) (bHasTS : Bool) : Option Int :=
  if aHasTS ∧ a.length < timestampSize ∨ bHasTS ∧ b.length < timestampSize then none
  else
    let a := if aHasTS then a.take (a.length - timestampSize) else a
    let b := if bHasTS then b.take (b.length - timestampSize) else b
    some (threeWay a b)

def compare (a b : Bytes) : Option Int := do
  let ret ← compareWithoutTS a true b true
  if ret ≠ 0 then pure ret
  else
    let ret ← compareTS (some (a.drop (a.length - timestampSize))) (some (b.drop (b.length - timestampSize)))
    pure (-ret)

def keyStamp (a : Bytes) : Stamp :=
  stamp (a.take (a.length - timestampSize)) (readLE (a.drop (a.length - timestampSize)))

theorem threeWay_stamp (a b : Bytes) (m n : Nat) :
    threeWay (stamp a m) (stamp b n) = if threeWay a b ≠ 0 then threeWay a b else -threeWay m n := by
  by_cases h : a = b
  · subst h
    rw [if_neg (not_not_intro (threeWay_eq_zero_iff.mpr rfl)), ← threeWay_swap]
    unfold threeWay
    simp only [stamp_lt, stamp_inj, true_and, ne_eq, not_true, if_false, eq_comm]
  · have hstamp : stamp a m ≠ stamp b n := fun heq => h (stamp_inj.mp heq).1
    rw [if_pos (fun hzero => h (threeWay_eq_zero_iff.mp hzero))]
    unfold threeWay
    simp only [if_neg hstamp, if_neg h, stamp_lt, if_pos h]

variable {a b : Bytes}

theorem compare_eq (ha : timestampSize ≤ a.length) (hb : timestampSize ≤ b.length) :
    compare a b = some (threeWay (keyStamp a) (keyStamp b)) := by
  have hts : ∀ m n : Nat, (if m < n then -1 else if m > n then 1 else 0 : Int) = threeWay m n := by
    intro m n
    unfold threeWay
    split_ifs <;> omega
  have hlen : ∀ c : Bytes, timestampSize ≤ c.length → (c.drop (c.length - timestampSize)).length = timestampSize := by
    intro c hc
    rw [length_drop]
    omega
  rw [keyStamp, keyStamp, threeWay_stamp, compare, compareWithoutTS, if_neg (by omega)]
  simp only [Results.some_bind, Option.pure_def, if_true, compareTS, hlen a ha, hlen b hb,
    lt_irrefl, or_self, if_false, take_of_length_le (hlen a ha).le, take_of_length_le (hlen b hb).le, hts]
  split_ifs <;> rfl

theorem keyStamp_append (key : Bytes) {ts : Bytes} (hts : ts.length = timestampSize) :
    keyStamp (key ++ ts) = stamp key (readLE ts) := by
  have hlength : (key ++ ts).length - timestampSize = key.length := by
    rw [length_append, hts, Nat.add_sub_cancel]
  rw [keyStamp, hlength, take_left, drop_left]

theorem keyStamp_inj (ha : timestampSize ≤ a.length) (hb : timestampSize ≤ b.length) :
    keyStamp a = keyStamp b ↔ a = b := by
  refine ⟨fun h => ?_, fun h => h ▸ rfl⟩
  obtain ⟨hkey, hts⟩ := stamp_inj.mp h
  have hdrop : a.drop (a.length - timestampSize) = b.drop (b.length - timestampSize) := by
    refine readLE_inj ?_ hts
    rw [length_drop, length_drop]
    omega
  rw [← take_append_drop (a.length - timestampSize) a, hkey, hdrop, take_append_drop]

theorem exists_neg_compare_iff (ha : timestampSize ≤ a.length) (hb : timestampSize ≤ b.length) :
    (∃ c < 0, compare a b = some c) ↔ keyStamp a < keyStamp b := by
  rw [compare_eq ha hb, ← threeWay_neg_iff]
  simp

structure TotalOrder (compare : Bytes → Bytes → Option Int) : Prop where
  antisymm : ∀ a b : Bytes, timestampSize ≤ a.length → timestampSize ≤ b.length →
    ∃ c, compare a b = some c ∧ compare b a = some (-c)
  trans : ∀ (a b c : Bytes) (x y : Int), compare a b = some x → compare b c = some y → x ≤ 0 → y ≤ 0 →
    ∃ z ≤ 0, compare a c = some z
  zero : ∀ (key key' ts ts' : Bytes), ts.length = timestampSize → ts'.length = timestampSize →
    (compare (key ++ ts) (key' ++ ts') = some 0 ↔ key = key' ∧ ts = ts')
  newest : ∀ (key ts ts' : Bytes), ts.length = timestampSize → ts'.length = timestampSize →
    readLE ts' < readLE ts → ∃ c < 0, compare (key ++ ts) (key ++ ts') = some c

theorem length_of_compare {x : Int} (h : compare a b = some x) :
    timestampSize ≤ a.length ∧ timestampSize ≤ b.length := by
  by_contra hshort
  have hpanic : (true = true ∧ a.length < timestampSize) ∨ (true = true ∧ b.length < timestampSize) := by
    rcases not_and_or.mp hshort with ha | hb
    · exact .inl ⟨rfl, not_le.mp ha⟩
    · exact .inr ⟨rfl, not_le.mp hb⟩
  rw [compare, compareWithoutTS, if_pos hpanic] at h
  cases h

theorem totalOrder_compare : TotalOrder compare where
  antisymm a b ha hb := by
    refine ⟨_, compare_eq ha hb, ?_⟩
    rw [compare_eq hb ha, threeWay_swap]
  trans a b c x y hx hy hx0 hy0 := by
    obtain ⟨ha, hb⟩ := length_of_compare hx
    obtain ⟨-, hc⟩ := length_of_compare hy
    rw [compare_eq ha hb, Option.some.injEq] at hx
    rw [compare_eq hb hc, Option.some.injEq] at hy
    subst hx hy
    refine ⟨_, threeWay_nonpos_iff.mpr ?_, compare_eq ha hc⟩
    exact (threeWay_nonpos_iff.mp hx0).trans (threeWay_nonpos_iff.mp hy0)
  zero key key' ts ts' hts hts' := by
    have hlength : ∀ k t : Bytes, t.length = timestampSize → timestampSize ≤ (k ++ t).length := by
      intro k t ht
      rw [length_append]
      omega
    rw [compare_eq (hlength key ts hts) (hlength key' ts' hts'), Option.some.injEq, threeWay_eq_zero_iff,
      keyStamp_inj (hlength key ts hts) (hlength key' ts' hts')]
    exact ⟨fun h => append_inj' h (hts.trans hts'.symm), fun ⟨h, h'⟩ => by rw [h, h']⟩
  newest key ts ts' hts hts' hlt := by
    refine ⟨_, threeWay_neg_iff.mpr ?_, compare_eq (by rw [length_append]; omega)
      (by rw [length_append]; omega)⟩
    rw [keyStamp_append key hts, keyStamp_append key hts', stamp_lt, if_neg (not_not_intro rfl)]
    exact hlt

end Comparator

/-! ## Items and internal keys -/

def internalKey (keyPrefix key : Bytes) (version : Nat) : Bytes :=
  keyPrefix ++ key ++ putLE timestampSize version

def Undone (version : Nat) (pair : KVPair) : Prop :=
  decodeSorterItem (encodeSorterItem version pair) = some (putLE timestampSize version,
    ⟨pair.delete, pair.key, if pair.delete then none else some (pair.value.getD [])⟩)

variable {version : Nat} {pair : KVPair}

/-- The timestamp is out of range if its end overflows. -/
theorem decodeSorterItem_overflow (h : pair.key.length < 2 ^ 32)
    (hlong : 2 ^ 32 ≤ pair.key.length + timestampSize) :
    decodeSorterItem (encodeSorterItem version pair) = none := by
  have hend : ¬ (pair.key.length ≤ (pair.key.length + timestampSize) % 2 ^ 32 ∧
      (pair.key.length + timestampSize) % 2 ^ 32 ≤ (encodeSorterItem version pair).length) := by
    simp only [timestampSize] at hlong ⊢
    omega
  rw [decodeSorterItem]
  split_ifs
  · rfl
  · simp only [keyLen_encodeSorterItem h, slice, if_neg hend, Option.bind_eq_bind, Option.bind_none,
      Option.bind_fun_none]

/-- The value starts at the beginning of the item if the offset behind the flag overflows. -/
theorem decodeSorterItem_wrapped
    (h : pair.key.length + timestampSize + 1 = 2 ^ 32) (hdelete : pair.delete = false) :
    decodeSorterItem (encodeSorterItem version pair) = some (putLE timestampSize version,
      ⟨false, pair.key, some ((encodeSorterItem version pair).take
        ((encodeSorterItem version pair).length - sizeKeyLength))⟩) := by
  rw [decodeSorterItem_eq (by omega), hdelete, if_neg Bool.false_ne_true, h, Nat.mod_self, slice,
    if_pos ⟨Nat.zero_le _, Nat.sub_le _ _⟩]
  rfl

theorem undone_iff (h : pair.key.length < 2 ^ 32) :
    Undone version pair ↔ OffsetsFit pair := by
  refine ⟨fun hundone => ?_, decodeSorterItem_encode⟩
  unfold Undone at hundone
  rcases Nat.lt_or_ge (pair.key.length + timestampSize) (2 ^ 32) with hlt | hge
  · rw [OffsetsFit]
    cases hdelete : pair.delete with
    | true =>
      rw [if_pos rfl]
      exact hlt
    | false =>
      rw [if_neg Bool.false_ne_true]
      by_contra hlong
      -- the value is then too long
      rw [decodeSorterItem_wrapped (by omega) hdelete, hdelete, if_neg Bool.false_ne_true] at hundone
      simp only [Option.some.injEq, Prod.mk.injEq, KVPair.mk.injEq, true_and] at hundone
      have hlength := congrArg List.length hundone
      simp only [length_take, length_encodeSorterItem, sizeOfSorterItem, hdelete, Bool.false_eq_true,
        if_false] at hlength
      omega
  · rw [decodeSorterItem_overflow h hge] at hundone
    cases hundone

/-- Items are compared as the internal keys are, and decoded again if their offsets do not overflow; the
comparison of internal keys is a total order. -/
theorem sorter_order (keyPrefix : Bytes) {version version' : Nat} {pair pair' : KVPair}
    (h : pair.key.length < 2 ^ 32) (h' : pair'.key.length < 2 ^ 32) :
    (Undone version pair ↔ OffsetsFit pair) ∧
    (compareSorterItem (encodeSorterItem version pair) (encodeSorterItem version' pair') = true ↔
      ∃ c < 0, Comparator.compare (internalKey keyPrefix pair.key version)
        (internalKey keyPrefix pair'.key version') = some c) ∧
    Comparator.TotalOrder Comparator.compare := by
  refine ⟨undone_iff h, ?_, Comparator.totalOrder_compare⟩
  have hlength : ∀ (key : Bytes) (v : Nat), timestampSize ≤ (internalKey keyPrefix key v).length := by
    intro key v
    rw [internalKey, length_append, length_putLE]
    omega
  have hstamp : ∀ (key : Bytes) (v : Nat), Comparator.keyStamp (internalKey keyPrefix key v) =
      stamp (keyPrefix ++ key) (readLE (putLE timestampSize v)) := fun key v =>
    Comparator.keyStamp_append _ (length_putLE _ _)
  rw [compareSorterItem_eq, decide_eq_true_iff, itemStamp_encode h, itemStamp_encode h', ← stamp_append_lt keyPrefix,
    ← hstamp, ← hstamp, Comparator.exists_neg_compare_iff (hlength _ _) (hlength _ _)]

/-- A key that is set and deleted later. -/
theorem sorter_order_deleted :
    Undone 3 ⟨true, [7], none⟩ ∧
      compareSorterItem (encodeSorterItem 3 ⟨true, [7], none⟩) (encodeSorterItem 1 ⟨false, [7], some [5]⟩) = true ∧
      ∃ c < 0, Comparator.compare (internalKey (storePrefix [98]) [7] 3) (internalKey (storePrefix [98]) [7] 1) =
        some c := by
  obtain ⟨hundone, hcompare, -⟩ :=
    @sorter_order (storePrefix [98]) 3 1 ⟨true, [7], none⟩ ⟨false, [7], some [5]⟩ (by decide) (by decide)
  have hless : compareSorterItem (encodeSorterItem 3 ⟨true, [7], none⟩)
      (encodeSorterItem 1 ⟨false, [7], some [5]⟩) = true := by decide
  exact ⟨hundone.mpr (by unfold OffsetsFit; decide), hless, hcompare.mp hless⟩

/-- A key of `2 ^ 32 - 8` bytes cannot be decoded, and one byte less gives a wrong value. -/
theorem exists_not_undone :
    (∃ pair : KVPair, pair.key.length < 2 ^ 32 ∧ decodeSorterItem (encodeSorterItem 1 pair) = none) ∧
    ∃ pair : KVPair, pair.key.length < 2 ^ 32 ∧ ¬ Undone 1 pair ∧
      ∃ r, decodeSorterItem (encodeSorterItem 1 pair) = some r := by
  have htime : timestampSize = 8 := rfl
  have key (n : Nat) (delete : Bool) : ∃ pair : KVPair, pair.key.length = n ∧ pair.delete = delete :=
    ⟨⟨delete, List.replicate n 0, none⟩, length_replicate, rfl⟩
  obtain ⟨long, hlong, -⟩ := key (2 ^ 32 - 8) true
  obtain ⟨short, hshort, hset⟩ := key (2 ^ 32 - 9) false
  refine ⟨⟨long, by omega, decodeSorterItem_overflow (by omega) (by omega)⟩, short, by omega, ?_,
    _, decodeSorterItem_wrapped (by omega) hset⟩
  rw [undone_iff (by omega), OffsetsFit, hset, if_neg Bool.false_ne_true]
  omega

end CronosStore.VersionDB
