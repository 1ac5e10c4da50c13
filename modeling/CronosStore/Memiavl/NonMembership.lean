import CronosStore.Memiavl.Lookup
import CronosStore.Memiavl.Proof

/-!
# Proofs of absence

`GetNonMembershipProof` of `memiavl/proof.go`: the rank that a failed lookup returns is that of the
next greater key, and the existence proofs of the keys before and at it are put together. The rank
is a `uint32`. In a tree of 2^32 leaves that of a key greater than all wraps around to zero, and the
proof names the smallest key on the right and nothing on the left (`exists_missing_neighbour`).
-/

namespace CronosStore.Memiavl

open Foundation List SortedAssoc

structure NonExistenceProof where
  key : Bytes
  left : Option ExistenceProof
  right : Option ExistenceProof
deriving DecidableEq

section Absence

variable [Sha256]

def HeapTree.leftProof (h : Heap) (t : HeapTree) (idx : Int) :
    Option (Except ProofError (Option ExistenceProof)) :=
  if idx ≥ 1 then do
    let (leftkey, _) ← t.getByIndex h (idx - 1)
    pure ((← t.createExistenceProof h (leftkey.getD [])).map some)
  else some (.ok none)

def HeapTree.rightProof (h : Heap) (t : HeapTree) (idx : Int) :
    Option (Except ProofError (Option ExistenceProof)) := do
  let (rightkey, _) ← t.getByIndex h idx
  match rightkey with
  | none => pure (.ok none)
  | some rightkey => pure ((← t.createExistenceProof h rightkey).map some)

def HeapTree.getNonMembershipProof (h : Heap) (t : HeapTree) (key : Bytes) :
    Option (Except ProofError NonExistenceProof) :=
  if t.root = none then some (.error .emptyTree)
  else do
    let (idx, val) ← t.getWithIndex h key
    if val ≠ none then pure (.error .keyInState)
    else
      match ← t.leftProof h idx with
      | .error e => pure (.error e)
      | .ok left =>
        match ← t.rightProof h idx with
        | .error e => pure (.error e)
        | .ok right => pure (.ok ⟨key, left, right⟩)

def HeapTree.ProofOf (h : Heap) (t : HeapTree) : Option (Bytes × Slice) → Option ExistenceProof → Prop
  | none, proof => proof = none
  | some p, proof => ∃ e, proof = some e ∧ e.key = p.1 ∧ t.createExistenceProof h p.1 = some (.ok e)

variable {h : Heap} {t : HeapTree} {v : Tree}

theorem HeapTree.Stands.createExistenceProof_of_mem (hs : t.Stands h v) (hlen : v.toList.length ≤ 2 ^ 32)
    {p : Bytes × Slice} (hp : p ∈ v.toList) :
    ∃ e, t.createExistenceProof h p.1 = some (.ok e) ∧ e.key = p.1 := by
  obtain ⟨F, hrep⟩ := hs.rep
  have hlt : v.toList.length < 2 ^ 63 := lt_of_le_of_lt hlen (by decide)
  obtain ⟨x, e, -, he, hkey, -⟩ | ⟨habs, -⟩ :=
    createExistenceProof_spec (hrep.rootDenotes hs.valid) hs.valid hlt p.1
  · exact ⟨e, he, hkey⟩
  · exact absurd rfl (habs p hp)

variable {idx : Nat} {key : Bytes}

section

variable (hs : t.Stands h v)
include hs

theorem HeapTree.Stands.leftProof_spec (hlen : v.toList.length ≤ 2 ^ 32)
    (hidx : idx ≤ v.toList.length) : ∃ left, t.leftProof h idx = some (.ok left) ∧
      t.ProofOf h (if idx = 0 then none else v.toList[idx - 1]?) left := by
  unfold HeapTree.leftProof
  by_cases h0 : idx = 0
  · rw [if_neg (by omega), if_pos h0]
    exact ⟨none, rfl, rfl⟩
  · rw [if_pos (by omega), if_neg h0]
    obtain ⟨p, hp⟩ : ∃ p, v.toList[idx - 1]? = some p :=
      ⟨_, getElem?_eq_getElem (show idx - 1 < v.toList.length by omega)⟩
    obtain ⟨e, he, hkey⟩ := hs.createExistenceProof_of_mem hlen (mem_of_getElem? hp)
    have hat : t.getByIndex h ((idx : Int) - 1) = some (some p.1, p.2) := by
      have hat := hs.getByIndex_eq hlen (show idx - 1 ≤ v.toList.length by omega)
      rw [pairAt, hp] at hat
      rw [← hat]
      congr 1
      omega
    rw [hp]
    refine ⟨some e, ?_, e, rfl, hkey, he⟩
    simp only [hat, Results.some_bind, Option.getD_some, he]
    rfl

theorem HeapTree.Stands.rightProof_spec (hlen : v.toList.length ≤ 2 ^ 32)
    (hidx : idx ≤ v.toList.length) :
    ∃ right, t.rightProof h idx = some (.ok right) ∧ t.ProofOf h v.toList[idx]? right := by
  rw [HeapTree.rightProof, hs.getByIndex_eq hlen hidx, pairAt]
  cases hp : v.toList[idx]? with
  | none => exact ⟨none, rfl, rfl⟩
  | some p =>
    obtain ⟨e, he, hkey⟩ := hs.createExistenceProof_of_mem hlen (mem_of_getElem? hp)
    refine ⟨some e, ?_, e, rfl, hkey, he⟩
    simp only [Results.some_bind, he]
    rfl

theorem HeapTree.Stands.root_ne_none (hne : v.root ≠ none) : t.root ≠ none := by
  obtain ⟨F, hrep⟩ := hs.rep
  intro hnone
  rw [hnone] at hrep
  generalize v.root = root at hrep hne
  cases hrep
  exact hne rfl

/-- The proof of absence is made of the proofs at the rank and before it, where the rank is a
`uint32`. -/
theorem HeapTree.Stands.getNonMembershipProof_eq (hne : v.root ≠ none)
    (hlen : v.toList.length ≤ 2 ^ 32) (habs : ∀ p ∈ v.toList, p.1 ≠ key)
    (hidx : SortedAssoc.rank key v.toList % 2 ^ 32 = idx) :
    ∃ left right, t.getNonMembershipProof h key = some (.ok ⟨key, left, right⟩) ∧
      t.ProofOf h (if idx = 0 then none else v.toList[idx - 1]?) left ∧
      t.ProofOf h v.toList[idx]? right := by
  have hle : idx ≤ v.toList.length :=
    hidx ▸ (Nat.mod_le _ _).trans (rank_le_length key v.toList)
  have hget := hs.getWithIndex_eq key
  rw [hidx, hs.valid.find_eq_none_iff.mpr habs] at hget
  obtain ⟨left, hleft, hpl⟩ := hs.leftProof_spec hlen hle
  obtain ⟨right, hright, hpr⟩ := hs.rightProof_spec hlen hle
  refine ⟨left, right, ?_, hpl, hpr⟩
  rw [HeapTree.getNonMembershipProof, if_neg (hs.root_ne_none hne), hget]
  simp only [Results.some_bind, ne_eq, not_true_eq_false, if_false, hleft, hright]
  rfl

theorem HeapTree.Stands.getNonMembershipProof_of_mem {x : Slice}
    (hmem : (key, x) ∈ v.toList) : t.getNonMembershipProof h key = some (.error .keyInState) := by
  have hne : v.root ≠ none := by
    intro hnone
    rw [Tree.toList, hnone] at hmem
    cases hmem
  have hget := hs.getWithIndex_eq key
  rw [hs.valid.find_of_mem hmem] at hget
  rw [HeapTree.getNonMembershipProof, if_neg (hs.root_ne_none hne), hget]
  simp only [Results.some_bind, if_pos (hs.valid.value_ne_none _ hmem)]
  rfl

end

theorem HeapTree.ProofOf.isGreatest (hv : v.Valid) {left : Option ExistenceProof}
    (hp : t.ProofOf h (if SortedAssoc.rank key v.toList = 0 then none
      else v.toList[SortedAssoc.rank key v.toList - 1]?) left) :
    (left = none ↔ ¬∃ k, k < key ∧ ∃ x, (k, x) ∈ v.toList) ∧
    ∀ l, left = some l → (IsGreatest {k | k < key ∧ ∃ x, (k, x) ∈ v.toList} l.key ∧
      t.createExistenceProof h l.key = some (.ok l)) ∧
      SortedAssoc.rank key v.toList = SortedAssoc.rank l.key v.toList + 1 := by
  have hrank := rank_le_length key v.toList
  cases hr : SortedAssoc.rank key v.toList with
  | zero =>
    rw [hr, if_pos rfl] at hp
    cases hp
    refine ⟨iff_of_true rfl ?_, fun l hl => by cases hl⟩
    rintro ⟨k, hlt, x, hmem⟩
    obtain ⟨i, hi⟩ := mem_iff_getElem?.mp hmem
    have hpos := (getElem?_lt_iff hv.sorted hi).mp hlt
    omega
  | succ i =>
    rw [hr, if_neg (Nat.succ_ne_zero i), Nat.add_sub_cancel] at hp
    obtain ⟨p, hi⟩ : ∃ p, v.toList[i]? = some p :=
      ⟨_, getElem?_eq_getElem (show i < v.toList.length by omega)⟩
    rw [hi] at hp
    obtain ⟨e, rfl, hkey, he⟩ := hp
    have hgreatest := isGreatest_of_rank hv.sorted hr hi
    refine ⟨iff_of_false (by simp) (not_not.mpr ⟨p.1, hgreatest.1⟩), ?_⟩
    rintro l ⟨⟩
    rw [hkey]
    exact ⟨⟨hgreatest, he⟩, by rw [rank_of_getElem? hv.sorted hi]⟩

theorem HeapTree.ProofOf.isLeast (hv : v.Valid) (habs : ∀ p ∈ v.toList, p.1 ≠ key)
    {right : Option ExistenceProof}
    (hp : t.ProofOf h v.toList[SortedAssoc.rank key v.toList]? right) :
    (right = none ↔ ¬∃ k, key < k ∧ ∃ x, (k, x) ∈ v.toList) ∧
    ∀ r, right = some r → (IsLeast {k | key < k ∧ ∃ x, (k, x) ∈ v.toList} r.key ∧
      t.createExistenceProof h r.key = some (.ok r)) ∧
      SortedAssoc.rank r.key v.toList = SortedAssoc.rank key v.toList := by
  cases hi : v.toList[SortedAssoc.rank key v.toList]? with
  | none =>
    rw [hi] at hp
    cases hp
    refine ⟨iff_of_true rfl ?_, fun r hr => by cases hr⟩
    rintro ⟨k, hlt, x, hmem⟩
    obtain ⟨j, hj⟩ := mem_iff_getElem?.mp hmem
    have hle := getElem?_eq_none_iff.mp hi
    obtain ⟨hjlt, -⟩ := List.getElem?_eq_some_iff.mp hj
    exact absurd ((getElem?_lt_iff hv.sorted hj).mpr (by omega)) (not_lt.mpr hlt.le)
  | some p =>
    rw [hi] at hp
    obtain ⟨e, rfl, hkey, he⟩ := hp
    have hleast := isLeast_of_rank hv.sorted habs hi
    refine ⟨iff_of_false (by simp) (not_not.mpr ⟨p.1, hleast.1⟩), ?_⟩
    rintro r ⟨⟩
    rw [hkey]
    exact ⟨⟨hleast, he⟩, rank_of_getElem? hv.sorted hi⟩

/-- A proof of absence names the true neighbours. -/
theorem getNonMembershipProof_exact (hs : t.Stands h v)
    (hne : v.root ≠ none) (hlen : v.toList.length < 2 ^ 32) (key : Bytes) :
    ((∃ e, t.getNonMembershipProof h key = some (.error e)) ↔ ∃ x, (key, x) ∈ v.toList) ∧
    ((¬∃ x, (key, x) ∈ v.toList) → ∃ proof, t.getNonMembershipProof h key = some (.ok proof) ∧
      proof.key = key ∧
      (proof.left = none ↔ ¬∃ k, k < key ∧ ∃ x, (k, x) ∈ v.toList) ∧
      (∀ l, proof.left = some l → IsGreatest {k | k < key ∧ ∃ x, (k, x) ∈ v.toList} l.key ∧
        t.createExistenceProof h l.key = some (.ok l)) ∧
      (proof.right = none ↔ ¬∃ k, key < k ∧ ∃ x, (k, x) ∈ v.toList) ∧
      (∀ r, proof.right = some r → IsLeast {k | key < k ∧ ∃ x, (k, x) ∈ v.toList} r.key ∧
        t.createExistenceProof h r.key = some (.ok r)) ∧
      ∀ l r, proof.left = some l → proof.right = some r →
        SortedAssoc.rank r.key v.toList = SortedAssoc.rank l.key v.toList + 1) := by
  have habsent : (¬∃ x, (key, x) ∈ v.toList) → ∀ p ∈ v.toList, p.1 ≠ key := by
    rintro hno ⟨k, x⟩ hp rfl
    exact hno ⟨x, hp⟩
  have hrank := rank_le_length key v.toList
  have hmod : SortedAssoc.rank key v.toList % 2 ^ 32 = SortedAssoc.rank key v.toList :=
    Nat.mod_eq_of_lt (by omega)
  constructor
  · constructor
    · rintro ⟨e, he⟩
      by_contra hno
      obtain ⟨left, right, hok, -⟩ := hs.getNonMembershipProof_eq hne hlen.le (habsent hno) hmod
      cases hok.symm.trans he
    · rintro ⟨x, hx⟩
      exact ⟨_, hs.getNonMembershipProof_of_mem hx⟩
  · intro hno
    have habs := habsent hno
    obtain ⟨left, right, hok, hleft, hright⟩ := hs.getNonMembershipProof_eq hne hlen.le habs hmod
    obtain ⟨hnoneleft, hgreatest⟩ := hleft.isGreatest hs.valid
    obtain ⟨hnoneright, hleast⟩ := hright.isLeast hs.valid habs
    refine ⟨_, hok, rfl, hnoneleft, fun l hl => (hgreatest l hl).1, hnoneright,
      fun r hr => (hleast r hr).1, ?_⟩
    intro l r hl hr
    rw [(hleast r hr).2, (hgreatest l hl).2]

end Absence

/-- Between the second and the third of four keys. -/
theorem getNonMembershipProof_exact_between :
    letI := Sha256.zero
    ∃ proof, (HeapTree.newFromSnapshot Tree.fourLeaves.snapshot).getNonMembershipProof [] [2, 5] =
      some (.ok proof) ∧ proof.left ≠ none ∧ proof.right ≠ none := by
  let _ := Sha256.zero
  have hstands := (Tree.fourLeaves_persistable.edited (by decide)).stands.1
  obtain ⟨-, habsent⟩ := getNonMembershipProof_exact hstands (by decide) (by decide) [2, 5]
  obtain ⟨proof, hproof, -, hleft, -, hright, -⟩ := habsent <| by
    rintro ⟨x, hx⟩
    simp [Tree.fourLeaves, Tree.toList, Node.toList] at hx
  refine ⟨proof, hproof, ?_, ?_⟩
  · rw [ne_eq, hleft, not_not]
    exact ⟨[2], by decide, some [8], by decide⟩
  · rw [ne_eq, hright, not_not]
    exact ⟨[3], by decide, some [9], by decide⟩

/-! ## A tree of `2 ^ 32` leaves -/

theorem exists_edited_of_nodup [Sha256] {ks : List Bytes} (hks : ks.Nodup) :
    ∃ h t v, Edited h t v ∧ v.toList.length = ks.length ∧ ∀ k, (∃ x, (k, x) ∈ v.toList) ↔ k ∈ ks := by
  induction ks with
  | nil => exact ⟨[], _, ⟨0, none⟩, .empty rfl, rfl, by simp [Tree.toList]⟩
  | cons k ks ih =>
    obtain ⟨hk, hks⟩ := nodup_cons.mp hks
    obtain ⟨h, t, v, he, hlen, hmem⟩ := ih hks
    obtain ⟨hs, hver⟩ := he.stands
    obtain ⟨F, hrep⟩ := hs.rep
    obtain ⟨t', h', F', hset, -⟩ := set_repRoot hrep hver hs.valid k (some [])
    have hlist := hs.valid.toList_set k (some [])
    have habs : ∀ p ∈ v.toList, p.1 ≠ k := by
      rintro ⟨k', x⟩ hp rfl
      exact hk ((hmem k').mp ⟨x, hp⟩)
    refine ⟨h', t', v.set k (some []), he.set hset, ?_, fun k' => ?_⟩
    · rw [hlist, length_insert habs, hlen, length_cons]
    · rw [hlist, mem_cons, ← hmem k']
      simp only [mem_insert hs.valid.sorted, Prod.mk.injEq]
      constructor
      · rintro ⟨x, ⟨hk', -⟩ | ⟨hx, -⟩⟩
        · exact .inl hk'
        · exact .inr ⟨x, hx⟩
      · rintro (rfl | ⟨x, hx⟩)
        · exact ⟨_, .inl ⟨rfl, rfl⟩⟩
        · exact ⟨x, .inr ⟨hx, habs _ hx⟩⟩

theorem lt_replicate {b : Bytes} {n : Nat} (h : b.length < n) : b < List.replicate n 255 := by
  induction b generalizing n with
  | nil =>
    obtain ⟨n, rfl⟩ : ∃ m, n = m + 1 := ⟨n - 1, by omega⟩
    exact nil_lt_cons _ _
  | cons x b ih =>
    obtain ⟨n, rfl⟩ : ∃ m, n = m + 1 := ⟨n - 1, by omega⟩
    rw [replicate_succ, cons_lt_cons_iff]
    have hx : x ≤ 255 := UInt8.le_iff_toNat_le.mpr (Nat.lt_succ_iff.mp x.toNat_lt)
    rcases lt_or_eq_of_le hx with hlt | heq
    · exact .inl hlt
    · exact .inr ⟨heq, ih (by simpa using h)⟩

/-- The `2 ^ 32` strings of four bytes are set, and a string after all of them is asked for. There is
nothing on the left of the proof. -/
theorem exists_missing_neighbour :
    letI := Sha256.zero
    ∃ h t v key k proof, Edited h t v ∧ v.toList.length = 2 ^ 32 ∧ (¬∃ x, (key, x) ∈ v.toList) ∧
      k < key ∧ (∃ x, (k, x) ∈ v.toList) ∧
      t.getNonMembershipProof h key = some (.ok proof) ∧ proof.left = none := by
  let _ := Sha256.zero
  have hnodup : ((List.range (2 ^ 32)).map (putLE 4)).Nodup := by
    refine nodup_range.map_on fun a ha b hb hab => ?_
    have hread := congrArg readLE hab
    rw [readLE_putLE, readLE_putLE, show 256 ^ 4 = 2 ^ 32 from rfl,
      Nat.mod_eq_of_lt (mem_range.mp ha), Nat.mod_eq_of_lt (mem_range.mp hb)] at hread
    exact hread
  obtain ⟨h, t, v, he, hlen, hmem⟩ := exists_edited_of_nodup hnodup
  rw [length_map, length_range] at hlen
  have hbelow : ∀ p ∈ v.toList, p.1 < List.replicate 5 255 := by
    rintro ⟨k, x⟩ hp
    obtain ⟨i, -, rfl⟩ := mem_map.mp ((hmem k).mp ⟨x, hp⟩)
    exact lt_replicate (by simp)
  have hzero : ∃ x, (putLE 4 0, x) ∈ v.toList := by
    rw [hmem]
    exact mem_map_of_mem (mem_range.mpr (Nat.two_pow_pos 32))
  have hrank : SortedAssoc.rank (List.replicate 5 255) v.toList % 2 ^ 32 = 0 := by
    rw [rank_eq_length hbelow, hlen, Nat.mod_self]
  have hne : v.root ≠ none := by
    obtain ⟨x, hx⟩ := hzero
    intro hnone
    rw [Tree.toList, hnone] at hx
    cases hx
  obtain ⟨left, right, hproof, hleft, -⟩ := he.stands.1.getNonMembershipProof_eq hne hlen.le
    (fun p hp => (hbelow p hp).ne) hrank
  refine ⟨h, t, v, List.replicate 5 255, putLE 4 0, ⟨_, left, right⟩, he, hlen, ?_, ?_, hzero, hproof, hleft⟩
  · rintro ⟨x, hx⟩
    exact absurd (hbelow _ hx) (lt_irrefl _)
  · exact lt_replicate (by simp)

end CronosStore.Memiavl
