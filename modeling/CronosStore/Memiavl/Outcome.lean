import CronosStore.Memiavl.Rebalance
import CronosStore.Foundation.SortedAssoc

/-!
# What `setRecursive` and `removeRecursive` do

The two recursions are read once, by the outcomes they can have (`SetOutcome`,
`RemoveOutcome`); every property of them is then an induction over an outcome. For
`removeRecursive` the reading needs the order of the keys, since a key missed on one side
of a separator must be absent on the other one too, and it needs that no leaf holds a nil
value, since a nil value is how the code says that nothing was removed.
-/

namespace CronosStore.Memiavl.Node

open Foundation List

def minKey : Node → Bytes
  | .leaf _ k _ => k
  | .branch _ _ _ _ l _ => l.minKey

@[simp] theorem minKey_mkBranch (v : Nat) (k : Bytes) (l r : Node) :
    (mkBranch v k l r).minKey = l.minKey := rfl

def Ordered : Node → Prop
  | .leaf .. => True
  | .branch _ _ _ k l r =>
    Ordered l ∧ Ordered r ∧ (∀ p ∈ l.toList, p.1 < k) ∧ r.minKey = k

variable {v : Nat} {k : Bytes} {l r n : Node}

theorem ordered_mkBranch :
    Ordered (mkBranch v k l r) ↔
      Ordered l ∧ Ordered r ∧ (∀ p ∈ l.toList, p.1 < k) ∧ r.minKey = k := Iff.rfl

theorem exists_minKey_mem (n : Node) : ∃ p ∈ n.toList, p.1 = n.minKey := by
  induction n with
  | leaf v k x => exact ⟨(k, x), mem_singleton_self _, rfl⟩
  | branch h s v k l r ihl _ =>
    obtain ⟨p, hp, he⟩ := ihl
    exact ⟨p, mem_append_left _ hp, he⟩

theorem lt_of_minKey_eq {k' : Bytes} (h : ∀ p ∈ l.toList, p.1 < k') (hk : l.minKey = k) : k < k' := by
  obtain ⟨p, hp, he⟩ := exists_minKey_mem l
  exact (he.trans hk) ▸ h p hp

theorem Ordered.minKey_le (hn : Ordered n) : ∀ p ∈ n.toList, n.minKey ≤ p.1 := by
  induction n with
  | leaf v k x =>
    intro p hp
    rw [mem_singleton.mp hp]
    exact le_rfl
  | branch h s v k l r ihl ihr =>
    obtain ⟨hl, hr, hlt, hmin⟩ := hn
    intro p hp
    rcases mem_append.mp hp with hp | hp
    · exact ihl hl p hp
    · have hkp : k ≤ p.1 := hmin ▸ ihr hr p hp
      exact ((lt_of_minKey_eq hlt rfl).trans_le hkp).le

theorem Ordered.key_le_right {h s : Nat}
    (hn : Ordered (.branch h s v k l r)) : ∀ p ∈ r.toList, k ≤ p.1 := by
  obtain ⟨-, hr, -, hmin⟩ := hn
  exact fun p hp => hmin ▸ hr.minKey_le p hp

theorem Ordered.sorted (hn : Ordered n) : SortedAssoc.Sorted n.toList := by
  induction n with
  | leaf v k x => exact pairwise_singleton _ _
  | branch h s v k l r ihl ihr =>
    have hkr := hn.key_le_right
    obtain ⟨hl, hr, hlt, -⟩ := hn
    refine SortedAssoc.sorted_append.mpr ⟨ihl hl, ihr hr, ?_⟩
    intro p hp q hq
    exact (hlt p hp).trans_le (hkr q hq)

/-- The separator of a branch is not empty, so `removeRecursive` never hands up a nil key
for one. -/
theorem Ordered.key_ne_nil {h s v : Nat} {k : Bytes} {l r : Node}
    (hn : Ordered (.branch h s v k l r)) : k ≠ [] := by
  obtain ⟨-, -, hlt, -⟩ := hn
  obtain ⟨p, hp, -⟩ := exists_minKey_mem l
  rintro rfl
  exact absurd (hlt p hp) (by simp)

def Stored (n : Node) : Prop := ∀ p ∈ n.toList, p.2 ≠ none

theorem stored_branch {h s : Nat} :
    Stored (.branch h s v k l r) ↔ Stored l ∧ Stored r := forall_mem_append

/-! ## Outcomes of `setRecursive` -/

inductive SetOutcome (key : Bytes) (value : Slice) (version : Nat) : Node → Node → Bool → Prop
  | before {v : Nat} {k : Bytes} {x : Slice} (h : key < k) :
      SetOutcome key value version (.leaf v k x)
        (mkBranch version k (.leaf version key value) (.leaf v k x)) false
  | after {v : Nat} {k : Bytes} {x : Slice} (h : k < key) :
      SetOutcome key value version (.leaf v k x)
        (mkBranch version key (.leaf v k x) (.leaf version key value)) false
  | replace {v : Nat} {x : Slice} :
      SetOutcome key value version (.leaf v key x) (.leaf version key value) true
  | leftUpdate {h s v : Nat} {k : Bytes} {l l' r : Node} (hk : key < k)
      (hl : SetOutcome key value version l l' true) :
      SetOutcome key value version (.branch h s v k l r) (.branch h s version k l' r) true
  | rightUpdate {h s v : Nat} {k : Bytes} {l r r' : Node} (hk : k ≤ key)
      (hr : SetOutcome key value version r r' true) :
      SetOutcome key value version (.branch h s v k l r) (.branch h s version k l r') true
  | leftInsert {h s v : Nat} {k : Bytes} {l l' r n : Node} (hk : key < k)
      (hl : SetOutcome key value version l l' false)
      (hn : Rebalanced version version k l' r n) :
      SetOutcome key value version (.branch h s v k l r) n false
  | rightInsert {h s v : Nat} {k : Bytes} {l r r' n : Node} (hk : k ≤ key)
      (hr : SetOutcome key value version r r' false)
      (hn : Rebalanced version version k l r' n) :
      SetOutcome key value version (.branch h s v k l r) n false

/-- A balanced tree stays balanced and grows by at most one level; an update keeps the
height. -/
theorem setRecursive_outcome (key : Bytes) (value : Slice) (version : Nat) (hn : Balanced n) :
    SetOutcome key value version n (setRecursive key value version n).1
        (setRecursive key value version n).2 ∧
      Balanced (setRecursive key value version n).1 ∧
      n.height ≤ (setRecursive key value version n).1.height ∧
      (setRecursive key value version n).1.height ≤ n.height + 1 ∧
      ((setRecursive key value version n).2 = true →
        (setRecursive key value version n).1.height = n.height) := by
  induction n with
  | leaf v k x =>
    unfold setRecursive newLeafNode
    split_ifs with h1 h2
    · exact ⟨.before h1, by simp [Balanced]⟩
    · exact ⟨.after h2, by simp [Balanced]⟩
    · have hk : k = key := le_antisymm (not_lt.mp h1) (not_lt.mp h2)
      subst hk
      exact ⟨.replace, by simp [Balanced]⟩
  | branch h s v k l r ihl ihr =>
    obtain ⟨hl, hr, hh, h1, h2⟩ := hn
    unfold setRecursive
    split_ifs with hk
    · obtain ⟨ho, hb, hlo, hhi, hup⟩ := ihl hl
      generalize setRecursive key value version l = res at ho hb hlo hhi hup
      obtain ⟨newChild, updated⟩ := res
      dsimp only at ho hb hlo hhi hup ⊢
      cases updated with
      | true =>
        have he := hup rfl
        refine ⟨.leftUpdate hk ho, ⟨hb, hr, ?_, ?_, ?_⟩, le_rfl, Nat.le_succ _, fun _ => rfl⟩ <;>
          omega
      | false =>
        rw [if_neg Bool.false_ne_true, updateHeightSize_branch]
        have hre := reBalance_mkBranch version version k hb hr (by omega) (by omega)
        obtain ⟨ha, hc, hd⟩ := hre.height_bounds hb hr
        refine ⟨.leftInsert hk ho hre, hre.balanced hb hr, ?_, ?_, fun h => absurd h (by simp)⟩ <;>
          simp only [height_branch] <;> omega
    · obtain ⟨ho, hb, hlo, hhi, hup⟩ := ihr hr
      have hk := not_lt.mp hk
      generalize setRecursive key value version r = res at ho hb hlo hhi hup
      obtain ⟨newChild, updated⟩ := res
      dsimp only at ho hb hlo hhi hup ⊢
      cases updated with
      | true =>
        have he := hup rfl
        refine ⟨.rightUpdate hk ho, ⟨hl, hb, ?_, ?_, ?_⟩, le_rfl, Nat.le_succ _, fun _ => rfl⟩ <;>
          omega
      | false =>
        rw [if_neg Bool.false_ne_true, updateHeightSize_branch]
        have hre := reBalance_mkBranch version version k hl hb (by omega) (by omega)
        obtain ⟨ha, hc, hd⟩ := hre.height_bounds hl hb
        refine ⟨.rightInsert hk ho hre, hre.balanced hl hb, ?_, ?_, fun h => absurd h (by simp)⟩ <;>
          simp only [height_branch] <;> omega

/-! ## Outcomes of `removeRecursive` -/

/-- The outcomes of `removeRecursive key version` below a node that has no nil value: the
removed value, the subtree that is left and the separator handed up. -/
inductive RemoveOutcome (key : Bytes) (version : Nat) :
    Node → Slice → Option Node → Slice → Prop
  | absent {n : Node} (h : ∀ p ∈ n.toList, p.1 ≠ key) :
      RemoveOutcome key version n none (some n) none
  | leaf {v : Nat} {x : Bytes} : RemoveOutcome key version (.leaf v key (some x)) (some x) none none
  | leftGone {h s v : Nat} {k x : Bytes} {l r : Node} {nk : Slice} (hk : key < k)
      (hl : RemoveOutcome key version l (some x) none nk) :
      RemoveOutcome key version (.branch h s v k l r) (some x) (some r) (some k)
  | rightGone {h s v : Nat} {k x : Bytes} {l r : Node} {nk : Slice} (hk : k ≤ key)
      (hr : RemoveOutcome key version r (some x) none nk) :
      RemoveOutcome key version (.branch h s v k l r) (some x) (some l) none
  | leftChanged {h s v : Nat} {k x : Bytes} {l l' r n : Node} {nk : Slice} (hk : key < k)
      (hl : RemoveOutcome key version l (some x) (some l') nk)
      (hn : Rebalanced version version k l' r n) :
      RemoveOutcome key version (.branch h s v k l r) (some x) (some n) nk
  | rightChanged {h s v : Nat} {k x : Bytes} {l r r' n : Node} {nk : Slice} (hk : k ≤ key)
      (hr : RemoveOutcome key version r (some x) (some r') nk)
      (hn : Rebalanced version version (nk.getD k) l r' n) :
      RemoveOutcome key version (.branch h s v k l r) (some x) (some n) none

/-- A balanced tree stays balanced and loses at most one level; nothing is left of a tree
only if it was a leaf. -/
theorem removeRecursive_outcome (key : Bytes) (version : Nat) (hn : Balanced n)
    (ho : Ordered n) (hs : Stored n) :
    RemoveOutcome key version n (removeRecursive key version n).1
        (removeRecursive key version n).2.1 (removeRecursive key version n).2.2 ∧
      ((removeRecursive key version n).2.1 = none → n.height = 0) ∧
      ∀ n', (removeRecursive key version n).2.1 = some n' →
        Balanced n' ∧ n'.height ≤ n.height ∧ n.height ≤ n'.height + 1 := by
  induction n with
  | leaf v k x =>
    unfold removeRecursive
    split_ifs with hk
    · subst hk
      obtain ⟨x, rfl⟩ := Option.ne_none_iff_exists'.mp (hs (k, x) (mem_singleton_self _))
      exact ⟨.leaf, fun _ => rfl, fun n' h => absurd h (by simp)⟩
    · refine ⟨.absent ?_, fun h => absurd h (by simp), ?_⟩
      · intro p hp
        rw [mem_singleton.mp hp]
        exact hk
      · rintro n' ⟨⟩
        exact ⟨trivial, le_rfl, Nat.le_succ _⟩
  | branch h s v k l r ihl ihr =>
    have hkr := ho.key_le_right
    obtain ⟨hl, hr, hh, h1, h2⟩ := hn
    obtain ⟨hol, hor, hlt, hmin⟩ := ho
    obtain ⟨hsl, hsr⟩ := stored_branch.mp hs
    have hself : Balanced (.branch h s v k l r) := ⟨hl, hr, hh, h1, h2⟩
    unfold removeRecursive
    split_ifs with hk
    · obtain ⟨hout, hnone, hsome⟩ := ihl hl hol hsl
      generalize removeRecursive key version l = res at hout hnone hsome
      obtain ⟨value, newLeft, newKey⟩ := res
      dsimp only at hout hnone hsome
      cases value with
      | none =>
        have habs : ∀ p ∈ l.toList, p.1 ≠ key := by cases hout with | absent h => exact h
        refine ⟨.absent ?_, fun h => absurd h (by simp), ?_⟩
        · intro p hp
          rcases mem_append.mp hp with hp | hp
          · exact habs p hp
          · exact (hk.trans_le (hkr p hp)).ne'
        · rintro n' ⟨⟩
          exact ⟨hself, le_rfl, Nat.le_succ _⟩
      | some value =>
        cases newLeft with
        | none =>
          have hl0 := hnone rfl
          refine ⟨.leftGone hk hout, fun h => absurd h (by simp), ?_⟩
          rintro n' ⟨⟩
          refine ⟨hr, ?_, ?_⟩ <;> simp only [height_branch] <;> omega
        | some newLeft =>
          obtain ⟨hb, hle, hge⟩ := hsome newLeft rfl
          dsimp only
          rw [updateHeightSize_branch]
          have hre := reBalance_mkBranch version version k hb hr (by omega) (by omega)
          obtain ⟨ha, hc, hd⟩ := hre.height_bounds hb hr
          refine ⟨.leftChanged hk hout hre, fun h => absurd h (by simp), ?_⟩
          rintro n' ⟨⟩
          refine ⟨hre.balanced hb hr, ?_, ?_⟩ <;> simp only [height_branch] <;> omega
    · have hk := not_lt.mp hk
      obtain ⟨hout, hnone, hsome⟩ := ihr hr hor hsr
      generalize removeRecursive key version r = res at hout hnone hsome
      obtain ⟨value, newRight, newKey⟩ := res
      dsimp only at hout hnone hsome
      cases value with
      | none =>
        have habs : ∀ p ∈ r.toList, p.1 ≠ key := by cases hout with | absent h => exact h
        refine ⟨.absent ?_, fun h => absurd h (by simp), ?_⟩
        · intro p hp
          rcases mem_append.mp hp with hp | hp
          · exact ((hlt p hp).trans_le hk).ne
          · exact habs p hp
        · rintro n' ⟨⟩
          exact ⟨hself, le_rfl, Nat.le_succ _⟩
      | some value =>
        cases newRight with
        | none =>
          have hr0 := hnone rfl
          refine ⟨.rightGone hk hout, fun h => absurd h (by simp), ?_⟩
          rintro n' ⟨⟩
          refine ⟨hl, ?_, ?_⟩ <;> simp only [height_branch] <;> omega
        | some newRight =>
          obtain ⟨hb, hle, hge⟩ := hsome newRight rfl
          dsimp only
          rw [updateHeightSize_branch]
          have hre := reBalance_mkBranch version version (newKey.getD k) hl hb (by omega) (by omega)
          obtain ⟨ha, hc, hd⟩ := hre.height_bounds hl hb
          refine ⟨.rightChanged hk hout hre, fun h => absurd h (by simp), ?_⟩
          rintro n' ⟨⟩
          refine ⟨hre.balanced hl hb, ?_, ?_⟩ <;> simp only [height_branch] <;> omega

end CronosStore.Memiavl.Node
