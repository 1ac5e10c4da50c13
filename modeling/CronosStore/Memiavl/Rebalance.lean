import CronosStore.Memiavl.Node

/-!
# Rebalancing

`reBalance` is read once, by its five outcomes (`Rebalanced`): nothing changed, a single
rotation or a double one on either side. Every fact about it is then a case analysis over
trees that are written out, with no rotation left to unfold. The balance invariant decides
which outcome is possible: a child that is two levels too high is a branch, and where its
inner child is the higher one, that one is a branch as well.
-/

namespace CronosStore.Memiavl.Node

open Foundation

def mkBranch (version : Nat) (key : Bytes) (l r : Node) : Node :=
  .branch (max l.height r.height + 1) (l.size + r.size) version key l r

@[simp] theorem height_mkBranch (v : Nat) (k : Bytes) (l r : Node) :
    (mkBranch v k l r).height = max l.height r.height + 1 := rfl

@[simp] theorem size_mkBranch (v : Nat) (k : Bytes) (l r : Node) :
    (mkBranch v k l r).size = l.size + r.size := rfl

@[simp] theorem toList_mkBranch (v : Nat) (k : Bytes) (l r : Node) :
    (mkBranch v k l r).toList = l.toList ++ r.toList := rfl

@[simp] theorem version_mkBranch (v : Nat) (k : Bytes) (l r : Node) :
    (mkBranch v k l r).version = v := rfl

@[simp] theorem updateHeightSize_branch (h s v : Nat) (k : Bytes) (l r : Node) :
    updateHeightSize (.branch h s v k l r) = mkBranch v k l r := rfl

/-- Stored heights are one more than the higher child's, and two children's heights differ
by at most one. -/
def Balanced : Node → Prop
  | .leaf .. => True
  | .branch h _ _ _ l r =>
    Balanced l ∧ Balanced r ∧ h = max l.height r.height + 1 ∧
      l.height ≤ r.height + 1 ∧ r.height ≤ l.height + 1

theorem balanced_mkBranch {v : Nat} {k : Bytes} {l r : Node} :
    Balanced (mkBranch v k l r) ↔
      Balanced l ∧ Balanced r ∧ l.height ≤ r.height + 1 ∧ r.height ≤ l.height + 1 := by
  simp [mkBranch, Balanced]

inductive Rebalanced (version v : Nat) (k : Bytes) : Node → Node → Node → Prop
  | same {l r : Node} (hl : l.height ≤ r.height + 1) (hr : r.height ≤ l.height + 1) :
      Rebalanced version v k l r (mkBranch v k l r)
  | leftLeft {h s lv : Nat} {lk : Bytes} {ll lr r : Node}
      (hh : max ll.height lr.height + 1 = r.height + 2) (hi : lr.height ≤ ll.height) :
      Rebalanced version v k (.branch h s lv lk ll lr) r
        (mkBranch version lk ll (mkBranch v k lr r))
  | leftRight {h s lv h' s' lrv : Nat} {lk lrk : Bytes} {ll lrl lrr r : Node}
      (hh : max lrl.height lrr.height + 2 = r.height + 2)
      (hi : ll.height < max lrl.height lrr.height + 1) :
      Rebalanced version v k (.branch h s lv lk ll (.branch h' s' lrv lrk lrl lrr)) r
        (mkBranch version lrk (mkBranch version lk ll lrl) (mkBranch v k lrr r))
  | rightRight {h s rv : Nat} {rk : Bytes} {l rl rr : Node}
      (hh : max rl.height rr.height + 1 = l.height + 2) (hi : rl.height ≤ rr.height) :
      Rebalanced version v k l (.branch h s rv rk rl rr)
        (mkBranch version rk (mkBranch v k l rl) rr)
  | rightLeft {h s rv h' s' rlv : Nat} {rk rlk : Bytes} {l rll rlr rr : Node}
      (hh : max rll.height rlr.height + 2 = l.height + 2)
      (hi : rr.height < max rll.height rlr.height + 1) :
      Rebalanced version v k l (.branch h s rv rk (.branch h' s' rlv rlk rll rlr) rr)
        (mkBranch version rlk (mkBranch v k l rll) (mkBranch version rk rlr rr))

theorem reBalance_mkBranch (version v : Nat) (k : Bytes) {l r : Node} (hl : Balanced l)
    (hr : Balanced r) (h1 : l.height ≤ r.height + 2) (h2 : r.height ≤ l.height + 2) :
    Rebalanced version v k l r (reBalance version (mkBranch v k l r)) := by
  simp only [mkBranch, reBalance]
  split_ifs with hb hi hb' hi <;> simp only [calcBalance_branch] at hb
  · cases l with
    | leaf lv lk lx => simp only [height_leaf] at hb; omega
    | branch h s lv lk ll lr =>
      obtain ⟨-, -, hh, -, -⟩ := hl
      simp only [height_branch, calcBalance_branch] at hb hi h1 h2
      exact .leftLeft (by omega) (by omega)
  · cases l with
    | leaf lv lk lx => simp only [height_leaf] at hb; omega
    | branch h s lv lk ll lr =>
      obtain ⟨-, hlr, hh, -, -⟩ := hl
      cases lr with
      | leaf lrv lrk lrx => simp only [calcBalance_branch, height_leaf] at hi; omega
      | branch h' s' lrv lrk lrl lrr =>
        obtain ⟨-, -, hh', -, -⟩ := hlr
        simp only [height_branch, calcBalance_branch] at hb hi hh h1 h2
        exact .leftRight (by omega) (by omega)
  · simp only [calcBalance_branch] at hb'
    cases r with
    | leaf rv rk rx => simp only [height_leaf] at hb'; omega
    | branch h s rv rk rl rr =>
      obtain ⟨-, -, hh, -, -⟩ := hr
      simp only [height_branch, calcBalance_branch] at hb' hi h1 h2
      exact .rightRight (by omega) (by omega)
  · simp only [calcBalance_branch] at hb'
    cases r with
    | leaf rv rk rx => simp only [height_leaf] at hb'; omega
    | branch h s rv rk rl rr =>
      obtain ⟨hrl, -, hh, -, -⟩ := hr
      cases rl with
      | leaf rlv rlk rlx => simp only [calcBalance_branch, height_leaf] at hi; omega
      | branch h' s' rlv rlk rll rlr =>
        obtain ⟨-, -, hh', -, -⟩ := hrl
        simp only [height_branch, calcBalance_branch] at hb' hi hh h1 h2
        exact .rightLeft (by omega) (by omega)
  · simp only [calcBalance_branch] at hb'
    exact .same (by omega) (by omega)

namespace Rebalanced

variable {version v : Nat} {k : Bytes} {l r n : Node}

section

variable (h : Rebalanced version v k l r n)
include h

theorem toList_eq : n.toList = l.toList ++ r.toList := by
  cases h <;> simp [toList]

theorem balanced (hl : Balanced l) (hr : Balanced r) :
    Balanced n := by
  cases h with
  | same h1 h2 => exact balanced_mkBranch.mpr ⟨hl, hr, h1, h2⟩
  | leftLeft hh hi =>
    obtain ⟨hll, hlr, -, h1, h2⟩ := hl
    simp only [balanced_mkBranch, height_mkBranch]
    exact ⟨hll, ⟨hlr, hr, by omega, by omega⟩, by omega, by omega⟩
  | leftRight hh hi =>
    obtain ⟨hll, ⟨hlrl, hlrr, hh', h1', h2'⟩, -, h1, h2⟩ := hl
    simp only [height_branch] at h1 h2
    simp only [balanced_mkBranch, height_mkBranch]
    exact ⟨⟨hll, hlrl, by omega, by omega⟩, ⟨hlrr, hr, by omega, by omega⟩, by omega, by omega⟩
  | rightRight hh hi =>
    obtain ⟨hrl, hrr, -, h1, h2⟩ := hr
    simp only [balanced_mkBranch, height_mkBranch]
    exact ⟨⟨hl, hrl, by omega, by omega⟩, hrr, by omega, by omega⟩
  | rightLeft hh hi =>
    obtain ⟨⟨hrll, hrlr, hh', h1', h2'⟩, hrr, -, h1, h2⟩ := hr
    simp only [height_branch] at h1 h2
    simp only [balanced_mkBranch, height_mkBranch]
    exact ⟨⟨hl, hrll, by omega, by omega⟩, ⟨hrlr, hrr, by omega, by omega⟩, by omega, by omega⟩

/-- Rebalancing takes away at most the one level by which a child was too high. -/
theorem height_bounds (hl : Balanced l) (hr : Balanced r) :
    max l.height r.height ≤ n.height ∧ n.height ≤ max l.height r.height + 1 ∧
      (l.height ≤ r.height + 1 → r.height ≤ l.height + 1 →
        n.height = max l.height r.height + 1) := by
  cases h with
  | same h1 h2 =>
    rw [height_mkBranch]
    exact ⟨Nat.le_succ _, le_rfl, fun _ _ => rfl⟩
  | leftLeft hh hi =>
    obtain ⟨-, -, h0, h1, h2⟩ := hl
    simp only [height_branch, height_mkBranch]
    omega
  | leftRight hh hi =>
    obtain ⟨-, ⟨-, -, hh', h1', h2'⟩, h0, h1, h2⟩ := hl
    simp only [height_branch] at h0 h1 h2
    simp only [height_branch, height_mkBranch]
    omega
  | rightRight hh hi =>
    obtain ⟨-, -, h0, h1, h2⟩ := hr
    simp only [height_branch, height_mkBranch]
    omega
  | rightLeft hh hi =>
    obtain ⟨⟨-, -, hh', h1', h2'⟩, -, h0, h1, h2⟩ := hr
    simp only [height_branch] at h0 h1 h2
    simp only [height_branch, height_mkBranch]
    omega

end

end Rebalanced

end CronosStore.Memiavl.Node
