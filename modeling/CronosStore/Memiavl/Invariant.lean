import CronosStore.Memiavl.Contents

/-!
# The representation invariant of a tree

A valid node is balanced, stores the sizes of its subtrees, keeps its keys in order with
exact separators, and holds no nil value (`Node.Valid`). Beside it, versions never grow
downwards (`Node.VersionMono`). `set` and `remove` keep both; for the versions this needs
that the version they write has not wrapped around.
-/

namespace CronosStore.Memiavl

open Foundation

namespace Node

def Sized : Node → Prop
  | .leaf .. => True
  | .branch _ s _ _ l r => Sized l ∧ Sized r ∧ s = l.toList.length + r.toList.length

variable {n l r n' : Node} {v version b : Nat} {k key : Bytes} {value x nk : Slice} {updated : Bool}

theorem Sized.size_eq (h : Sized n) : n.size = n.toList.length := by
  cases n with
  | leaf => rfl
  | branch h' s v k l r => rw [size_branch, h.2.2, toList, List.length_append]

theorem sized_mkBranch (hl : Sized l) (hr : Sized r) :
    Sized (mkBranch v k l r) := ⟨hl, hr, by rw [hl.size_eq, hr.size_eq]⟩

theorem Rebalanced.sized
    (h : Rebalanced version v k l r n) (hl : Sized l) (hr : Sized r) : Sized n := by
  cases h with
  | same => exact sized_mkBranch hl hr
  | leftLeft => exact sized_mkBranch hl.1 (sized_mkBranch hl.2.1 hr)
  | leftRight =>
    obtain ⟨hll, ⟨hlrl, hlrr, -⟩, -⟩ := hl
    exact sized_mkBranch (sized_mkBranch hll hlrl) (sized_mkBranch hlrr hr)
  | rightRight => exact sized_mkBranch (sized_mkBranch hl hr.1) hr.2.1
  | rightLeft =>
    obtain ⟨⟨hrll, hrlr, -⟩, hrr, -⟩ := hr
    exact sized_mkBranch (sized_mkBranch hl hrll) (sized_mkBranch hrlr hrr)

theorem SetOutcome.length_eq
    (h : SetOutcome key value version n n' true) : n'.toList.length = n.toList.length := by
  generalize hu : true = updated at h
  induction h with
  | replace => rfl
  | leftUpdate _ _ ih => simp only [toList, List.length_append, ih hu]
  | rightUpdate _ _ ih => simp only [toList, List.length_append, ih hu]
  | _ => cases hu

theorem SetOutcome.sized (h : SetOutcome key value version n n' updated) (hn : Sized n) :
    Sized n' := by
  induction h with
  | before => exact sized_mkBranch trivial trivial
  | after => exact sized_mkBranch trivial trivial
  | replace => trivial
  | leftUpdate _ hl ih => exact ⟨ih hn.1, hn.2.1, by rw [hl.length_eq, hn.2.2]⟩
  | rightUpdate _ hr ih => exact ⟨hn.1, ih hn.2.1, by rw [hr.length_eq, hn.2.2]⟩
  | leftInsert _ _ hre ih => exact hre.sized (ih hn.1) hn.2.1
  | rightInsert _ _ hre ih => exact hre.sized hn.1 (ih hn.2.1)

theorem RemoveOutcome.sized
    (h : RemoveOutcome key version n x (some n') nk) (hn : Sized n) : Sized n' := by
  generalize ho : some n' = res at h
  induction h generalizing n' with
  | absent => cases ho; exact hn
  | leaf => cases ho
  | leftGone => cases ho; exact hn.2.1
  | rightGone => cases ho; exact hn.1
  | leftChanged _ _ hre ih => cases ho; exact hre.sized (ih hn.1 rfl) hn.2.1
  | rightChanged _ _ hre ih => cases ho; exact hre.sized hn.1 (ih hn.2.1 rfl)

/-- A balanced tree doubles its leaves every two levels. -/
theorem Balanced.two_pow_le_length (hn : Balanced n) :
    2 ^ (n.height / 2) ≤ n.toList.length := by
  have key : ∀ m (n : Node), n.height ≤ m → Balanced n → 2 ^ (n.height / 2) ≤ n.toList.length := by
    intro m
    induction m with
    | zero =>
      intro n hm _
      rw [Nat.le_zero.mp hm]
      obtain ⟨p, hp, -⟩ := exists_minKey_mem n
      exact List.length_pos_of_mem hp
    | succ m ih =>
      intro n hm hn
      cases n with
      | leaf => simp [toList]
      | branch h s v k l r =>
        obtain ⟨hl, hr, hh, h1, h2⟩ := hn
        simp only [height_branch] at hm ⊢
        have hll := ih l (by omega) hl
        have hrr := ih r (by omega) hr
        rw [toList, List.length_append]
        have hmono : ∀ a, h / 2 ≤ a / 2 + 1 → 2 ^ (h / 2) ≤ 2 * 2 ^ (a / 2) := by
          intro a ha
          rw [← Nat.pow_succ']
          exact Nat.pow_le_pow_right (by omega) ha
        by_cases hle : l.height ≤ r.height
        · have hle' : 2 ^ (l.height / 2) ≤ 2 ^ (r.height / 2) :=
            Nat.pow_le_pow_right (by omega) (by omega)
          have := hmono l.height (by omega)
          omega
        · have hle' : 2 ^ (r.height / 2) ≤ 2 ^ (l.height / 2) :=
            Nat.pow_le_pow_right (by omega) (by omega)
          have := hmono r.height (by omega)
          omega
  exact key n.height n le_rfl hn

theorem SetOutcome.stored (h : SetOutcome key value version n n' updated) (ho : Ordered n)
    (hn : Stored n) (hv : value ≠ none) : Stored n' := by
  intro p hp
  rw [h.toList_eq ho, SortedAssoc.mem_insert ho.sorted] at hp
  rcases hp with rfl | ⟨hp, -⟩
  · exact hv
  · exact hn p hp

theorem RemoveOutcome.stored (h : RemoveOutcome key version n x (some n') nk) (ho : Ordered n)
    (hn : Stored n) : Stored n' := by
  intro p hp
  rw [h.toList_eq ho, SortedAssoc.mem_erase] at hp
  exact hn p hp.1

def VersionMono : Node → Prop
  | .leaf .. => True
  | .branch _ _ v _ l r => VersionMono l ∧ VersionMono r ∧ l.version ≤ v ∧ r.version ≤ v

theorem Rebalanced.versionMono (h : Rebalanced version version k l r n) (hl : VersionMono l)
    (hr : VersionMono r) (hlv : l.version ≤ version) (hrv : r.version ≤ version) :
    VersionMono n ∧ n.version = version := by
  cases h with
  | same => exact ⟨⟨hl, hr, hlv, hrv⟩, rfl⟩
  | leftLeft =>
    obtain ⟨hll, hlr, h1, h2⟩ := hl
    exact ⟨⟨hll, ⟨hlr, hr, h2.trans hlv, hrv⟩, h1.trans hlv, le_rfl⟩, rfl⟩
  | leftRight =>
    obtain ⟨hll, ⟨hlrl, hlrr, h3, h4⟩, h1, h2⟩ := hl
    have h2' := h2.trans hlv
    exact ⟨⟨⟨hll, hlrl, h1.trans hlv, h3.trans h2'⟩, ⟨hlrr, hr, h4.trans h2', hrv⟩, le_rfl,
      le_rfl⟩, rfl⟩
  | rightRight =>
    obtain ⟨hrl, hrr, h1, h2⟩ := hr
    exact ⟨⟨⟨hl, hrl, hlv, h1.trans hrv⟩, hrr, le_rfl, h2.trans hrv⟩, rfl⟩
  | rightLeft =>
    obtain ⟨⟨hrll, hrlr, h3, h4⟩, hrr, h1, h2⟩ := hr
    have h1' := h1.trans hrv
    exact ⟨⟨⟨hl, hrll, hlv, h3.trans h1'⟩, ⟨hrlr, hrr, h4.trans h1', h2.trans hrv⟩, le_rfl,
      le_rfl⟩, rfl⟩

theorem SetOutcome.versionMono (h : SetOutcome key value version n n' updated) (hn : VersionMono n)
    (hv : n.version ≤ version) : VersionMono n' ∧ n'.version = version := by
  induction h with
  | before => exact ⟨⟨trivial, trivial, le_rfl, hv⟩, rfl⟩
  | after => exact ⟨⟨trivial, trivial, hv, le_rfl⟩, rfl⟩
  | replace => exact ⟨trivial, rfl⟩
  | leftUpdate _ _ ih =>
    obtain ⟨hl, hr, h1, h2⟩ := hn
    obtain ⟨hl', he⟩ := ih hl (h1.trans hv)
    exact ⟨⟨hl', hr, he.le, h2.trans hv⟩, rfl⟩
  | rightUpdate _ _ ih =>
    obtain ⟨hl, hr, h1, h2⟩ := hn
    obtain ⟨hr', he⟩ := ih hr (h2.trans hv)
    exact ⟨⟨hl, hr', h1.trans hv, he.le⟩, rfl⟩
  | leftInsert _ _ hre ih =>
    obtain ⟨hl, hr, h1, h2⟩ := hn
    obtain ⟨hl', he⟩ := ih hl (h1.trans hv)
    exact hre.versionMono hl' hr he.le (h2.trans hv)
  | rightInsert _ _ hre ih =>
    obtain ⟨hl, hr, h1, h2⟩ := hn
    obtain ⟨hr', he⟩ := ih hr (h2.trans hv)
    exact hre.versionMono hl hr' (h1.trans hv) he.le

theorem RemoveOutcome.versionMono (h : RemoveOutcome key version n x (some n') nk)
    (hn : VersionMono n) (hv : n.version ≤ version) : VersionMono n' ∧ n'.version ≤ version := by
  generalize ho : some n' = res at h
  induction h generalizing n' with
  | absent => cases ho; exact ⟨hn, hv⟩
  | leaf => cases ho
  | leftGone => cases ho; exact ⟨hn.2.1, hn.2.2.2.trans hv⟩
  | rightGone => cases ho; exact ⟨hn.1, hn.2.2.1.trans hv⟩
  | leftChanged _ _ hre ih =>
    cases ho
    obtain ⟨hl, hr, h1, h2⟩ := hn
    obtain ⟨hl', he⟩ := ih hl (h1.trans hv) rfl
    obtain ⟨hm, hm'⟩ := hre.versionMono hl' hr he (h2.trans hv)
    exact ⟨hm, hm'.le⟩
  | rightChanged _ _ hre ih =>
    cases ho
    obtain ⟨hl, hr, h1, h2⟩ := hn
    obtain ⟨hr', he⟩ := ih hr (h2.trans hv) rfl
    obtain ⟨hm, hm'⟩ := hre.versionMono hl hr' (h1.trans hv) he
    exact ⟨hm, hm'.le⟩

def VersionsLE (b : Nat) : Node → Prop
  | .leaf v _ _ => v ≤ b
  | .branch _ _ v _ l r => v ≤ b ∧ VersionsLE b l ∧ VersionsLE b r

theorem VersionsLE.mono {b' : Nat} (h : VersionsLE b n) (hb : b ≤ b') :
    VersionsLE b' n := by
  induction n with
  | leaf => exact le_trans h hb
  | branch hh s v k l r ihl ihr => exact ⟨h.1.trans hb, ihl h.2.1, ihr h.2.2⟩

theorem Rebalanced.versionsLE (h : Rebalanced version v k l r n) (hb : version ≤ b) (hv : v ≤ b)
    (hl : VersionsLE b l) (hr : VersionsLE b r) : VersionsLE b n := by
  cases h with
  | same => exact ⟨hv, hl, hr⟩
  | leftLeft => exact ⟨hb, hl.2.1, hv, hl.2.2, hr⟩
  | leftRight =>
    obtain ⟨-, hll, -, hlrl, hlrr⟩ := hl
    exact ⟨hb, ⟨hb, hll, hlrl⟩, hv, hlrr, hr⟩
  | rightRight => exact ⟨hb, ⟨hv, hl, hr.2.1⟩, hr.2.2⟩
  | rightLeft =>
    obtain ⟨-, ⟨-, hrll, hrlr⟩, hrr⟩ := hr
    exact ⟨hb, ⟨hv, hl, hrll⟩, hb, hrlr, hrr⟩

theorem SetOutcome.versionsLE (h : SetOutcome key value version n n' updated) (hb : version ≤ b)
    (hn : VersionsLE b n) : VersionsLE b n' := by
  induction h with
  | before => exact ⟨hb, hb, hn⟩
  | after => exact ⟨hb, hn, hb⟩
  | replace => exact hb
  | leftUpdate _ _ ih => exact ⟨hb, ih hn.2.1, hn.2.2⟩
  | rightUpdate _ _ ih => exact ⟨hb, hn.2.1, ih hn.2.2⟩
  | leftInsert _ _ hre ih => exact hre.versionsLE hb hb (ih hn.2.1) hn.2.2
  | rightInsert _ _ hre ih => exact hre.versionsLE hb hb hn.2.1 (ih hn.2.2)

theorem RemoveOutcome.versionsLE (h : RemoveOutcome key version n x (some n') nk) (hb : version ≤ b)
    (hn : VersionsLE b n) : VersionsLE b n' := by
  generalize ho : some n' = res at h
  induction h generalizing n' with
  | absent => cases ho; exact hn
  | leaf => cases ho
  | leftGone => cases ho; exact hn.2.2
  | rightGone => cases ho; exact hn.2.1
  | leftChanged _ _ hre ih => cases ho; exact hre.versionsLE hb hb (ih hn.2.1 rfl) hn.2.2
  | rightChanged _ _ hre ih => cases ho; exact hre.versionsLE hb hb hn.2.1 (ih hn.2.2 rfl)

/-! ## The invariant -/

structure Valid (n : Node) : Prop where
  balanced : Balanced n
  sized : Sized n
  ordered : Ordered n
  stored : Stored n

theorem Valid.left {h s : Nat} (hn : Valid (.branch h s v k l r)) :
    Valid l :=
  ⟨hn.balanced.1, hn.sized.1, hn.ordered.1, (stored_branch.mp hn.stored).1⟩

theorem Valid.right {h s : Nat} (hn : Valid (.branch h s v k l r)) :
    Valid r :=
  ⟨hn.balanced.2.1, hn.sized.2.1, hn.ordered.2.1, (stored_branch.mp hn.stored).2⟩

theorem Valid.setRecursive (hn : Valid n) (key : Bytes)
    (hv : value ≠ none) (version : Nat) : Valid (n.setRecursive key value version).1 := by
  obtain ⟨ho, hb, -⟩ := setRecursive_outcome key value version hn.balanced
  exact ⟨hb, ho.sized hn.sized, ho.ordered hn.ordered, ho.stored hn.ordered hn.stored hv⟩

theorem Valid.removeRecursive (hn : Valid n)
    (h : (n.removeRecursive key version).2.1 = some n') : Valid n' := by
  obtain ⟨ho, -, hb⟩ := removeRecursive_outcome key version hn.balanced hn.ordered hn.stored
  rw [h] at ho
  exact ⟨(hb n' h).1, ho.sized hn.sized, (ho.ordered hn.ordered).1,
    ho.stored hn.ordered hn.stored⟩

end Node

namespace Tree

def Valid (t : Tree) : Prop := ∀ n, t.root = some n → n.Valid

variable {t : Tree}

theorem Valid.set (ht : Valid t) (key : Bytes) (value : Slice) :
    Valid (t.set key value) := by
  intro n hn
  cases hn
  cases hr : t.root with
  | none => exact ⟨trivial, trivial, trivial, by simp [setRoot, Node.newLeafNode, Node.Stored, Node.toList]⟩
  | some n => exact (ht n hr).setRecursive key (Option.some_ne_none _) _

theorem Valid.remove (ht : Valid t) (key : Bytes) : Valid (t.remove key) := by
  intro n' hn'
  cases hr : t.root with
  | none => simp [Tree.remove, removeRoot, hr] at hn'
  | some n =>
    simp only [Tree.remove, removeRoot, hr] at hn'
    exact (ht n hr).removeRecursive hn'

theorem Valid.sorted (ht : Valid t) : SortedAssoc.Sorted t.toList := by
  unfold Tree.toList
  cases hr : t.root with
  | none => exact List.Pairwise.nil
  | some n => exact (ht n hr).ordered.sorted

theorem Valid.value_ne_none (ht : Valid t) : ∀ p ∈ t.toList, p.2 ≠ none := by
  unfold Tree.toList
  cases hr : t.root with
  | none => exact fun p hp => by cases hp
  | some n => exact (ht n hr).stored

def VersionsLE (b : Nat) (t : Tree) : Prop := ∀ n, t.root = some n → n.VersionsLE b

theorem VersionsLE.set {b : Nat} (h : VersionsLE b t) (ht : Valid t) (key : Bytes)
    (value : Slice) (hb : t.nextNodeVersion ≤ b) : VersionsLE b (t.set key value) := by
  intro n hn
  cases hn
  cases hr : t.root with
  | none => exact hb
  | some n =>
    obtain ⟨ho, -⟩ := Node.setRecursive_outcome key (some (value.getD [])) t.nextNodeVersion
      (ht n hr).balanced
    exact ho.versionsLE hb (h n hr)

theorem VersionsLE.remove {b : Nat} (h : VersionsLE b t) (ht : Valid t) (key : Bytes)
    (hb : t.nextNodeVersion ≤ b) : VersionsLE b (t.remove key) := by
  intro n' hn'
  cases hr : t.root with
  | none => simp [Tree.remove, removeRoot, hr] at hn'
  | some n =>
    simp only [Tree.remove, removeRoot, hr] at hn'
    have hn := ht n hr
    obtain ⟨ho, -, -⟩ := Node.removeRecursive_outcome key t.nextNodeVersion hn.balanced hn.ordered
      hn.stored
    rw [hn'] at ho
    exact ho.versionsLE hb (h n hr)

theorem Valid.toList_set (ht : Valid t) (key : Bytes) (value : Slice) :
    (t.set key value).toList = SortedAssoc.insert key (some (value.getD [])) t.toList := by
  cases hr : t.root with
  | none => simp [Tree.set, Tree.toList, setRoot, hr, Node.newLeafNode, Node.toList, SortedAssoc.insert]
  | some n =>
    have hn := ht n hr
    obtain ⟨ho, -⟩ := Node.setRecursive_outcome key (some (value.getD [])) t.nextNodeVersion hn.balanced
    simpa [Tree.set, Tree.toList, setRoot, hr] using ho.toList_eq hn.ordered

theorem Valid.toList_remove (ht : Valid t) (key : Bytes) :
    (t.remove key).toList = SortedAssoc.erase key t.toList := by
  cases hr : t.root with
  | none => simp [Tree.remove, Tree.toList, removeRoot, hr, SortedAssoc.erase]
  | some n =>
    have hn := ht n hr
    obtain ⟨ho, -, -⟩ := Node.removeRecursive_outcome key t.nextNodeVersion hn.balanced hn.ordered hn.stored
    simp only [Tree.remove, Tree.toList, removeRoot, hr, Option.map_some, Option.getD_some]
    cases hres : (n.removeRecursive key t.nextNodeVersion).2.1 with
    | none =>
      rw [hres] at ho
      rw [ho.toList_of_none]
      simp [SortedAssoc.erase]
    | some n' =>
      rw [hres] at ho
      exact ho.toList_eq hn.ordered

end Tree

end CronosStore.Memiavl
