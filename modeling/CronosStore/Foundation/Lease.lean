import Mathlib.Algebra.Order.Ring.Int

/-!
# Shared resources that are closed once

A resource that several parties hold and that one index may retain. Whoever lets go of it
last closes it: a holder that releases it when it is not retained any more, or the index when
nobody holds it. Then it is closed exactly when nobody can reach it, and only once.
-/

namespace Foundation

/-- A resource that is closed when no one holds or retains it. -/
structure Lease where
  holders : Nat
  retained : Bool
  closes : Nat
deriving DecidableEq

namespace Lease

def Lost (l : Lease) : Prop := l.retained = false ∧ l.holders = 0

instance (l : Lease) : Decidable l.Lost := inferInstanceAs (Decidable (_ ∧ _))

def Sound (l : Lease) : Prop := l.closes = if l.Lost then 1 else 0

def settle (l : Lease) : Lease := if l.Lost then { l with closes := l.closes + 1 } else l

theorem settle_eq (l : Lease) :
    l.settle = { l with closes := if l.Lost then l.closes + 1 else l.closes } := by
  unfold settle
  split_ifs <;> rfl

def borrow (l : Lease) : Lease := { l with holders := l.holders + 1 }

def release (l : Lease) : Lease := settle { l with holders := l.holders - 1 }

def retire (l : Lease) : Lease := settle { l with retained := false }

variable {l : Lease}

section

variable (h : l.Sound)
include h

theorem Sound.eq_zero (hl : ¬l.Lost) : l.closes = 0 := by
  rw [h, if_neg hl]

theorem Sound.le_one : l.closes ≤ 1 := by
  rw [h]
  split_ifs
  · exact Nat.le_refl 1
  · exact Nat.zero_le 1

/-- A change of a resource that was not lost, after which it is closed if it is lost now. -/
theorem Sound.settle {l' : Lease} (hl : ¬l.Lost) (hcloses : l'.closes = l.closes) :
    l'.settle.Sound := by
  have hzero := hcloses.trans (h.eq_zero hl)
  unfold Lease.settle
  split_ifs with hl'
  · have hlost : Lost { l' with closes := l'.closes + 1 } := hl'
    rw [Sound, if_pos hlost, hzero]
  · rw [Sound, if_neg hl', hzero]

theorem Sound.borrow (hl : ¬l.Lost) : l.borrow.Sound := by
  have hl' : ¬l.borrow.Lost := fun h' => absurd h'.2 (Nat.succ_ne_zero _)
  rw [Sound, if_neg hl']
  exact h.eq_zero hl

theorem Sound.release (hpos : 0 < l.holders) : l.release.Sound :=
  h.settle (fun hl => absurd hl.2 (Nat.ne_of_gt hpos)) rfl

theorem Sound.retire (hr : l.retained = true) : l.retire.Sound := by
  refine h.settle (fun hl => ?_) rfl
  rw [hl.1] at hr
  cases hr

end

end Lease

end Foundation
