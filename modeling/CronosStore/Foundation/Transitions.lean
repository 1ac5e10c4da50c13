import Mathlib.Algebra.Order.Ring.Int

/-!
# Runs of a transition system

A transition system is a function that takes an action in a state, if it can be taken there.
`Runs` are the states that actions lead to, each of which meets a condition when it is taken.
What holds at the start and is kept by every step holds in all of them
(`Runs.invariant`).
-/

namespace Foundation

variable {σ α : Type}

inductive Runs (next : σ → α → Option σ) (G : σ → α → Prop) (s0 : σ) : σ → Prop
  | init : Runs next G s0 s0
  | step {s s' : σ} {a : α} (run : Runs next G s0 s) (meets : G s a) (taken : next s a = some s') :
      Runs next G s0 s'

variable {next : σ → α → Option σ} {G : σ → α → Prop} {s0 s s' : σ}

theorem Runs.invariant {I : σ → Prop} (h0 : I s0)
    (hstep : ∀ s a s', I s → G s a → next s a = some s' → I s') (h : Runs next G s0 s) : I s := by
  induction h with
  | init => exact h0
  | step _ hG htaken ih => exact hstep _ _ _ ih hG htaken

def runActions (next : σ → α → Option σ) (G : σ → α → Prop) [∀ s a, Decidable (G s a)] (s : σ) :
    List α → Option σ
  | [] => some s
  | a :: actions =>
    if G s a then
      match next s a with
      | none => none
      | some s => runActions next G s actions
    else none

variable {actions : List α}

theorem Runs.runActions [∀ s a, Decidable (G s a)] (h : Runs next G s0 s)
    (hs : runActions next G s actions = some s') : Runs next G s0 s' := by
  induction actions generalizing s with
  | nil =>
    cases hs
    exact h
  | cons a actions ih =>
    rw [Foundation.runActions] at hs
    split_ifs at hs with hG
    cases hn : next s a with
    | none =>
      simp only [hn] at hs
      cases hs
    | some s1 =>
      simp only [hn] at hs
      exact ih (h.step hG hn) hs

end Foundation
