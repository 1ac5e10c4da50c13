import Mathlib.Algebra.Order.Ring.Int
import Mathlib.Data.List.Basic

/-!
# Steps that may be interrupted

A list of steps, each of which may fail, on a state. `Throughout` says that all of them can
be made and that a property holds at every point, so also if they stop halfway.
-/

namespace Foundation

variable {σ α : Type} {apply : σ → α → Option σ} {Q Q' : σ → Prop}

inductive Throughout (apply : σ → α → Option σ) (Q : σ → Prop) : List α → σ → σ → Prop
  | nil {s : σ} (here : Q s) : Throughout apply Q [] s s
  | cons {a : α} {steps : List α} {s s1 s' : σ} (here : Q s) (first : apply s a = some s1)
      (rest : Throughout apply Q steps s1 s') : Throughout apply Q (a :: steps) s s'

namespace Throughout

variable {steps steps' : List α} {s s1 s' : σ}

theorem here (h : Throughout apply Q steps s s') : Q s := by
  cases h <;> assumption

theorem last (h : Throughout apply Q steps s s') : Q s' := by
  induction h with
  | nil here => exact here
  | cons _ _ _ ih => exact ih

theorem append (h : Throughout apply Q steps s s1) (h' : Throughout apply Q steps' s1 s') :
    Throughout apply Q (steps ++ steps') s s' := by
  induction h with
  | nil _ => exact h'
  | cons here first _ ih => exact .cons here first (ih h')

section

variable (h : Throughout apply Q steps s s')
include h

theorem mono (hQ : ∀ s, Q s → Q' s) :
    Throughout apply Q' steps s s' := by
  induction h with
  | nil here => exact .nil (hQ _ here)
  | cons here first _ ih => exact .cons (hQ _ here) first ih

theorem foldlM_eq : steps.foldlM apply s = some s' := by
  induction h with
  | nil _ => rfl
  | cons _ first _ ih =>
    rw [List.foldlM_cons, first]
    exact ih

theorem of_isPrefix {pre : List α} (hp : pre <+: steps) :
    ∃ s1, pre.foldlM apply s = some s1 ∧ Q s1 := by
  induction h generalizing pre with
  | nil here =>
    rw [List.prefix_nil.mp hp]
    exact ⟨_, rfl, here⟩
  | cons here first _ ih =>
    cases pre with
    | nil => exact ⟨_, rfl, here⟩
    | cons b pre =>
      obtain ⟨rfl, hp'⟩ := List.cons_prefix_cons.mp hp
      obtain ⟨s1, hs, hQ⟩ := ih hp'
      refine ⟨s1, ?_, hQ⟩
      rw [List.foldlM_cons, first]
      exact hs

end

end Throughout

end Foundation
