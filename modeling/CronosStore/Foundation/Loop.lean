import Mathlib.Algebra.Order.Ring.Int

/-!
# Loops that end

A loop is what one turn does, together with a weight that every turn makes smaller. So it ends from
every state (`ends_result`), with one result (`Ends.result_eq`), and the result can be computed.
-/

namespace Foundation

inductive Turn (σ ρ : Type)
  | next (state : σ)
  | done (result : ρ)
deriving DecidableEq

/-- A loop with what each turn makes smaller. -/
structure Loop (σ ρ : Type) where
  turn : σ → Turn σ ρ
  weight : σ → Nat
  decreases : ∀ s s', turn s = .next s' → weight s' < weight s

namespace Loop

variable {σ ρ : Type} {l : Loop σ ρ} {s s' : σ} {r r' : ρ}

inductive Ends (l : Loop σ ρ) : σ → ρ → Prop
  | done {s : σ} {r : ρ} (h : l.turn s = .done r) : Ends l s r
  | next {s s' : σ} {r : ρ} (h : l.turn s = .next s') (rest : Ends l s' r) : Ends l s r

def run (l : Loop σ ρ) : Nat → σ → Option ρ
  | 0, _ => none
  | fuel + 1, s =>
    match l.turn s with
    | .next s' => l.run fuel s'
    | .done r => some r

theorem run_isSome (l : Loop σ ρ) {fuel : Nat} {s : σ} (h : l.weight s < fuel) :
    (l.run fuel s).isSome = true := by
  induction fuel generalizing s with
  | zero => omega
  | succ fuel ih =>
    rw [run]
    cases hturn : l.turn s with
    | done r => rfl
    | next s' =>
      have := l.decreases s s' hturn
      exact ih (by omega)

def result (l : Loop σ ρ) (s : σ) : ρ :=
  (l.run (l.weight s + 1) s).get (l.run_isSome (Nat.lt_succ_self _))

theorem ends_of_run {fuel : Nat} (h : l.run fuel s = some r) : l.Ends s r := by
  induction fuel generalizing s with
  | zero => cases h
  | succ fuel ih =>
    rw [run] at h
    cases hturn : l.turn s with
    | done r' =>
      rw [hturn] at h
      cases h
      exact .done hturn
    | next s' =>
      rw [hturn] at h
      exact .next hturn (ih h)

theorem ends_result (l : Loop σ ρ) (s : σ) : l.Ends s (l.result s) :=
  ends_of_run (Option.some_get _).symm

theorem Ends.unique (h : l.Ends s r) (h' : l.Ends s r') : r = r' := by
  induction h with
  | done hturn =>
    cases h' with
    | done hturn' =>
      rw [hturn] at hturn'
      cases hturn'
      rfl
    | next hturn' _ =>
      rw [hturn] at hturn'
      cases hturn'
  | next hturn _ ih =>
    cases h' with
    | done hturn' =>
      rw [hturn] at hturn'
      cases hturn'
    | next hturn' rest =>
      rw [hturn] at hturn'
      cases hturn'
      exact ih rest

theorem Ends.result_eq (h : l.Ends s r) : l.result s = r := (l.ends_result s).unique h

end Loop

end Foundation
