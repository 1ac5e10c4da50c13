import Mathlib.Algebra.Order.Ring.Int

/-!
# Computations that may fail

How `Except` computes, so that a run of one is taken apart step by step: a sequence
succeeds exactly when each of its steps does (`bind_eq_ok`). An operation that changes a
state in place may fail halfway; what it leaves behind is part of its `Failure`.
-/

namespace Foundation

structure Failure (ε σ : Type) where
  error : ε
  state : σ
deriving DecidableEq

abbrev Update (ε σ : Type) := Except (Failure ε σ) σ

def stateAfter {ε σ : Type} : Update ε σ → σ
  | .ok s => s
  | .error f => f.state

variable {ε σ : Type}

@[simp] theorem stateAfter_ok (s : σ) : stateAfter (.ok s : Update ε σ) = s := rfl

@[simp] theorem stateAfter_error (f : Failure ε σ) :
    stateAfter (.error f : Update ε σ) = f.state := rfl

/-- What each call keeps, failed or not, is kept by a loop of calls that stops at the first failure. -/
theorem stateAfter_loop {α : Type} (call : σ → α → Update ε σ) (loop : σ → List α → Update ε σ)
    (hnil : ∀ s, loop s [] = .ok s)
    (hok : ∀ {s s' : σ} {a : α} (l : List α), call s a = .ok s' → loop s (a :: l) = loop s' l)
    (herror : ∀ {s : σ} {f : Failure ε σ} {a : α} (l : List α),
      call s a = .error f → loop s (a :: l) = .error f)
    {P : σ → Prop} (hcall : ∀ s a, P s → P (stateAfter (call s a))) {s : σ} (hs : P s) (l : List α) :
    P (stateAfter (loop s l)) := by
  induction l generalizing s with
  | nil =>
    rw [hnil]
    exact hs
  | cons a l ih =>
    have h1 := hcall s a hs
    cases ha : call s a with
    | ok s' =>
      rw [ha] at h1
      rw [hok l ha]
      exact ih h1
    | error f =>
      rw [ha] at h1
      rw [herror l ha]
      exact h1

end Foundation

namespace Foundation.Results

variable {ε α β : Type}

@[simp] theorem ok_bind (a : α) (f : α → Except ε β) : (Except.ok a >>= f) = f a := rfl

theorem some_bind (a : α) (f : α → Option β) : (some a >>= f) = f a := rfl

@[simp] theorem error_bind (e : ε) (f : α → Except ε β) :
    (Except.error e >>= f) = Except.error e := rfl

@[simp] theorem pure_eq_ok (a : α) : (pure a : Except ε α) = .ok a := rfl

@[simp] theorem throw_eq_error (e : ε) : (throw e : Except ε α) = .error e := rfl

theorem bind_eq_ok {x : Except ε α} {f : α → Except ε β} {b : β} :
    (x >>= f) = .ok b ↔ ∃ a, x = .ok a ∧ f a = .ok b := by
  cases x with
  | error e => simp
  | ok a => simp

theorem toOption_eq_some {x : Except ε α} {a : α} : x.toOption = some a ↔ x = .ok a := by
  cases x with
  | error e => simp [Except.toOption]
  | ok b => simp [Except.toOption]

/-- The error of a result that is none. -/
def errorOf : Except ε α → Option ε
  | .error e => some e
  | .ok _ => none

theorem errorOf_eq_some {x : Except ε α} {e : ε} : errorOf x = some e ↔ x = .error e := by
  cases x with
  | error e' => simp [errorOf]
  | ok a => simp [errorOf]

end Foundation.Results
