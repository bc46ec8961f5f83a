/-!
# Repeating a step until nothing changes

* `step_stabilize`: if the repetition stops before its bound, the result is a fixed point.
-/

namespace Predictive

/-- Repeats a step until it changes nothing, at most `bound` times. -/
def stabilize {σ : Type} [DecidableEq σ] (step : σ → σ) : (bound : Nat) → σ → σ
  | 0, s => s
  | bound + 1, s => if step s = s then s else stabilize step bound (step s)

/-- What holds at the beginning and is kept by every step holds at the end. -/
theorem stabilize_induction {σ : Type} [DecidableEq σ] {step : σ → σ} {P : σ → Prop}
    (keep : ∀ s, P s → P (step s)) (bound : Nat) {s : σ} (h : P s) :
    P (stabilize step bound s) := by
  induction bound generalizing s with
  | zero => exact h
  | succ bound ih =>
    unfold stabilize
    split
    · exact h
    · exact ih (keep s h)

/-- A measure that every real step lowers, and that is below the bound, makes the result a fixed
point. -/
theorem step_stabilize {σ : Type} [DecidableEq σ] {step : σ → σ} {P : σ → Prop}
    (keep : ∀ s, P s → P (step s)) (room : σ → Nat)
    (lower : ∀ s, P s → step s ≠ s → room (step s) < room s) (bound : Nat) {s : σ}
    (h : P s) (hb : room s ≤ bound) : step (stabilize step bound s) = stabilize step bound s := by
  induction bound generalizing s with
  | zero =>
    by_cases hs : step s = s
    · exact hs
    · exact absurd (lower s h hs) (by omega)
  | succ bound ih =>
    unfold stabilize
    split
    · next hs => exact hs
    · next hs => exact ih (keep s h) (by have := lower s h hs; omega)

end Predictive
