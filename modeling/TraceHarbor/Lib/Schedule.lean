import Mathlib

/-!
# Infinite Schedules

An infinite schedule names the action of each moment; the trace is the sequence of states that a total
step function passes through. An action that cannot be taken leaves the state as it is. What no
scheduled step destroys stays, and what holds until an action is taken, when that action is scheduled
again and again, leads to what the action then establishes.
-/

namespace TraceHarbor.Lib

variable {σ ι : Type*}

/-- The state before the moment `n`. -/
def trace (step : σ → ι → σ) (s : σ) (schedule : ℕ → ι) : ℕ → σ
  | 0 => s
  | n + 1 => step (trace step s schedule n) (schedule n)

/-- The action is scheduled at or after every moment. -/
def Recurrent (schedule : ℕ → ι) (a : ι) : Prop := ∀ n, ∃ m, n ≤ m ∧ schedule m = a

variable {step : σ → ι → σ} {s : σ} {schedule : ℕ → ι} {P Q : σ → Prop}

theorem trace_always (hinit : P s) (hstep : ∀ s a, P s → P (step s a)) (n : ℕ) :
    P (trace step s schedule n) := by
  induction n with
  | zero => exact hinit
  | succ n ih => exact hstep _ _ ih

/-- A property that the steps from some moment on keep, holds from then on. -/
theorem trace_stable {n : ℕ} (hn : P (trace step s schedule n))
    (hstep : ∀ m, n ≤ m → P (trace step s schedule m) → P (trace step s schedule (m + 1))) {m : ℕ}
    (hm : n ≤ m) : P (trace step s schedule m) := by
  induction m, hm using Nat.le_induction with
  | base => exact hn
  | succ m hm ih => exact hstep m hm ih

/-- If every step keeps `P` or reaches `Q`, and the recurrent action reaches `Q` from `P`, then `P`
leads to `Q`. -/
theorem trace_leadsTo {a : ι} (hrec : Recurrent schedule a) {n : ℕ}
    (hn : P (trace step s schedule n))
    (hstep : ∀ m, n ≤ m → P (trace step s schedule m) →
      P (trace step s schedule (m + 1)) ∨ Q (trace step s schedule (m + 1)))
    (hact : ∀ m, n ≤ m → schedule m = a → P (trace step s schedule m) →
      Q (trace step s schedule (m + 1))) :
    ∃ m, n ≤ m ∧ Q (trace step s schedule m) := by
  by_contra hnev
  push Not at hnev
  have hstays : ∀ m, n ≤ m → P (trace step s schedule m) := fun m hm =>
    trace_stable hn (fun k hk hP => (hstep k hk hP).resolve_right (hnev (k + 1) (by omega))) hm
  obtain ⟨m, hm, ha⟩ := hrec n
  exact hnev (m + 1) (by omega) (hact m hm ha (hstays m hm))

end TraceHarbor.Lib
