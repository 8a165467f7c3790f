import Mathlib

/-!
# Traced Programs

A program works on a state, leaves a trace of events, and ends in one of four ways: with a result, with
an error that it reports, in a crash, or not at all. The last one is how a program with a bounded number
of rounds (*fuel*) says that the rounds did not suffice. `Post` is what holds whenever a program ends
with a result.
-/

namespace TraceHarbor.Lib

/-- How a program ends. -/
inductive Outcome (φ σ α : Type) where
  | done (a : α) (s : σ)
  | fatal (error : φ)
  | crash
  | endless
  deriving Repr, DecidableEq

/-- The trace and the end of a run. -/
@[ext]
structure TracedRun (ε φ σ α : Type) where
  trace : List ε
  outcome : Outcome φ σ α
  deriving Repr, DecidableEq

/-- Programs on states `σ` with events `ε` and errors `φ`. -/
def Traced (ε φ σ α : Type) := σ → TracedRun ε φ σ α

variable {ε φ σ α β τ ρ : Type}

/-- The result of a program that is done. -/
def Outcome.result : Outcome φ σ α → Option α
  | done a _ => some a
  | _ => none

/-- The state of a program that is done. -/
def Outcome.state : Outcome φ σ α → Option σ
  | done _ s => some s
  | _ => none

namespace Traced

/-- What follows a run that is done. -/
def andThen (run : TracedRun ε φ σ α) (f : α → Traced ε φ σ β) : TracedRun ε φ σ β :=
  match run.outcome with
  | .done a s => ⟨run.trace ++ (f a s).trace, (f a s).outcome⟩
  | .fatal error => ⟨run.trace, .fatal error⟩
  | .crash => ⟨run.trace, .crash⟩
  | .endless => ⟨run.trace, .endless⟩

instance : Monad (Traced ε φ σ) where
  pure a := fun s => ⟨[], .done a s⟩
  bind x f := fun s => andThen (x s) f

/-- A part of the state. -/
def gets (f : σ → α) : Traced ε φ σ α := fun s => ⟨[], .done (f s) s⟩

/-- A change of the state. -/
def modify (f : σ → σ) : Traced ε φ σ Unit := fun s => ⟨[], .done () (f s)⟩

/-- An event. -/
def emit (e : ε) : Traced ε φ σ Unit := fun s => ⟨[e], .done () s⟩

/-- A reported error. -/
def fail (error : φ) : Traced ε φ σ α := fun _ => ⟨[], .fatal error⟩

/-- A value, or an error if there is none. -/
def orFail (error : φ) : Option α → Traced ε φ σ α
  | some a => pure a
  | none => fail error

/-- A loop of at most `fuel` rounds: `Sum.inl` goes round again, `Sum.inr` leaves the loop. -/
def loopM (body : τ → Traced ε φ σ (τ ⊕ ρ)) : ℕ → τ → Traced ε φ σ ρ
  | 0, _ => fun _ => ⟨[], .endless⟩
  | fuel + 1, t => body t >>= Sum.elim (loopM body fuel) pure

variable {x : Traced ε φ σ α} {f : α → Traced ε φ σ β}

theorem pure_apply (a : α) (s : σ) : (pure a : Traced ε φ σ α) s = ⟨[], .done a s⟩ := rfl

theorem bind_apply (x : Traced ε φ σ α) (f : α → Traced ε φ σ β) (s : σ) :
    (x >>= f) s = andThen (x s) f := rfl

theorem bind_of_done {s s' : σ} {a : α} (h : (x s).outcome = .done a s') :
    (x >>= f) s = ⟨(x s).trace ++ (f a s').trace, (f a s').outcome⟩ := by
  rw [bind_apply, andThen, h]

theorem bind_of_fatal {s : σ} {error : φ} (h : (x s).outcome = .fatal error) :
    (x >>= f) s = ⟨(x s).trace, .fatal error⟩ := by
  rw [bind_apply, andThen, h]

theorem bind_of_crash {s : σ} (h : (x s).outcome = .crash) :
    (x >>= f) s = ⟨(x s).trace, .crash⟩ := by
  rw [bind_apply, andThen, h]

theorem bind_of_endless {s : σ} (h : (x s).outcome = .endless) :
    (x >>= f) s = ⟨(x s).trace, .endless⟩ := by
  rw [bind_apply, andThen, h]

instance : LawfulMonad (Traced ε φ σ) := .mk' _
  (by
    intro α x
    funext s
    change andThen (x s) pure = x s
    rw [andThen]
    cases h : (x s).outcome <;> exact TracedRun.ext (by simp [pure_apply]) h.symm)
  (fun _ _ => rfl)
  (by
    intro α β γ x f g
    funext s
    rw [bind_apply, bind_apply, bind_apply]
    cases hx : (x s).outcome with
    | done a s' =>
      simp only [andThen, hx, bind_apply]
      cases (f a s').outcome <;> simp only [List.append_assoc]
    | fatal error | crash | endless => simp only [andThen, hx])

/-- A sequence that is done was done at its first part. -/
theorem bind_eq_done {s s' : σ} {b : β} (h : ((x >>= f) s).outcome = .done b s') :
    ∃ a s₁, (x s).outcome = .done a s₁ ∧ (f a s₁).outcome = .done b s' ∧
      ((x >>= f) s).trace = (x s).trace ++ (f a s₁).trace := by
  cases hx : (x s).outcome with
  | done a s₁ =>
    rw [bind_of_done hx] at h ⊢
    exact ⟨a, s₁, rfl, h, rfl⟩
  | fatal error =>
    rw [bind_of_fatal hx] at h
    cases h
  | crash =>
    rw [bind_of_crash hx] at h
    cases h
  | endless =>
    rw [bind_of_endless hx] at h
    cases h

/-- The program ends with a result. Unlike the equation it is short for, it is taken apart by the shape of
the program alone. -/
def Ends (x : Traced ε φ σ α) (s : σ) (a : α) (s' : σ) : Prop := (x s).outcome = .done a s'

theorem Ends.bind {s s' : σ} {b : β} (h : Ends (x >>= f) s b s') :
    ∃ a s₁, Ends x s a s₁ ∧ Ends (f a) s₁ b s' ∧
      ((x >>= f) s).trace = (x s).trace ++ (f a s₁).trace :=
  bind_eq_done h

theorem loopM_succ (body : τ → Traced ε φ σ (τ ⊕ ρ)) (fuel : ℕ) (t : τ) :
    loopM body (fuel + 1) t = body t >>= Sum.elim (loopM body fuel) pure := rfl

/-! ## Results -/

/-- Whenever the program ends with a result, the relation holds of the state before, the trace, the
result and the state after. -/
def Post (x : Traced ε φ σ α) (P : σ → List ε → α → σ → Prop) : Prop :=
  ∀ s a s', (x s).outcome = .done a s' → P s (x s).trace a s'

end Traced

end TraceHarbor.Lib
