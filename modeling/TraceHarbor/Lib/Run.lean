import Mathlib

/-!
# Runs of Deterministic State Machines

A machine is a total step function `σ → ι → σ`; a run is the fold of the step over a list of operations.
A partial machine may fail to step; `tryRun` is its run.
-/

namespace TraceHarbor.Lib

variable {σ ι : Type*}

/-- The state after a list of operations. -/
def run (step : σ → ι → σ) (s : σ) (ops : List ι) : σ := ops.foldl step s

/-- `P` holds in every state of the run, the first and the last included. -/
def Always (step : σ → ι → σ) (P : σ → Prop) : σ → List ι → Prop
  | s, [] => P s
  | s, op :: ops => P s ∧ Always step P (step s op) ops

/-- Every step of the run is taken in a state that meets the condition. -/
def Meets (step : σ → ι → σ) (cond : σ → ι → Prop) : σ → List ι → Prop
  | _, [] => True
  | s, op :: ops => cond s op ∧ Meets step cond (step s op) ops

variable {step : σ → ι → σ} {P Inv : σ → Prop} {cond : σ → ι → Prop}

theorem run_append (s : σ) (xs ys : List ι) :
    run step s (xs ++ ys) = run step (run step s xs) ys :=
  List.foldl_append ..

theorem Always.last {s : σ} {ops : List ι} (h : Always step P s ops) : P (run step s ops) := by
  induction ops generalizing s with
  | nil => exact h
  | cons op ops ih => exact ih h.2

/-- Steps that meet the condition keep the invariant, so it holds throughout the run. -/
theorem Always.of_invariant (hstep : ∀ s op, Inv s → cond s op → Inv (step s op))
    (hP : ∀ s, Inv s → P s) {s : σ} {ops : List ι} (hinit : Inv s)
    (hmeets : Meets step cond s ops) : Always step P s ops := by
  induction ops generalizing s with
  | nil => exact hP s hinit
  | cons op ops ih => exact ⟨hP s hinit, ih (hstep s op hinit hmeets.1) hmeets.2⟩

/-- A property that holds under an invariant and is lost by any step that does not meet the
condition holds throughout a run exactly when every step meets the condition. -/
theorem always_iff_meets (hstep : ∀ s op, Inv s → cond s op → Inv (step s op))
    (hP : ∀ s, Inv s → P s) (hbreak : ∀ s op, Inv s → ¬ cond s op → ¬ P (step s op))
    {s : σ} (hinit : Inv s) (ops : List ι) :
    Always step P s ops ↔ Meets step cond s ops := by
  refine ⟨fun halw => ?_, Always.of_invariant hstep hP hinit⟩
  induction ops generalizing s with
  | nil => trivial
  | cons op ops ih =>
    have hnext : P (step s op) := by
      cases ops with
      | nil => exact halw.2
      | cons op' ops' => exact halw.2.1
    have hcond : cond s op := by
      by_contra hno
      exact hbreak s op hinit hno hnext
    exact ⟨hcond, ih (hstep s op hinit hcond) halw.2⟩

instance decidableMeets (step : σ → ι → σ) (cond : σ → ι → Prop) [∀ s op, Decidable (cond s op)] :
    ∀ s ops, Decidable (Meets step cond s ops)
  | _, [] => isTrue trivial
  | s, op :: ops =>
    haveI := decidableMeets step cond (step s op) ops
    inferInstanceAs (Decidable (cond s op ∧ Meets step cond (step s op) ops))

/-- An invariant that speaks of the operations so far, at the end of a run. -/
theorem run_of_invariant {Inv : List ι → σ → Prop}
    (hstep : ∀ past s op, Inv past s → cond s op → Inv (past ++ [op]) (step s op))
    {past ops : List ι} {s : σ} (hs : Inv past s) (hmeets : Meets step cond s ops) :
    Inv (past ++ ops) (run step s ops) := by
  induction ops generalizing past s with
  | nil => rwa [List.append_nil]
  | cons op ops ih =>
    have hnext := ih (hstep past s op hs hmeets.1) hmeets.2
    rwa [List.append_assoc] at hnext

/-! ## Partial machines -/

section Partial

/-- The state after a list of operations, if none of them fails. -/
def tryRun (step : σ → ι → Option σ) : σ → List ι → Option σ
  | s, [] => some s
  | s, op :: ops => (step s op).bind fun s' => tryRun step s' ops

/-- Every step of the run, up to one that fails, is taken in a state that meets the condition. -/
def TryMeets (step : σ → ι → Option σ) (cond : σ → ι → Prop) : σ → List ι → Prop
  | _, [] => True
  | s, op :: ops => cond s op ∧ ∀ s', step s op = some s' → TryMeets step cond s' ops

instance decidableTryMeets (step : σ → ι → Option σ) (cond : σ → ι → Prop)
    [∀ s op, Decidable (cond s op)] : ∀ s ops, Decidable (TryMeets step cond s ops)
  | _, [] => isTrue trivial
  | s, op :: ops =>
    haveI : Decidable (∀ s', step s op = some s' → TryMeets step cond s' ops) :=
      match step s op with
      | none => isTrue nofun
      | some s' =>
        haveI := decidableTryMeets step cond s' ops
        decidable_of_iff (TryMeets step cond s' ops)
          ⟨fun h _ heq => Option.some.inj heq ▸ h, fun h => h s' rfl⟩
    inferInstanceAs (Decidable (cond s op ∧ _))

variable {step : σ → ι → Option σ} {cond cond' : σ → ι → Prop} {Inv : List ι → σ → Prop}

theorem TryMeets.and {s : σ} {ops : List ι} (h : TryMeets step cond s ops)
    (h' : TryMeets step cond' s ops) : TryMeets step (fun s op => cond s op ∧ cond' s op) s ops := by
  induction ops generalizing s with
  | nil => trivial
  | cons op ops ih =>
    exact ⟨⟨h.1, h'.1⟩, fun s' hs' => ih (h.2 s' hs') (h'.2 s' hs')⟩

/-- A condition that is only asked for under a hypothesis on the whole run. -/
theorem TryMeets.imp {P : Prop} {s : σ} {ops : List ι} (h : P → TryMeets step cond s ops) :
    TryMeets step (fun s op => P → cond s op) s ops := by
  induction ops generalizing s with
  | nil => trivial
  | cons op ops ih =>
    exact ⟨fun hp => (h hp).1, fun s' hs' => ih fun hp => (h hp).2 s' hs'⟩

/-- The condition follows from an invariant that every step keeps. -/
theorem TryMeets.of_invariant {Inv : σ → Prop}
    (hstep : ∀ s op, Inv s → cond s op ∧ ∀ s', step s op = some s' → Inv s') {s : σ} (hs : Inv s)
    (ops : List ι) : TryMeets step cond s ops := by
  induction ops generalizing s with
  | nil => trivial
  | cons op ops ih =>
    obtain ⟨hcond, hnext⟩ := hstep s op hs
    exact ⟨hcond, fun s' hs' => ih (hnext s' hs')⟩

/-- Steps that meet the condition succeed and keep the invariant, so the whole run does. -/
theorem tryRun_of_invariant
    (hstep : ∀ past s op, Inv past s → cond s op → ∃ s', step s op = some s' ∧ Inv (past ++ [op]) s')
    {past ops : List ι} {s : σ} (hs : Inv past s) (hmeets : TryMeets step cond s ops) :
    ∃ s', tryRun step s ops = some s' ∧ Inv (past ++ ops) s' := by
  induction ops generalizing past s with
  | nil => exact ⟨s, rfl, by rwa [List.append_nil]⟩
  | cons op ops ih =>
    obtain ⟨s₁, hs₁, hinv₁⟩ := hstep past s op hs hmeets.1
    obtain ⟨s', hrun, hinv⟩ := ih hinv₁ (hmeets.2 s₁ hs₁)
    refine ⟨s', by rw [tryRun, hs₁, Option.bind_some, hrun], ?_⟩
    rwa [List.append_assoc] at hinv

end Partial

end TraceHarbor.Lib
