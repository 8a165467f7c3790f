import TraceHarbor.Lifecycle.StatefulOwner

/-!
# Foreground Services

A call that starts or stops a foreground service, or clears the record of them, decides under the lock of
the record whether the owner is to be turned on or off, and does so after it has released the lock. Calls
come from the main thread and from the handler thread, so another call can come in between.
-/

namespace TraceHarbor.Lifecycle

open Lib

/-- The threads that call the handler of foreground services. -/
inductive ServiceThread where
  | main
  | handler
deriving DecidableEq

/-- The functions that are called, for services with names in `κ`. -/
inductive ServiceCall (κ : Type*) where
  | onStartForeground (componentName : κ)
  | onStopForeground (componentName : κ)
  | clear

/-- A thread goes through the synchronized block of a call, or turns the owner on or off as it has
decided there. -/
inductive ServiceOp (κ : Type*) where
  | block (thread : ServiceThread) (call : ServiceCall κ)
  | turn (thread : ServiceThread)

/-- The record, the state of the owner, and what each thread has decided and not yet done. -/
structure FgServiceHandler (κ : Type*) where
  fgServiceRecord : Finset κ
  state : State
  decided : ServiceThread → Option State

namespace FgServiceHandler

variable {κ : Type*} [DecidableEq κ]

def new : FgServiceHandler κ := ⟨∅, .init, fun _ => none⟩

/-- The synchronized block: the new record, and what the owner is to be turned to. -/
def block (record : Finset κ) : ServiceCall κ → Finset κ × Option State
  | .onStartForeground componentName =>
    (insert componentName record, if record = ∅ then some .on else none)
  | .onStopForeground componentName =>
    (record.erase componentName, if record.erase componentName = ∅ then some .off else none)
  | .clear => (∅, if record ≠ ∅ then some .off else none)

/-- One step; a thread that has still to turn the owner does not go through another block. -/
def step (s : FgServiceHandler κ) : ServiceOp κ → FgServiceHandler κ
  | .block thread call =>
    match s.decided thread with
    | some _ => s
    | none =>
      { s with
        fgServiceRecord := (block s.fgServiceRecord call).1
        decided := Function.update s.decided thread (block s.fgServiceRecord call).2 }
  | .turn thread =>
    match s.decided thread with
    | none => s
    | some state => { s with state, decided := Function.update s.decided thread none }

def Finished (s : FgServiceHandler κ) : Prop := ∀ thread, s.decided thread = none

/-- The owner is on exactly if there is a service in the foreground. -/
def Matches (s : FgServiceHandler κ) : Prop := s.state = .on ↔ s.fgServiceRecord ≠ ∅

/-- No call makes the record empty or not empty while a decision waits. -/
def Undisturbed (s : FgServiceHandler κ) : ServiceOp κ → Prop
  | .block _ call =>
    ((block s.fgServiceRecord call).1 = ∅ ↔ s.fgServiceRecord = ∅) ∨ s.Finished
  | .turn _ => True

/-- What is decided goes with the record, and so does the state if nothing is decided. -/
structure Agreeing (s : FgServiceHandler κ) : Prop where
  decided : ∀ thread state, s.decided thread = some state → (state = .on ↔ s.fgServiceRecord ≠ ∅)
  matching : s.Finished → s.Matches

theorem block_agrees {record : Finset κ} {call : ServiceCall κ} {state : State}
    (h : (block record call).2 = some state) : state = .on ↔ (block record call).1 ≠ ∅ := by
  cases call with
  | onStartForeground componentName =>
    obtain ⟨-, rfl⟩ : record = ∅ ∧ State.on = state := by simpa [block] using h
    simp [block]
  | onStopForeground componentName =>
    obtain ⟨hemp, rfl⟩ : record.erase componentName = ∅ ∧ State.off = state := by
      simpa [block] using h
    simp [block, hemp]
  | clear =>
    obtain ⟨-, rfl⟩ : record ≠ ∅ ∧ State.off = state := by
      simpa [block] using h
    simp [block]

theorem block_of_none {record : Finset κ} {call : ServiceCall κ}
    (h : (block record call).2 = none) : (block record call).1 = ∅ ↔ record = ∅ := by
  cases call with
  | onStartForeground componentName =>
    have hne : record ≠ ∅ := by simpa [block] using h
    simp [block, hne]
  | onStopForeground componentName =>
    have hne : record.erase componentName ≠ ∅ := by
      intro hemp
      rw [block, if_pos hemp] at h
      exact absurd h nofun
    refine ⟨fun hemp => absurd hemp hne, ?_⟩
    rintro rfl
    exact absurd (Finset.erase_empty componentName) hne
  | clear =>
    have hemp : record = ∅ := by
      by_contra hne
      rw [block, if_pos hne] at h
      exact absurd h nofun
    simp [block, hemp]

omit [DecidableEq κ] in
theorem agreeing_new : Agreeing (new : FgServiceHandler κ) :=
  ⟨nofun, fun _ => by simp [Matches, new]⟩

/-- **One step** that meets the condition. -/
theorem agreeing_step {s : FgServiceHandler κ} {op : ServiceOp κ} (h : Agreeing s)
    (hop : s.Undisturbed op) : Agreeing (s.step op) := by
  cases op with
  | block thread call =>
    rw [step]
    split
    · exact h
    rename_i hidle
    refine ⟨fun other state hdec => ?_, fun hfin => ?_⟩
    · by_cases hthr : other = thread
      · subst hthr
        exact block_agrees (by simpa using hdec)
      · have hold : s.decided other = some state := by simpa [hthr] using hdec
        -- Another decision waits, so the record is as empty as it was.
        have hsame := hop.resolve_right fun hfin => by simp [hfin other] at hold
        rw [h.decided other state hold]
        exact not_congr hsame.symm
    · have hnone : (block s.fgServiceRecord call).2 = none := by simpa using hfin thread
      have hbef : s.Finished := by
        intro other
        by_cases hthr : other = thread
        · exact hthr ▸ hidle
        · simpa [hthr] using hfin other
      exact (h.matching hbef).trans (not_congr (block_of_none hnone).symm)
  | turn thread =>
    rw [step]
    split
    · exact h
    rename_i state hdec
    refine ⟨fun other state' hoth => ?_, fun _ => h.decided thread state hdec⟩
    by_cases hthr : other = thread
    · subst hthr
      simp at hoth
    · exact h.decided other state' (by simpa [hthr] using hoth)

/-- **The state goes with the record** whenever all calls have finished, in every run in which no call
makes the record empty or not empty while a decision waits. -/
theorem state_matches_record (ops : List (ServiceOp κ))
    (h : Meets step Undisturbed (new : FgServiceHandler κ) ops) :
    Always step (fun s => s.Finished → s.Matches) (new : FgServiceHandler κ) ops :=
  Always.of_invariant (fun _ _ hs hop => agreeing_step hs hop) (fun _ hs => hs.matching) agreeing_new h

/-- A service that is started and found stopped, one call after the other. -/
theorem state_matches_record_sequential :
    let ops : List (ServiceOp ℕ) := [.block .main (.onStartForeground 1), .turn .main,
      .block .handler .clear, .turn .handler]
    Always step (fun s => s.Finished → s.Matches) new ops ∧ (run step new ops).state = .off := by
  refine ⟨state_matches_record _ ⟨.inr fun _ => rfl, trivial, .inr fun thread => ?_, trivial,
    trivial⟩, rfl⟩
  cases thread <;> rfl

/-- **A stale decision is applied**: the record is cleared between the two parts of a start, and the
owner stays on without a service. -/
theorem stale_decision_is_applied :
    let s := run step (new : FgServiceHandler ℕ) [.block .main (.onStartForeground 1),
      .block .handler .clear, .turn .handler, .turn .main]
    s.Finished ∧ s.state = .on ∧ s.fgServiceRecord = ∅ := by
  refine ⟨fun thread => ?_, rfl, rfl⟩
  cases thread <;> rfl

end FgServiceHandler

end TraceHarbor.Lifecycle
