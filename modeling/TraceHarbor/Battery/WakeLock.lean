import TraceHarbor.Lib.Run

/-!
# Wake-Lock Totals

The feature keeps a trace of every wake lock that is held and adds its time to the totals when the lock
is released. An acquire replaces the trace of a lock that is held, and the thirtieth warning of the
overtime timer removes it, so that the totals miss the time before, or the release.
-/

namespace TraceHarbor.Battery

open Lib Function

/-- `WakeLockTrace`; `looping` says that its task is posted. -/
structure WakeLockTrace where
  timeBgn : ℕ
  warningCount : ℕ
  looping : Bool

namespace WakeLockTrace

def warningCountLimit : ℕ := 30

/-- `start` of a new trace: a record that begins at zero counts as finished, and is not timed. -/
def started (now : ℕ) : WakeLockTrace := ⟨now, 0, now ≠ 0⟩

end WakeLockTrace

/-- The traces of the tokens that are held, and the totals. -/
structure WakeLockFeature (τ : Type*) where
  workingWakeLocks : τ → Option WakeLockTrace
  count : ℕ
  millis : ℕ

namespace WakeLockFeature

variable {τ : Type*} [DecidableEq τ]

def onAcquireWakeLock (f : WakeLockFeature τ) (token : τ) (now : ℕ) : WakeLockFeature τ :=
  { f with workingWakeLocks := update f.workingWakeLocks token (some (.started now)) }

def onReleaseWakeLock (f : WakeLockFeature τ) (token : τ) (now : ℕ) : WakeLockFeature τ :=
  match f.workingWakeLocks token with
  | none => f
  | some trace =>
    ⟨update f.workingWakeLocks token none, f.count + 1, f.millis + (now - trace.timeBgn)⟩

/-- The task of a trace runs. -/
def onWakeLockOvertime (f : WakeLockFeature τ) (token : τ) : WakeLockFeature τ :=
  match f.workingWakeLocks token with
  | some ⟨timeBgn, warningCount, true⟩ =>
    let expired := WakeLockTrace.warningCountLimit ≤ warningCount + 1
    let trace := if expired then none else some ⟨timeBgn, warningCount + 1, true⟩
    { f with workingWakeLocks := update f.workingWakeLocks token trace }
  | _ => f

/-! ## What the totals should be -/

/-- The feature, the time, since when each token is held, and the number and the time of the releases
of tokens that were held. -/
structure History (τ : Type*) where
  feature : WakeLockFeature τ
  clock : ℕ
  held : τ → Option ℕ
  releases : ℕ
  heldMillis : ℕ

inductive Call (τ : Type*) where
  | acquire (token : τ)
  | release (token : τ)
  | overtime (token : τ)

namespace History

def init (start : ℕ) : History τ := ⟨⟨fun _ => none, 0, 0⟩, start, fun _ => none, 0, 0⟩

/-- A call, some time after the one before. -/
def step (s : History τ) (call : ℕ × Call τ) : History τ :=
  let now := s.clock + call.1
  match call.2 with
  | .acquire token =>
    { s with
      feature := s.feature.onAcquireWakeLock token now
      clock := now
      held := update s.held token (some ((s.held token).getD now)) }
  | .release token =>
    match s.held token with
    | none => { s with feature := s.feature.onReleaseWakeLock token now, clock := now }
    | some since =>
      ⟨s.feature.onReleaseWakeLock token now, now, update s.held token none, s.releases + 1,
        s.heldMillis + (now - since)⟩
  | .overtime token => { s with feature := s.feature.onWakeLockOvertime token, clock := now }

/-- `getTotalCount` and `getTimeMillis` are right. -/
def TotalsRight (s : History τ) : Prop :=
  s.feature.count = s.releases ∧ s.feature.millis = s.heldMillis

/-- A token is not acquired while it is held since an earlier time, and no trace is warned of for the
last time. -/
def Traceable (s : History τ) (call : ℕ × Call τ) : Prop :=
  match call.2 with
  | .acquire token => ∀ since ∈ s.held token, since = s.clock + call.1
  | .release _ => True
  | .overtime token => ∀ trace ∈ s.feature.workingWakeLocks token,
      trace.warningCount + 1 < WakeLockTrace.warningCountLimit

/-- The traces are those of the tokens that are held. -/
structure Traces (s : History τ) : Prop where
  totals : s.TotalsRight
  held : s.held = Option.map WakeLockTrace.timeBgn ∘ s.feature.workingWakeLocks

theorem Traces.step {s : History τ} (h : s.Traces) {call : ℕ × Call τ} (hcall : s.Traceable call) :
    (s.step call).Traces := by
  obtain ⟨⟨hcount, hmillis⟩, hheld⟩ := h
  obtain ⟨elapsed, token | token | token⟩ := call
  · -- the time of the acquire is the one from which the token is held
    have hsince : (s.held token).getD (s.clock + elapsed) = s.clock + elapsed := by
      cases hget : s.held token with
      | none => rfl
      | some since => exact hcall since hget
    refine ⟨⟨hcount, hmillis⟩, ?_⟩
    simp only [History.step, onAcquireWakeLock, hsince, comp_update, ← hheld]
    rfl
  · have hget : s.held token = (s.feature.workingWakeLocks token).map WakeLockTrace.timeBgn :=
      congrFun hheld token
    simp only [History.step, onReleaseWakeLock, hget]
    cases s.feature.workingWakeLocks token with
    | none => exact ⟨⟨hcount, hmillis⟩, hheld⟩
    | some trace =>
      refine ⟨⟨congrArg (· + 1) hcount, congrArg (· + _) hmillis⟩, ?_⟩
      simp [comp_update, hheld]
  · simp only [History.step, onWakeLockOvertime]
    split
    next timeBgn warningCount hget =>
      have hlim : ¬ WakeLockTrace.warningCountLimit ≤ warningCount + 1 := Nat.not_le.mpr (hcall _ hget)
      refine ⟨⟨hcount, hmillis⟩, ?_⟩
      rw [if_neg hlim, comp_update, ← hheld]
      refine (update_eq_self_iff.mpr ?_).symm
      rw [hheld, comp_apply, hget]
      rfl
    · exact ⟨⟨hcount, hmillis⟩, hheld⟩

end History
end WakeLockFeature
end TraceHarbor.Battery
