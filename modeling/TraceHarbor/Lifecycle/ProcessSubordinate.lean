import TraceHarbor.Lib.Run
import TraceHarbor.Lib.Text

/-!
# Killing a Background Process

A process that is to be killed asks its listeners and either reports that it was rescued or posts a
runnable; 10 s later the runnable looks at the state of the process and kills it, unless it is in the
foreground. The flag that lets a process be rescued once is set only where it is already set, so that no
process is ever rescued.
-/

namespace TraceHarbor.Lifecycle

open Lib List

namespace ProcessSubordinate

/-- The calls of the supervisor's proxy. -/
inductive Outcome where
  | onProcessRescuedFromKill
  | onProcessKilled
  | onProcessKillCanceled
  deriving DecidableEq

/-- A `Subordinate` in its process. Of the numbered messages, `pending` has those whose runnable
waits, `asked` those with listeners that asked to rescue, `calls` the outcomes. -/
structure Subordinate where
  processName : Text
  pid : ℕ
  rescued : Bool
  alive : Bool
  received : ℕ
  pending : List ℕ
  asked : List ℕ
  calls : List (ℕ × Outcome)

/-- A message comes, with the answers of the listeners, or the oldest runnable runs. -/
inductive Event where
  | dispatchKill (targetProcess : Text) (targetPid : ℕ) (answers : List Bool)
  | timeout (started hasForegroundService hasVisibleWindow : Bool)

namespace Subordinate

def init (processName : Text) (pid : ℕ) : Subordinate :=
  ⟨processName, pid, false, true, 0, [], [], []⟩

def invokeAll (answers : List Bool) : Bool := answers.foldl (fun rescue r => rescue || r) false

def dispatchKill (s : Subordinate) (targetProcess : Text) (targetPid : ℕ) (answers : List Bool) :
    Subordinate :=
  let toRescue := invokeAll answers
  if targetProcess = s.processName ∧ s.pid = targetPid then
    let token := s.received
    let s := { s with
      received := token + 1, asked := if toRescue then s.asked ++ [token] else s.asked }
    if toRescue && s.rescued then
      { s with rescued := true, calls := s.calls ++ [(token, .onProcessRescuedFromKill)] }
    else
      { s with pending := s.pending ++ [token] }
  else
    s

/-- The runnable of the oldest message that waits. -/
def recheck (s : Subordinate) (started hasForegroundService hasVisibleWindow : Bool) :
    Subordinate :=
  match s.pending with
  | [] => s
  | token :: pending =>
    if !started && !hasForegroundService && !hasVisibleWindow then
      { s with
        pending := pending, alive := false, calls := s.calls ++ [(token, .onProcessKilled)] }
    else
      { s with pending := pending, calls := s.calls ++ [(token, .onProcessKillCanceled)] }

def step (s : Subordinate) (event : Event) : Subordinate :=
  if s.alive then
    match event with
    | .dispatchKill targetProcess targetPid answers => s.dispatchKill targetProcess targetPid answers
    | .timeout started service window => s.recheck started service window
  else
    s

/-- Every message has one outcome or waits for its runnable, and the first message for which the
listeners asked to rescue is the one that is rescued. -/
structure Answers (s : Subordinate) : Prop where
  once : (s.calls.map Prod.fst ++ s.pending).Perm (range s.received)
  first : ∀ token, (token, .onProcessRescuedFromKill) ∈ s.calls ↔ s.asked.head? = some token

/-- The listeners of a live process do not ask to rescue it. -/
def NoneAsks (s : Subordinate) : Event → Prop
  | .dispatchKill targetProcess targetPid answers =>
    s.alive = true → targetProcess = s.processName → s.pid = targetPid → invokeAll answers = false
  | .timeout .. => True

structure Unasked (s : Subordinate) : Prop extends Answers s where
  rescued : s.rescued = false
  asked : s.asked = []

variable {s : Subordinate}

/-- A message takes the next number, and its runnable waits. -/
theorem Unasked.post (h : s.Unasked) :
    (s.calls.map Prod.fst ++ (s.pending ++ [s.received])).Perm (range (s.received + 1)) := by
  rw [← append_assoc, range_succ]
  exact h.once.append_right _

/-- The oldest runnable reports an outcome other than a rescue. -/
theorem Unasked.report (h : s.Unasked) {token : ℕ} {pending : List ℕ} {outcome : Outcome}
    (hpend : s.pending = token :: pending) (hout : outcome ≠ .onProcessRescuedFromKill) (alive : Bool) :
    Unasked { s with
      pending := pending, alive := alive, calls := s.calls ++ [(token, outcome)] } := by
  have honce := h.once
  rw [hpend] at honce
  refine ⟨⟨?_, fun n => ?_⟩, h.rescued, h.asked⟩
  · simpa using honce
  · rw [mem_append, h.first]
    simp [hout.symm]

theorem Unasked.step (h : s.Unasked) {event : Event} (hnone : s.NoneAsks event) :
    (s.step event).Unasked := by
  unfold Subordinate.step
  split
  next halive =>
    cases event with
    | timeout started service window =>
      dsimp only [recheck]
      split
      · exact h
      next hpend =>
        split
        · exact h.report hpend (by simp) false
        · exact h.report hpend (by simp) s.alive
    | dispatchKill name pid answers =>
      dsimp only [dispatchKill]
      split
      next haddr =>
        rw [hnone halive haddr.1 haddr.2]
        exact ⟨⟨h.post, h.first⟩, h.rescued, h.asked⟩
      · exact h
  · exact h

theorem Unasked.not_answers (h : s.Unasked) {event : Event} (hasks : ¬ s.NoneAsks event) :
    ¬ (s.step event).Answers := by
  cases event with
  | timeout => exact absurd trivial hasks
  | dispatchKill name pid answers =>
    simp only [NoneAsks, Classical.not_imp, Bool.not_eq_false] at hasks
    obtain ⟨halive, hname, hpid, hask⟩ := hasks
    intro hans
    have hfirst := hans.first s.received
    simp [Subordinate.step, dispatchKill, halive, hname, hpid, hask, h.rescued, h.asked] at hfirst
    have hno := (h.first s.received).mp hfirst
    rw [h.asked] at hno
    exact nomatch hno

/-- **The kill protocol**: each message has exactly one outcome, and the first message that is to
be rescued is rescued, in exactly the runs in which the listeners never ask to rescue. -/
theorem answers_iff_noneAsks (processName : Text) (pid : ℕ) (events : List Event) :
    Always step Answers (init processName pid) events ↔
      Meets step NoneAsks (init processName pid) events :=
  always_iff_meets (fun _ _ h => Unasked.step h) (fun _ h => h.toAnswers)
    (fun _ _ h => Unasked.not_answers h) ⟨⟨.refl _, by simp [init]⟩, rfl, rfl⟩ events

/-- The listeners ask to rescue the process, and it is killed. -/
theorem killed_though_asked :
    let s := run step (init ['p'] 1) [.dispatchKill ['p'] 1 [true], .timeout false false false]
    s.asked = [0] ∧ s.calls = [(0, .onProcessKilled)] := by
  decide

end Subordinate

end ProcessSubordinate

end TraceHarbor.Lifecycle
