import TraceHarbor.IoCanary.InfoCollector
import TraceHarbor.Lib.Schedule

/-!
# The Detect Loop of the IO Canary

`OnClose` offers what the collector delivers to a queue, and a thread of its own takes it from there and
runs the detectors. `TakeFileIOInfo` looks at `exit_` only after a wake-up, so the notification of the
destructor is lost when the thread is not waiting at that moment, and the thread then waits for ever.
-/

namespace TraceHarbor.IoCanary

open Lib List

/-! ## The threads -/

/-- Where the detecting thread is: before `TakeFileIOInfo`, in it, in the detectors, or at the end of
`Detect`. -/
inductive DetectPc where
  | takeFileIOInfo
  /-- The mutex is held, before `queue_.empty()`. -/
  | emptyTest
  /-- The mutex is held and the queue is empty, before `queue_cv_.wait(lock)`. -/
  | wait
  /-- In `wait`; the mutex is released. -/
  | blocked
  /-- Notified, and before the mutex is taken again. -/
  | wakeUp
  /-- The mutex is held, before `if (exit_)`. -/
  | exitTest
  /-- The mutex is held and the queue is not empty. -/
  | pop
  | detect (info : IOInfo)
  | returned
  deriving DecidableEq

/-- The detecting thread holds `queue_mutex_`. -/
def DetectPc.holdsMutex : DetectPc → Bool
  | .emptyTest | .wait | .exitTest | .pop => true
  | _ => false

/-- `notify_one`, which wakes the thread only if it waits. -/
def DetectPc.notified : DetectPc → DetectPc
  | .blocked => .wakeUp
  | pc => pc

/-- The thread waits, has been woken up and will look at `exit_`, or is done. -/
def DetectPc.listens : DetectPc → Bool
  | .blocked | .wakeUp | .exitTest | .returned => true
  | _ => false

/-- The thread does not look at `exit_` before it is notified. -/
def DetectPc.deaf : DetectPc → Bool
  | .wakeUp | .exitTest | .returned => false
  | _ => true

/-- The queue with the state of its threads, and what was offered and detected so far. -/
structure DetectState where
  queue : List IOInfo
  exit : Bool
  notified : Bool
  pc : DetectPc
  offered : List IOInfo
  detected : List IOInfo
  deriving DecidableEq

/-- A step of the detecting thread, of a thread that offers, or of the destructor. -/
inductive DetectStep where
  | detecting
  | offer (info : IOInfo)
  | setExit
  | notify
  deriving DecidableEq

namespace DetectState

def init : DetectState := ⟨[], false, false, .takeFileIOInfo, [], []⟩

variable (s : DetectState)

/-- The next step of `Detect` and `TakeFileIOInfo`. -/
def detecting : DetectState :=
  match s.pc with
  | .takeFileIOInfo => { s with pc := .emptyTest }
  | .emptyTest => { s with pc := if s.queue = [] then .wait else .pop }
  | .wait => { s with pc := .blocked }
  | .blocked => s
  | .wakeUp => { s with pc := .exitTest }
  | .exitTest => { s with pc := if s.exit then .returned else .emptyTest }
  | .pop =>
    match s.queue with
    | [] => s
    | info :: rest => { s with queue := rest, pc := .detect info }
  | .detect info => { s with detected := s.detected ++ [info], pc := .takeFileIOInfo }
  | .returned => s

/-- `OfferFileIOInfo`, under the mutex. -/
def offer (info : IOInfo) : DetectState :=
  if s.pc.holdsMutex then s
  else { s with
    queue := s.queue ++ [info], offered := s.offered ++ [info], pc := s.pc.notified }

/-- The destructor sets `exit_`, under the mutex. -/
def setExit : DetectState := if s.pc.holdsMutex then s else { s with exit := true }

def notifies : Bool := s.exit && !s.notified

/-- The destructor notifies. It has released the mutex, which makes no difference for `notify_one`. -/
def notify : DetectState :=
  if s.notifies then { s with notified := true, pc := s.pc.notified } else s

def step : DetectStep → DetectState
  | .detecting => s.detecting
  | .offer info => s.offer info
  | .setExit => s.setExit
  | .notify => s.notify

/-! ## What is detected -/

/-- What the detecting thread has taken and not detected yet. -/
def inHand : List IOInfo :=
  match s.pc with
  | .detect info => [info]
  | _ => []

/-- What was offered is detected, in hand or in the queue. -/
def Conserved : Prop := s.detected ++ s.inHand ++ s.queue = s.offered

variable {s}

theorem conserved_init : init.Conserved := rfl

theorem inHand_notified (queue : List IOInfo) (exit notified : Bool) (pc : DetectPc)
    (offered detected : List IOInfo) :
    inHand ⟨queue, exit, notified, pc.notified, offered, detected⟩ =
      inHand ⟨queue, exit, notified, pc, offered, detected⟩ := by
  cases pc <;> rfl

theorem Conserved.detecting (h : s.Conserved) : s.detecting.Conserved := by
  obtain ⟨queue, exit, notified, pc, offered, detected⟩ := s
  simp only [Conserved] at h
  cases pc with
  | emptyTest | exitTest =>
    simp only [DetectState.detecting, Conserved]
    split_ifs <;> simpa [inHand] using h
  | pop =>
    cases queue with
    | nil => exact h
    | cons info rest => simpa [DetectState.detecting, Conserved, inHand] using h
  | _ => simpa [DetectState.detecting, Conserved, inHand] using h

/-- **One step** neither loses nor duplicates what was offered. -/
theorem Conserved.step (h : s.Conserved) (a : DetectStep) : (s.step a).Conserved := by
  cases a with
  | detecting => exact h.detecting
  | offer info =>
    simp only [DetectState.step, DetectState.offer]
    split_ifs
    · exact h
    · rw [Conserved, inHand_notified, ← append_assoc]
      exact congrArg (· ++ [info]) h
  | setExit =>
    simp only [DetectState.step, DetectState.setExit]
    split_ifs <;> exact h
  | notify =>
    simp only [DetectState.step, DetectState.notify]
    split_ifs
    · rw [Conserved, inHand_notified]
      exact h
    · exact h

/-- **Order**: in every interleaving, what is detected is the beginning of what was offered. -/
theorem detected_isPrefix (schedule : ℕ → DetectStep) (n : ℕ) :
    (trace step init schedule n).detected <+: (trace step init schedule n).offered := by
  have h : (trace step init schedule n).Conserved :=
    trace_always conserved_init (fun _ a h => h.step a) n
  rw [Conserved, append_assoc] at h
  exact ⟨_, h⟩

/-! ## When the loop returns -/

/-- The detecting thread runs for ever, the destructor gets to its notification, and what is offered
is offered before the destructor. -/
structure Fair (schedule : ℕ → DetectStep) : Prop where
  detecting : Recurrent schedule .detecting
  notify : ∀ n, (trace step init schedule n).notifies = true → ∃ m, n ≤ m ∧ schedule m = .notify
  offer : ∀ n info, schedule n = .offer info → (trace step init schedule n).exit = false

theorem flags_detecting (s : DetectState) :
    s.detecting.exit = s.exit ∧ s.detecting.notified = s.notified := by
  obtain ⟨queue, exit, notified, pc, offered, detected⟩ := s
  cases pc <;> try exact ⟨rfl, rfl⟩
  cases queue <;> exact ⟨rfl, rfl⟩

theorem exit_step (h : s.exit = true) (a : DetectStep) : (s.step a).exit = true := by
  cases a with
  | detecting => exact (flags_detecting s).1.trans h
  | offer info =>
    simp only [step, offer]
    split_ifs <;> exact h
  | setExit =>
    simp only [step, setExit]
    split_ifs
    · exact h
    · rfl
  | notify =>
    simp only [step, notify]
    split_ifs <;> exact h

theorem notified_step {a : DetectStep} (h : (s.step a).notified = true) :
    s.notified = true ∨ a = .notify ∧ s.notifies = true := by
  cases a with
  | detecting => exact .inl ((flags_detecting s).2.symm.trans h)
  | offer info =>
    simp only [step, offer] at h
    split_ifs at h <;> exact .inl h
  | setExit =>
    simp only [step, setExit] at h
    split_ifs at h <;> exact .inl h
  | notify =>
    simp only [step, notify] at h
    split_ifs at h with hnot
    · exact .inr ⟨rfl, hnot⟩
    · exact .inl h

/-- The destructor has set `exit_` and notified. -/
structure Closed (s : DetectState) : Prop where
  exit_eq : s.exit = true
  notified_eq : s.notified = true

theorem Closed.step (h : s.Closed) (a : DetectStep) : (s.step a).Closed := by
  refine ⟨exit_step h.exit_eq a, ?_⟩
  cases a with
  | detecting => exact (flags_detecting s).2.trans h.notified_eq
  | offer info =>
    simp only [DetectState.step, offer]
    split_ifs <;> exact h.notified_eq
  | setExit =>
    simp only [DetectState.step, setExit]
    split_ifs <;> exact h.notified_eq
  | notify =>
    simp only [DetectState.step, notify]
    split_ifs
    · rfl
    · exact h.notified_eq

/-- After the destructor, and with nothing offered any more, only the detecting thread itself changes
where it is. -/
theorem Closed.pc_step (h : s.Closed) {a : DetectStep} (hoff : ∀ info, a ≠ .offer info)
    (hdet : a ≠ .detecting) : (s.step a).pc = s.pc := by
  cases a with
  | detecting => exact absurd rfl hdet
  | offer info => exact absurd rfl (hoff info)
  | setExit =>
    simp only [DetectState.step, setExit]
    split_ifs <;> rfl
  | notify => simp [DetectState.step, notify, notifies, h.notified_eq]

theorem deaf_detecting (h : s.pc.deaf = true) : s.detecting.pc.deaf = true := by
  obtain ⟨queue, exit, notified, pc, offered, detected⟩ := s
  cases pc with
  | wakeUp | exitTest | returned => cases h
  | emptyTest =>
    simp only [detecting]
    split_ifs <;> rfl
  | pop => cases queue <;> rfl
  | takeFileIOInfo | wait | blocked | detect info => rfl

theorem returned_step (h : s.pc = .returned) (a : DetectStep) : (s.step a).pc = .returned := by
  cases a with
  | detecting =>
    simp only [step, detecting, h]
  | offer info =>
    simp only [step, offer]
    split_ifs
    · exact h
    · simp [h, DetectPc.notified]
  | setExit =>
    simp only [step, setExit]
    split_ifs <;> exact h
  | notify =>
    simp only [step, notify]
    split_ifs
    · simp [h, DetectPc.notified]
    · exact h

section Schedules

variable {schedule : ℕ → DetectStep}

theorem Fair.not_offer (hfair : Fair schedule) {n : ℕ}
    (hexit : (trace step init schedule n).exit = true) (info : IOInfo) :
    schedule n ≠ .offer info := by
  intro hoff
  rw [hfair.offer n info hoff] at hexit
  cases hexit

theorem Fair.exists_notifies (hfair : Fair schedule) {n : ℕ}
    (hexit : (trace step init schedule n).exit = true) :
    ∃ m, schedule m = .notify ∧ (trace step init schedule m).notifies = true := by
  by_contra hnev
  push Not at hnev
  have hfalse : ∀ m, (trace step init schedule m).notified = false := by
    intro m
    induction m with
    | zero => rfl
    | succ m ih =>
      rw [Bool.eq_false_iff]
      intro hm
      rcases notified_step hm with hold | ⟨hnot, hnoti⟩
      · rw [ih] at hold
        cases hold
      · exact hnev m hnot hnoti
  obtain ⟨m, hm, hnot⟩ := hfair.notify n (by simp [notifies, hexit, hfalse])
  have hexit' : (trace step init schedule m).exit = true :=
    trace_stable (P := fun s : DetectState => s.exit = true) hexit
      (fun k _ h => exit_step h (schedule k)) hm
  exact hnev m hnot (by simp [notifies, hexit', hfalse])

/-- The notification of the destructor. -/
theorem closed_of_notifies {m : ℕ} (hnoti : schedule m = .notify)
    (hnot : (trace step init schedule m).notifies = true) :
    (trace step init schedule (m + 1)).Closed ∧
      (trace step init schedule (m + 1)).pc = (trace step init schedule m).pc.notified := by
  have hexit : (trace step init schedule m).exit = true := by
    simp only [notifies, Bool.and_eq_true] at hnot
    exact hnot.1
  rw [trace, hnoti, step, notify, if_pos hnot]
  exact ⟨⟨hexit, rfl⟩, rfl⟩

theorem closed_of_le {n : ℕ} (h : (trace step init schedule n).Closed) {m : ℕ} (hm : n ≤ m) :
    (trace step init schedule m).Closed :=
  trace_stable h (fun k _ hk => hk.step (schedule k)) hm

/-- A thread that has missed the notification never returns. -/
theorem Fair.deaf_of_le (hfair : Fair schedule) {n : ℕ} (hclos : (trace step init schedule n).Closed)
    (hdeaf : (trace step init schedule n).pc.deaf = true) {m : ℕ} (hm : n ≤ m) :
    (trace step init schedule m).pc.deaf = true := by
  refine trace_stable (P := fun s : DetectState => s.pc.deaf = true) hdeaf (fun k hk h => ?_) hm
  have hclos' := closed_of_le hclos hk
  by_cases hact : schedule k = .detecting
  · rw [trace, hact]
    exact deaf_detecting h
  · rwa [trace, hclos'.pc_step (hfair.not_offer hclos'.exit_eq) hact]

theorem Fair.returns_of_closed (hfair : Fair schedule) {n : ℕ}
    (hclos : (trace step init schedule n).Closed)
    (hpc : (trace step init schedule n).pc.deaf = false) :
    ∃ m, (trace step init schedule m).pc = .returned := by
  -- a step of the thread after the destructor, from one place to the next
  have hnext : ∀ pc pc' : DetectPc, (∀ s : DetectState, s.exit = true → s.pc = pc →
        s.detecting.pc = pc') → ∀ {k : ℕ}, n ≤ k → (trace step init schedule k).pc = pc →
      ∃ m, k ≤ m ∧ (trace step init schedule m).pc = pc' := by
    intro pc pc' hstep k hk hpc
    refine trace_leadsTo (P := fun s : DetectState => s.pc = pc)
      (Q := fun s : DetectState => s.pc = pc') hfair.detecting hpc
      (fun m hm h => ?_) fun m hm hact h => ?_
    · have hclos' := closed_of_le hclos (hk.trans hm)
      by_cases hact : schedule m = .detecting
      · rw [trace, hact]
        exact .inr (hstep _ hclos'.exit_eq h)
      · rw [trace, hclos'.pc_step (hfair.not_offer hclos'.exit_eq) hact]
        exact .inl h
    · rw [trace, hact]
      exact hstep _ (closed_of_le hclos (hk.trans hm)).exit_eq h
  have hexitTest : ∀ {k : ℕ}, n ≤ k → (trace step init schedule k).pc = .exitTest →
      ∃ m, (trace step init schedule m).pc = .returned := by
    intro k hk h
    obtain ⟨m, -, hm⟩ := hnext .exitTest .returned
      (fun s hexit hpc => by simp [DetectState.detecting, hpc, hexit]) hk h
    exact ⟨m, hm⟩
  cases h : (trace step init schedule n).pc with
  | returned => exact ⟨n, h⟩
  | exitTest => exact hexitTest le_rfl h
  | wakeUp =>
    obtain ⟨m, hm, hpc'⟩ := hnext .wakeUp .exitTest
      (fun s _ hpc => by simp [DetectState.detecting, hpc]) le_rfl h
    exact hexitTest hm hpc'
  | _ =>
    rw [h] at hpc
    cases hpc

end Schedules

/-- **Shutdown**: in a fair interleaving in which the destructor sets `exit_`, the loop returns if and
only if, when the destructor notifies, the thread waits, is about to look at `exit_`, or has returned.
What was offered is detected at most once and in order. -/
theorem detect_returns_iff (schedule : ℕ → DetectStep) (hfair : Fair schedule) :
    (∀ n, (trace step init schedule n).detected <+: (trace step init schedule n).offered) ∧
      ∀ n, (trace step init schedule n).exit = true →
        ((∃ m, (trace step init schedule m).pc = .returned) ↔
          ∃ m, schedule m = .notify ∧ (trace step init schedule m).notifies = true ∧
            (trace step init schedule m).pc.listens = true) := by
  refine ⟨detected_isPrefix schedule, fun n hexit => ⟨?_, ?_⟩⟩
  · rintro ⟨m, hret⟩
    obtain ⟨k, hnotify, hnoti⟩ := hfair.exists_notifies hexit
    refine ⟨k, hnotify, hnoti, ?_⟩
    by_contra hlist
    obtain ⟨hclos, hpc⟩ := closed_of_notifies hnotify hnoti
    rcases Nat.lt_or_ge k m with hlt | hge
    · -- the notification is lost, so the thread does not return after it
      have hdeaf : (trace step init schedule (k + 1)).pc.deaf = true := by
        rw [hpc]
        cases h : (trace step init schedule k).pc <;> rw [h] at hlist <;>
          first | rfl | exact absurd rfl hlist
      have hnot := hfair.deaf_of_le hclos hdeaf hlt
      rw [hret] at hnot
      cases hnot
    · have hk : (trace step init schedule k).pc = .returned :=
        trace_stable (P := fun s : DetectState => s.pc = .returned) hret
          (fun j _ h => returned_step h (schedule j)) hge
      exact hlist (by rw [hk]; rfl)
  · rintro ⟨m, hnotify, hnoti, hlist⟩
    obtain ⟨hclos, hpc⟩ := closed_of_notifies hnotify hnoti
    refine hfair.returns_of_closed hclos ?_
    rw [hpc]
    cases h : (trace step init schedule m).pc <;> rw [h] at hlist <;>
      first | rfl | cases hlist

/-! ## Two interleavings -/

/-- Some steps, and from then on only those of the detecting thread. -/
def scheduleOf (l : List DetectStep) (n : ℕ) : DetectStep := l.getD n .detecting

/-- Such a schedule is fair if the destructor has notified in it, and everything is offered before
`exit_` is set. -/
theorem fair_scheduleOf {l : List DetectStep}
    (hoff : ∀ n < l.length, (trace step init (scheduleOf l) n).exit = true →
      scheduleOf l n = .detecting ∨ scheduleOf l n = .setExit ∨ scheduleOf l n = .notify)
    (hnotify : ∀ n < l.length, (trace step init (scheduleOf l) n).notifies = true →
      ∃ m < l.length, n ≤ m ∧ scheduleOf l m = .notify)
    (hclos : (trace step init (scheduleOf l) l.length).exit = true ∧
      (trace step init (scheduleOf l) l.length).notified = true) : Fair (scheduleOf l) where
  detecting n := ⟨max n l.length, le_max_left .., by
    rw [scheduleOf, getD_eq_default _ _ (le_max_right ..)]⟩
  notify n hnot := by
    rcases Nat.lt_or_ge n l.length with hlt | hge
    · obtain ⟨m, -, hm, hact⟩ := hnotify n hlt hnot
      exact ⟨m, hm, hact⟩
    · have hnoti := (closed_of_le ⟨hclos.1, hclos.2⟩ hge).notified_eq
      simp [notifies, hnoti] at hnot
  offer n info hact := by
    rcases Nat.lt_or_ge n l.length with hlt | hge
    · rw [Bool.eq_false_iff]
      intro hexit
      rcases hoff n hlt hexit with h | h | h <;> rw [h] at hact <;> cases hact
    · rw [scheduleOf, getD_eq_default _ _ hge] at hact
      cases hact

def sampleInfo : IOInfo := { path := "a", javaContext := ⟨1, "main", ""⟩, startTime := 10 }

/-- The thread detects what is offered, and waits when the destructor runs. -/
def waitingThread : List DetectStep :=
  [.offer sampleInfo] ++ List.replicate 7 .detecting ++ [.setExit, .notify]

theorem detect_returns_iff_waitingThread :
    Fair (scheduleOf waitingThread) ∧
      (trace step init (scheduleOf waitingThread) 9).detected = [sampleInfo] ∧
      ∃ m, (trace step init (scheduleOf waitingThread) m).pc = .returned := by
  have hfair : Fair (scheduleOf waitingThread) :=
    fair_scheduleOf (by decide +kernel) (by decide +kernel) (by decide +kernel)
  refine ⟨hfair, by decide +kernel, ?_⟩
  exact ((detect_returns_iff _ hfair).2 9 (by decide +kernel)).mpr ⟨9, by decide +kernel⟩

/-- The destructor runs while the thread is in the detectors. -/
def busyThread : List DetectStep :=
  [.offer sampleInfo] ++ List.replicate 3 .detecting ++ [.setExit, .notify]

/-- The notification is lost, and the thread waits for ever. -/
theorem detect_never_returns :
    Fair (scheduleOf busyThread) ∧ (trace step init (scheduleOf busyThread) 5).exit = true ∧
      ∀ n, (trace step init (scheduleOf busyThread) n).pc ≠ .returned := by
  have hfair : Fair (scheduleOf busyThread) :=
    fair_scheduleOf (by decide +kernel) (by decide +kernel) (by decide +kernel)
  refine ⟨hfair, by decide +kernel, fun n hret => ?_⟩
  rcases Nat.lt_or_ge n 6 with hlt | hge
  · have hearly : ∀ n < 6, (trace step init (scheduleOf busyThread) n).pc ≠ .returned := by
      decide +kernel
    exact hearly n hlt hret
  · have hdeaf := hfair.deaf_of_le (n := 6) ⟨by decide +kernel, by decide +kernel⟩
      (by decide +kernel) hge
    rw [hret] at hdeaf
    cases hdeaf

end DetectState

end TraceHarbor.IoCanary
