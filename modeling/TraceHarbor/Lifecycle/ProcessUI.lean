import TraceHarbor.Lifecycle.StatefulOwner

/-!
# The Owners of the User Interface

`ProcessUILifecycleOwner` keeps the sets of created, started and resumed activities and an owner for each
of them. When the last resumed activity is paused, a runnable is posted with a delay, and it is taken
back if an activity is resumed before it runs. An activity is also taken out of the sets when it is
destroyed, but the owners are not told.
-/

namespace TraceHarbor.Lifecycle

open Lib

/-- A callback for an activity, or the delayed runnable. -/
inductive UIEvent (α : Type*) where
  | created (activity : α)
  | started (activity : α)
  | resumed (activity : α)
  | paused (activity : α)
  | stopped (activity : α)
  | destroyed (activity : α)
  | timeout

/-- The variables of `ProcessUILifecycleOwner`; `delayedPause` is the number of times that
`delayedPauseRunnable` is waiting in the queue of the handler. -/
structure ProcessUI (α : Type*) where
  createdActivities : Finset α
  resumedActivities : Finset α
  startedActivities : Finset α
  destroyedActivities : Finset α
  pauseSent : Bool
  stopSent : Bool
  createdStateOwner : State
  resumedStateOwner : State
  startedStateOwner : State
  delayedPause : ℕ

namespace ProcessUI

variable {α : Type*} [DecidableEq α]

def new : ProcessUI α := ⟨∅, ∅, ∅, ∅, true, true, .init, .init, .init, 0⟩

variable (s : ProcessUI α)

def activityCreated (activity : α) : ProcessUI α :=
  { s with
    createdActivities := insert activity s.createdActivities
    createdStateOwner := if s.createdActivities = ∅ then .on else s.createdStateOwner }

def activityStarted (activity : α) : ProcessUI α :=
  { s with
    startedActivities := insert activity s.startedActivities
    startedStateOwner :=
      if s.startedActivities = ∅ ∧ s.stopSent then .on else s.startedStateOwner }

def activityResumed (activity : α) : ProcessUI α :=
  let s' := { s with resumedActivities := insert activity s.resumedActivities }
  if s.resumedActivities = ∅ then
    if s.pauseSent then { s' with resumedStateOwner := .on, pauseSent := false }
    else { s' with delayedPause := 0 }
  else s'

def activityPaused (activity : α) : ProcessUI α :=
  let s' := { s with resumedActivities := s.resumedActivities.erase activity }
  if s'.resumedActivities = ∅ then { s' with delayedPause := s.delayedPause + 1 } else s'

def dispatchPauseIfNeeded : ProcessUI α :=
  if s.resumedActivities = ∅ then { s with pauseSent := true, resumedStateOwner := .off } else s

def dispatchStopIfNeeded : ProcessUI α :=
  if s.startedActivities = ∅ ∧ s.pauseSent then
    { s with stopSent := true, startedStateOwner := .off }
  else s

def activityStopped (activity : α) : ProcessUI α :=
  dispatchStopIfNeeded { s with startedActivities := s.startedActivities.erase activity }

def activityDestroyed (activity : α) : ProcessUI α :=
  { s with
    createdActivities := s.createdActivities.erase activity
    createdStateOwner :=
      if s.createdActivities.erase activity = ∅ then .off else s.createdStateOwner
    destroyedActivities := insert activity s.destroyedActivities
    startedActivities := s.startedActivities.erase activity
    resumedActivities := s.resumedActivities.erase activity }

/-- `delayedPauseRunnable`, when it has waited long enough. -/
def delayedPauseRunnable : ProcessUI α :=
  if s.delayedPause = 0 then s
  else dispatchStopIfNeeded (dispatchPauseIfNeeded { s with delayedPause := s.delayedPause - 1 })

def step (s : ProcessUI α) : UIEvent α → ProcessUI α
  | .created activity => s.activityCreated activity
  | .started activity => s.activityStarted activity
  | .resumed activity => s.activityResumed activity
  | .paused activity => s.activityPaused activity
  | .stopped activity => s.activityStopped activity
  | .destroyed activity => s.activityDestroyed activity
  | .timeout => s.delayedPauseRunnable

/-- Every owner goes with its set, if no runnable waits. -/
def Tracks : Prop :=
  s.delayedPause = 0 →
    (s.createdStateOwner = .on ↔ s.createdActivities ≠ ∅) ∧
    (s.resumedStateOwner = .on ↔ s.resumedActivities ≠ ∅) ∧
    (s.startedStateOwner = .on ↔ s.startedActivities ≠ ∅)

/-- The owner of resumed activities is on without one. -/
def ResumedLeft : Prop := s.resumedActivities = ∅ ∧ s.resumedStateOwner = .on

/-- The owner of started activities is on without one. -/
def StartedLeft : Prop := s.startedActivities = ∅ ∧ s.startedStateOwner = .on

/-- The event does not come too early or too late:
- the last resumed or started activity is not destroyed while no runnable waits to notice it;
- the last started activity is not stopped while an activity is resumed and no runnable waits;
- no runnable that has still to turn off the owner of started activities is taken back, or finds an
  activity resumed. -/
def Orderly : UIEvent α → Prop
  | .destroyed activity =>
    s.delayedPause = 0 → s.resumedActivities ≠ {activity} ∧ s.startedActivities ≠ {activity}
  | .stopped activity =>
    s.delayedPause = 0 → s.startedActivities = {activity} → s.resumedActivities = ∅
  | .resumed _ => s.resumedActivities = ∅ → s.pauseSent = false → ¬ s.StartedLeft
  | .timeout => s.delayedPause = 1 → s.resumedActivities ≠ ∅ → ¬ s.StartedLeft
  | _ => True

/-! ## The invariant -/

/-- What holds in every run: the owners are on when their sets are not empty, and `pauseSent` goes
with the owner of resumed activities. -/
structure Sound : Prop where
  created : s.createdStateOwner = .on ↔ s.createdActivities ≠ ∅
  resumed : s.resumedActivities ≠ ∅ → s.resumedStateOwner = .on
  started : s.startedActivities ≠ ∅ → s.startedStateOwner = .on
  pause : s.pauseSent = true ↔ s.resumedStateOwner ≠ .on
  stop : s.stopSent = true

variable {s}

omit [DecidableEq α] in
theorem sound_new : Sound (new : ProcessUI α) := by
  refine ⟨?_, ?_, ?_, ?_, rfl⟩ <;> simp [new]

theorem sound_dispatchPauseIfNeeded (h : s.Sound) : s.dispatchPauseIfNeeded.Sound := by
  rw [dispatchPauseIfNeeded]
  split_ifs with hemp
  · exact ⟨h.created, fun hne => absurd hemp hne, h.started, by simp, h.stop⟩
  · exact h

theorem sound_dispatchStopIfNeeded (h : s.Sound) : s.dispatchStopIfNeeded.Sound := by
  rw [dispatchStopIfNeeded]
  split_ifs with hemp
  · exact ⟨h.created, h.resumed, fun hne => absurd hemp.1 hne, h.pause, rfl⟩
  · exact h

theorem ne_empty_of_erase_ne {activities : Finset α} {activity : α}
    (h : activities.erase activity ≠ ∅) : activities ≠ ∅ := by
  rintro rfl
  exact h (Finset.erase_empty activity)

theorem sound_step (h : s.Sound) (e : UIEvent α) : (s.step e).Sound := by
  cases e with
  | created activity =>
    refine ⟨?_, h.resumed, h.started, h.pause, h.stop⟩
    have hne : insert activity s.createdActivities ≠ ∅ := Finset.insert_ne_empty _ _
    simp only [step, activityCreated, hne, ne_eq, not_false_eq_true, iff_true]
    split_ifs with hemp
    · rfl
    · exact h.created.mpr hemp
  | started activity =>
    refine ⟨h.created, h.resumed, fun _ => ?_, h.pause, h.stop⟩
    simp only [step, activityStarted, h.stop, and_true]
    split_ifs with hemp
    · rfl
    · exact h.started hemp
  | resumed activity =>
    rw [step, activityResumed]
    split_ifs with hemp hpause
    · exact ⟨h.created, fun _ => rfl, h.started, by simp, h.stop⟩
    · have hon : s.resumedStateOwner = .on := by
        by_contra hoff
        exact hpause (h.pause.mpr hoff)
      exact ⟨h.created, fun _ => hon, h.started, h.pause, h.stop⟩
    · exact ⟨h.created, fun _ => h.resumed hemp, h.started, h.pause, h.stop⟩
  | paused activity =>
    have hrsm : s.resumedActivities.erase activity ≠ ∅ → s.resumedStateOwner = .on :=
      fun hne => h.resumed (ne_empty_of_erase_ne hne)
    rw [step, activityPaused]
    split_ifs
    · exact ⟨h.created, hrsm, h.started, h.pause, h.stop⟩
    · exact ⟨h.created, hrsm, h.started, h.pause, h.stop⟩
  | stopped activity =>
    exact sound_dispatchStopIfNeeded
      ⟨h.created, h.resumed, fun hne => h.started (ne_empty_of_erase_ne hne), h.pause, h.stop⟩
  | destroyed activity =>
    refine ⟨?_, fun hne => h.resumed (ne_empty_of_erase_ne hne),
      fun hne => h.started (ne_empty_of_erase_ne hne), h.pause, h.stop⟩
    simp only [step, activityDestroyed]
    split_ifs with hemp
    · simp [hemp]
    · exact iff_of_true (h.created.mpr (ne_empty_of_erase_ne hemp)) hemp
  | timeout =>
    rw [step, delayedPauseRunnable]
    split_ifs
    · exact h
    · exact sound_dispatchStopIfNeeded (sound_dispatchPauseIfNeeded
        ⟨h.created, h.resumed, h.started, h.pause, h.stop⟩)

/-! ## Steps -/

omit [DecidableEq α] in
/-- What can be wrong is that an owner is left on. -/
theorem tracks_iff (h : s.Sound) :
    s.Tracks ↔ (s.delayedPause = 0 → ¬ s.ResumedLeft ∧ ¬ s.StartedLeft) := by
  have hrsm : (s.resumedStateOwner = .on ↔ s.resumedActivities ≠ ∅) ↔ ¬ s.ResumedLeft :=
    ⟨fun hiff hleft => hiff.mp hleft.2 hleft.1, fun hnot =>
      ⟨fun hon hemp => hnot ⟨hemp, hon⟩, h.resumed⟩⟩
  have hstar : (s.startedStateOwner = .on ↔ s.startedActivities ≠ ∅) ↔ ¬ s.StartedLeft :=
    ⟨fun hiff hleft => hiff.mp hleft.2 hleft.1, fun hnot =>
      ⟨fun hon hemp => hnot ⟨hemp, hon⟩, h.started⟩⟩
  rw [Tracks, hrsm, hstar]
  exact forall_congr' fun _ => and_iff_right h.created

/-- An owner is left on when its last activity is taken out. -/
theorem not_left_erase_iff {activities : Finset α} {owner : State} {activity : α}
    (hon : activities ≠ ∅ → owner = .on) (hnot : ¬ (activities = ∅ ∧ owner = .on)) :
    ¬ (activities.erase activity = ∅ ∧ owner = .on) ↔ activities ≠ {activity} := by
  rw [Finset.erase_eq_empty_iff]
  refine ⟨?_, ?_⟩
  · rintro hstill rfl
    exact hstill ⟨.inr rfl, hon (Finset.singleton_ne_empty _)⟩
  · rintro hne ⟨hemp | hsing, hown⟩
    · exact hnot ⟨hemp, hown⟩
    · exact hne hsing

theorem tracks_destroyed_iff (h : s.Sound) (ht : s.Tracks) (activity : α) :
    (s.step (.destroyed activity)).Tracks ↔ s.Orderly (.destroyed activity) := by
  rw [tracks_iff h] at ht
  rw [tracks_iff (sound_step h _)]
  refine forall_congr' fun hquiet => ?_
  obtain ⟨hrsm, hstar⟩ := ht hquiet
  exact and_congr (not_left_erase_iff h.resumed hrsm) (not_left_erase_iff h.started hstar)

theorem tracks_stopped_iff (h : s.Sound) (ht : s.Tracks) (activity : α) :
    (s.step (.stopped activity)).Tracks ↔ s.Orderly (.stopped activity) := by
  have hsound := sound_step h (.stopped activity)
  rw [tracks_iff h] at ht
  rw [tracks_iff hsound]
  by_cases hstop : s.startedActivities.erase activity = ∅ ∧ s.pauseSent = true
  · rw [step, activityStopped, dispatchStopIfNeeded, if_pos hstop]
    refine forall_congr' fun hquiet => iff_of_true ⟨(ht hquiet).1, by simp [StartedLeft]⟩ fun _ => ?_
    by_contra hrsm
    exact h.pause.mp hstop.2 (h.resumed hrsm)
  · rw [step, activityStopped, dispatchStopIfNeeded, if_neg hstop]
    refine forall_congr' fun hquiet => ?_
    obtain ⟨hrsm, hstar⟩ := ht hquiet
    change ¬ s.ResumedLeft ∧ ¬ (s.startedActivities.erase activity = ∅ ∧ _) ↔ _
    rw [and_iff_right hrsm, not_left_erase_iff h.started hstar]
    refine ⟨fun hne heq => absurd heq hne, fun himp heq => hstop ⟨?_, ?_⟩⟩
    · rw [heq, Finset.erase_singleton]
    · exact h.pause.mpr fun hon => hrsm ⟨himp heq, hon⟩

theorem tracks_resumed_iff (h : s.Sound) (ht : s.Tracks) (activity : α) :
    (s.step (.resumed activity)).Tracks ↔ s.Orderly (.resumed activity) := by
  have hne : insert activity s.resumedActivities ≠ ∅ := Finset.insert_ne_empty _ _
  rw [tracks_iff h] at ht
  rw [tracks_iff (sound_step h _), step, activityResumed]
  split_ifs with hemp hpause
  · refine iff_of_true (fun hquiet => ⟨fun hleft => hne hleft.1, (ht hquiet).2⟩) fun _ hsent => ?_
    exact absurd (hpause.symm.trans hsent) (by decide)
  · have hsent : s.pauseSent = false := by simpa using hpause
    exact ⟨fun hleft _ _ => (hleft rfl).2, fun hleft _ => ⟨fun hl => hne hl.1, hleft hemp hsent⟩⟩
  · exact iff_of_true (fun hquiet => ⟨fun hleft => hne hleft.1, (ht hquiet).2⟩) fun hnot =>
      absurd hnot hemp

theorem tracks_timeout_iff (h : s.Sound) (ht : s.Tracks) :
    (s.step .timeout).Tracks ↔ s.Orderly .timeout := by
  by_cases hzero : s.delayedPause = 0
  · rw [step, delayedPauseRunnable, if_pos hzero]
    exact iff_of_true ht fun hone => absurd (hzero.symm.trans hone) (by decide)
  rw [tracks_iff (sound_step h _), step, delayedPauseRunnable, if_neg hzero, dispatchPauseIfNeeded]
  by_cases hrsm : s.resumedActivities = ∅
  · rw [if_pos hrsm, dispatchStopIfNeeded]
    split_ifs with hstar
    · exact iff_of_true (fun _ => ⟨by simp [ResumedLeft], by simp [StartedLeft]⟩)
        fun _ hnot => absurd hrsm hnot
    · exact iff_of_true (fun _ => ⟨by simp [ResumedLeft], fun hleft => hstar ⟨hleft.1, rfl⟩⟩)
        fun _ hnot => absurd hrsm hnot
  · have hsent : ¬ (s.startedActivities = ∅ ∧ s.pauseSent = true) :=
      fun hboth => h.pause.mp hboth.2 (h.resumed hrsm)
    rw [if_neg hrsm, dispatchStopIfNeeded, if_neg hsent]
    refine ⟨fun hleft hone _ => (hleft (by simp [hone])).2, fun hleft hquiet => ?_⟩
    have hone : s.delayedPause = 1 := by
      have hpred : s.delayedPause - 1 = 0 := hquiet
      omega
    exact ⟨fun hl => hrsm hl.1, hleft hone hrsm⟩

/-- **One step** keeps the owners with their sets exactly if the event is orderly. -/
theorem tracks_step_iff (h : s.Sound) (ht : s.Tracks) (e : UIEvent α) :
    (s.step e).Tracks ↔ s.Orderly e := by
  have hsound := sound_step h e
  have ht' := (tracks_iff h).mp ht
  cases e with
  | created activity => exact iff_of_true ((tracks_iff hsound).mpr ht') trivial
  | started activity =>
    refine iff_of_true ((tracks_iff hsound).mpr fun hquiet => ⟨(ht' hquiet).1, fun hleft => ?_⟩) trivial
    exact Finset.insert_ne_empty _ _ hleft.1
  | resumed activity => exact tracks_resumed_iff h ht activity
  | paused activity =>
    refine iff_of_true ((tracks_iff hsound).mpr fun hquiet => ?_) trivial
    by_cases hemp : s.resumedActivities.erase activity = ∅
    · rw [step, activityPaused, if_pos hemp] at hquiet
      exact absurd hquiet (Nat.succ_ne_zero _)
    · rw [step, activityPaused, if_neg hemp] at hquiet ⊢
      exact ⟨fun hleft => hemp hleft.1, (ht' hquiet).2⟩
  | stopped activity => exact tracks_stopped_iff h ht activity
  | destroyed activity => exact tracks_destroyed_iff h ht activity
  | timeout => exact tracks_timeout_iff h ht

/-- **The owners track the sets** throughout a run exactly if every event is orderly. -/
theorem owners_track_iff (events : List (UIEvent α)) :
    Always step Tracks (new : ProcessUI α) events ↔ Meets step Orderly new events := by
  refine @always_iff_meets _ _ step Tracks (fun s => s.Sound ∧ s.Tracks) Orderly ?_ ?_ ?_ _ ?_ events
  · exact fun s e hs hop => ⟨sound_step hs.1 e, (tracks_step_iff hs.1 hs.2 e).mpr hop⟩
  · exact fun s hs => hs.2
  · exact fun s e hs hop ht => hop ((tracks_step_iff hs.1 hs.2 e).mp ht)
  · exact ⟨sound_new, fun _ => by simp [new]⟩

/-- **Destruction leaves the owners on**: the callbacks for pausing and stopping are missing, and no
runnable waits. -/
theorem destroyed_without_pause :
    let s := run step (new : ProcessUI ℕ) [.created 1, .started 1, .resumed 1, .destroyed 1]
    s.delayedPause = 0 ∧ s.resumedActivities = ∅ ∧ s.resumedStateOwner = .on ∧
      s.startedActivities = ∅ ∧ s.startedStateOwner = .on :=
  ⟨rfl, rfl, rfl, rfl, rfl⟩

end ProcessUI

end TraceHarbor.Lifecycle
