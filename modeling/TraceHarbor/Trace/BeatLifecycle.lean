import TraceHarbor.Lib.Run
import TraceHarbor.Trace.AppMethodBeat

/-!
# Starting and Stopping `AppMethodBeat`

`onStart`, `onStop` and `forceStop` move `status`. The runnable posted at class initialisation releases
the buffer, the one posted by the first event gives up waiting for `onStart`. Every call and every
runnable is one step under `statusLock`. `onStart` acts only between `STATUS_EXPIRED_START` and
`STATUS_STARTED`, and the buffer is not created again after its release.
-/

namespace TraceHarbor.Trace

open Lib

def statusStarted : Int := 2

def statusExpiredStart : Int := -2

def statusOutRelease : Int := -3

/-- The part of the companion object that decides whether events are recorded. -/
structure BeatStatus where
  status : Int
  /-- `sBuffer` is not null -/
  sBuffer : Bool
  /-- `checkStartExpiredRunnable` waits on `sHandler` -/
  expiredPosted : Bool
  /-- `realReleaseRunnable` waits on the default handler -/
  releasePosted : Bool
  deriving Repr, DecidableEq

namespace BeatStatus

def init : BeatStatus := ⟨statusDefault, true, false, true⟩

/-- `onStart()`: the state it leaves and the exception it throws. -/
def onStart (s : BeatStatus) : BeatStatus × Option String :=
  if s.status < statusStarted ∧ statusExpiredStart ≤ s.status then
    let s := { s with expiredPosted := false, releasePosted := false }
    if s.sBuffer = false then (s, some "TraceHarbor.AppMethodBeat sBuffer == null")
    else ({ s with status := statusStarted }, none)
  else (s, none)

def onStop (s : BeatStatus) : BeatStatus :=
  if s.status = statusStarted then { s with status := statusStopped } else s

def forceStop (s : BeatStatus) : BeatStatus := { s with status := statusStopped }

def isAlive (s : BeatStatus) : Bool := statusStarted ≤ s.status

/-- The start of `i(methodId)`: the first event runs `realExecute`, which posts the expiry. -/
def firstEvent (s : BeatStatus) (methodId : Int) : BeatStatus :=
  if s.status ≤ statusStopped then s
  else if methodIdMax ≤ methodId then s
  else if s.status = statusDefault then { s with status := statusReady, expiredPosted := true }
  else s

/-- `checkStartExpiredRunnable`, when it waits. -/
def startExpired (s : BeatStatus) : BeatStatus :=
  if s.expiredPosted = false then s
  else
    let s := { s with expiredPosted := false }
    if s.status = statusDefault ∨ s.status = statusReady then
      { s with status := statusExpiredStart }
    else s

/-- `realReleaseRunnable`, when it waits: it cancels what waits on `sHandler` too. -/
def realRelease (s : BeatStatus) : BeatStatus :=
  if s.releasePosted = false then s
  else
    let s := { s with releasePosted := false }
    if s.status = statusDefault ∨ s.status ≤ statusReady then
      { s with expiredPosted := false, sBuffer := false, status := statusOutRelease }
    else s

end BeatStatus

inductive LifecycleOp where
  | onStart
  | onStop
  | forceStop
  | event (methodId : Int)
  | startExpired
  | realRelease
  deriving DecidableEq

structure Watched where
  beat : BeatStatus
  /-- `onStart` was called and neither `onStop` nor `forceStop` since -/
  started : Bool
  /-- the last exception of an `onStart` -/
  thrown : Option String

namespace Watched

def init : Watched := ⟨.init, false, none⟩

def step (w : Watched) : LifecycleOp → Watched
  | .onStart => ⟨w.beat.onStart.1, true, w.beat.onStart.2.or w.thrown⟩
  | .onStop => { w with beat := w.beat.onStop, started := false }
  | .forceStop => { w with beat := w.beat.forceStop, started := false }
  | .event methodId => { w with beat := w.beat.firstEvent methodId }
  | .startExpired => { w with beat := w.beat.startExpired }
  | .realRelease => { w with beat := w.beat.realRelease }

/-- No `onStart` has thrown, and once started the beat is alive, it has its buffer, and neither
runnable takes the buffer away. -/
def Served (w : Watched) : Prop :=
  w.thrown = none ∧
    (w.started = true → w.beat.isAlive = true ∧ w.beat.sBuffer = true ∧
      w.beat.startExpired.sBuffer = true ∧ w.beat.realRelease.sBuffer = true)

/-- `onStart` comes after the first event, while the buffer is there. -/
def Timely (w : Watched) (op : LifecycleOp) : Prop :=
  op = .onStart → w.beat.status ≠ statusDefault ∧ w.beat.sBuffer = true

instance (w : Watched) (op : LifecycleOp) : Decidable (w.Timely op) :=
  inferInstanceAs (Decidable (_ → _))

end Watched

/-! ## What holds in every state -/

/-- The states the beat can be in: the buffer goes with the release, whose status only
`forceStop` overwrites, and until the first event the release is waiting. -/
structure BeatStatus.Reached (s : BeatStatus) : Prop where
  known : s.status = statusDefault ∨ s.status = statusStarted ∨ s.status = statusReady ∨
    s.status = statusStopped ∨ s.status = statusExpiredStart ∨ s.status = statusOutRelease
  waiting : s.status = statusDefault → s.releasePosted = true
  released : s.status = statusOutRelease → s.sBuffer = false
  buffered : s.sBuffer = false → s.status = statusStopped ∨ s.status = statusOutRelease

attribute [local simp] statusDefault statusStarted statusReady statusStopped statusExpiredStart
  statusOutRelease

namespace BeatStatus.Reached

variable {s : BeatStatus}

theorem onStart (h : s.Reached) : s.onStart.1.Reached := by
  obtain ⟨hknown, hwait, hreld, hbufd⟩ := h
  unfold BeatStatus.onStart
  dsimp only
  split_ifs with hrng hbuf
  · refine ⟨hknown, fun hdflt => ?_, hreld, hbufd⟩
    have hlarge : s.status = statusDefault := hdflt
    simp [hlarge] at hrng
  · exact ⟨by simp, by simp, by simp, fun hno => absurd hno hbuf⟩
  · exact ⟨hknown, hwait, hreld, hbufd⟩

theorem onStop (h : s.Reached) : s.onStop.Reached := by
  unfold BeatStatus.onStop
  split
  · exact ⟨by simp, by simp, by simp, by simp⟩
  · exact h

theorem forceStop : s.forceStop.Reached :=
  ⟨by simp [BeatStatus.forceStop], by simp [BeatStatus.forceStop], by simp [BeatStatus.forceStop],
    by simp [BeatStatus.forceStop]⟩

theorem firstEvent (h : s.Reached) (methodId : Int) : (s.firstEvent methodId).Reached := by
  unfold BeatStatus.firstEvent
  split_ifs with hstop hmax hdflt
  · exact h
  · exact h
  · exact ⟨by simp, by simp, by simp, fun hno => by simpa [hdflt] using h.buffered hno⟩
  · exact h

theorem startExpired (h : s.Reached) : s.startExpired.Reached := by
  unfold BeatStatus.startExpired
  dsimp only
  split_ifs with hpost hwaits
  · exact h
  · refine ⟨by simp, by simp, by simp, fun hno => ?_⟩
    -- a beat that still waits for its start has its buffer
    rcases hwaits with hs | hs <;> simpa [hs] using h.buffered hno
  · exact ⟨h.known, h.waiting, h.released, h.buffered⟩

theorem realRelease (h : s.Reached) : s.realRelease.Reached := by
  unfold BeatStatus.realRelease
  dsimp only
  split_ifs with hpost hrel
  · exact h
  · exact ⟨by simp, by simp, by simp, by simp⟩
  · exact ⟨h.known, fun hdflt => absurd (.inl hdflt) hrel, h.released, h.buffered⟩

end BeatStatus.Reached

/-! ## The started beat -/

/-- The state an `onStart` in time leads to. -/
def BeatStatus.Started (s : BeatStatus) : Prop := s.status = statusStarted ∧ s.sBuffer = true

namespace BeatStatus.Started

variable {s : BeatStatus}

theorem of_onStart (h : s.Reached) (hdflt : s.status ≠ statusDefault)
    (hbuf : s.sBuffer = true) : s.onStart.1.Started ∧ s.onStart.2 = none := by
  have hheld : s.status ≠ statusOutRelease := fun hout => by
    simp [h.released hout] at hbuf
  rcases h.known with hs | hs | hs | hs | hs | hs
  · exact absurd hs hdflt
  · simp [BeatStatus.onStart, BeatStatus.Started, hs, hbuf]
  · simp [BeatStatus.onStart, BeatStatus.Started, hs, hbuf]
  · simp [BeatStatus.onStart, BeatStatus.Started, hs, hbuf]
  · simp [BeatStatus.onStart, BeatStatus.Started, hs, hbuf]
  · exact absurd hs hheld

theorem firstEvent (h : s.Started) (methodId : Int) : (s.firstEvent methodId).Started := by
  have hsame : s.firstEvent methodId = s := by simp [BeatStatus.firstEvent, h.1]
  rwa [hsame]

theorem startExpired (h : s.Started) : s.startExpired.Started := by
  obtain ⟨hstat, hbuf⟩ := h
  unfold BeatStatus.startExpired
  split <;> simp [BeatStatus.Started, hstat, hbuf]

theorem realRelease (h : s.Started) : s.realRelease.Started := by
  obtain ⟨hstat, hbuf⟩ := h
  unfold BeatStatus.realRelease
  split <;> simp [BeatStatus.Started, hstat, hbuf]

end BeatStatus.Started

/-! ## Runs -/

namespace Watched

/-- What steps in time keep. -/
structure Sound (w : Watched) : Prop where
  reached : w.beat.Reached
  quiet : w.thrown = none
  running : w.started = true → w.beat.Started

theorem Sound.init : Watched.init.Sound where
  reached := ⟨.inl rfl, fun _ => rfl, fun hout => by simp [Watched.init, BeatStatus.init] at hout,
    fun hno => by simp [Watched.init, BeatStatus.init] at hno⟩
  quiet := rfl
  running hno := nomatch hno

theorem Sound.served {w : Watched} (h : w.Sound) : w.Served := by
  refine ⟨h.quiet, fun hstar => ?_⟩
  have hrunn := h.running hstar
  exact ⟨by simp [BeatStatus.isAlive, hrunn.1], hrunn.2, hrunn.startExpired.2,
    hrunn.realRelease.2⟩

theorem Sound.step {w : Watched} (h : w.Sound) {op : LifecycleOp} (htim : w.Timely op) :
    (w.step op).Sound := by
  cases op with
  | onStart =>
    obtain ⟨hdflt, hbuf⟩ := htim rfl
    have hstar := BeatStatus.Started.of_onStart h.reached hdflt hbuf
    exact ⟨h.reached.onStart, by simp [Watched.step, hstar.2, h.quiet], fun _ => hstar.1⟩
  | onStop => exact ⟨h.reached.onStop, h.quiet, nofun⟩
  | forceStop => exact ⟨.forceStop, h.quiet, nofun⟩
  | event methodId =>
    exact ⟨h.reached.firstEvent methodId, h.quiet, fun hs => (h.running hs).firstEvent methodId⟩
  | startExpired => exact ⟨h.reached.startExpired, h.quiet, fun hs => (h.running hs).startExpired⟩
  | realRelease => exact ⟨h.reached.realRelease, h.quiet, fun hs => (h.running hs).realRelease⟩

theorem Sound.not_served_of_not_timely {w : Watched} (h : w.Sound) {op : LifecycleOp}
    (hlate : ¬ w.Timely op) : ¬ (w.step op).Served := by
  obtain ⟨rfl, hwrong⟩ := Classical.not_imp.mp hlate
  intro ⟨hquiet, hserv⟩
  obtain ⟨hal, -, -, hkept⟩ := hserv rfl
  by_cases hdflt : w.beat.status = statusDefault
  · -- before the first event the release stays posted
    have hpost := h.reached.waiting hdflt
    simp [Watched.step, BeatStatus.onStart, BeatStatus.realRelease, hdflt, hpost] at hkept
  · have hgone : w.beat.sBuffer = false := by simpa using fun hbuf => hwrong ⟨hdflt, hbuf⟩
    rcases h.reached.buffered hgone with hs | hs
    · simp [Watched.step, BeatStatus.onStart, hs, hgone] at hquiet
    · simp [Watched.step, BeatStatus.onStart, BeatStatus.isAlive, hs] at hal

end Watched

end TraceHarbor.Trace
