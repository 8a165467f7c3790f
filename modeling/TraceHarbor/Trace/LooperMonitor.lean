import TraceHarbor.Lib.Run

/-!
# Looper Messages and Their Listeners

`dispatch` hands the line that the looper prints before and after each message to the registered
listeners. Each listener stands behind a `DispatchListenerWrapper` that remembers whether a begin was
delivered and when. Whether a listener is valid is asked anew at every line, so its answers and the clock
are inputs of the line.
-/

namespace TraceHarbor.Trace

open Lib

/-- A call to an `ILooperListener`, with the number of the message. A begin carries the time it is
made at, which the listener is not told. -/
inductive Callback where
  | onDispatchBegin (message : ℕ) (log : String) (nanoTime : Int)
  | onDispatchEnd (message : ℕ) (log : String) (beginNs endNs : Int)
  deriving Repr, DecidableEq

/-- `DispatchListenerWrapper`; `message` is the number of the message that set the flag. -/
structure DispatchListenerWrapper where
  isHasDispatchStart : Bool
  beginNs : Int
  message : ℕ
  deriving Repr, DecidableEq

namespace DispatchListenerWrapper

def new : DispatchListenerWrapper := ⟨false, 0, 0⟩

/-- `onDispatchBegin(x)`: the wrapper after it, and the call made. -/
def onDispatchBegin (w : DispatchListenerWrapper) (message : ℕ) (x : String) (nanoTime : Int) :
    DispatchListenerWrapper × List Callback :=
  if w.isHasDispatchStart then (w, [])
  else (⟨true, nanoTime, message⟩, [.onDispatchBegin message x nanoTime])

def onDispatchEnd (w : DispatchListenerWrapper) (message : ℕ) (x : String) (nanoTime : Int) :
    DispatchListenerWrapper × List Callback :=
  if w.isHasDispatchStart then
    ({ w with isHasDispatchStart := false }, [.onDispatchEnd message x w.beginNs nanoTime])
  else (w, [])

end DispatchListenerWrapper

/-- The monitor: its wrappers, the number of begin lines so far, and the calls every listener has
received, the latest first. -/
structure LooperMonitor (L : Type) where
  listeners : L → Option DispatchListenerWrapper
  message : ℕ
  heard : L → List Callback

/-- What happens to a monitor. A line comes with the listeners' answers and the clock. -/
inductive LooperOp (L : Type) where
  | addListener (listener : L)
  | removeListener (listener : L)
  | beginLine (log : String) (isValid : L → Bool) (nanoTime : L → Int)
  | endLine (log : String) (isValid : L → Bool) (nanoTime : L → Int)

namespace LooperMonitor

variable {L : Type}

def init : LooperMonitor L := ⟨fun _ => none, 0, fun _ => []⟩

/-- The loop of `dispatch` over the wrappers: a call to every valid listener. -/
def notify (s : LooperMonitor L) (isValid : L → Bool)
    (call : L → DispatchListenerWrapper → DispatchListenerWrapper × List Callback) :
    LooperMonitor L where
  listeners l := (s.listeners l).map fun w => if isValid l then (call l w).1 else w
  message := s.message
  heard l := (match s.listeners l with
    | some w => if isValid l then (call l w).2 else []
    | none => []) ++ s.heard l

variable [DecidableEq L]

/-- One step: `addListener`, `removeListener`, or `dispatch` of a line. -/
def step (s : LooperMonitor L) : LooperOp L → LooperMonitor L
  | .addListener l => { s with listeners := Function.update s.listeners l (some .new) }
  | .removeListener l => { s with listeners := Function.update s.listeners l none }
  | .beginLine log isValid nanoTime =>
    let s := { s with message := s.message + 1 }
    s.notify isValid fun l w => w.onDispatchBegin s.message log (nanoTime l)
  | .endLine log isValid nanoTime =>
    s.notify isValid fun l w => w.onDispatchEnd s.message log (nanoTime l)

/-- Every end follows directly on the begin of its message and names the time of that begin. -/
def Paired : List Callback → Prop
  | [] => True
  | .onDispatchBegin .. :: rest => Paired rest
  | .onDispatchEnd message _ beginNs _ :: rest =>
    (∃ log earlier, rest = .onDispatchBegin message log beginNs :: earlier) ∧ Paired rest

/-- At the end of a message no valid listener is still in an earlier message. -/
def Settled (s : LooperMonitor L) : LooperOp L → Prop
  | .endLine _ isValid _ => ∀ l w, s.listeners l = some w → isValid l = true →
    w.isHasDispatchStart = true → w.message = s.message
  | _ => True

/-- A listener's calls are paired, and a wrapper whose flag is set made the latest of them. -/
def Sound (listener : Option DispatchListenerWrapper) (heard : List Callback) : Prop :=
  Paired heard ∧ ∀ w, listener = some w → w.isHasDispatchStart = true →
    ∃ log earlier, heard = .onDispatchBegin w.message log w.beginNs :: earlier

variable {s : LooperMonitor L}

omit [DecidableEq L] in
theorem sound_notify {isValid : L → Bool}
    {call : L → DispatchListenerWrapper → DispatchListenerWrapper × List Callback}
    (h : ∀ l, Sound (s.listeners l) (s.heard l))
    (hcall : ∀ l w, s.listeners l = some w → isValid l = true →
      Sound (some (call l w).1) ((call l w).2 ++ s.heard l)) (l : L) :
    Sound ((s.notify isValid call).listeners l) ((s.notify isValid call).heard l) := by
  have hl := h l
  unfold notify
  dsimp only
  cases hw : s.listeners l with
  | none => exact ⟨hl.1, nofun⟩
  | some w =>
    by_cases hval : isValid l = true
    · simpa [hval] using hcall l w hw hval
    · simpa [hval, hw] using hl

theorem sound_onDispatchBegin {w : DispatchListenerWrapper} {heard : List Callback}
    (h : Sound (some w) heard) (message : ℕ) (x : String) (nanoTime : Int) :
    Sound (some (w.onDispatchBegin message x nanoTime).1)
      ((w.onDispatchBegin message x nanoTime).2 ++ heard) := by
  unfold DispatchListenerWrapper.onDispatchBegin
  split
  · exact h
  · refine ⟨h.1, fun w' hw' _ => ?_⟩
    cases hw'
    exact ⟨x, heard, rfl⟩

theorem sound_onDispatchEnd {w : DispatchListenerWrapper} {heard : List Callback}
    (h : Sound (some w) heard) {message : ℕ}
    (hmsg : w.isHasDispatchStart = true → w.message = message) (x : String) (nanoTime : Int) :
    Sound (some (w.onDispatchEnd message x nanoTime).1)
      ((w.onDispatchEnd message x nanoTime).2 ++ heard) := by
  unfold DispatchListenerWrapper.onDispatchEnd
  split
  · rename_i hstart
    -- the flag is set, so the latest call is the begin of the message that ends now
    obtain ⟨log, earlier, hheard⟩ := h.2 w rfl hstart
    rw [hmsg hstart] at hheard
    refine ⟨⟨⟨log, earlier, hheard⟩, h.1⟩, fun w' hw' hflag => ?_⟩
    cases hw'
    exact nomatch hflag
  · exact h

section

variable (h : ∀ l, Sound (s.listeners l) (s.heard l))

include h

theorem sound_update (x : L) {w : Option DispatchListenerWrapper}
    (hw : ∀ w' ∈ w, w'.isHasDispatchStart = false) (l : L) :
    Sound (Function.update s.listeners x w l) (s.heard l) := by
  refine ⟨(h l).1, fun w' hw' hstart => ?_⟩
  by_cases hl : l = x
  · subst hl
    rw [Function.update_self] at hw'
    simp [hw w' hw'] at hstart
  · rw [Function.update_of_ne hl] at hw'
    exact (h l).2 w' hw' hstart

theorem sound_step {op : LooperOp L} (hop : s.Settled op) (l : L) :
    Sound ((s.step op).listeners l) ((s.step op).heard l) := by
  cases op with
  | addListener x => exact sound_update h x (fun _ hw => Option.some.inj hw ▸ rfl) l
  | removeListener x => exact sound_update h x (by simp) l
  | beginLine log isValid nanoTime =>
    exact sound_notify h (fun l w hw _ => sound_onDispatchBegin (hw ▸ h l) ..) l
  | endLine log isValid nanoTime =>
    exact sound_notify h
      (fun l w hw hval => sound_onDispatchEnd (hw ▸ h l) (hop l w hw hval) ..) l

theorem not_paired_of_not_settled {op : LooperOp L} (hop : ¬ s.Settled op) :
    ¬ ∀ l, Paired ((s.step op).heard l) := by
  cases op with
  | endLine log isValid nanoTime =>
    intro hpair
    refine hop fun l w hw hval hstart => ?_
    obtain ⟨log', earlier, hheard⟩ := (h l).2 w hw hstart
    have hl := hpair l
    simp only [step, notify, hw, hval, if_pos, DispatchListenerWrapper.onDispatchEnd, hstart,
      hheard, List.cons_append, List.nil_append, Paired] at hl
    obtain ⟨⟨log'', earlier', hbeg⟩, -⟩ := hl
    injection hbeg with hcall
    injection hcall
  | _ => exact absurd trivial hop

end

/-- **Begins and ends are paired**: every `onDispatchEnd` follows directly on the `onDispatchBegin` of the
same message, and names its time, exactly when no message ends with a valid listener that is still in
an earlier message. -/
theorem always_paired_iff (ops : List (LooperOp L)) :
    Always step (fun s => ∀ l, Paired (s.heard l)) init ops ↔ Meets step Settled init ops :=
  @always_iff_meets _ _ step _ (fun s => ∀ l, Sound (s.listeners l) (s.heard l)) _
    (fun _ _ h hop => sound_step h hop) (fun _ h l => (h l).1)
    (fun _ _ h hop => not_paired_of_not_settled h hop) init
    (fun _ => ⟨trivial, nofun⟩) ops

end LooperMonitor

/-- A listener that is valid from the begin of one message, but not at its end: the end of the
next message comes with the begin time of the first. -/
theorem invalid_at_end_mispairs :
    let ops : List (LooperOp Unit) := [.addListener (),
      .beginLine ">>>>> Dispatching 1" (fun _ => true) (fun _ => 10),
      .endLine "<<<<< Finished 1" (fun _ => false) (fun _ => 20),
      .beginLine ">>>>> Dispatching 2" (fun _ => true) (fun _ => 30),
      .endLine "<<<<< Finished 2" (fun _ => true) (fun _ => 40)]
    (run LooperMonitor.step .init ops).heard () =
        [.onDispatchEnd 2 "<<<<< Finished 2" 10 40,
          .onDispatchBegin 1 ">>>>> Dispatching 1" 10] ∧
      ¬ Always LooperMonitor.step (fun s => ∀ l, LooperMonitor.Paired (s.heard l)) .init ops := by
  intro ops
  have hheard : (run LooperMonitor.step .init ops).heard () =
      [.onDispatchEnd 2 "<<<<< Finished 2" 10 40,
        .onDispatchBegin 1 ">>>>> Dispatching 1" 10] := by decide
  refine ⟨hheard, fun halw => ?_⟩
  have hlast := halw.last ()
  rw [hheard] at hlast
  obtain ⟨⟨log, earlier, hbeg⟩, -⟩ := hlast
  simp at hbeg

end TraceHarbor.Trace
