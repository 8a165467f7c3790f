import TraceHarbor.Lib.Forest
import TraceHarbor.Trace.MethodStack

/-!
# What the Method Stack Reports

The purpose of the pipeline, stated on forests of calls: every dispatch is a tree of nested
calls, a childless call that repeats the call before it is folded into that call, and the
report is the pre-order listing of what remains.
-/

namespace TraceHarbor.Trace

open TraceHarbor.Lib (Forest)
open TraceHarbor.Lib.Forest (nil cons)

/-- One method call, with the times of its entry and exit events. -/
structure Call where
  methodId : ℕ
  enter : ℕ
  exit : ℕ
  deriving Repr, DecidableEq

/-- `exit time - enter time` -/
def Call.duration (c : Call) : ℕ := c.exit - c.enter

/-- The longs that the calls of a forest leave in the buffer. -/
def encode : Forest Call → List Long
  | nil => []
  | cons c ch sib =>
    mergeData c.methodId (BitVec.ofNat 64 c.enter) true ::
      (encode ch ++ mergeData c.methodId (BitVec.ofNat 64 c.exit) false :: encode sib)

def eventTimes : Forest Call → List ℕ
  | nil => []
  | cons c ch sib => c.enter :: (eventTimes ch ++ c.exit :: eventTimes sib)

/-! ## Folding Repeated Calls -/

/-- A call together with the calls folded into it. -/
structure Folded where
  methodId : ℕ
  count : ℕ
  durTime : ℕ
  deriving Repr, DecidableEq

def Folded.ofCall (c : Call) : Folded := ⟨c.methodId, 1, c.duration⟩

def Folded.absorb (x : Folded) (c : Call) : Folded :=
  ⟨x.methodId, x.count + 1, x.durTime + c.duration⟩

/-- Fold the siblings of a forest, left to right. The first argument is the folded sibling just to
the left. -/
def foldFrom : Option (Folded × Forest Folded) → Forest Call → Forest Folded
  | none, nil => nil
  | some (last, kids), nil => cons last kids nil
  | none, cons c ch sib => foldFrom (some (Folded.ofCall c, foldFrom none ch)) sib
  | some (last, kids), cons c ch sib =>
    if ch = nil ∧ last.methodId = c.methodId then
      foldFrom (some (last.absorb c, kids)) sib
    else
      cons last kids (foldFrom (some (Folded.ofCall c, foldFrom none ch)) sib)

/-- Fold the calls inside every dispatch; dispatches themselves have no siblings. -/
def foldDispatches : Forest Call → Forest Folded
  | nil => nil
  | cons c ch sib => cons (Folded.ofCall c) (foldFrom none ch) (foldDispatches sib)

def toItem (p : ℕ × Folded) : MethodItem := ⟨p.2.methodId, p.2.durTime, p.1, p.2.count⟩

/-- The expected report: the pre-order listing of the folded dispatches. -/
def report (dispatches : Forest Call) : List MethodItem :=
  ((foldDispatches dispatches).preorder 0).map toItem

/-! ## Recorded Buffers -/

/-- The calls of a run of dispatches: ids in range, times in order and within 43 bits, durations
within a Kotlin `Int`, and no call of exactly `DEFAULT_ANR` ms (which `addMethodItem` takes for
"unknown"). -/
structure Recorded (dispatches : Forest Call) : Prop where
  root_id : ∀ c ∈ dispatches.roots, (c.methodId : Int) = methodIdDispatch
  inner_id : ∀ c ∈ dispatches.inner, 1 ≤ c.methodId ∧ (c.methodId : Int) ≤ methodIdMax - 2
  ordered : (eventTimes dispatches).Pairwise (· ≤ ·)
  time_lt : ∀ t ∈ eventTimes dispatches, t < 2 ^ 43
  root_duration_lt : ∀ c ∈ dispatches.roots, c.duration < 2 ^ 31
  duration_ne_anr : ∀ c ∈ dispatches.labels, (c.duration : Int) ≠ defaultAnr

end TraceHarbor.Trace
