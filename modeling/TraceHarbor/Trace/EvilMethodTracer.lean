import TraceHarbor.Trace.MethodStackScan

/-!
# Unfinished Methods of a Slow Dispatch

`EvilMethodTracer` hands the end of a slow dispatch in nanoseconds to `structuredDataToStack`, which
takes it for milliseconds when it ends the methods that never saw an exit.
-/

namespace TraceHarbor.Trace

/-- `Constants.TIME_MILLIS_TO_NANO` -/
def timeMillisToNano : Int := 1000000

/-- `onDispatchEnd` with `analyse`: the stack of a slow dispatch, before it is trimmed. -/
def evilStack (diffTime : Long) (evilThresholdMs : Int) (data : List Long) (beginNs endNs : Long) :
    Option (List MethodItem) :=
  if evilThresholdMs ≤ (endNs - beginNs).toInt.tdiv timeMillisToNano then
    some (structuredDataToStack diffTime data [] true endNs)
  else none

/-- The milliseconds from an entry to the end of the dispatch, as the clock of the entry counts. -/
def openTime (diffTime endNs trueId : Long) : Int :=
  endNs.toInt / timeMillisToNano - (getTime trueId + diffTime).toInt

/-- What `drain` takes for them. -/
def reportedTime (diffTime endNs trueId : Long) : Int := (endNs - (getTime trueId + diffTime)).toInt32

/-- The items of entries without an exit, in the order of the stack, with given durations. -/
def unfinished (dur : Long → Int) : List Long → List MethodItem
  | [] => []
  | trueId :: rawData =>
    if isIn trueId then unfinished dur rawData ++ [⟨getMethodId trueId, dur trueId, rawData.length, 1⟩]
    else unfinished dur rawData

/-- None of the entries without an exit is folded into the item before it. -/
def NoFolding : List Long → List MethodItem → Prop
  | [], _ => True
  | trueId :: rawData, result =>
    if isIn trueId then
      (∀ x ∈ result.head?, ¬ (x.methodId = getMethodId trueId ∧ x.depth = rawData.length)) ∧
        ∀ dur, NoFolding rawData (⟨getMethodId trueId, dur, rawData.length, 1⟩ :: result)
    else NoFolding rawData result

theorem drain_eq_unfinished {diffTime endTime : Long} {rawData : List Long} {result : List MethodItem}
    (h : NoFolding rawData result) : drain diffTime endTime rawData result =
      unfinished (reportedTime diffTime endTime) rawData ++ result := by
  induction rawData generalizing result with
  | nil => rfl
  | cons trueId rawData ih =>
    rw [NoFolding] at h
    rw [drain, unfinished]
    split_ifs at h ⊢ with hin
    · dsimp only
      rw [addMethodItem_push (by simpa using h.1), ih (h.2 _), List.append_assoc]
      rfl
    · exact ih h

theorem unfinished_inj {dur dur' : Long → Int} {rawData : List Long} :
    unfinished dur rawData = unfinished dur' rawData ↔ ∀ e ∈ rawData, isIn e → dur e = dur' e := by
  induction rawData with
  | nil => simp [unfinished]
  | cons trueId rawData ih =>
    rw [List.forall_mem_cons, ← ih, unfinished, unfinished]
    split_ifs with hin <;> simp [hin, and_comm]

/-- Every unfinished method of a slice gets the time from its entry to the end of the dispatch, so it is
not shorter than a call between the two. -/
def UnfinishedRight (diffTime : Long) (data : List Long) (endNs : Long) : Prop :=
  ∀ s, scan true data ⟨0, [], false, []⟩ = some s →
    drain diffTime endNs s.rawData s.result =
      unfinished (openTime diffTime endNs) s.rawData ++ s.result ∧
    ∀ e ∈ s.rawData, isIn e → ∀ enter exit : Int, (getTime e + diffTime).toInt ≤ enter →
      exit ≤ endNs.toInt / timeMillisToNano → exit - enter ≤ reportedTime diffTime endNs e

theorem reportedTime_eq_iff {diffTime endNs e : Long} (hlow : 0 ≤ openTime diffTime endNs e)
    (hhigh : openTime diffTime endNs e < 2 ^ 31) :
    reportedTime diffTime endNs e = openTime diffTime endNs e ↔
      2 ^ 32 ∣ endNs.toInt - endNs.toInt / timeMillisToNano := by
  have hsub : reportedTime diffTime endNs e =
      (endNs.toInt - (getTime e + diffTime).toInt).bmod (2 ^ 32) := by
    rw [reportedTime, Long.toInt32, BitVec.toInt_setWidth,
      ← Int.bmod_bmod_of_dvd (m := 2 ^ 64) (by decide), ← BitVec.toInt_eq_toNat_bmod, BitVec.toInt_sub,
      Int.bmod_bmod_of_dvd (by decide)]
  rw [hsub, Int.bmod_def]
  unfold openTime at *
  omega

/-- A dispatch that has not ended, with a call of six milliseconds in it. -/
def openDispatch : List Long :=
  [mergeData 0xFFFFE 1 true, mergeData 5 2 true, mergeData 5 8 false]

end TraceHarbor.Trace
