import TraceHarbor.Trace.MethodStackScan
import TraceHarbor.Trace.MethodStackTree

/-!
# Correctness of `structuredDataToStack`

The scan phase leaves the reverse post-order listing of the folded dispatches
(`scan_dispatches`), the rebuilt tree flattens to the pre-order listing of the same forest
(`stackToTree_treeToStack`); together they give the report of the recorded calls.
-/

namespace TraceHarbor.Trace

open TraceHarbor.Lib (Forest)
open TraceHarbor.Lib.Forest (nil cons)

/-- **Strict reconstruction**: on the buffer of a recorded run of dispatches,
`structuredDataToStack` reports exactly the pre-order listing of the folded calls, with their
depths, counts and summed durations. -/
theorem structuredDataToStack_eq_report (diffTime endTime : Long) (dispatches : Forest Call)
    (h : Recorded dispatches) :
    structuredDataToStack diffTime (encode dispatches) [] true endTime = report dispatches := by
  have hbel : BelowDepth 1 [] := nofun
  obtain ⟨begun, hscan⟩ := scan_dispatches h false [] hbel
  simp only [structuredDataToStack, Bool.not_true, hscan, List.append_nil, if_true, drain]
  exact stackToTree_treeToStack (foldDispatches dispatches)

/-! ## A Sample Run -/

/-- Two dispatches; inside the first, a call with children repeated by a childless one. -/
def sampleDispatches : Forest Call :=
  cons ⟨0xFFFFE, 1, 13⟩
    (cons ⟨3, 2, 8⟩ (cons ⟨4, 3, 5⟩ nil (cons ⟨4, 6, 7⟩ nil nil))
      (cons ⟨3, 9, 11⟩ nil (cons ⟨5, 11, 12⟩ nil nil)))
    (cons ⟨0xFFFFE, 13, 14⟩ nil nil)

theorem sampleDispatches_recorded : Recorded sampleDispatches where
  root_id := by decide
  inner_id := by decide
  ordered := by decide
  time_lt := by decide
  root_duration_lt := by decide
  duration_ne_anr := by decide

theorem structuredDataToStack_sample :
    structuredDataToStack 0#64 (encode sampleDispatches) [] true 100#64 =
      [⟨0xFFFFE, 12, 0, 1⟩, ⟨3, 8, 1, 2⟩, ⟨4, 3, 2, 2⟩, ⟨5, 1, 1, 1⟩, ⟨0xFFFFE, 1, 0, 1⟩] :=
  (structuredDataToStack_eq_report 0#64 100#64 sampleDispatches sampleDispatches_recorded).trans
    (by decide)

end TraceHarbor.Trace
