import TraceHarbor.Trace.MethodStackCorrect
import TraceHarbor.Trace.RingBufferValidity

/-!
# What a Copy of the Ring Buffer Holds

The write position runs over `0..bufferSize` and starts over only before the next write. Between two
writes the buffer holds the last `bufferSize` events, the `j`-th of the whole history at position
`j % bufferSize`. So a copy from a record is the event at the mark and all later ones, as long as fewer
than `bufferSize` have followed. The report of the copy lists the calls of these events.
-/

namespace TraceHarbor.Trace

open TraceHarbor.Lib List Option Function

namespace Beat

/-! ## The history of a run -/

/-- The event an operation writes, if it writes one. -/
def eventOf (s : Beat) : BeatOp → Option Long
  | .i methodId t =>
    if s.status ≤ statusStopped ∨ methodIdMax ≤ methodId then none
    else some (mergeData methodId t true)
  | .o methodId t =>
    if s.status ≤ statusStopped ∨ methodIdMax ≤ methodId then none
    else some (mergeData methodId t false)
  | .maskIndex _ | .release _ => none

/-- The events a sequence of calls writes, in their order. -/
def events (bufferSize : ℕ) : Beat → List BeatOp → List Long
  | _, [] => []
  | s, op :: ops => (eventOf s op).toList ++ events bufferSize (s.step bufferSize op) ops

variable {bufferSize : ℕ}

theorem eventOf_isSome_iff (s : Beat) (op : BeatOp) :
    (eventOf s op).isSome = (writtenAt bufferSize s op).isSome := by
  cases op with
  | i | o =>
    simp only [eventOf, writtenAt]
    split <;> rfl
  | maskIndex | release => rfl

theorem sBuffer_step {s : Beat} {op : BeatOp} {k : ℕ} {event : Long}
    (hk : writtenAt bufferSize s op = some k) (hev : eventOf s op = some event) :
    (s.step bufferSize op).sBuffer = update s.sBuffer k event := by
  cases op with
  | i m t | o m t =>
    simp only [writtenAt, eventOf] at hk hev
    split at hk
    · cases hk
    · rename_i hgo
      obtain ⟨hstop, hmax⟩ := not_or.mp hgo
      rw [if_neg hgo] at hev
      cases hk
      cases hev
      simp only [step, Beat.i, Beat.o, if_neg hstop, if_neg hmax, record, mergeDataAt, checkPileup]
      split_ifs <;> rfl
  | maskIndex source | release r => cases hk

/-! ## The buffer and the history -/

/-- The buffer holds the end of the history, and the write position follows its length. -/
structure Holds (bufferSize : ℕ) (s : Beat) (history : List Long) : Prop where
  sIndex : (if s.sIndex < bufferSize then s.sIndex else 0) = history.length % bufferSize
  sIndex_le : s.sIndex ≤ bufferSize
  sIndex_eq_zero : s.sIndex = 0 ↔ history = []
  sLastIndex : s.sLastIndex = (s.sIndex : Int) - 1
  sBuffer : ∀ j < history.length, history.length ≤ j + bufferSize →
    some (s.sBuffer (j % bufferSize)) = history[j]?

theorem holds_init (hpos : 0 < bufferSize) : Holds bufferSize init [] where
  sIndex := by simp [init, hpos]
  sIndex_le := Nat.zero_le _
  sIndex_eq_zero := by simp [init]
  sLastIndex := rfl
  sBuffer _ hj := absurd hj (Nat.not_lt_zero _)

variable {s : Beat} {history : List Long}

theorem Holds.sIndex_pred (hpos : 0 < bufferSize) (h : Holds bufferSize s history)
    (hne : history ≠ []) : s.sIndex - 1 = (history.length - 1) % bufferSize := by
  have hlen := length_pos_of_ne_nil hne
  have hidx := h.sIndex
  have hle := h.sIndex_le
  have hzero := h.sIndex_eq_zero.not.mpr hne
  obtain ⟨m, hm⟩ : ∃ m, history.length = m + 1 := ⟨_, (Nat.succ_pred_eq_of_pos hlen).symm⟩
  rw [hm, Nat.add_mod_eq_ite] at hidx
  rw [hm, Nat.add_sub_cancel]
  have hmod := Nat.mod_lt m hpos
  rcases Nat.lt_or_ge 1 bufferSize with hlt | hge
  · rw [Nat.mod_eq_of_lt hlt] at hidx
    split_ifs at hidx <;> omega
  · omega

theorem Holds.write (hpos : 0 < bufferSize) (h : Holds bufferSize s history) {op : BeatOp} {k : ℕ}
    {event : Long} (hk : writtenAt bufferSize s op = some k) (hev : eventOf s op = some event) :
    Holds bufferSize (s.step bufferSize op) (history ++ [event]) := by
  obtain ⟨hpos', hidx, hlast, -⟩ := step_of_writtenAt hk
  rw [h.sIndex] at hpos'
  have hlt : k < bufferSize := hpos' ▸ Nat.mod_lt _ hpos
  refine ⟨?_, hidx ▸ hlt, by simp [hidx], by rw [hlast, hidx]; simp, fun j hj hnear => ?_⟩
  · rw [hidx, length_append, length_singleton, Nat.add_mod, ← hpos']
    split_ifs with hend
    · rcases Nat.lt_or_ge 1 bufferSize with h1 | h1
      · rw [Nat.mod_eq_of_lt h1, Nat.mod_eq_of_lt hend]
      · omega
    · obtain rfl : bufferSize = k + 1 := by omega
      simp
  · rw [length_append, length_singleton] at hj hnear
    rw [sBuffer_step hk hev]
    rcases Nat.lt_succ_iff_lt_or_eq.mp hj with hj | rfl
    · -- an older event within reach is not at the position written
      have hne : j % bufferSize ≠ k := by
        rw [hpos']
        intro heq
        have hdvd := (Nat.modEq_iff_dvd' hj.le).mp heq
        exact absurd (Nat.le_of_dvd (by omega) hdvd) (by omega)
      rw [update_of_ne hne, h.sBuffer j hj (by omega), getElem?_append_left hj]
    · rw [← hpos', update_self, getElem?_concat_length]

theorem Holds.step (hpos : 0 < bufferSize) (h : Holds bufferSize s history) (op : BeatOp) :
    Holds bufferSize (s.step bufferSize op) (history ++ (eventOf s op).toList) := by
  have hsome := @eventOf_isSome_iff bufferSize s op
  cases hk : writtenAt bufferSize s op with
  | some k =>
    rw [hk] at hsome
    obtain ⟨event, hev⟩ := isSome_iff_exists.mp hsome
    rw [hev]
    exact h.write hpos hk hev
  | none =>
    rw [hk, isSome_none, isSome_eq_false_iff, isNone_iff_eq_none] at hsome
    rw [hsome, toList_none, append_nil]
    rcases step_of_not_writtenAt hk with hself | ⟨source, rfl⟩ | ⟨q, rfl⟩
    · exact hself.symm ▸ h
    · exact ⟨h.sIndex, h.sIndex_le, h.sIndex_eq_zero, h.sLastIndex, h.sBuffer⟩
    · exact ⟨h.sIndex, h.sIndex_le, h.sIndex_eq_zero, h.sLastIndex, h.sBuffer⟩

/-- A record made when the history was `mark` long, as long as it has not been reached again. -/
structure Marked (bufferSize : ℕ) (mark r : ℕ) (s : Beat) (history : List Long) : Prop where
  holds : Holds bufferSize s history
  created : r < s.nextObject
  mark_le : mark ≤ history.length
  index : (s.objects r).index =
    if mark = 0 then -1 else (((mark - 1) % bufferSize : ℕ) : Int)
  isValid : history.length < mark + bufferSize → (s.objects r).isValid = true

theorem Holds.maskIndex (hpos : 0 < bufferSize) (h : Holds bufferSize s history) (source : String) :
    Marked bufferSize history.length s.nextObject (s.maskIndex source) history := by
  refine ⟨⟨h.sIndex, h.sIndex_le, h.sIndex_eq_zero, h.sLastIndex, h.sBuffer⟩, Nat.lt_succ_self _,
    le_rfl, ?_, fun _ => by simp [Beat.maskIndex]⟩
  simp only [Beat.maskIndex, update_self, length_eq_zero_iff]
  split_ifs with hnil
  · rw [h.sIndex_eq_zero.mpr hnil]
    rfl
  · have hzero := h.sIndex_eq_zero.not.mpr hnil
    rw [← h.sIndex_pred hpos hnil]
    omega

theorem Marked.not_hit (hpos : 0 < bufferSize) {mark r : ℕ} (h : Marked bufferSize mark r s history)
    (hnear : history.length + 1 < mark + bufferSize) :
    ¬ Hit bufferSize (history.length % bufferSize) s.sLastIndex (s.objects r) := by
  have hmark := h.mark_le
  have hidx := h.index
  rintro (hhit | ⟨hhit, hlast⟩)
  · rw [hidx] at hhit
    split_ifs at hhit with hzero
    have heq : (mark - 1) % bufferSize = history.length % bufferSize := by exact_mod_cast hhit
    have hdvd := (Nat.modEq_iff_dvd' (by omega)).mp heq
    exact absurd (Nat.le_of_dvd (by omega) hdvd) (by omega)
  · rw [hidx] at hhit
    split_ifs at hhit with hzero
    · rw [h.holds.sLastIndex] at hlast
      have hpred := h.holds.sIndex_pred hpos (h.holds.sIndex_eq_zero.not.mp (by omega))
      rw [Nat.mod_eq_of_lt (by omega)] at hpred
      omega

theorem Marked.step (hpos : 0 < bufferSize) {mark r : ℕ} (h : Marked bufferSize mark r s history)
    {op : BeatOp} (hop : op ≠ .release r) :
    Marked bufferSize mark r (s.step bufferSize op) (history ++ (eventOf s op).toList) := by
  have hlong : history.length ≤ (history ++ (eventOf s op).toList).length := by simp
  -- only a write that hits the record could change it
  have hobj : r < (s.step bufferSize op).nextObject ∧
      ((s.step bufferSize op).objects r).index = (s.objects r).index ∧
      ((history ++ (eventOf s op).toList).length < mark + bufferSize →
        ((s.step bufferSize op).objects r).isValid = (s.objects r).isValid) := by
    cases hk : writtenAt bufferSize s op with
    | some k =>
      obtain ⟨hk', -, -, hnext, hobjs, -⟩ := step_of_writtenAt hk
      obtain ⟨popped, -, hpopp, -, hmark⟩ :=
        pileup_spec bufferSize k s.sLastIndex s.objects s.records
      obtain ⟨event, hev⟩ := isSome_iff_exists.mp
        ((eventOf_isSome_iff s op).trans (congrArg isSome hk))
      rw [h.holds.sIndex] at hk'
      rw [hobjs, hmark, hnext, hev]
      refine ⟨h.created, by split_ifs <;> rfl, fun hnear => ?_⟩
      rw [length_append] at hnear
      rw [if_neg fun hr => h.not_hit hpos hnear (hk' ▸ hpopp r hr)]
    | none =>
      rcases step_of_not_writtenAt hk with hself | ⟨source, rfl⟩ | ⟨q, rfl⟩
      · rw [hself]
        exact ⟨h.created, rfl, fun _ => rfl⟩
      · have hsame : (s.maskIndex source).objects r = s.objects r :=
          update_of_ne h.created.ne _ _
        exact ⟨h.created.trans (Nat.lt_succ_self _), congrArg _ hsame, fun _ => congrArg _ hsame⟩
      · have hsame : (s.release q).objects r = s.objects r :=
          update_of_ne (fun hq : r = q => hop (hq ▸ rfl)) _ _
        exact ⟨h.created, congrArg _ hsame, fun _ => congrArg _ hsame⟩
  obtain ⟨hcrea, hidx, hval⟩ := hobj
  refine ⟨h.holds.step hpos op, hcrea, h.mark_le.trans hlong, hidx.trans h.index, ?_⟩
  exact fun hnear => (hval hnear).trans (h.isValid (hlong.trans_lt hnear))

/-! ## Runs and copies -/

theorem Holds.run (hpos : 0 < bufferSize) (h : Holds bufferSize s history) (ops : List BeatOp) :
    Holds bufferSize (Lib.run (Beat.step bufferSize) s ops)
      (history ++ events bufferSize s ops) := by
  induction ops generalizing s history with
  | nil => simpa [events, Lib.run] using h
  | cons op ops ih => simpa [events, Lib.run] using ih (h.step hpos op)

theorem Marked.run (hpos : 0 < bufferSize) {mark r : ℕ} (h : Marked bufferSize mark r s history)
    {ops : List BeatOp} (hops : .release r ∉ ops) :
    Marked bufferSize mark r (Lib.run (Beat.step bufferSize) s ops)
      (history ++ events bufferSize s ops) := by
  induction ops generalizing s history with
  | nil => simpa [events, Lib.run] using h
  | cons op ops ih =>
    rw [mem_cons, not_or] at hops
    simpa [events, Lib.run] using ih (h.step hpos (Ne.symm hops.1)) hops.2

theorem Holds.getElem (h : Holds bufferSize s history) {first i : ℕ}
    (hi : first + i < history.length) (hnear : history.length ≤ first + bufferSize) :
    some (s.sBuffer (if first % bufferSize + i < bufferSize then first % bufferSize + i
      else first % bufferSize + i - bufferSize)) = (history.drop first)[i]? := by
  have hmod : i % bufferSize = i := Nat.mod_eq_of_lt (by omega)
  rw [getElem?_drop, ← h.sBuffer (first + i) hi (by omega), Nat.add_mod_eq_ite, hmod]
  by_cases hlt : first % bufferSize + i < bufferSize
  · rw [if_pos hlt, if_neg (by omega)]
  · rw [if_neg hlt, if_pos (by omega)]

/-- **A copy**: from a record that has not been reached again, if anything followed it. -/
theorem Marked.copyData (hpos : 0 < bufferSize) {mark r : ℕ} (h : Marked bufferSize mark r s history)
    (hnear : history.length < mark + bufferSize)
    (hsome : if mark = 0 then 2 ≤ history.length else mark < history.length) :
    s.copyData bufferSize r = history.drop (mark - 1) := by
  have hstart : (s.objects r).index.toNat = (mark - 1) % bufferSize := by
    rw [h.index]
    split_ifs with hzero
    · simp [hzero]
    · exact Int.toNat_natCast _
  have hlen : mark - 1 + 1 < history.length := by split_ifs at hsome <;> omega
  obtain ⟨n, hn⟩ : ∃ n, history.length = mark - 1 + n + 2 := ⟨history.length - (mark - 1) - 2, by omega⟩
  have hlt : n + 1 < bufferSize := by split_ifs at hsome <;> omega
  have hlast : s.sIndex - 1 = _ :=
    h.holds.sIndex_pred hpos (length_pos_iff.mp (by omega))
  rw [hn, show mark - 1 + n + 2 - 1 = mark - 1 + (n + 1) by omega, Nat.add_mod_eq_ite,
    Nat.mod_eq_of_lt hlt] at hlast
  have hmod := Nat.mod_lt (mark - 1) hpos
  have helem := fun i hi => @Holds.getElem _ _ _ h.holds (mark - 1) i hi (by omega)
  rw [Beat.copyData, if_pos (h.isValid hnear), hstart, hlast]
  generalize (mark - 1) % bufferSize = start at hmod helem
  split_ifs with hwrap
  · rw [if_neg (by omega), if_pos (by omega)]
    refine ext_getElem? fun i => ?_
    rcases Nat.lt_or_ge (mark - 1 + i) history.length with hi | hi
    · rw [← helem i hi, getElem?_append, length_map, length_range']
      split_ifs with hfst
      · rw [getElem?_map, getElem?_range' (by omega), map_some, Nat.one_mul]
      · omega
      · omega
      · rw [getElem?_map, getElem?_range (by omega), map_some,
          show i - (bufferSize - start) = start + i - bufferSize by omega]
    · rw [getElem?_eq_none (by simp; omega), getElem?_eq_none (by simp; omega)]
  · rw [if_pos (by omega)]
    refine ext_getElem? fun i => ?_
    rcases Nat.lt_or_ge (mark - 1 + i) history.length with hi | hi
    · rw [← helem i hi, if_pos (by omega), getElem?_map, getElem?_range' (by omega),
        map_some, Nat.one_mul]
    · rw [getElem?_eq_none (by simp; omega), getElem?_eq_none (by simp; omega)]

/-- **A copy is exact**: a record made after the events `E`, followed by the events `F`, gives the
last event of `E` and all of `F`. -/
theorem copyData_exact (before after : List BeatOp) (source : String)
    (hkept : .release (Lib.run (Beat.step bufferSize) init before).nextObject ∉ after) :
    let marked := (Lib.run (Beat.step bufferSize) init before).maskIndex source
    let E := events bufferSize init before
    let F := events bufferSize marked after
    F.length < bufferSize → (if E = [] then 2 ≤ F.length else 1 ≤ F.length) →
      (Lib.run (Beat.step bufferSize) marked after).copyData bufferSize
        (Lib.run (Beat.step bufferSize) init before).nextObject = E.getLast?.toList ++ F := by
  intro marked E F hfew hsome
  have hpos : 0 < bufferSize := by omega
  have hbef : Holds bufferSize _ E := (holds_init hpos).run hpos before
  have hmark : Marked bufferSize E.length _ (Lib.run (Beat.step bufferSize) marked after)
    (E ++ F) := (hbef.maskIndex hpos source).run hpos hkept
  rw [hmark.copyData hpos (by rw [length_append]; omega)]
  · rcases eq_nil_or_concat E with hE | ⟨E', last, hE⟩
    · simp [hE]
    · simp [hE]
  · simp only [length_append, length_eq_zero_iff]
    split_ifs at hsome ⊢ <;> omega

/-- Three events in a buffer of two: the mark is made at the last position. -/
theorem copyData_exact_wrapped :
    (Lib.run (Beat.step 2) ((Lib.run (Beat.step 2) init [.i 1 0#64, .i 2 0#64]).maskIndex "wrapped")
      [.o 2 0#64]).copyData 2 0 = [mergeData 2 0#64 true, mergeData 2 0#64 false] :=
  copyData_exact [.i 1 0#64, .i 2 0#64] [.o 2 0#64] "wrapped" (by simp) (by decide) (by decide)

/-- **Reports of copies**: if the last event before a record and the later ones are those of some
dispatches, and the later ones fit into the buffer, the report of the copy lists just their calls. -/
theorem structuredDataToStack_copyData (before after : List BeatOp) (source : String) (c : Call)
    (calls later : Forest Call) (hrec : Recorded (.cons c calls later)) (diffTime endTime : Long) :
    let begun := Lib.run (Beat.step bufferSize) init before
    let marked := begun.maskIndex source
    .release begun.nextObject ∉ after → (events bufferSize marked after).length < bufferSize →
    (events bufferSize init before).getLast?.toList ++ events bufferSize marked after =
      encode (.cons c calls later) →
    structuredDataToStack diffTime
      ((Lib.run (Beat.step bufferSize) marked after).copyData bufferSize begun.nextObject) [] true
      endTime = report (.cons c calls later) := by
  intro begun marked hkept hfew hevents
  have hpos : 0 < bufferSize := Nat.zero_lt_of_lt hfew
  have hmark : Marked bufferSize (events bufferSize init before).length begun.nextObject
      (Lib.run (Beat.step bufferSize) marked after)
      (events bufferSize init before ++ events bufferSize marked after) :=
    (((holds_init hpos).run hpos before).maskIndex hpos source).run hpos hkept
  have hcopy : (Lib.run (Beat.step bufferSize) marked after).copyData bufferSize begun.nextObject =
      encode (.cons c calls later) := by
    generalize events bufferSize init before = E at *
    generalize events bufferSize marked after = F at *
    have hlen := congrArg length hevents
    simp only [encode, length_append, length_cons] at hlen
    rw [← hevents]
    -- the copy starts with the last event before the record, if there is one
    rcases eq_nil_or_concat E with rfl | ⟨E, last, rfl⟩
    · simp only [getLast?_nil, toList_none, length_nil] at hlen
      exact hmark.copyData hpos (by simpa using hfew) (by simp; omega)
    · rw [hmark.copyData hpos (by rw [length_append]; omega) (by simp at hlen ⊢; omega)]
      simp
  obtain ⟨isBegin, hscan⟩ := scan_dispatches hrec false [] (by simp [BelowDepth])
  simp only [hcopy, structuredDataToStack, Bool.not_true, hscan, append_nil, if_true, drain]
  exact stackToTree_treeToStack _

/-- The entry of the dispatch is the last event of a buffer that starts over after it. -/
theorem structuredDataToStack_wrapped :
    structuredDataToStack 0 ((Lib.run (Beat.step 2) ((Lib.run (Beat.step 2) init
      [.i 1 0, .i 0xFFFFE 1]).maskIndex "") [.o 0xFFFFE 901]).copyData 2 0) [] true 0 =
      [⟨0xFFFFE, 900, 0, 1⟩] :=
  structuredDataToStack_copyData [.i 1 0, .i 0xFFFFE 1] [.o 0xFFFFE 901] "" ⟨0xFFFFE, 1, 901⟩ .nil .nil
    (by constructor <;> decide) 0 0 (by simp) (by decide) (by decide)

end Beat

end TraceHarbor.Trace
