import TraceHarbor.Lib.Run
import TraceHarbor.Trace.AppMethodBeat

/-!
# Validity of Ring-Buffer Slices

A record that is still valid should mark a position that has not been written over since the record was
made. `checkPileup` looks at the head of a list sorted by index, so after a wrap a record made in the new
lap shields the older records behind it.
-/

namespace TraceHarbor.Trace

open TraceHarbor.Lib List Function

/-! ## Tracking Overwritten Positions -/

/-- The buffer state together with, for every record, the positions written since the record was
made. -/
structure Tracked where
  beat : Beat
  writes : ℕ → List ℕ

/-- The position an operation writes an event to, if it writes one. -/
def writtenAt (bufferSize : ℕ) (s : Beat) : BeatOp → Option ℕ
  | .i methodId _ | .o methodId _ =>
    if s.status ≤ statusStopped ∨ methodIdMax ≤ methodId then none
    else some (if s.sIndex < bufferSize then s.sIndex else 0)
  | .maskIndex _ | .release _ => none

/-- A step of the buffer with the record of positions written. -/
def Tracked.step (bufferSize : ℕ) (t : Tracked) (op : BeatOp) : Tracked where
  beat := t.beat.step bufferSize op
  writes := match op, writtenAt bufferSize t.beat op with
    | .maskIndex _, _ => Function.update t.writes t.beat.nextObject []
    | _, some k => fun r => k :: t.writes r
    | _, none => t.writes

def Tracked.init : Tracked := ⟨Beat.init, fun _ => []⟩

/-- The position a record marks has been written over: its own index, or index 0 for the second
time if the record was made before the first event. -/
def Overwritten (index : Int) (writes : List ℕ) : Prop :=
  if index = -1 then 2 ≤ writes.count 0 else ∃ k ∈ writes, (k : Int) = index

/-- Every record that is still valid marks a position that has not been written over. -/
def SlicesValid (t : Tracked) : Prop :=
  ∀ r < t.beat.nextObject, (t.beat.objects r).isValid = true →
    ¬ Overwritten (t.beat.objects r).index (t.writes r)

/-- When an event is written to the position of an outstanding record, no outstanding record has
a smaller index. -/
def HeadFirst (bufferSize : ℕ) (t : Tracked) (op : BeatOp) : Prop :=
  ∀ k, writtenAt bufferSize t.beat op = some k → 0 < k →
    (∃ r ∈ t.beat.records, (t.beat.objects r).index = k) →
    ∀ q ∈ t.beat.records, (k : Int) ≤ (t.beat.objects q).index

/-! ## What the Operations Do -/

namespace Beat

variable {bufferSize : ℕ}

/-- The test `checkPileup` makes on a record. -/
def Hit (bufferSize index : ℕ) (sLastIndex : Int) (record : IndexRecord) : Prop :=
  record.index = index ∨ (record.index = -1 ∧ sLastIndex = (bufferSize : Int) - 1)

theorem pileup_eq_self {index : ℕ} {sLastIndex : Int} {objects : ℕ → IndexRecord} {l : List ℕ}
    (h : ∀ r ∈ l.head?, ¬ Hit bufferSize index sLastIndex (objects r)) :
    pileup bufferSize index sLastIndex objects l = (objects, l) := by
  cases l with
  | nil => rfl
  | cons r rest =>
    exact if_neg (h r rfl)

/-- `checkPileup` removes the longest prefix of the list that the write hits, marks it invalid
and changes nothing else. -/
theorem pileup_spec (bufferSize index : ℕ) (sLastIndex : Int) (objects : ℕ → IndexRecord) (l : List ℕ) :
    ∃ popped, l = popped ++ (pileup bufferSize index sLastIndex objects l).2 ∧
      (∀ r ∈ popped, Hit bufferSize index sLastIndex (objects r)) ∧
      (∀ r ∈ (pileup bufferSize index sLastIndex objects l).2.head?,
        ¬ Hit bufferSize index sLastIndex (objects r)) ∧
      ∀ r, (pileup bufferSize index sLastIndex objects l).1 r =
        if r ∈ popped then { objects r with isValid := false } else objects r := by
  induction l generalizing objects with
  | nil => exact ⟨[], rfl, by simp, by simp [pileup], by simp [pileup]⟩
  | cons r rest ih =>
    by_cases hhit : Hit bufferSize index sLastIndex (objects r)
    · set objects' := update objects r { objects r with isValid := false } with hobj
      have hidx : ∀ q, (objects' q).index = (objects q).index := by
        intro q
        by_cases hq : q = r
        · subst hq; simp [hobj]
        · simp [hobj, hq]
      have hhit' : ∀ q, Hit bufferSize index sLastIndex (objects' q) ↔
          Hit bufferSize index sLastIndex (objects q) := by
        intro q
        simp only [Hit, hidx]
      obtain ⟨popped, hl, hpop, hhead, hobjs⟩ := ih objects'
      have hpile : pileup bufferSize index sLastIndex objects (r :: rest) =
          pileup bufferSize index sLastIndex objects' rest := by
        exact if_pos hhit
      rw [hpile]
      refine ⟨r :: popped, ?_, ?_, ?_, ?_⟩
      · rw [cons_append, ← hl]
      · intro q hq
        rcases mem_cons.mp hq with rfl | hq
        · exact hhit
        · exact (hhit' q).mp (hpop q hq)
      · exact fun q hq => fun h => hhead q hq ((hhit' q).mpr h)
      · intro q
        rw [hobjs q]
        by_cases hq : q = r
        · subst hq
          simp [hobj]
        · simp [hobj, hq]
    · have hhead : ∀ q ∈ (r :: rest).head?, ¬ Hit bufferSize index sLastIndex (objects q) := by
        rintro q ⟨⟩
        exact hhit
      rw [pileup_eq_self hhead]
      exact ⟨[], rfl, by simp, hhead, by simp⟩

/-- An event is written by `record`, once the status is settled. -/
theorem step_eq_record {s : Beat} {op : BeatOp} {k : ℕ} (h : writtenAt bufferSize s op = some k) :
    k = (if s.sIndex < bufferSize then s.sIndex else 0) ∧
      ∃ status m b v, statusStopped < status ∧
        s.step bufferSize op = record bufferSize { s with status := status } m b v := by
  cases op with
  | i m v =>
    obtain ⟨hgo, hk⟩ := Option.ite_none_left_eq_some.mp h
    obtain ⟨hstop, hmax⟩ := not_or.mp hgo
    refine ⟨(Option.some.inj hk).symm, if s.status = statusDefault then statusReady else s.status,
      m, true, v, ?_, ?_⟩
    · split
      · decide
      · exact not_le.mp hstop
    · simp only [step, Beat.i, if_neg hstop, if_neg hmax]
      split <;> rfl
  | o m v =>
    obtain ⟨hgo, hk⟩ := Option.ite_none_left_eq_some.mp h
    obtain ⟨hstop, hmax⟩ := not_or.mp hgo
    refine ⟨(Option.some.inj hk).symm, s.status, m, false, v, not_le.mp hstop, ?_⟩
    simp only [step, Beat.o, if_neg hstop, if_neg hmax]
  | maskIndex | release => cases h

/-- Everything an event write does to positions and records. -/
theorem step_of_writtenAt {s : Beat} {op : BeatOp} {k : ℕ}
    (h : writtenAt bufferSize s op = some k) :
    k = (if s.sIndex < bufferSize then s.sIndex else 0) ∧
      (s.step bufferSize op).sIndex = k + 1 ∧ (s.step bufferSize op).sLastIndex = k ∧
      (s.step bufferSize op).nextObject = s.nextObject ∧
      (s.step bufferSize op).objects =
        (pileup bufferSize k s.sLastIndex s.objects s.records).1 ∧
      (s.step bufferSize op).records =
        (pileup bufferSize k s.sLastIndex s.objects s.records).2 := by
  obtain ⟨hk, status, m, b, v, -, hstep⟩ := step_eq_record h
  rw [hstep]
  by_cases hlt : s.sIndex < bufferSize <;> simp [record, mergeDataAt, checkPileup, hlt, hk]

theorem step_of_not_writtenAt {s : Beat} {op : BeatOp} (h : writtenAt bufferSize s op = none) :
    s.step bufferSize op = s ∨ (∃ source, op = .maskIndex source) ∨ ∃ r, op = .release r := by
  cases op with
  | i m v | o m v =>
    have hskip : s.status ≤ statusStopped ∨ methodIdMax ≤ m := by
      by_contra hgo
      cases (if_neg hgo).symm.trans h
    left
    rcases hskip with hskip | hskip <;> simp [step, Beat.i, Beat.o, hskip]
  | maskIndex src => exact .inr (.inl ⟨src, rfl⟩)
  | release r => exact .inr (.inr ⟨r, rfl⟩)

theorem insertRecord_eq (objects : ℕ → IndexRecord) (r : ℕ) (l : List ℕ) :
    insertRecord objects r l =
      l.orderedInsert (fun p q => (objects p).index ≤ (objects q).index) r := by
  induction l with
  | nil => rfl
  | cons q rest ih => rw [insertRecord, ih, orderedInsert]

end Beat

/-! ## The Invariant -/

/-- What holds of the records as long as every overwritten record was at the head of the list. -/
structure RecordsInv (bufferSize : ℕ) (t : Tracked) : Prop where
  sIndex_le : t.beat.sIndex ≤ bufferSize
  last_eq : t.beat.sLastIndex = (t.beat.sIndex : Int) - 1
  sorted : t.beat.records.Pairwise fun p q => (t.beat.objects p).index ≤ (t.beat.objects q).index
  nodup : t.beat.records.Nodup
  listed : ∀ r ∈ t.beat.records, r < t.beat.nextObject ∧ (t.beat.objects r).isValid = true ∧
    -1 ≤ (t.beat.objects r).index
  complete : ∀ r < t.beat.nextObject, (t.beat.objects r).isValid = true → r ∈ t.beat.records
  start : t.beat.sIndex = 0 → ∀ r ∈ t.beat.records, (t.beat.objects r).index = -1
  fresh : ∀ r ∈ t.beat.records, (t.beat.objects r).index ≠ -1 →
    ∀ k ∈ t.writes r, (k : Int) ≠ (t.beat.objects r).index
  fresh_start : ∀ r ∈ t.beat.records, (t.beat.objects r).index = -1 →
    (t.writes r).count 0 ≤ if t.beat.sIndex = 0 then 0 else 1

theorem recordsInv_init (bufferSize : ℕ) : RecordsInv bufferSize Tracked.init where
  sIndex_le := Nat.zero_le _
  last_eq := rfl
  sorted := List.Pairwise.nil
  nodup := nodup_nil
  listed := by simp [Tracked.init, Beat.init]
  complete := by simp [Tracked.init, Beat.init]
  start := by simp [Tracked.init, Beat.init]
  fresh := by simp [Tracked.init, Beat.init]
  fresh_start := by simp [Tracked.init, Beat.init]

variable {bufferSize : ℕ} {t : Tracked}

theorem RecordsInv.slicesValid (h : RecordsInv bufferSize t) : SlicesValid t := by
  intro r hr hval hover
  have hmem := h.complete r hr hval
  unfold Overwritten at hover
  by_cases hidx : (t.beat.objects r).index = -1
  · rw [if_pos hidx] at hover
    have hcnt := h.fresh_start r hmem hidx
    split at hcnt <;> omega
  · rw [if_neg hidx] at hover
    obtain ⟨k, hk, heq⟩ := hover
    exact h.fresh r hmem hidx k hk heq

/-! ### Marking and releasing -/

theorem RecordsInv.maskIndex (h : RecordsInv bufferSize t) (source : String) :
    RecordsInv bufferSize (t.step bufferSize (.maskIndex source)) := by
  set t' := t.step bufferSize (.maskIndex source)
  set n := t.beat.nextObject with hn
  have hnew : t'.beat.objects n = ⟨(t.beat.sIndex : Int) - 1, true, source⟩ := update_self ..
  have hwrit : t'.writes n = [] := update_self ..
  have hrecs : t'.beat.records = _ := Beat.insertRecord_eq ..
  have hperm : t'.beat.records.Perm (n :: t.beat.records) := hrecs ▸ perm_orderedInsert ..
  have hold : ∀ r ≠ n, t'.beat.objects r = t.beat.objects r := fun r hr => update_of_ne hr ..
  have hne : ∀ r ∈ t.beat.records, r ≠ n := fun r hr => (h.listed r hr).1.ne
  -- what holds of the new record and of the old ones, which are as they were
  have hall : ∀ P : ℕ → Prop, P n →
      (∀ r ∈ t.beat.records, t'.beat.objects r = t.beat.objects r → t'.writes r = t.writes r → P r) →
      ∀ r ∈ t'.beat.records, P r := by
    intro P hPn hP r hr
    rcases mem_cons.mp (hperm.mem_iff.mp hr) with rfl | hr
    · exact hPn
    · exact hP r hr (hold r (hne r hr)) (update_of_ne (hne r hr) ..)
  refine
    { __ := h
      sorted := ?_
      nodup := ?_
      listed := ?_
      complete := ?_
      start := ?_
      fresh := ?_
      fresh_start := ?_ }
  · have : Std.Total fun p q => (t'.beat.objects p).index ≤ (t'.beat.objects q).index :=
      ⟨fun _ _ => le_total _ _⟩
    have : IsTrans ℕ fun p q => (t'.beat.objects p).index ≤ (t'.beat.objects q).index :=
      ⟨fun _ _ _ => le_trans⟩
    rw [hrecs]
    refine (h.sorted.imp_of_mem fun {p q} hp hq hle => ?_).orderedInsert n _
    exact (hold p (hne p hp)).symm ▸ (hold q (hne q hq)).symm ▸ hle
  · exact hperm.nodup_iff.mpr (nodup_cons.mpr ⟨fun hmem => hne n hmem rfl, h.nodup⟩)
  · refine hall _ ⟨Nat.lt_succ_self _, by rw [hnew], by rw [hnew]; dsimp only; omega⟩
      fun r hr hobj _ => ?_
    rw [hobj]
    exact (h.listed r hr).imp_left fun hlt => hlt.trans (Nat.lt_succ_self _)
  · intro r hr hval
    refine hperm.mem_iff.mpr (mem_cons.mpr (or_iff_not_imp_left.mpr fun hrn => ?_))
    rw [hold r hrn] at hval
    exact h.complete r (by have := Nat.lt_succ_iff_lt_or_eq.mp hr; omega) hval
  · intro hzero
    refine hall _ ?_ fun r hr hobj _ => hobj ▸ h.start hzero r hr
    rw [hnew, show t.beat.sIndex = 0 from hzero]
    rfl
  · refine hall _ (by simp [hwrit]) fun r hr hobj hwrit => ?_
    rw [hobj, hwrit]
    exact h.fresh r hr
  · refine hall _ (by simp [hwrit]) fun r hr hobj hwrit => ?_
    rw [hobj, hwrit]
    exact h.fresh_start r hr

theorem RecordsInv.sublist (h : RecordsInv bufferSize t) {s : Beat}
    (hsub : s.records.Sublist t.beat.records) (hnext : s.nextObject = t.beat.nextObject)
    (hkeep : ∀ r ∈ s.records, s.objects r = t.beat.objects r) :
    (s.records.Pairwise fun p q => (s.objects p).index ≤ (s.objects q).index) ∧ s.records.Nodup ∧
      ∀ r ∈ s.records, r < s.nextObject ∧ (s.objects r).isValid = true ∧
        -1 ≤ (s.objects r).index := by
  refine ⟨(h.sorted.sublist hsub).imp_of_mem fun {p q} hp hq hle => ?_, h.nodup.sublist hsub,
    fun r hr => ?_⟩
  · rwa [hkeep p hp, hkeep q hq]
  · rw [hnext, hkeep r hr]
    exact h.listed r (hsub.subset hr)

theorem RecordsInv.release (h : RecordsInv bufferSize t) (x : ℕ) :
    RecordsInv bufferSize (t.step bufferSize (.release x)) := by
  set t' := t.step bufferSize (.release x)
  have hold : ∀ r ≠ x, t'.beat.objects r = t.beat.objects r := fun r hr => update_of_ne hr ..
  have hmem : ∀ r ∈ t'.beat.records, r ≠ x ∧ r ∈ t.beat.records :=
    fun r => h.nodup.mem_erase_iff.mp
  have hkeep : ∀ r ∈ t'.beat.records, t'.beat.objects r = t.beat.objects r :=
    fun r hr => hold r (hmem r hr).1
  obtain ⟨hsort, hnd, hlist⟩ := h.sublist (s := t'.beat) erase_sublist rfl hkeep
  refine
    { __ := h
      sorted := hsort
      nodup := hnd
      listed := hlist
      complete := ?_
      start := ?_
      fresh := ?_
      fresh_start := ?_ }
  · intro r hr hval
    have hne : r ≠ x := by
      rintro rfl
      simp [t', Tracked.step, Beat.step, Beat.release] at hval
    rw [hold r hne] at hval
    exact h.nodup.mem_erase_iff.mpr ⟨hne, h.complete r hr hval⟩
  · exact fun hzero r hr => hkeep r hr ▸ h.start hzero r (hmem r hr).2
  · exact fun r hr => hkeep r hr ▸ h.fresh r (hmem r hr).2
  · exact fun r hr => hkeep r hr ▸ h.fresh_start r (hmem r hr).2

/-! ### Writing an event -/

private theorem index_head_le {objects : ℕ → IndexRecord} {l : List ℕ}
    (hsort : l.Pairwise fun p q => (objects p).index ≤ (objects q).index) {r : ℕ} (hr : r ∈ l) :
    ∃ h ∈ l.head?, (objects h).index ≤ (objects r).index := by
  cases l with
  | nil => cases hr
  | cons h rest =>
    refine ⟨h, rfl, ?_⟩
    rcases mem_cons.mp hr with rfl | hr
    · exact le_rfl
    · exact (pairwise_cons.mp hsort).1 r hr

theorem writes_of_writtenAt {op : BeatOp} {k : ℕ} (hk : writtenAt bufferSize t.beat op = some k)
    (r : ℕ) : (t.step bufferSize op).writes r = k :: t.writes r := by
  cases op with
  | i m v | o m v => simp [Tracked.step, hk]
  | maskIndex src | release x => cases hk

theorem RecordsInv.write (hpos : 0 < bufferSize) (h : RecordsInv bufferSize t) {op : BeatOp}
    {k : ℕ} (hk : writtenAt bufferSize t.beat op = some k) (hfst : HeadFirst bufferSize t op) :
    RecordsInv bufferSize (t.step bufferSize op) := by
  obtain ⟨hkdef, hsIndex, hsLast, hnext, hobjs, hrecs⟩ := Beat.step_of_writtenAt hk
  obtain ⟨popped, hlist, hpopp, hhead, hobj⟩ := Beat.pileup_spec bufferSize k
    t.beat.sLastIndex t.beat.objects t.beat.records
  set objects' := (Beat.pileup bufferSize k t.beat.sLastIndex t.beat.objects t.beat.records).1
  set left := (Beat.pileup bufferSize k t.beat.sLastIndex t.beat.objects t.beat.records).2
  have hlast := h.last_eq
  have hle := h.sIndex_le
  have hleft : ∀ r ∈ left, r ∈ t.beat.records := fun r hr => by
    rw [hlist]
    exact mem_append.mpr (.inr hr)
  have hnd : (popped ++ left).Nodup := hlist ▸ h.nodup
  have hkeep : ∀ r ∈ left, objects' r = t.beat.objects r := by
    intro r hr
    rw [hobj r, if_neg fun hpop => (disjoint_of_nodup_append hnd) hpop hr]
  have hsort : left.Pairwise fun p q =>
      (t.beat.objects p).index ≤ (t.beat.objects q).index :=
    h.sorted.sublist (by rw [hlist]; exact sublist_append_right _ _)
  have hfirst : ∀ r ∈ left, ∃ q ∈ t.beat.records,
      (t.beat.objects q).index ≤ (t.beat.objects r).index ∧ -1 ≤ (t.beat.objects q).index ∧
        (t.beat.objects q).index ≠ k ∧
        ((t.beat.objects q).index = -1 → t.beat.sLastIndex ≠ (bufferSize : Int) - 1) := by
    intro r hr
    obtain ⟨q, hq, hqle⟩ := index_head_le hsort hr
    have hqmem := hleft q (mem_of_mem_head? hq)
    exact ⟨q, hqmem, hqle, (h.listed q hqmem).2.2, by simpa [Beat.Hit] using hhead q hq⟩
  -- no record left in the list marks the position just written
  have hmiss : ∀ r ∈ left, (t.beat.objects r).index ≠ k := by
    intro r hr heq
    obtain ⟨q, hqmem, hqle, hqge, hqmiss, hqlast⟩ := hfirst r hr
    by_cases hk0 : 0 < k
    · have := hfst k hk hk0 ⟨r, hleft r hr, heq⟩ q hqmem
      omega
    · have hstart : t.beat.sIndex ≠ 0 := by
        intro hzero
        have := h.start hzero r (hleft r hr)
        omega
      split at hkdef <;> omega
  -- records made before the first event leave the list when the buffer wraps
  have hwrap : ∀ r ∈ left, (t.beat.objects r).index = -1 → k = 0 → t.beat.sIndex = 0 := by
    intro r hr heq hk0
    obtain ⟨q, -, hqle, hqge, hqmiss, hqlast⟩ := hfirst r hr
    split at hkdef <;> omega
  set t' := t.step bufferSize op
  have hsIndex : t'.beat.sIndex = k + 1 := hsIndex
  have hrecs : t'.beat.records = left := hrecs
  have hobjs : t'.beat.objects = objects' := hobjs
  obtain ⟨hsort', hnd', hlist'⟩ := h.sublist (s := t'.beat)
    (by rw [hrecs, hlist]; exact sublist_append_right ..) hnext
    (by rw [hrecs, hobjs]; exact hkeep)
  refine
    { sIndex_le := ?_
      last_eq := ?_
      sorted := hsort'
      nodup := hnd'
      listed := hlist'
      complete := ?_
      start := ?_
      fresh := ?_
      fresh_start := ?_ }
  · rw [hsIndex, hkdef]
    split <;> omega
  · rw [show t'.beat.sLastIndex = k from hsLast]
    omega
  · intro r hr hval
    rw [hobjs, hobj r] at hval
    rw [hrecs]
    split at hval
    · cases hval
    · rename_i hnotp
      have hmem := h.complete r (hnext ▸ hr) hval
      rw [hlist] at hmem
      exact (mem_append.mp hmem).resolve_left hnotp
  · intro hzero
    omega
  · rw [hrecs, hobjs]
    intro r hr hidx j hj
    rw [hkeep r hr] at hidx ⊢
    rw [writes_of_writtenAt hk r] at hj
    rcases mem_cons.mp hj with rfl | hj
    · exact fun heq => hmiss r hr heq.symm
    · exact h.fresh r (hleft r hr) hidx j hj
  · rw [hrecs, hobjs]
    intro r hr hidx
    rw [hkeep r hr] at hidx
    rw [hsIndex, writes_of_writtenAt hk r, if_neg (Nat.succ_ne_zero k)]
    have hcnt := h.fresh_start r (hleft r hr) hidx
    by_cases hk0 : k = 0
    · rw [if_pos (hwrap r hr hidx hk0)] at hcnt
      simp only [hk0, count_cons_self]
      omega
    · rw [count_cons_of_ne hk0]
      split at hcnt <;> omega

theorem RecordsInv.step (hpos : 0 < bufferSize) (h : RecordsInv bufferSize t) (op : BeatOp)
    (hfst : HeadFirst bufferSize t op) : RecordsInv bufferSize (t.step bufferSize op) := by
  cases hk : writtenAt bufferSize t.beat op with
  | some k => exact h.write hpos hk hfst
  | none =>
    rcases Beat.step_of_not_writtenAt hk with hsame | ⟨source, rfl⟩ | ⟨r, rfl⟩
    · cases op with
      | i m v | o m v => simpa [Tracked.step, hk, hsame] using h
      | maskIndex source => exact h.maskIndex source
      | release r => exact h.release r
    · exact h.maskIndex source
    · exact h.release r

/-! ## The Shielded Record -/

theorem RecordsInv.not_slicesValid (h : RecordsInv bufferSize t) {op : BeatOp}
    (hno : ¬ HeadFirst bufferSize t op) : ¬ SlicesValid (t.step bufferSize op) := by
  simp only [HeadFirst, not_forall, not_le] at hno
  obtain ⟨k, hk, hk0, ⟨r, hr, hrk⟩, q, hq, hqk⟩ := hno
  obtain ⟨hkdef, _, _, hnext, hobjs, _⟩ := Beat.step_of_writtenAt hk
  obtain ⟨popped, hlist, hpopp, _, hobj⟩ := Beat.pileup_spec bufferSize k
    t.beat.sLastIndex t.beat.objects t.beat.records
  have hlast := h.last_eq
  -- the head of the list has a smaller index and stops the loop
  have hnone : popped = [] := by
    cases popped with
    | nil => rfl
    | cons x xs =>
      have hhit := hpopp x (mem_cons_self ..)
      obtain ⟨y, hy, hyle⟩ := index_head_le h.sorted hq
      rw [hlist, cons_append, head?_cons, Option.mem_some_iff] at hy
      subst hy
      rcases hhit with hhit | ⟨_, hhit⟩
      · omega
      · split at hkdef <;> omega
  subst hnone
  intro hval
  obtain ⟨hrlt, hrval, _⟩ := h.listed r hr
  have hsame : (t.step bufferSize op).beat.objects r = t.beat.objects r := by
    change (t.beat.step bufferSize op).objects r = _
    rw [hobjs, hobj r]
    simp
  refine hval r ?_ ?_ ?_
  · change r < (t.beat.step bufferSize op).nextObject
    rwa [hnext]
  · rwa [hsame]
  · rw [hsame, writes_of_writtenAt hk r, Overwritten, if_neg (by omega)]
    exact ⟨k, mem_cons_self .., hrk.symm⟩

/-! ## A Run that Shields a Record -/

def event : BeatOp := .i 1 0#64

/-- A record at index 1, events to the end of the buffer and the first of the next lap, a record at
index 0, and the event that is written over index 1. -/
def shieldedRun (bufferSize : ℕ) : List BeatOp :=
  [event, event] ++ (.maskIndex "first" :: List.replicate (bufferSize - 2) event) ++
    [event, .maskIndex "second", event]

/-- What a buffer that records events holds. -/
structure Stands (t : Tracked) (sIndex : ℕ) (objects : ℕ → IndexRecord) (records : List ℕ)
    (nextObject : ℕ) : Prop where
  recording : statusStopped < t.beat.status
  sIndex_eq : t.beat.sIndex = sIndex
  objects_eq : t.beat.objects = objects
  records_eq : t.beat.records = records
  nextObject_eq : t.beat.nextObject = nextObject

namespace Stands

variable {t : Tracked} {i k n : ℕ} {objects : ℕ → IndexRecord} {records : List ℕ}
  (h : Stands t i objects records n)

include h

theorem writtenAt_event (hk : k = if i < bufferSize then i else 0) :
    writtenAt bufferSize t.beat event = some k := by
  rw [hk, ← h.sIndex_eq]
  exact if_neg (not_or.mpr ⟨not_le.mpr h.recording, by decide⟩)

/-- An event that does not hit the first record. -/
theorem event (bufferSize k : ℕ) (hk : k = if i < bufferSize then i else 0)
    (hhead : ∀ r ∈ records.head?, (objects r).index ≠ k ∧ (objects r).index ≠ -1) :
    Stands (t.step bufferSize event) (k + 1) objects records n := by
  have hwrit := h.writtenAt_event hk
  obtain ⟨-, hsIndex, -, hnext, hobjs, hrecs⟩ := Beat.step_of_writtenAt hwrit
  obtain ⟨-, status, m, b, v, hstat, hstep⟩ := Beat.step_eq_record hwrit
  have hmiss : ∀ r ∈ records.head?, ¬ Beat.Hit bufferSize k t.beat.sLastIndex (objects r) :=
    fun r hr => not_or.mpr ⟨(hhead r hr).1, fun hhit => (hhead r hr).2 hhit.1⟩
  rw [h.objects_eq, h.records_eq, Beat.pileup_eq_self hmiss] at hobjs hrecs
  refine ⟨?_, hsIndex, hobjs, hrecs, hnext.trans h.nextObject_eq⟩
  change statusStopped < (t.beat.step bufferSize Trace.event).status
  rw [hstep]
  simpa [Beat.record, Beat.mergeDataAt, Beat.checkPileup, apply_ite Beat.status] using hstat

theorem events (bufferSize m : ℕ) (hroom : i + m ≤ bufferSize)
    (hhead : ∀ r ∈ records.head?, 0 ≤ (objects r).index ∧ (objects r).index < i) :
    Stands (run (Tracked.step bufferSize) t (replicate m Trace.event)) (i + m) objects records
      n := by
  induction m generalizing t i with
  | zero => exact h
  | succ m ih =>
    have hnext := h.event bufferSize i (if_pos (by omega)).symm fun r hr => by
      have := hhead r hr
      omega
    rw [show i + (m + 1) = i + 1 + m by omega]
    exact ih hnext (by omega) fun r hr => by
      have := hhead r hr
      omega

theorem maskIndex (bufferSize : ℕ) (source : String) (record : IndexRecord) {records' : List ℕ}
    (hrec : record = ⟨(i : Int) - 1, true, source⟩)
    (hrecs : Beat.insertRecord (update objects n record) n records = records') :
    Stands (t.step bufferSize (.maskIndex source)) i (update objects n record) records' (n + 1) := by
  obtain ⟨hstat, rfl, rfl, rfl, rfl⟩ := h
  subst hrec hrecs
  exact ⟨hstat, rfl, rfl, rfl, rfl⟩

omit h in
theorem not_slicesValid {r : ℕ} (h : Stands (t.step bufferSize Trace.event) i objects records n)
    (hwrit : writtenAt bufferSize t.beat Trace.event = some k) (hr : r < n)
    (hval : (objects r).isValid = true) (hidx : (objects r).index = k) :
    ¬ SlicesValid (t.step bufferSize Trace.event) := by
  intro hvalid
  refine hvalid r (h.nextObject_eq ▸ hr) (by rwa [h.objects_eq]) ?_
  rw [h.objects_eq, hidx, writes_of_writtenAt hwrit r, Overwritten, if_neg (by omega)]
  exact ⟨k, mem_cons_self .., rfl⟩

end Stands

theorem not_slicesValid_shieldedRun (h2 : 2 ≤ bufferSize) :
    ¬ SlicesValid (run (Tracked.step bufferSize) Tracked.init (shieldedRun bufferSize)) := by
  rw [shieldedRun, run_append, run_append]
  have hinit : Stands Tracked.init 0 (fun _ => default) [] 0 := ⟨by decide, rfl, rfl, rfl, rfl⟩
  -- two events from the start, and the record at index 1
  have hmask := (hinit.events bufferSize 2 h2 (by simp)).maskIndex bufferSize "first"
    ⟨1, true, "first"⟩ rfl (show _ = [0] from rfl)
  -- events to the end of the buffer, which then wraps; the head, at index 1, is not hit
  have hlap := hmask.events bufferSize (bufferSize - 2) (by omega) (by simp)
  have hwrap := hlap.event bufferSize 0 (if_neg (by omega)).symm (by simp)
  have hmask' := hwrap.maskIndex bufferSize "second" ⟨0, true, "second"⟩ rfl
    (show _ = [1, 0] by simp [Beat.insertRecord])
  -- the event over index 1 meets the new record first
  have hk : 1 = if 0 + 1 < bufferSize then 0 + 1 else 0 := (if_pos (by omega)).symm
  have hover := hmask'.event bufferSize 1 hk (by simp)
  exact hover.not_slicesValid (r := 0) (hmask'.writtenAt_event hk) (by omega) rfl rfl

/-- With the program's buffer size a valid record can mark an overwritten position. -/
theorem slicesValid_shieldedRun_fails :
    ¬ Always (Tracked.step constBufferSize) SlicesValid Tracked.init
      (shieldedRun constBufferSize) :=
  fun h => not_slicesValid_shieldedRun (by decide) h.last

/-- **Slice validity, exactly**: throughout a run every valid record marks a position that has not been
written over, if and only if no event is written over an outstanding record while one with a smaller
index exists. -/
theorem slicesValid_iff_headFirst (hpos : 0 < bufferSize) (ops : List BeatOp) :
    Always (Tracked.step bufferSize) SlicesValid Tracked.init ops ↔
      Meets (Tracked.step bufferSize) (HeadFirst bufferSize) Tracked.init ops :=
  always_iff_meets (fun _ op h => h.step hpos op) (fun _ h => h.slicesValid)
    (fun _ _ h hno => h.not_slicesValid hno) (recordsInv_init bufferSize) ops

/-- A record made before the first event stays valid for one lap of a buffer of two events. -/
theorem slicesValid_iff_headFirst_lap :
    0 < 2 ∧ Always (Tracked.step 2) SlicesValid Tracked.init
      [.maskIndex "start", event, event, event] := by
  refine ⟨by decide, (slicesValid_iff_headFirst (by decide) _).mpr ?_⟩
  refine ⟨?_, ?_, ?_, ?_, trivial⟩
  · intro k hk
    cases hk
  · intro k hk hpos
    cases hk
    exact absurd hpos (by decide)
  · rintro k hk hpos ⟨r, hr, heq⟩
    cases hk
    obtain rfl : r = 0 := mem_singleton.mp hr
    exact absurd heq (by decide)
  · intro k hk hpos
    cases hk
    exact absurd hpos (by decide)

end TraceHarbor.Trace
