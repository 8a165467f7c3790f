import TraceHarbor.Lib.Text

/-!
# Jiffies of the Threads of a Process

The difference of two snapshots of a process lists the threads that consumed jiffies in between, and
the threads that died. A thread is matched by its tid and its name; for the dead ones the tids are
looked up among the threads that consumed something, so that an idle thread is listed as dead.
-/

namespace TraceHarbor.Battery

open Lib List

/-- `ThreadJiffiesSnapshot`. Jiffies are counts, so that a difference of two stays in a `Long`. -/
structure ThreadJiffies where
  tid : ℕ
  name : Text
  stat : Text
  value : ℤ
  isNewAdded : Bool
  deriving DecidableEq

structure JiffiesSnapshot where
  pid : ℕ
  isNewAdded : Bool
  name : Text
  totalJiffies : ℤ
  threadNum : ℤ
  threadEntries : List ThreadJiffies
  deadThreadEntries : List ThreadJiffies
  deriving DecidableEq

namespace JiffiesSnapshot

/-- What a thread of the end snapshot consumed, and whether it is new. -/
def jiffiesConsumed (bgn : List ThreadJiffies) (endRecord : ThreadJiffies) : ℤ × Bool :=
  match bgn.find? fun bgnRecord =>
    bgnRecord.name = endRecord.name ∧ bgnRecord.tid = endRecord.tid with
  | some bgnRecord => (endRecord.value - bgnRecord.value, false)
  | none => (endRecord.value, true)

/-- The entry of a thread of the end snapshot. -/
def deltaThread (bgn : List ThreadJiffies) (endRecord : ThreadJiffies) : ThreadJiffies :=
  let (consumed, isNewAdded) := jiffiesConsumed bgn endRecord
  { endRecord with value := consumed, isNewAdded := isNewAdded }

/-- The comparator, with which the sort is stable. -/
def MoreJiffies (o₁ o₂ : ThreadJiffies) : Prop := o₂.value ≤ o₁.value

instance : DecidableRel MoreJiffies := fun o₁ o₂ => inferInstanceAs (Decidable (o₂.value ≤ o₁.value))

/-- `computeDelta` of `diff`, for a value of `sSkipNewAdded`. -/
def diff (skipNewAdded : Bool) (bgn fin : JiffiesSnapshot) : JiffiesSnapshot :=
  let entries := (fin.threadEntries.map (deltaThread bgn.threadEntries)).filter fun entry =>
    entry.value > 0 ∧ (!entry.isNewAdded || !skipNewAdded)
  let threadEntries := entries.insertionSort MoreJiffies
  { pid := fin.pid
    isNewAdded := fin.isNewAdded
    name := fin.name
    totalJiffies := fin.totalJiffies - bgn.totalJiffies
    threadNum := fin.threadNum - bgn.threadNum
    threadEntries := threadEntries
    deadThreadEntries := bgn.threadEntries.filter fun bgnRecord =>
      threadEntries.all fun exist => exist.tid ≠ bgnRecord.tid }

/-! ## What a difference should be -/

def SameThread (b e : ThreadJiffies) : Prop := b.tid = e.tid ∧ b.name = e.name

/-- `d` says what `e` consumed since the snapshot with the threads `bgn`. -/
structure IsDelta (bgn : List ThreadJiffies) (e d : ThreadJiffies) : Prop where
  thread : d = { e with value := d.value, isNewAdded := d.isNewAdded }
  old : ∀ b ∈ bgn, SameThread b e → d.value = e.value - b.value ∧ d.isNewAdded = false
  new : (∀ b ∈ bgn, ¬ SameThread b e) → d.value = e.value ∧ d.isNewAdded = true

structure IsDiff (bgn fin delta : JiffiesSnapshot) : Prop where
  consumed : ∃ ds, Forall₂ (IsDelta bgn.threadEntries) fin.threadEntries ds ∧
    delta.threadEntries.Perm (ds.filter fun d => 0 < d.value)
  sorted : delta.threadEntries.Pairwise MoreJiffies
  dead : delta.deadThreadEntries =
    bgn.threadEntries.filter fun b => ∀ e ∈ fin.threadEntries, e.tid ≠ b.tid

/-- Every thread with the tid of an earlier one consumed something. -/
def NoneIdle (bgn fin : JiffiesSnapshot) : Prop :=
  ∀ b ∈ bgn.threadEntries, ∀ e ∈ fin.threadEntries, e.tid = b.tid →
    0 < e.value - if b.name = e.name then b.value else 0

instance (bgn fin : JiffiesSnapshot) : Decidable (NoneIdle bgn fin) :=
  inferInstanceAs (Decidable (∀ b ∈ _, ∀ e ∈ _, _))

section Diff

variable {bgn : List ThreadJiffies} {b e : ThreadJiffies}

theorem jiffiesConsumed_of_same (hnd : (bgn.map ThreadJiffies.tid).Nodup) (hb : b ∈ bgn)
    (hsame : SameThread b e) : jiffiesConsumed bgn e = (e.value - b.value, false) := by
  unfold jiffiesConsumed
  cases hfind : bgn.find? fun b => b.name = e.name ∧ b.tid = e.tid with
  | none => exact absurd hsame.symm (by simpa using find?_eq_none.mp hfind b hb)
  | some b' =>
    obtain ⟨-, htid⟩ : b'.name = e.name ∧ b'.tid = e.tid := by simpa using find?_some hfind
    obtain rfl := inj_on_of_nodup_map hnd (mem_of_find?_eq_some hfind) hb (htid.trans hsame.1.symm)
    rfl

theorem jiffiesConsumed_of_new (hnew : ∀ b ∈ bgn, ¬ SameThread b e) :
    jiffiesConsumed bgn e = (e.value, true) := by
  unfold jiffiesConsumed
  rw [find?_eq_none.mpr fun b hb => by simpa using fun hname htid => hnew b hb ⟨htid, hname⟩]

theorem isDelta_deltaThread (hnd : (bgn.map ThreadJiffies.tid).Nodup) (e : ThreadJiffies) :
    IsDelta bgn e (deltaThread bgn e) where
  thread := rfl
  old b hb hsame := by simp [deltaThread, jiffiesConsumed_of_same hnd hb hsame]
  new hnew := by simp [deltaThread, jiffiesConsumed_of_new hnew]

/-- With distinct tids, only a thread with the same tid can be the same one. -/
theorem value_deltaThread (hnd : (bgn.map ThreadJiffies.tid).Nodup) (hb : b ∈ bgn)
    (htid : e.tid = b.tid) :
    (deltaThread bgn e).value = e.value - if b.name = e.name then b.value else 0 := by
  split
  next hname => rw [deltaThread, jiffiesConsumed_of_same hnd hb ⟨htid.symm, hname⟩]
  next hname =>
    rw [deltaThread, jiffiesConsumed_of_new, sub_zero]
    intro b' hb' hsame
    obtain rfl := inj_on_of_nodup_map hnd hb' hb (hsame.1.trans htid)
    exact hname hsame.2

end Diff

variable {bgn fin : JiffiesSnapshot}

theorem mem_threadEntries_diff {d : ThreadJiffies} :
    d ∈ (diff false bgn fin).threadEntries ↔
      (∃ e ∈ fin.threadEntries, deltaThread bgn.threadEntries e = d) ∧ 0 < d.value := by
  simp [diff]

/-- The threads listed as dead are the right ones if no thread is idle, and only then. -/
theorem deadThreadEntries_diff_iff (hbgn : (bgn.threadEntries.map ThreadJiffies.tid).Nodup)
    (hfin : (fin.threadEntries.map ThreadJiffies.tid).Nodup) :
    (diff false bgn fin).deadThreadEntries =
      bgn.threadEntries.filter (fun b => ∀ e ∈ fin.threadEntries, e.tid ≠ b.tid) ↔
    NoneIdle bgn fin := by
  have hdead : (diff false bgn fin).deadThreadEntries = bgn.threadEntries.filter fun b =>
      (diff false bgn fin).threadEntries.all fun exist => exist.tid ≠ b.tid := rfl
  rw [hdead]
  constructor
  · intro heq b hb e he htid
    -- `b` is not dead, so that there is an entry with its tid, which can only be that of `e`
    have hmem := congrArg (b ∈ ·) heq
    simp only [mem_filter, hb, true_and, all_eq_true, decide_eq_true_eq, eq_iff_iff] at hmem
    by_contra hidle
    refine hmem.mp (fun d hd => ?_) e he htid
    obtain ⟨⟨e', he', rfl⟩, hpos⟩ := mem_threadEntries_diff.mp hd
    intro htid'
    obtain rfl := inj_on_of_nodup_map hfin he' he (htid'.trans htid.symm)
    exact hidle (value_deltaThread hbgn hb htid ▸ hpos)
  · intro hnone
    refine filter_congr fun b hb => ?_
    rw [Bool.eq_iff_iff]
    simp only [all_eq_true, decide_eq_true_eq]
    constructor
    · intro hall e he htid
      have hpos := value_deltaThread hbgn hb htid ▸ hnone b hb e he htid
      exact hall _ (mem_threadEntries_diff.mpr ⟨⟨e, he, rfl⟩, hpos⟩) htid
    · intro hall d hd
      obtain ⟨⟨e, he, rfl⟩, -⟩ := mem_threadEntries_diff.mp hd
      exact hall e he

/-- **The difference of two snapshots** is right exactly if every thread that has the tid of an
earlier one consumed something. -/
theorem isDiff_iff_noneIdle (bgn fin : JiffiesSnapshot)
    (hbgn : (bgn.threadEntries.map ThreadJiffies.tid).Nodup)
    (hfin : (fin.threadEntries.map ThreadJiffies.tid).Nodup) :
    IsDiff bgn fin (diff false bgn fin) ↔ NoneIdle bgn fin := by
  rw [← deadThreadEntries_diff_iff hbgn hfin]
  refine ⟨IsDiff.dead, fun hdead => ⟨⟨fin.threadEntries.map (deltaThread bgn.threadEntries), ?_, ?_⟩,
    ?_, hdead⟩⟩
  · exact forall₂_map_right_iff.mpr (forall₂_same.mpr fun e _ => isDelta_deltaThread hbgn e)
  · simpa [diff] using perm_insertionSort ..
  · have : Std.Total MoreJiffies := ⟨fun a b => le_total b.value a.value⟩
    have : IsTrans _ MoreJiffies := ⟨fun _ _ _ hab hbc => hbc.trans hab⟩
    exact pairwise_insertionSort ..

/-- A snapshot of a process with these threads. -/
def ofThreads (threads : List ThreadJiffies) : JiffiesSnapshot := ⟨1, false, [], 0, 1, threads, []⟩

theorem isDiff_of_busy_thread : IsDiff (ofThreads [⟨7, ['t'], ['R'], 10, true⟩])
    (ofThreads [⟨7, ['t'], ['R'], 15, true⟩]) (diff false (ofThreads [⟨7, ['t'], ['R'], 10, true⟩])
      (ofThreads [⟨7, ['t'], ['R'], 15, true⟩])) :=
  (isDiff_iff_noneIdle _ _ (by decide) (by decide)).mpr (by decide)

/-- A thread that did nothing in between is listed as dead. -/
theorem idle_thread_is_dead : (diff false (ofThreads [⟨7, ['t'], ['S'], 10, true⟩])
    (ofThreads [⟨7, ['t'], ['S'], 10, true⟩])).deadThreadEntries = [⟨7, ['t'], ['S'], 10, true⟩] := by
  decide

end JiffiesSnapshot

end TraceHarbor.Battery
