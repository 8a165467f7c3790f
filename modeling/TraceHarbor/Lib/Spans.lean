import TraceHarbor.Lib.OrdMap

/-!
# Disjoint Spans

A `Span` carries a value on a half-open range of natural numbers. `Spans l` says that the spans of a list
are not empty and follow one another without overlap, so a point lies in at most one of them.
-/

namespace TraceHarbor.Lib

open List

/-- A value on a half-open range. -/
@[ext]
structure Span (α : Type*) where
  start : ℕ
  stop : ℕ
  val : α
  deriving DecidableEq

/-- The spans are not empty, and each ends before the next one starts. -/
@[mk_iff]
structure Spans {α : Type*} (l : List (Span α)) : Prop where
  nonempty : ∀ s ∈ l, s.start < s.stop
  ordered : l.Pairwise fun s t => s.stop ≤ t.start

section Spans

variable {α : Type*}

namespace Span

def Contains (s : Span α) (a : ℕ) : Prop := s.start ≤ a ∧ a < s.stop

instance (s : Span α) (a : ℕ) : Decidable (s.Contains a) := inferInstanceAs (Decidable (_ ∧ _))

end Span

/-- A span with value `v` holds the point `a`. -/
def Covers (l : List (Span α)) (a : ℕ) (v : α) : Prop := ∃ s ∈ l, s.Contains a ∧ s.val = v

variable {l : List (Span α)} {s : Span α} {a : ℕ}

theorem covers_cons {v : α} :
    Covers (s :: l) a v ↔ s.Contains a ∧ s.val = v ∨ Covers l a v := by
  simp [Covers]

theorem covers_append {r : List (Span α)} {v : α} :
    Covers (l ++ r) a v ↔ Covers l a v ∨ Covers r a v := by
  simp [Covers, or_and_right, exists_or]

theorem spans_nil : Spans ([] : List (Span α)) := ⟨nofun, .nil⟩

theorem spans_append {r : List (Span α)} :
    Spans (l ++ r) ↔ Spans l ∧ Spans r ∧ ∀ s ∈ l, ∀ t ∈ r, s.stop ≤ t.start := by
  simp only [spans_iff, mem_append, or_imp, forall_and, pairwise_append]
  tauto

theorem spans_cons :
    Spans (s :: l) ↔ s.start < s.stop ∧ (∀ t ∈ l, s.stop ≤ t.start) ∧ Spans l := by
  simp only [spans_iff, forall_mem_cons, pairwise_cons]
  tauto

theorem spans_append_cons {r : List (Span α)} :
    Spans (l ++ s :: r) ↔ Spans (l ++ r) ∧ s.start < s.stop ∧ (∀ t ∈ l, t.stop ≤ s.start) ∧
      ∀ t ∈ r, s.stop ≤ t.start := by
  simp only [spans_append, spans_cons, forall_mem_cons, forall_and]
  tauto

theorem Spans.eq_of_contains (h : Spans l) {t : Span α} (hs : s ∈ l)
    (ht : t ∈ l) (hsa : s.Contains a) (hta : t.Contains a) : s = t := by
  obtain ⟨i, hi, rfl⟩ := getElem_of_mem hs
  obtain ⟨j, hj, rfl⟩ := getElem_of_mem ht
  have hord := pairwise_iff_getElem.mp h.ordered
  unfold Span.Contains at hsa hta
  rcases lt_trichotomy i j with hij | rfl | hij
  · have := hord i j hi hj hij
    omega
  · rfl
  · have := hord j i hj hi hij
    omega

theorem Spans.covers_unique (h : Spans l) {v w : α}
    (hv : Covers l a v) (hw : Covers l a w) : v = w := by
  obtain ⟨s, hs, hsa, rfl⟩ := hv
  obtain ⟨t, ht, hta, rfl⟩ := hw
  rw [h.eq_of_contains hs ht hsa hta]

/-! ## As maps -/

/-- The spans of a map from starts to ends and values. -/
def spansOf (m : OrdMap ℕ (ℕ × α)) : List (Span α) := m.toList.map fun e => ⟨e.1, e.2.1, e.2.2⟩

theorem mem_spansOf {m : OrdMap ℕ (ℕ × α)} :
    s ∈ spansOf m ↔ m[s.start]? = some (s.stop, s.val) := by
  rw [spansOf, mem_map]
  constructor
  · rintro ⟨⟨k, e, v⟩, hmem, rfl⟩
    exact OrdMap.mem_toList.mp hmem
  · exact fun h => ⟨(s.start, s.stop, s.val), OrdMap.mem_toList.mpr h, rfl⟩

/-- The map of a list of spans. -/
def ofSpans (l : List (Span α)) : OrdMap ℕ (ℕ × α) :=
  l.foldl (fun m s => m.insert s.start (s.stop, s.val)) ∅

@[simp]
theorem ofSpans_concat (l : List (Span α)) (s : Span α) :
    ofSpans (l ++ [s]) = (ofSpans l).insert s.start (s.stop, s.val) := by
  rw [ofSpans, foldl_append]
  rfl

theorem get_ofSpans (h : Spans l) (s : Span α) :
    (ofSpans l)[s.start]? = some (s.stop, s.val) ↔ s ∈ l := by
  induction l using reverseRecOn with
  | nil => simp [ofSpans]
  | append_singleton l t ih =>
    obtain ⟨hl, ht, hlt⟩ := spans_append.mp h
    rw [ofSpans_concat, OrdMap.get_insert, mem_append, mem_singleton, ← ih hl]
    split_ifs with hstart
    · have hnone : s ∉ l := by
        intro hs
        have hend := hlt s hs t mem_cons_self
        have hne := hl.nonempty s hs
        omega
      rw [ih hl, or_iff_right hnone, Span.ext_iff, Option.some_inj, Prod.mk.injEq]
      exact ⟨fun ⟨hstop, hval⟩ => ⟨hstart, hstop.symm, hval.symm⟩,
        fun ⟨_, hstop, hval⟩ => ⟨hstop.symm, hval.symm⟩⟩
    · rw [or_iff_left]
      rintro rfl
      exact hstart rfl

theorem mem_spansOf_ofSpans (h : Spans l) :
    s ∈ spansOf (ofSpans l) ↔ s ∈ l :=
  mem_spansOf.trans (get_ofSpans h s)

theorem covers_spansOf_ofSpans (h : Spans l) {v : α} :
    Covers (spansOf (ofSpans l)) a v ↔ Covers l a v := by
  simp only [Covers, mem_spansOf_ofSpans h]

/-- The spans of a map are ordered by their starts, so they are disjoint as soon as no two of them
overlap. -/
theorem spans_spansOf {m : OrdMap ℕ (ℕ × α)} (hne : ∀ s ∈ spansOf m, s.start < s.stop)
    (hdisj : ∀ s ∈ spansOf m, ∀ t ∈ spansOf m, s ≠ t → ∀ a, ¬ (s.Contains a ∧ t.Contains a)) :
    Spans (spansOf m) := by
  refine ⟨hne, ?_⟩
  have hsort : (spansOf m).Pairwise fun s t => s.start < t.start :=
    pairwise_map.mpr m.sorted_toList
  refine hsort.imp_of_mem fun {s t} hs ht hlt => ?_
  by_contra hover
  refine hdisj s hs t ht (fun heq => ?_) t.start
    ⟨⟨hlt.le, not_le.mp hover⟩, ⟨le_rfl, hne t ht⟩⟩
  rw [heq] at hlt
  exact lt_irrefl _ hlt

end Spans

end TraceHarbor.Lib
