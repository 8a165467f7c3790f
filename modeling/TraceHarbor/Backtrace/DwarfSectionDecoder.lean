import TraceHarbor.Lib.Spans

/-!
# Frame Descriptions of a Section

`FillFdes` walks over the entries of a DWARF section. `InsertFde` keeps the ranges of the frame
descriptions in a map from their ends to their starts, and splits ranges that overlap.
-/

namespace TraceHarbor.Backtrace

open Lib List

variable {F : Type*} {m : OrdMap ℕ (ℕ × F)} {fde s : Span F} {l : List (Span F)}

/-! ## Insertion -/

/-- The spans of a map from ends to starts and values. -/
def endSpans (m : OrdMap ℕ (ℕ × F)) : List (Span F) := m.toList.map fun e => ⟨e.2.1, e.1, e.2.2⟩

/-- What the loop of `InsertFde` inserts: the part of the range in front of each span, and the part
that is left. -/
def pieces (fde : Span F) : ℕ → List (Span F) → List (Span F)
  | start, [] => if start < fde.stop then [⟨start, fde.stop, fde.val⟩] else []
  | start, s :: rest =>
    if start < fde.stop ∧ s.start < fde.stop then
      (if start < s.start then [⟨start, s.start, fde.val⟩] else []) ++ pieces fde s.stop rest
    else if start < fde.stop then [⟨start, fde.stop, fde.val⟩] else []

/-- `InsertFde`, for a range with its description: the walk starts at `upper_bound(start)`. -/
def insertFde (m : OrdMap ℕ (ℕ × F)) (fde : Span F) : OrdMap ℕ (ℕ × F) :=
  m.insertAll ((pieces fde fde.start ((endSpans m).filter (fde.start < ·.stop))).map
    fun s => (s.stop, s.start, s.val))

/-! ## The pieces -/

/-- The pieces are spans that fill the range between the spans that were there. -/
theorem pieces_spec {start : ℕ} (hl : Spans l) (hstart : ∀ s ∈ l, start < s.stop) :
    (∀ p ∈ pieces fde start l, start ≤ p.start ∧ p.val = fde.val) ∧ Spans (pieces fde start l) ∧
    ∀ a, (∃ p ∈ pieces fde start l, p.Contains a) ↔
      (start ≤ a ∧ a < fde.stop) ∧ ∀ s ∈ l, ¬ s.Contains a := by
  induction l generalizing start with
  | nil =>
    rw [pieces]
    split_ifs with h
    · refine ⟨by simp, spans_cons.mpr ⟨h, nofun, spans_nil⟩, by simp [Span.Contains]⟩
    · refine ⟨by simp, spans_nil, ?_⟩
      simp
      omega
  | cons s l ih =>
    obtain ⟨hne, hnext, hl'⟩ := spans_cons.mp hl
    have hlat : ∀ t ∈ l, s.stop < t.stop := fun t ht => (hnext t ht).trans_lt (hl'.nonempty t ht)
    obtain ⟨hfrom, hspans, hfill⟩ := ih hl' hlat
    rw [pieces]
    split_ifs with h1 h2 h3
    · refine ⟨?_, spans_cons.mpr ⟨h2, fun p hp => hne.le.trans (hfrom p hp).1, hspans⟩, fun a => ?_⟩
      · grind
      · rw [singleton_append, exists_mem_cons_iff, hfill]
        grind [Span.Contains]
    · refine ⟨?_, hspans, fun a => ?_⟩
      · grind
      · rw [nil_append, hfill]
        grind [Span.Contains]
    · -- the spans that are left lie behind the range
      have hbeh : ∀ t ∈ s :: l, fde.stop ≤ t.start := by grind
      refine ⟨by simp, spans_cons.mpr ⟨h3, nofun, spans_nil⟩, fun a => ?_⟩
      simp only [mem_singleton, exists_eq_left, Span.Contains]
      exact ⟨fun h => ⟨h, fun t ht hta => by have := hbeh t ht; omega⟩, And.left⟩
    · refine ⟨by simp, spans_nil, fun a => ?_⟩
      simp only [not_mem_nil, false_and, exists_false, false_iff]
      omega

theorem mem_endSpans : s ∈ endSpans m ↔ m[s.stop]? = some (s.start, s.val) := by
  rw [endSpans, mem_map]
  constructor
  · rintro ⟨⟨k, e, v⟩, hmem, rfl⟩
    exact OrdMap.mem_toList.mp hmem
  · exact fun h => ⟨(s.stop, s.start, s.val), OrdMap.mem_toList.mpr h, rfl⟩

/-- Spans in the order of their ends are disjoint as soon as no two of them share an address. -/
theorem spans_endSpans (hne : ∀ s ∈ endSpans m, s.start < s.stop)
    (hdisj : ∀ s ∈ endSpans m, ∀ t ∈ endSpans m, ∀ a, s.Contains a → t.Contains a → s = t) :
    Spans (endSpans m) := by
  refine ⟨hne, ?_⟩
  have hsort : (endSpans m).Pairwise fun s t => s.stop < t.stop := pairwise_map.mpr m.sorted_toList
  refine hsort.imp_of_mem fun {s t} hs ht hlt => ?_
  by_contra hover
  have hs' := hne s hs
  obtain rfl := hdisj s hs t ht (max s.start t.start) (by unfold Span.Contains; omega)
    (by unfold Span.Contains; omega)
  exact lt_irrefl _ hlt

theorem insertFde_spec (hm : Spans (endSpans m)) : Spans (endSpans (insertFde m fde)) ∧
    ∀ a v, Covers (endSpans (insertFde m fde)) a v ↔ Covers (endSpans m) a v ∨
      (fde.Contains a ∧ v = fde.val ∧ ∀ w, ¬ Covers (endSpans m) a w) := by
  have hwalk : Spans ((endSpans m).filter (fde.start < ·.stop)) :=
    ⟨fun s hs => hm.nonempty s (mem_of_mem_filter hs), hm.ordered.filter _⟩
  obtain ⟨hfrom, hspans, hfill⟩ := @pieces_spec _ fde _ fde.start hwalk
    (fun s hs => by simpa using (mem_filter.mp hs).2)
  rw [insertFde]
  generalize pieces fde fde.start ((endSpans m).filter (fde.start < ·.stop)) = new at *
  -- the pieces lie in the range and keep away from the spans that were there
  have hfill' : ∀ a, (∃ p ∈ new, p.Contains a) ↔ fde.Contains a ∧ ∀ s ∈ endSpans m, ¬ s.Contains a := by
    intro a
    rw [hfill]
    refine and_congr_right fun ha => ⟨fun h s hs hsa => h s (mem_filter.mpr ⟨hs, ?_⟩) hsa,
      fun h s hs => h s (mem_of_mem_filter hs)⟩
    exact decide_eq_true (ha.1.trans_lt hsa.2)
  have hap : ∀ p ∈ new, ∀ s ∈ endSpans m, ∀ a, p.Contains a → ¬ s.Contains a := fun p hp s hs a hpa =>
    ((hfill' a).mp ⟨p, hp, hpa⟩).2 s hs
  have hlast : ∀ t : Span F, t.start < t.stop → t.Contains (t.stop - 1) := fun t ht => by
    unfold Span.Contains
    omega
  have hnd : ((new.map fun s => (s.stop, s.start, s.val)).map Prod.fst).Nodup := by
    rw [map_map]
    refine pairwise_map.mpr (hspans.ordered.imp_of_mem fun {s t} _ ht hle => ?_)
    have := hspans.nonempty t ht
    simp only [Function.comp]
    omega
  have hfresh : ∀ e ∈ new.map fun s => (s.stop, s.start, s.val), m[e.1]? = none := by
    intro e he
    obtain ⟨p, hp, rfl⟩ := mem_map.mp he
    by_contra hsome
    obtain ⟨⟨start, v⟩, hget⟩ := Option.ne_none_iff_exists'.mp hsome
    have hold := mem_endSpans (s := ⟨start, p.stop, v⟩).mpr hget
    exact hap p hp _ hold _ (hlast p (hspans.nonempty p hp)) (hlast _ (hm.nonempty _ hold))
  have hmem : ∀ s, s ∈ endSpans (m.insertAll (new.map fun s => (s.stop, s.start, s.val))) ↔
      s ∈ endSpans m ∨ s ∈ new := by
    intro s
    rw [mem_endSpans, OrdMap.get_insertAll_iff hnd hfresh, ← mem_endSpans, mem_map]
    refine or_congr_right ⟨?_, fun hs => ⟨s, hs, rfl⟩⟩
    rintro ⟨t, ht, heq⟩
    obtain ⟨hstop, hstart, hval⟩ : t.stop = s.stop ∧ t.start = s.start ∧ t.val = s.val := by
      simpa using heq
    rwa [← Span.ext hstart hstop hval]
  refine ⟨spans_endSpans ?_ ?_, fun a v => ?_⟩
  · intro s hs
    exact ((hmem s).mp hs).elim (hm.nonempty s) (hspans.nonempty s)
  · intro s hs t ht a hsa hta
    rcases (hmem s).mp hs with hs | hs <;> rcases (hmem t).mp ht with ht | ht
    · exact hm.eq_of_contains hs ht hsa hta
    · exact absurd hsa (hap t ht s hs a hta)
    · exact absurd hta (hap s hs t ht a hsa)
    · exact hspans.eq_of_contains hs ht hsa hta
  · simp only [Covers, hmem, or_and_right, exists_or]
    refine or_congr_right ⟨?_, ?_⟩
    · rintro ⟨p, hp, hpa, rfl⟩
      have hfree := (hfill' a).mp ⟨p, hp, hpa⟩
      refine ⟨hfree.1, (hfrom p hp).2, ?_⟩
      rintro w ⟨s, hs, hsa, -⟩
      exact hfree.2 s hs hsa
    · rintro ⟨hin, rfl, hfree⟩
      obtain ⟨p, hp, hpa⟩ := (hfill' a).mpr ⟨hin, fun s hs hsa => hfree _ ⟨s, hs, hsa, rfl⟩⟩
      exact ⟨p, hp, hpa, (hfrom p hp).2⟩

/-- **First come, first served**: after any insertions the ranges of the map are disjoint and not
empty, and an address lies in one that belongs to the first description whose range holds it. -/
theorem insertFdes_first (fdes : List (Span F)) :
    Spans (endSpans (fdes.foldl insertFde ∅)) ∧ ∀ a v,
      Covers (endSpans (fdes.foldl insertFde ∅)) a v ↔
        (fdes.find? fun fde => fde.Contains a).map Span.val = some v := by
  induction fdes using reverseRecOn with
  | nil =>
    have hemp : endSpans (∅ : OrdMap ℕ (ℕ × F)) = [] := by simp [endSpans]
    simp [hemp, spans_nil, Covers]
  | append_singleton fdes fde ih =>
    obtain ⟨hspans, hcov⟩ := ih
    rw [foldl_append, foldl_cons, foldl_nil]
    obtain ⟨hspans', hcov'⟩ := @insertFde_spec _ _ fde hspans
    refine ⟨hspans', fun a v => ?_⟩
    rw [hcov', find?_append]
    simp only [hcov]
    cases hfind : fdes.find? fun fde => fde.Contains a with
    | some first => simp
    | none => by_cases hin : fde.Contains a <;> simp [hin, eq_comm]

/-! ## Entries -/

/-- `ReadBytes` of a number of `n` bytes, from a section in which some offsets are not readable. -/
def readNumber (mem : ℕ → Option ℕ) (offset : ℕ) : ℕ → Option ℕ
  | 0 => some 0
  | n + 1 => do
    let low ← mem offset
    let high ← readNumber mem (offset + 1) n
    some (low + 256 * high)

/-- The head of an entry, as `GetNextCieOrFde` reads it: the offset of the next entry, and the id
with the cursor behind it; `none` when the length cannot be read. -/
def entryHead (mem : ℕ → Option ℕ) (offset : ℕ) : Option (ℕ × Option (ℕ × ℕ)) := do
  let value32 ← readNumber mem offset 4
  let cur := offset + 4
  if value32 = 2 ^ 32 - 1 then
    let value64 ← readNumber mem cur 8
    let cur := cur + 8
    some ((cur + value64) % 2 ^ 64, (readNumber mem cur 8).map (·, cur + 8))
  else some ((cur + value32) % 2 ^ 64, (readNumber mem cur 4).map (·, cur + 4))

/-- What the decoder does with an entry: `FillInCie`, or `FillInFde` and `InsertFde`, or nothing for
an entry it knows. `none` is the return of `false`. -/
abbrev FillIn (σ : Type*) := σ → ℕ → ℕ → ℕ × ℕ → σ × Option ℕ

/-- A round of `FillFdes`, on the next offset and the rest of the decoder. A failure goes round again
with whatever offset there is. -/
def fillRound {σ : Type*} (mem : ℕ → Option ℕ) (entriesEnd : ℕ) (fillIn : FillIn σ) :
    ℕ × σ → (ℕ × σ) ⊕ σ
  | (offset, s) =>
    if offset < entriesEnd then
      match entryHead mem offset with
      | none => .inl (offset, s)
      | some (next, none) => .inl (next, s)
      | some (next, some id) =>
        match fillIn s offset next id with
        | (s, none) => .inl (next, s)
        | (s, some cur) => if next < cur then .inr s else .inl (next, s)
    else .inr s

/-- The walk over the entries from an offset ends, whatever is done with them. -/
def Ends (mem : ℕ → Option ℕ) (entriesEnd offset : ℕ) : Prop :=
  ∀ (σ : Type) (fillIn : FillIn σ) (s : σ),
    ∃ fuel r, loop (fillRound mem entriesEnd fillIn) fuel (offset, s) = some r

/-- The lengths of the entries lead from an offset to the end of the section. -/
inductive Leads (mem : ℕ → Option ℕ) (entriesEnd : ℕ) : ℕ → Prop
  | done {offset : ℕ} : entriesEnd ≤ offset → Leads mem entriesEnd offset
  | entry {offset next : ℕ} {id : Option (ℕ × ℕ)} : entryHead mem offset = some (next, id) →
      Leads mem entriesEnd next → Leads mem entriesEnd offset

end TraceHarbor.Backtrace
