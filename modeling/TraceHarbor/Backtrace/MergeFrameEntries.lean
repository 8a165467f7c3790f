import TraceHarbor.Lib.Spans

/-!
# Merging Unwind Sources

`MergeFrameEntries` merges two maps from code ranges to unwind instructions: the entries of `to` are
kept and those of `from` are cut around them. `from_start` and `from_end` hold what is left of the
current `from` entry; they are not initialised, so their first contents are a parameter. A piece of
`from` in front of a `to` entry is stored with the instructions of the `to` entry.
-/

namespace TraceHarbor.Backtrace

open Lib List

variable {ι : Type*}

/-! ## The function -/

/-- `QutInstructionsOfEntries`: start addresses to end addresses and instructions. -/
abbrev QutInstructionsOfEntries (ι : Type*) := OrdMap ℕ (ℕ × ι)

/-- The variables of the loop: the entries that are not erased yet, what is left of the current
`from` entry, and the result. -/
structure MergeState (ι : Type*) where
  tos : List (Span ι)
  froms : List (Span ι)
  fromStart : ℕ
  fromEnd : ℕ
  result : QutInstructionsOfEntries ι

namespace MergeState

/-- `(*result_frame_instructions)[start] = make_pair(stop, val)`. -/
def fill (s : MergeState ι) (span : Span ι) : MergeState ι :=
  { s with result := s.result.insert span.start (span.stop, span.val) }

/-- The current `from` entry is done. -/
def nextFrom (s : MergeState ι) (froms : List (Span ι)) : MergeState ι :=
  { s with fromStart := s.fromEnd, froms := froms }

/-- The step to the next `from` entry, which `from_start` equal to `from_end` stands for. -/
def enter (s : MergeState ι) (f : Span ι) : MergeState ι :=
  if s.fromStart = s.fromEnd then { s with fromStart := f.start, fromEnd := f.stop } else s

/-- A round with a current entry `t` of `to` and `f` of `from`. -/
def overlap (s : MergeState ι) (t : Span ι) (tos : List (Span ι)) (f : Span ι)
    (froms : List (Span ι)) : MergeState ι :=
  if s.fromEnd ≤ t.start then
    -- `from` ends below `to`; the instructions are those of `to`
    (s.fill ⟨s.fromStart, s.fromEnd, t.val⟩).nextFrom froms
  else if t.stop ≤ s.fromStart then { s.fill t with tos := tos }
  else
    let s := if s.fromStart < t.start then s.fill ⟨s.fromStart, t.start, t.val⟩ else s
    if s.fromEnd ≤ t.stop then s.nextFrom froms
    else
      { s.fill t with
        tos := tos
        fromStart := t.stop
        froms := if s.fromEnd = t.stop then froms else f :: froms }

def round (s : MergeState ι) : MergeState ι ⊕ QutInstructionsOfEntries ι :=
  match s.tos, s.froms with
  | [], [] => .inr s.result
  | t :: tos, [] => .inl { s.fill t with tos := tos }
  | tos, f :: froms =>
    let s := s.enter f
    if s.fromStart = s.fromEnd then .inr s.result
    else
      match tos with
      | [] => .inl ((s.fill ⟨s.fromStart, s.fromEnd, f.val⟩).nextFrom froms)
      | t :: tos => .inl (s.overlap t tos f froms)

end MergeState

/-- `MergeFrameEntries`; `fresh` is what `from_start` and `from_end` hold before they are assigned.
Every round erases an entry of one of the maps. -/
def mergeFrameEntries (fresh : ℕ × ℕ) (tos froms : QutInstructionsOfEntries ι) :
    Option (QutInstructionsOfEntries ι) :=
  if froms.isEmpty then some tos
  else if tos.isEmpty then some froms
  else
    loop MergeState.round (tos.size + froms.size + 1)
      ⟨spansOf tos, spansOf froms, fresh.1, fresh.2, ∅⟩

/-! ## What it should do -/

def WellFormed (m : QutInstructionsOfEntries ι) : Prop := Spans (spansOf m)

/-- The purpose of the merge: `to` where it has a range, `from` elsewhere. -/
structure MergesRight (tos froms result : QutInstructionsOfEntries ι) : Prop where
  wellFormed : WellFormed result
  covers : ∀ a i, Covers (spansOf result) a i ↔ Covers (spansOf tos) a i ∨
    (¬ ∃ j, Covers (spansOf tos) a j) ∧ Covers (spansOf froms) a i

/-! ## What it does -/

/-- What the merge of the remaining entries says about an address: outside of `to`, the instructions
of the next `to` entry above if there is one. -/
def Given (tos froms : List (Span ι)) (a : ℕ) (i : ι) : Prop :=
  Covers tos a i ∨ (¬ ∃ j, Covers tos a j) ∧ ∃ f ∈ froms, f.Contains a ∧
    ((tos.find? fun t => a < t.start).map Span.val).getD f.val = i

section Given

variable {t f : Span ι} {tos froms : List (Span ι)} {a : ℕ} {i : ι}

theorem not_covers_of_above (h : ∀ t ∈ tos, a < t.start) : ¬ ∃ j, Covers tos a j := by
  rintro ⟨j, t, ht, hta, -⟩
  have := h t ht
  have := hta.1
  omega

theorem given_nil_right : Given tos [] a i ↔ Covers tos a i := by
  simp [Given]

theorem given_nil_left : Given [] (f :: froms) a i ↔
    f.Contains a ∧ f.val = i ∨ Given [] froms a i := by
  simp [Given, Covers]

theorem given_cons_of_below (hto : Spans (t :: tos)) (h : ∀ f ∈ froms, t.stop ≤ f.start) :
    Given (t :: tos) froms a i ↔ t.Contains a ∧ t.val = i ∨ Given tos froms a i := by
  obtain ⟨hne, hbel, -⟩ := spans_cons.mp hto
  by_cases hta : t.Contains a
  · have hnot : ¬ ∃ f ∈ froms, f.Contains a ∧
        ((tos.find? fun t => a < t.start).map Span.val).getD f.val = i := by
      rintro ⟨f, hf, hfa, -⟩
      have := h f hf
      have := hfa.1
      have := hta.2
      omega
    have hcov : ∃ j, Covers (t :: tos) a j := ⟨t.val, t, mem_cons_self, hta, rfl⟩
    have hleft : Given (t :: tos) froms a i ↔ Covers (t :: tos) a i :=
      or_iff_left fun h => h.1 hcov
    have hright : Given tos froms a i ↔ Covers tos a i := or_iff_left fun h => hnot h.2
    rw [hleft, hright, covers_cons]
  · have hcov : ∀ j, Covers (t :: tos) a j ↔ Covers tos a j := by
      intro j
      rw [covers_cons]
      exact or_iff_right fun hj => hta hj.1
    simp only [Given, hcov, hta, false_and, false_or]
    refine or_congr_right (and_congr_right fun _ => exists_congr fun f => and_congr_right fun hf =>
      and_congr_right fun hfa => ?_)
    have hnot : ¬ a < t.start := by
      have := h f hf
      have := hfa.1
      omega
    rw [find?_cons_of_neg (by simpa using hnot)]

theorem given_cons_of_above (hto : Spans (t :: tos)) (h : f.stop ≤ t.start) :
    Given (t :: tos) (f :: froms) a i ↔ f.Contains a ∧ t.val = i ∨ Given (t :: tos) froms a i := by
  obtain ⟨hne, hbel, -⟩ := spans_cons.mp hto
  have hf : f.Contains a → (¬ ∃ j, Covers (t :: tos) a j) ∧
      (t :: tos).find? (fun t => a < t.start) = some t := by
    intro hfa
    have ha : a < t.start := lt_of_lt_of_le hfa.2 h
    refine ⟨not_covers_of_above fun s hs => ?_, find?_cons_of_pos (by simpa using ha)⟩
    rcases mem_cons.mp hs with rfl | hs
    · exact ha
    · have := hbel s hs
      omega
  simp only [Given, mem_cons, or_and_right, exists_or, exists_eq_left]
  constructor
  · rintro (hc | ⟨hc, ⟨hfa, hi⟩ | hrest⟩)
    · exact .inr (.inl hc)
    · rw [(hf hfa).2] at hi
      exact .inl ⟨hfa, hi⟩
    · exact .inr (.inr ⟨hc, hrest⟩)
  · rintro (⟨hfa, hi⟩ | hc | ⟨hc, hrest⟩)
    · refine .inr ⟨(hf hfa).1, .inl ⟨hfa, ?_⟩⟩
      rw [(hf hfa).2]
      exact hi
    · exact .inl hc
    · exact .inr ⟨hc, .inr hrest⟩

theorem given_cons_of_inside (h : t.start ≤ f.start ∧ f.stop ≤ t.stop) :
    Given (t :: tos) (f :: froms) a i ↔ Given (t :: tos) froms a i := by
  refine or_congr_right (and_congr_right fun hnone => ?_)
  have hf : ¬ f.Contains a := by
    intro hfa
    refine hnone ⟨t.val, t, mem_cons_self, ⟨?_, ?_⟩, rfl⟩
    · exact h.1.trans hfa.1
    · exact lt_of_lt_of_le hfa.2 h.2
  simp [hf]

theorem given_cut {p : ℕ} (h : f.start ≤ p ∧ p ≤ f.stop) :
    Given tos (f :: froms) a i ↔ Given tos (⟨f.start, p, f.val⟩ :: ⟨p, f.stop, f.val⟩ :: froms) a i := by
  refine or_congr_right (and_congr_right fun _ => ?_)
  have hf : f.Contains a ↔
      Span.Contains ⟨f.start, p, f.val⟩ a ∨ Span.Contains ⟨p, f.stop, f.val⟩ a := by
    simp only [Span.Contains]
    omega
  simp only [mem_cons, or_and_right, exists_or, exists_eq_left, hf, or_assoc]

end Given

/-! ### The walk -/

/-- The maps are split into the spans that the result holds and what is left of both. -/
structure Split (tos froms out tos' froms' : List (Span ι)) : Prop where
  spansTo : Spans (out ++ tos')
  spansFrom : Spans (out ++ froms')
  given : ∀ a i, Given tos froms a i ↔ Covers out a i ∨ Given tos' froms' a i

namespace Split

variable {tos froms out tos' froms' : List (Span ι)} {t f : Span ι}

theorem emit {tos'' froms'' : List (Span ι)} (h : Split tos froms out tos' froms') (x : Span ι)
    (hto : Spans (out ++ x :: tos'')) (hfrom : Spans (out ++ x :: froms''))
    (hgiv : ∀ a i, Given tos' froms' a i ↔ x.Contains a ∧ x.val = i ∨ Given tos'' froms'' a i) :
    Split tos froms (out ++ [x]) tos'' froms'' where
  spansTo := by rwa [append_cons] at hto
  spansFrom := by rwa [append_cons] at hfrom
  given a i := by
    rw [h.given, hgiv, covers_append, or_assoc]
    simp [Covers]

theorem emitTo (h : Split tos froms out (t :: tos') froms')
    (hbel : ∀ f ∈ froms', t.stop ≤ f.start) : Split tos froms (out ++ [t]) tos' froms' := by
  obtain ⟨-, hne, hout, -⟩ := spans_append_cons.mp h.spansTo
  exact h.emit t h.spansTo (spans_append_cons.mpr ⟨h.spansFrom, hne, hout, hbel⟩)
    fun a i => given_cons_of_below (spans_append.mp h.spansTo).2.1 hbel

theorem emitFrom (h : Split tos froms out [] (f :: froms')) :
    Split tos froms (out ++ [f]) [] froms' := by
  obtain ⟨-, hne, hout, -⟩ := spans_append_cons.mp h.spansFrom
  exact h.emit f (spans_append_cons.mpr ⟨h.spansTo, hne, hout, nofun⟩) h.spansFrom
    fun a i => given_nil_left

theorem emitBelow (h : Split tos froms out (t :: tos') (f :: froms')) (hbel : f.stop ≤ t.start) :
    Split tos froms (out ++ [⟨f.start, f.stop, t.val⟩]) (t :: tos') froms' := by
  obtain ⟨-, hto, -⟩ := spans_append.mp h.spansTo
  obtain ⟨hfrom, hne, hout, hrest⟩ := spans_append_cons.mp h.spansFrom
  obtain ⟨hnet, hrestt, -⟩ := spans_cons.mp hto
  refine h.emit ⟨f.start, f.stop, t.val⟩ (spans_append_cons.mpr ⟨h.spansTo, hne, hout, ?_⟩)
    (spans_append_cons.mpr ⟨hfrom, hne, hout, hrest⟩) fun a i => given_cons_of_above hto hbel
  exact forall_mem_cons.mpr ⟨hbel, fun u hu => hbel.trans (hnet.le.trans (hrestt u hu))⟩

theorem drop (h : Split tos froms out (t :: tos') (f :: froms'))
    (hins : t.start ≤ f.start ∧ f.stop ≤ t.stop) : Split tos froms out (t :: tos') froms' where
  spansTo := h.spansTo
  spansFrom := (spans_append_cons.mp h.spansFrom).1
  given a i := by rw [h.given, given_cons_of_inside hins]

theorem cut (h : Split tos froms out tos' (f :: froms')) {p : ℕ} (hp : f.start < p ∧ p < f.stop) :
    Split tos froms out tos' (⟨f.start, p, f.val⟩ :: ⟨p, f.stop, f.val⟩ :: froms') where
  spansTo := h.spansTo
  spansFrom := by
    obtain ⟨hfrom, -, hout, hrest⟩ := spans_append_cons.mp h.spansFrom
    have habove : Spans (out ++ ⟨p, f.stop, f.val⟩ :: froms') :=
      spans_append_cons.mpr ⟨hfrom, hp.2, fun s hs => (hout s hs).trans hp.1.le, hrest⟩
    exact spans_append_cons.mpr ⟨habove, hp.1, hout,
      forall_mem_cons.mpr ⟨le_rfl, fun u hu => hp.2.le.trans (hrest u hu)⟩⟩
  given a i := by rw [h.given, given_cut ⟨hp.1.le, hp.2.le⟩]

end Split

namespace MergeState

variable {tos froms out : List (Span ι)} {s : MergeState ι}

/-- What is left of `from`: the current entry from `from_start` on. -/
def pending (s : MergeState ι) : List (Span ι) :=
  match s.froms with
  | [] => []
  | f :: froms =>
    if s.fromStart = s.fromEnd then f :: froms else ⟨s.fromStart, s.fromEnd, f.val⟩ :: froms

/-- The invariant of the walk. -/
structure Walks (tos froms out : List (Span ι)) (s : MergeState ι) : Prop where
  result : s.result = ofSpans out
  split : Split tos froms out s.tos s.pending

theorem pending_of_eq (h : s.fromStart = s.fromEnd) : s.pending = s.froms := by
  unfold pending
  split
  · rename_i hnil
    rw [hnil]
  · rename_i hcons
    rw [if_pos h, hcons]

variable {f : Span ι} {froms' : List (Span ι)}

theorem pending_of_ne (h : s.fromStart ≠ s.fromEnd) (hfroms : s.froms = f :: froms') :
    s.pending = ⟨s.fromStart, s.fromEnd, f.val⟩ :: froms' := by
  rw [pending, hfroms]
  exact if_neg h

theorem result_fill (hresult : s.result = ofSpans out) (x : Span ι) :
    (s.fill x).result = ofSpans (out ++ [x]) := by
  rw [ofSpans_concat, ← hresult]
  rfl

/-- The part of a round that is left when the current entries overlap and the piece of `from` below
`to` is filled. -/
theorem walks_inside {t : Span ι} {tos' : List (Span ι)} {start : ℕ}
    (hresult : s.result = ofSpans out) (hstart : t.start ≤ start ∧ start < t.stop)
    (hsplit : Split tos froms out (t :: tos') (⟨start, s.fromEnd, f.val⟩ :: froms'))
    (hto : s.tos = t :: tos') :
    ∃ out', Walks tos froms out' (if s.fromEnd ≤ t.stop then s.nextFrom froms'
      else { s.fill t with
        tos := tos'
        fromStart := t.stop
        froms := if s.fromEnd = t.stop then froms' else f :: froms' }) := by
  by_cases hend : s.fromEnd ≤ t.stop
  · rw [if_pos hend]
    refine ⟨out, hresult, ?_⟩
    rw [pending_of_eq rfl, nextFrom, hto]
    exact hsplit.drop ⟨hstart.1, hend⟩
  · rw [if_neg hend, if_neg fun heq => hend heq.le]
    -- the part inside of `to` is dropped, the rest is above it
    have hcut := (hsplit.cut ⟨hstart.2, not_le.mp hend⟩).drop ⟨hstart.1, le_rfl⟩
    obtain ⟨-, hfrom, -⟩ := spans_append.mp hcut.spansFrom
    obtain ⟨hne, hrest, -⟩ := spans_cons.mp hfrom
    refine ⟨out ++ [t], result_fill hresult t, ?_⟩
    rw [pending_of_ne (ne_of_lt hne) rfl]
    refine hcut.emitTo fun u hu => ?_
    rcases mem_cons.mp hu with rfl | hu
    · exact le_rfl
    · exact hne.le.trans (hrest u hu)

/-- A round with current entries on both sides. -/
theorem walks_overlap {t : Span ι} {tos' : List (Span ι)} (hresult : s.result = ofSpans out)
    (hne : s.fromStart ≠ s.fromEnd) (hto : s.tos = t :: tos') (hfroms : s.froms = f :: froms')
    (hsplit : Split tos froms out (t :: tos') (⟨s.fromStart, s.fromEnd, f.val⟩ :: froms')) :
    ∃ out', Walks tos froms out' (s.overlap t tos' f froms') := by
  obtain ⟨-, hfrom, -⟩ := spans_append.mp hsplit.spansFrom
  obtain ⟨hlt, hrest, -⟩ := spans_cons.mp hfrom
  rw [overlap]
  by_cases hbel : s.fromEnd ≤ t.start
  · rw [if_pos hbel]
    refine ⟨_, result_fill hresult _, ?_⟩
    rw [pending_of_eq rfl]
    simp only [nextFrom, fill, hto]
    exact hsplit.emitBelow hbel
  rw [if_neg hbel]
  by_cases hab : t.stop ≤ s.fromStart
  · rw [if_pos hab]
    refine ⟨out ++ [t], result_fill hresult t, ?_⟩
    change Split tos froms (out ++ [t]) tos' s.pending
    rw [pending_of_ne hne hfroms]
    refine hsplit.emitTo fun u hu => ?_
    rcases mem_cons.mp hu with rfl | hu
    · exact hab
    · exact hab.trans (hlt.le.trans (hrest u hu))
  rw [if_neg hab]
  by_cases hstart : s.fromStart < t.start
  · simp only [if_pos hstart]
    -- the piece in front of `to`
    have hcut := (hsplit.cut ⟨hstart, not_le.mp hbel⟩).emitBelow le_rfl
    obtain ⟨-, hspans, -⟩ := spans_append.mp hsplit.spansTo
    exact walks_inside (s := s.fill ⟨s.fromStart, t.start, t.val⟩) (result_fill hresult _)
      ⟨le_rfl, (spans_cons.mp hspans).1⟩ hcut hto
  · simp only [if_neg hstart]
    exact walks_inside hresult ⟨not_lt.mp hstart, not_le.mp hab⟩ hsplit hto

def left (s : MergeState ι) : ℕ := s.tos.length + s.froms.length

theorem left_overlap {t : Span ι} {tos' : List (Span ι)} (hto : s.tos = t :: tos')
    (hfroms : s.froms = f :: froms') : (s.overlap t tos' f froms').left < s.left := by
  simp only [overlap]
  split_ifs <;> simp [left, nextFrom, fill, hto, hfroms]
  all_goals omega

theorem enter_keeps (s : MergeState ι) (f : Span ι) :
    (s.enter f).tos = s.tos ∧ (s.enter f).froms = s.froms ∧ (s.enter f).result = s.result := by
  rw [enter]
  split <;> exact ⟨rfl, rfl, rfl⟩

theorem pending_eq_enter (hfroms : s.froms = f :: froms') :
    s.pending = ⟨(s.enter f).fromStart, (s.enter f).fromEnd, f.val⟩ :: froms' := by
  by_cases h : s.fromStart = s.fromEnd
  · rw [pending_of_eq h, hfroms, enter, if_pos h]
  · rw [pending_of_ne h hfroms, enter, if_neg h]

theorem round_of_from (hfroms : s.froms = f :: froms')
    (hne : (s.enter f).fromStart ≠ (s.enter f).fromEnd) :
    s.round = match s.tos with
      | [] => .inl (((s.enter f).fill
          ⟨(s.enter f).fromStart, (s.enter f).fromEnd, f.val⟩).nextFrom froms')
      | t :: tos => .inl ((s.enter f).overlap t tos f froms') := by
  simp only [round, hfroms]
  cases s.tos <;> simp only [if_neg hne]

/-- **A round** of the walk erases an entry and keeps the invariant, or ends the walk. -/
theorem round_cases (h : Walks tos froms out s) :
    (∃ s' out', s.round = .inl s' ∧ s'.left < s.left ∧ Walks tos froms out' s') ∨
      s.round = .inr (ofSpans out) ∧ s.tos = [] ∧ s.pending = [] := by
  obtain ⟨hresult, hsplit⟩ := h
  cases hfroms : s.froms with
  | nil =>
    have hpend : s.pending = [] := by rw [pending, hfroms]
    rw [hpend] at hsplit
    cases hto : s.tos with
    | nil =>
      refine .inr ⟨?_, rfl, hpend⟩
      rw [round, hto, hfroms, hresult]
    | cons t tos' =>
      rw [hto] at hsplit
      refine .inl ⟨{ s.fill t with tos := tos' }, out ++ [t], ?_, ?_, result_fill hresult t, ?_⟩
      · rw [round, hto, hfroms]
      · simp [left, fill, hto]
      · change Split tos froms (out ++ [t]) tos' s.pending
        rw [hpend]
        exact hsplit.emitTo nofun
  | cons f froms' =>
    obtain ⟨hkeepTo, hkeepFrom, hkeepResult⟩ := s.enter_keeps f
    rw [pending_eq_enter hfroms] at hsplit
    obtain ⟨-, hspans, -⟩ := spans_append.mp hsplit.spansFrom
    have hne : (s.enter f).fromStart ≠ (s.enter f).fromEnd := ne_of_lt (spans_cons.mp hspans).1
    have hround := round_of_from hfroms hne
    have hleft : (s.enter f).left = s.left := by rw [left, left, hkeepTo, hkeepFrom]
    cases hto : s.tos with
    | nil =>
      rw [hto] at hround hsplit
      refine .inl ⟨_, _, hround, ?_, result_fill (hkeepResult.trans hresult) _, ?_⟩
      · simp [left, nextFrom, fill, hkeepTo, hfroms]
      · rw [pending_of_eq rfl]
        simp only [nextFrom, fill, hkeepTo, hto]
        exact hsplit.emitFrom
    | cons t tos' =>
      rw [hto] at hround hsplit
      obtain ⟨out', hwalks⟩ := walks_overlap (hkeepResult.trans hresult) hne (hkeepTo.trans hto)
        (hkeepFrom.trans hfroms) hsplit
      refine .inl ⟨_, out', hround, ?_, hwalks⟩
      rw [← hleft]
      exact left_overlap (hkeepTo.trans hto) (hkeepFrom.trans hfroms)

/-- **The walk** ends with the spans that the two maps give. -/
theorem loop_given (h : Walks tos froms out s) :
    ∃ out', loop round (s.left + 1) s = some (ofSpans out') ∧ Spans out' ∧
      ∀ a i, Covers out' a i ↔ Given tos froms a i := by
  have hround : ∀ n (s : MergeState ι), (∃ out, Walks tos froms out s) ∧ s.left = n →
      (∃ s', s.round = .inl s' ∧ ∃ n' < n, (∃ out, Walks tos froms out s') ∧ s'.left = n') ∨
      ∃ r, s.round = .inr r ∧ ∃ out', r = ofSpans out' ∧ Spans out' ∧
        ∀ a i, Covers out' a i ↔ Given tos froms a i := by
    rintro n s ⟨⟨out, hwalks⟩, rfl⟩
    rcases round_cases hwalks with ⟨s', out', hs', hlt, hwalks'⟩ | ⟨hs, hto, hpend⟩
    · exact .inl ⟨s', hs', _, hlt, ⟨out', hwalks'⟩, rfl⟩
    · refine .inr ⟨_, hs, out, rfl, (spans_append.mp hwalks.split.spansTo).1, fun a i => ?_⟩
      rw [hwalks.split.given, hto, hpend]
      simp [Given, Covers]
  obtain ⟨r, hr, out', rfl, hspans, hgiv⟩ := loop_of_variant hround ⟨⟨out, h⟩, rfl⟩
  exact ⟨out', hr, hspans, hgiv⟩

end MergeState

/-! ## The merged map -/

section Merge

variable {tos froms : QutInstructionsOfEntries ι}

theorem spansOf_eq_nil_iff {m : QutInstructionsOfEntries ι} :
    spansOf m = [] ↔ m.isEmpty = true := by
  rw [spansOf, List.map_eq_nil_iff, ← List.isEmpty_iff, Std.ExtTreeMap.isEmpty_toList]

/-- **The merged map** has disjoint ranges that say about every address what the walk gives, if the
variables of the loop are equal when it starts. -/
theorem mergeFrameEntries_given (hto : WellFormed tos) (hfrom : WellFormed froms) (fresh : ℕ) :
    ∃ result, mergeFrameEntries (fresh, fresh) tos froms = some result ∧ WellFormed result ∧
      ∀ a i, Covers (spansOf result) a i ↔ Given (spansOf tos) (spansOf froms) a i := by
  rw [mergeFrameEntries]
  by_cases hfroms : froms.isEmpty
  · rw [if_pos hfroms, spansOf_eq_nil_iff.mpr hfroms]
    exact ⟨tos, rfl, hto, fun a i => given_nil_right.symm⟩
  by_cases htos : tos.isEmpty
  · rw [if_neg hfroms, if_pos htos, spansOf_eq_nil_iff.mpr htos]
    refine ⟨froms, rfl, hfrom, fun a i => ?_⟩
    simp [Given, Covers]
  rw [if_neg hfroms, if_neg htos]
  have hsplit : Split (spansOf tos) (spansOf froms) [] (spansOf tos) (spansOf froms) :=
    ⟨hto, hfrom, fun a i => by simp [Covers]⟩
  have hwalks : MergeState.Walks (spansOf tos) (spansOf froms) []
      ⟨spansOf tos, spansOf froms, fresh, fresh, ∅⟩ :=
    ⟨rfl, by rwa [MergeState.pending_of_eq rfl]⟩
  obtain ⟨out, hloop, hspans, hgiv⟩ := MergeState.loop_given hwalks
  have hleft : (⟨spansOf tos, spansOf froms, fresh, fresh, ∅⟩ : MergeState ι).left =
      tos.size + froms.size := by
    simp [MergeState.left, spansOf]
  rw [hleft] at hloop
  refine ⟨_, hloop, ?_, fun a i => ?_⟩
  · refine spans_spansOf (fun s hs => hspans.nonempty s ((mem_spansOf_ofSpans hspans).mp hs)) ?_
    intro s hs t ht hst a hboth
    rw [mem_spansOf_ofSpans hspans] at hs ht
    exact hst (hspans.eq_of_contains hs ht hboth.1 hboth.2)
  · rw [covers_spansOf_ofSpans hspans, hgiv]

/-- The instructions of a `from` range agree with those of the next `to` range above, for every
address of it that is not in `to`. -/
def NextAgrees (tos froms : QutInstructionsOfEntries ι) : Prop :=
  ∀ a i, Covers (spansOf froms) a i → (¬ ∃ j, Covers (spansOf tos) a j) →
    ∀ t ∈ (spansOf tos).find? fun t => a < t.start, t.val = i

theorem given_iff_right (hagr : NextAgrees tos froms) (a : ℕ) (i : ι) :
    Given (spansOf tos) (spansOf froms) a i ↔ Covers (spansOf tos) a i ∨
      (¬ ∃ j, Covers (spansOf tos) a j) ∧ Covers (spansOf froms) a i := by
  refine or_congr_right (and_congr_right fun hnone => exists_congr fun f =>
    and_congr_right fun hf => and_congr_right fun hfa => ?_)
  have h := hagr a f.val ⟨f, hf, hfa, rfl⟩ hnone
  cases hfind : (spansOf tos).find? fun t => a < t.start with
  | none => rfl
  | some t => rw [Option.map_some, Option.getD_some, h t hfind]

/-- The merge is right exactly when what is taken from the wrong side agrees with the right one. -/
theorem right_iff_nextAgrees {result : QutInstructionsOfEntries ι} (hresult : WellFormed result)
    (hgiv : ∀ a i, Covers (spansOf result) a i ↔ Given (spansOf tos) (spansOf froms) a i) :
    MergesRight tos froms result ↔ NextAgrees tos froms := by
  constructor
  · rintro ⟨-, hright⟩ a i ⟨f, hf, hfa, rfl⟩ hnone t ht
    have hi : Covers (spansOf result) a f.val :=
      (hright a f.val).mpr (.inr ⟨hnone, f, hf, hfa, rfl⟩)
    have ht : Covers (spansOf result) a t.val := by
      refine (hgiv a t.val).mpr (.inr ⟨hnone, f, hf, hfa, ?_⟩)
      rw [Option.mem_def.mp ht, Option.map_some, Option.getD_some]
    exact hresult.covers_unique ht hi
  · exact fun hagr => ⟨hresult, fun a i => (hgiv a i).trans (given_iff_right hagr a i)⟩

/-! ### Variables that are not equal at the start -/

/-- The walk with a made-up current entry `[x, x + 1)` above all ranges. -/
inductive MadeUp (x : ℕ) (s : MergeState ι) : Prop
  | ahead (hstart : s.fromStart = x) (hend : s.fromEnd = x + 1) (hfroms : s.froms ≠ [])
      (hfrom : ∀ f ∈ s.froms, f.start < x) (hto : ∀ t ∈ s.tos, t.start < t.stop ∧ t.stop ≤ x)
  | filled (i : ι) (hend : s.fromStart = s.fromEnd) (hfrom : ∀ f ∈ s.froms, f.start < x)
      (hto : s.tos = []) (hresult : s.result[x]? = some (x + 1, i))

theorem madeUp_round {x : ℕ} {s : MergeState ι} (h : MadeUp x s) :
    (∃ s', s.round = .inl s' ∧ s'.left < s.left ∧ MadeUp x s') ∨
      ∃ r i, s.round = .inr r ∧ r[x]? = some (x + 1, i) := by
  cases h with
  | ahead hstart hend hfroms hfrom hto =>
    obtain ⟨f, froms', hcons⟩ := exists_cons_of_ne_nil hfroms
    have hent : s.enter f = s := by
      rw [MergeState.enter, if_neg (by omega)]
    have hround := MergeState.round_of_from hcons (by rw [hent]; omega)
    rw [hent] at hround
    cases htos : s.tos with
    | nil =>
      rw [htos] at hround
      refine .inl ⟨_, hround, ?_, .filled f.val rfl ?_ htos ?_⟩
      · simp [MergeState.left, MergeState.nextFrom, MergeState.fill, hcons]
      · exact fun g hg => hfrom g (hcons ▸ mem_cons_of_mem _ hg)
      · simp [MergeState.nextFrom, MergeState.fill, hstart, hend]
    | cons t tos' =>
      rw [htos] at hround hto
      obtain ⟨ht, hto'⟩ := forall_mem_cons.mp hto
      have hov : s.overlap t tos' f froms' = { s.fill t with tos := tos' } := by
        rw [MergeState.overlap, if_neg (by omega), if_pos (by omega)]
      refine .inl ⟨_, hround.trans (congrArg Sum.inl hov), ?_,
        .ahead hstart hend hfroms hfrom hto'⟩
      simp [MergeState.left, MergeState.fill, htos]
  | filled i hend hfrom hto hresult =>
    cases hfroms : s.froms with
    | nil =>
      refine .inr ⟨s.result, i, ?_, hresult⟩
      rw [MergeState.round, hto, hfroms]
    | cons f froms' =>
      rw [hfroms] at hfrom
      obtain ⟨hf, hfrom'⟩ := forall_mem_cons.mp hfrom
      have hent : s.enter f = { s with fromStart := f.start, fromEnd := f.stop } := if_pos hend
      by_cases hne : f.start = f.stop
      · refine .inr ⟨s.result, i, ?_, hresult⟩
        simp only [MergeState.round, hto, hfroms, hent, if_pos hne]
      · have hround := MergeState.round_of_from hfroms (by rw [hent]; exact hne)
        rw [hto, hent] at hround
        refine .inl ⟨_, hround, ?_, .filled i rfl hfrom' hto ?_⟩
        · simp [MergeState.left, MergeState.nextFrom, MergeState.fill, hfroms]
        · have hx : x ≠ f.start := by omega
          simpa [MergeState.nextFrom, MergeState.fill, OrdMap.get_insert, hx] using hresult

theorem mergeFrameEntries_madeUp (hto : WellFormed tos) (hfrom : WellFormed froms)
    (htos : ¬ tos.isEmpty) (hfroms : ¬ froms.isEmpty) {x : ℕ}
    (hx : ∀ s ∈ spansOf tos ++ spansOf froms, s.stop ≤ x) :
    ∃ result i, mergeFrameEntries (x, x + 1) tos froms = some result ∧
      result[x]? = some (x + 1, i) := by
  have hround : ∀ n (s : MergeState ι), MadeUp x s ∧ s.left = n →
      (∃ s', s.round = .inl s' ∧ ∃ n' < n, MadeUp x s' ∧ s'.left = n') ∨
      ∃ r, s.round = .inr r ∧ ∃ i, r[x]? = some (x + 1, i) := by
    rintro n s ⟨hs, rfl⟩
    rcases madeUp_round hs with ⟨s', hs', hlt, hmade⟩ | ⟨r, i, hr, hi⟩
    · exact .inl ⟨s', hs', _, hlt, hmade, rfl⟩
    · exact .inr ⟨r, hr, i, hi⟩
  have hmade : MadeUp x (⟨spansOf tos, spansOf froms, x, x + 1, ∅⟩ : MergeState ι) := by
    refine .ahead rfl rfl (mt spansOf_eq_nil_iff.mp hfroms) (fun f hf => ?_) fun t ht => ?_
    · exact lt_of_lt_of_le (hfrom.nonempty f hf) (hx f (mem_append_right _ hf))
    · exact ⟨hto.nonempty t ht, hx t (mem_append_left _ ht)⟩
  obtain ⟨result, hloop, i, hi⟩ := loop_of_variant hround ⟨hmade, rfl⟩
  refine ⟨result, i, ?_, hi⟩
  rw [mergeFrameEntries, if_neg hfroms, if_neg htos, ← hloop]
  simp [MergeState.left, spansOf]

/-- The merge of two maps is right whatever the variables hold only if one of the maps is empty. -/
theorem right_of_any_fresh_iff (hto : WellFormed tos) (hfrom : WellFormed froms) :
    (∀ fresh, ∃ result, mergeFrameEntries fresh tos froms = some result ∧
      MergesRight tos froms result) ↔ tos.isEmpty ∨ froms.isEmpty := by
  constructor
  · intro h
    by_contra hemp
    rw [not_or] at hemp
    -- an address above all ranges
    obtain ⟨x, hx⟩ : ∃ x, ∀ s ∈ spansOf tos ++ spansOf froms, s.stop ≤ x :=
      ⟨_, fun s hs => le_sum_of_mem (mem_map_of_mem (f := Span.stop) hs)⟩
    obtain ⟨result, hresult, hright⟩ := h (x, x + 1)
    obtain ⟨result', i, hres', hi⟩ := mergeFrameEntries_madeUp hto hfrom hemp.1 hemp.2 hx
    cases hresult.symm.trans hres'
    have hcov : Covers (spansOf result) x i :=
      ⟨⟨x, x + 1, i⟩, mem_spansOf.mpr hi, ⟨le_rfl, Nat.lt_succ_self x⟩, rfl⟩
    have hnot : ∀ l : List (Span ι), (∀ s ∈ l, s.stop ≤ x) → ¬ Covers l x i := by
      rintro l hl ⟨s, hs, hsx, -⟩
      have := hl s hs
      have := hsx.2
      omega
    rcases (hright.covers x i).mp hcov with hc | ⟨-, hc⟩
    · exact hnot _ (fun s hs => hx s (mem_append_left _ hs)) hc
    · exact hnot _ (fun s hs => hx s (mem_append_right _ hs)) hc
  · intro hemp fresh
    by_cases hfroms : froms.isEmpty
    · refine ⟨tos, by rw [mergeFrameEntries, if_pos hfroms], hto, fun a i => ?_⟩
      rw [spansOf_eq_nil_iff.mpr hfroms]
      simp [Covers]
    · have htos := hemp.resolve_right hfroms
      refine ⟨froms, by rw [mergeFrameEntries, if_neg hfroms, if_pos htos], hfrom, fun a i => ?_⟩
      rw [spansOf_eq_nil_iff.mpr htos]
      simp [Covers]

/-- **When the merge is right**: with variables that are equal when the loop starts, exactly if every
`from` range agrees with the next `to` range above it; with any contents of the variables, only if
one of the maps is empty. -/
theorem mergeFrameEntries_right_iff (tos froms : QutInstructionsOfEntries ι) (hto : WellFormed tos)
    (hfrom : WellFormed froms) :
    (∀ fresh, ∃ result, mergeFrameEntries (fresh, fresh) tos froms = some result ∧
      (MergesRight tos froms result ↔ NextAgrees tos froms)) ∧
    ((∀ fresh, ∃ result, mergeFrameEntries fresh tos froms = some result ∧
      MergesRight tos froms result) ↔ tos.isEmpty ∨ froms.isEmpty) := by
  refine ⟨fun fresh => ?_, right_of_any_fresh_iff hto hfrom⟩
  obtain ⟨result, hresult, hwell, hgiv⟩ := mergeFrameEntries_given hto hfrom fresh
  exact ⟨result, hresult, right_iff_nextAgrees hwell hgiv⟩

/-- A `from` range that starts inside of a `to` range and ends above it is cut rightly. -/
theorem mergeFrameEntries_right_tail :
    ∃ result : QutInstructionsOfEntries ℕ,
      mergeFrameEntries (0, 0) (ofSpans [⟨4, 8, 0⟩]) (ofSpans [⟨6, 12, 1⟩]) = some result ∧
      spansOf result = [⟨4, 8, 0⟩, ⟨8, 12, 1⟩] ∧
      MergesRight (ofSpans [⟨4, 8, 0⟩]) (ofSpans [⟨6, 12, 1⟩]) result := by
  have htos : spansOf (ofSpans [⟨4, 8, 0⟩]) = [(⟨4, 8, 0⟩ : Span ℕ)] := by decide +kernel
  have hfroms : spansOf (ofSpans [⟨6, 12, 1⟩]) = [(⟨6, 12, 1⟩ : Span ℕ)] := by decide +kernel
  obtain ⟨result, hresult, hiff⟩ := (mergeFrameEntries_right_iff
    (ofSpans [(⟨4, 8, 0⟩ : Span ℕ)]) (ofSpans [⟨6, 12, 1⟩])
    (by exact spans_cons.mpr ⟨by decide, nofun, spans_nil⟩)
    (by exact spans_cons.mpr ⟨by decide, nofun, spans_nil⟩)).1 0
  have hspans : (mergeFrameEntries (0, 0) (ofSpans [(⟨4, 8, 0⟩ : Span ℕ)])
      (ofSpans [⟨6, 12, 1⟩])).map spansOf = some [⟨4, 8, 0⟩, ⟨8, 12, 1⟩] := by decide +kernel
  rw [hresult] at hspans
  refine ⟨result, hresult, Option.some_inj.mp hspans, hiff.mpr ?_⟩
  rintro a i ⟨f, hf, hfa, -⟩ hnone t ht
  rw [hfroms, mem_singleton] at hf
  rw [htos] at hnone ht
  subst hf
  have hlow : 6 ≤ a := hfa.1
  have hnext : ¬ a < 4 := by omega
  simp [hnext] at ht

/-- A `from` range below a `to` range gets the instructions of the latter. -/
theorem mergeFrameEntries_swaps_instructions :
    ∃ result : QutInstructionsOfEntries ℕ,
      mergeFrameEntries (0, 0) (ofSpans [⟨10, 20, 0⟩]) (ofSpans [⟨0, 5, 1⟩]) = some result ∧
      WellFormed (ofSpans [(⟨10, 20, 0⟩ : Span ℕ)]) ∧ WellFormed (ofSpans [(⟨0, 5, 1⟩ : Span ℕ)]) ∧
      spansOf result = [⟨0, 5, 0⟩, ⟨10, 20, 0⟩] ∧
      ¬ MergesRight (ofSpans [⟨10, 20, 0⟩]) (ofSpans [⟨0, 5, 1⟩]) result := by
  have htos : spansOf (ofSpans [⟨10, 20, 0⟩]) = [(⟨10, 20, 0⟩ : Span ℕ)] := by decide +kernel
  have hfroms : spansOf (ofSpans [⟨0, 5, 1⟩]) = [(⟨0, 5, 1⟩ : Span ℕ)] := by decide +kernel
  have hspans : (mergeFrameEntries (0, 0) (ofSpans [(⟨10, 20, 0⟩ : Span ℕ)])
      (ofSpans [⟨0, 5, 1⟩])).map spansOf = some [⟨0, 5, 0⟩, ⟨10, 20, 0⟩] := by decide +kernel
  obtain ⟨result, hresult, hspansOf⟩ := Option.map_eq_some_iff.mp hspans
  refine ⟨result, hresult, ?_, ?_, hspansOf, fun hright => ?_⟩
  · exact spans_cons.mpr ⟨by decide, nofun, spans_nil⟩
  · exact spans_cons.mpr ⟨by decide, nofun, spans_nil⟩
  · have hcov := (hright.covers 3 1).mpr
    rw [hspansOf, htos, hfroms] at hcov
    simp [Covers, Span.Contains] at hcov

end Merge

end TraceHarbor.Backtrace
