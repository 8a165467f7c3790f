import TraceHarbor.Lib.Loop

/-!
# Linked Chains in Memory

A memory maps addresses to cells; a cell holds data and the address of the next cell, if any.
`Chain M p l` says that following the links from `p` passes exactly the cells listed in `l`.
`seek` is the loop that walks along a chain to the first cell with a property, or to the last cell.
-/

namespace TraceHarbor.Lib

open List Option Function

variable {α ε : Type*}

/-- A cell of a chain. -/
structure Cell (α ε : Type*) where
  next : Option α
  data : ε

/-- Following the links from `p` passes the cells of the list and then ends. -/
def Chain (M : α → Option (Cell α ε)) : Option α → List (α × ε) → Prop
  | p, [] => p = none
  | p, (a, e) :: rest => p = some a ∧ ∃ n, M a = some ⟨n, e⟩ ∧ Chain M n rest

namespace Chain

variable {M M' : α → Option (Cell α ε)} {p : Option α} {l : List (α × ε)}

/-- A memory has at most one chain from an address. -/
theorem unique {l' : List (α × ε)} (h : Chain M p l) (h' : Chain M p l') : l = l' := by
  induction l generalizing p l' with
  | nil =>
    obtain rfl := h
    cases l' with
    | nil => rfl
    | cons c l' => exact absurd h'.1 (by simp)
  | cons c l ih =>
    obtain ⟨a, e⟩ := c
    obtain ⟨rfl, n, hcell, hrest⟩ := h
    cases l' with
    | nil => exact absurd h' (by simp [Chain])
    | cons c' l' =>
      obtain ⟨ha, n', hcell', hrest'⟩ := h'
      cases ha
      cases hcell.symm.trans hcell'
      rw [ih hrest hrest']

theorem eq_nil (h : Chain M none l) : l = [] := h.unique rfl

theorem suffix {l₁ l₂ : List (α × ε)} (h : Chain M p (l₁ ++ l₂)) : ∃ q, Chain M q l₂ := by
  induction l₁ generalizing p with
  | nil => exact ⟨p, h⟩
  | cons c l₁ ih =>
    obtain ⟨-, n, -, hrest⟩ := h
    exact ih hrest

theorem cell_of_mem (h : Chain M p l) {a : α} {e : ε} (hmem : (a, e) ∈ l) :
    ∃ n, M a = some ⟨n, e⟩ := by
  obtain ⟨l₁, l₂, rfl⟩ := append_of_mem hmem
  obtain ⟨q, -, n, hcell, -⟩ := h.suffix
  exact ⟨n, hcell⟩

theorem exists_pred {c : α × ε} (h : Chain M p (c :: l)) {b : α} {f : ε} (hmem : (b, f) ∈ l) :
    ∃ a e, (a, e) ∈ c :: l ∧ M a = some ⟨some b, e⟩ := by
  induction l generalizing p c with
  | nil => cases hmem
  | cons d l ih =>
    obtain ⟨-, n, hcell, hrest⟩ := h
    rcases mem_cons.mp hmem with rfl | hmem
    · obtain rfl := hrest.1
      exact ⟨c.1, c.2, mem_cons_self .., hcell⟩
    · obtain ⟨a, e, hin, ha⟩ := ih hrest hmem
      exact ⟨a, e, mem_cons_of_mem _ hin, ha⟩

/-- An address that came up twice would lead to two chains of different lengths. -/
theorem nodup (h : Chain M p l) : (l.map Prod.fst).Nodup := by
  induction l generalizing p with
  | nil => exact nodup_nil
  | cons c l ih =>
    obtain ⟨-, n, hcell, hrest⟩ := h
    refine nodup_cons.mpr ⟨fun hmem => ?_, ih hrest⟩
    obtain ⟨⟨a', e'⟩, hc, rfl⟩ := mem_map.mp hmem
    obtain ⟨l₁, l₂, rfl⟩ := append_of_mem hc
    obtain ⟨q, hsuff⟩ := hrest.suffix
    obtain ⟨n', hcell', hrest'⟩ := hsuff.2
    cases hcell.symm.trans hcell'
    have hlen := congrArg length (hrest.unique hrest')
    simp at hlen
    omega

theorem frame (h : Chain M p l) (hsame : ∀ a ∈ l.map Prod.fst, M' a = M a) : Chain M' p l := by
  induction l generalizing p with
  | nil => exact h
  | cons c l ih =>
    obtain ⟨a, e⟩ := c
    obtain ⟨hp, n, hcell, hrest⟩ := h
    refine ⟨hp, n, ?_, ih hrest fun b hb => hsame b (mem_cons_of_mem _ hb)⟩
    rw [hsame a (mem_cons_self ..), hcell]

/-- The part of a chain from a cell on may be exchanged, if the cells before are left alone. -/
theorem replace {l₁ l₂ l₂' : List (α × ε)} {a : α} {e e' : ε}
    (h : Chain M p (l₁ ++ (a, e) :: l₂)) (hsame : ∀ b ∈ l₁.map Prod.fst, M' b = M b)
    (htail : Chain M' (some a) ((a, e') :: l₂')) : Chain M' p (l₁ ++ (a, e') :: l₂') := by
  induction l₁ generalizing p with
  | nil =>
    obtain ⟨rfl, -⟩ := h
    exact htail
  | cons c l₁ ih =>
    obtain ⟨b, f⟩ := c
    obtain ⟨hp, n, hcell, hrest⟩ := h
    refine ⟨hp, n, ?_, ih hrest fun b' hb => hsame b' (mem_cons_of_mem _ hb)⟩
    rw [hsame b (mem_cons_self ..), hcell]

/-- The addresses before and behind a cell are others. -/
theorem ne_of_mem {l₁ l₂ : List (α × ε)} {a : α} {e : ε} (h : Chain M p (l₁ ++ (a, e) :: l₂))
    {b : α} (hb : b ∈ l₁.map Prod.fst ∨ b ∈ l₂.map Prod.fst) : b ≠ a := by
  have hnd := h.nodup
  rw [map_append, map_cons, nodup_middle, nodup_cons, mem_append] at hnd
  rintro rfl
  exact hnd.1 hb

variable [DecidableEq α]

theorem setData {l₁ l₂ : List (α × ε)} {a : α} {e e' : ε} {n : Option α}
    (h : Chain M p (l₁ ++ (a, e) :: l₂)) (hcell : M a = some ⟨n, e⟩) :
    Chain (update M a (some ⟨n, e'⟩)) p (l₁ ++ (a, e') :: l₂) := by
  refine h.replace (fun b hb => update_of_ne (h.ne_of_mem (.inl hb)) ..) ?_
  refine ⟨rfl, n, update_self .., ?_⟩
  obtain ⟨q, -, n', hcell', hrest⟩ := h.suffix
  cases hcell.symm.trans hcell'
  exact hrest.frame fun b hb => update_of_ne (h.ne_of_mem (.inr hb)) ..

theorem snoc {l₁ : List (α × ε)} {a b : α} {e e' : ε} (h : Chain M p (l₁ ++ [(a, e)]))
    (hb : b ∉ (l₁ ++ [(a, e)]).map Prod.fst) :
    Chain (update (update M a (some ⟨some b, e⟩)) b (some ⟨none, e'⟩)) p
      (l₁ ++ [(a, e), (b, e')]) := by
  rw [map_append, mem_append, not_or] at hb
  have hab : a ≠ b := fun hab => hb.2 (by simp [hab])
  refine h.replace (fun c hc => ?_) ?_
  · have hcb : c ≠ b := fun hcb => hb.1 (hcb ▸ hc)
    rw [update_of_ne hcb, update_of_ne (h.ne_of_mem (.inl hc))]
  · refine ⟨rfl, some b, ?_, rfl, none, update_self .., rfl⟩
    rw [update_of_ne hab, update_self]

/-- A cell taken out: the one before is linked to the one behind. -/
theorem unlink {l₁ l₂ : List (α × ε)} {a b : α} {e f : ε} {n : Option α}
    (h : Chain M p (l₁ ++ (a, e) :: (b, f) :: l₂)) (hcell : M b = some ⟨n, f⟩) :
    Chain (update (update M a (some ⟨n, e⟩)) b none) p (l₁ ++ (a, e) :: l₂) := by
  have h' : Chain M p ((l₁ ++ [(a, e)]) ++ (b, f) :: l₂) := by simpa using h
  have hab : a ≠ b := h'.ne_of_mem (.inl (by simp))
  refine h.replace (fun c hc => ?_) ?_
  · have hcb : c ≠ b := h'.ne_of_mem (.inl (by simp [mem_map.mp hc]))
    rw [update_of_ne hcb, update_of_ne (h.ne_of_mem (.inl hc))]
  · refine ⟨rfl, n, by rw [update_of_ne hab, update_self], ?_⟩
    obtain ⟨q, -, n', hcell', hrest⟩ := h'.suffix
    cases hcell.symm.trans hcell'
    refine hrest.frame fun c hc => ?_
    rw [update_of_ne (h'.ne_of_mem (.inr hc)),
      update_of_ne (h.ne_of_mem (.inr (mem_cons_of_mem _ hc)))]

end Chain

/-! ## Walking along a chain -/

/-- One round of a walk: stop at a cell with the property, or at the last cell. -/
def seekStep (M : α → Option (Cell α ε)) (stop : Cell α ε → Bool) (a : α) :
    α ⊕ Option (Bool × α) :=
  match M a with
  | none => .inr none
  | some cell =>
    if stop cell then .inr (some (true, a))
    else
      match cell.next with
      | none => .inr (some (false, a))
      | some b => .inl b

/-- A walk of at most `fuel` rounds: whether a cell with the property was found, and where the walk
ended. -/
def seek (M : α → Option (Cell α ε)) (stop : Cell α ε → Bool) (fuel : ℕ) (a : α) :
    Option (Bool × α) :=
  (loop (seekStep M stop) fuel a).join

/-- **A walk along a chain** ends at the first cell with the property or, if there is none, at the
last cell. -/
theorem seek_of_chain {M : α → Option (Cell α ε)} (stop : Cell α ε → Bool) {a : α}
    {l : List (α × ε)} (h : Chain M (some a) l) {fuel : ℕ} (hfuel : l.length ≤ fuel) :
    (∃ l₁ b e n l₂, l = l₁ ++ (b, e) :: l₂ ∧ M b = some ⟨n, e⟩ ∧ stop ⟨n, e⟩ = true ∧
      seek M stop fuel a = some (true, b)) ∨
    (∃ l₁ b e, l = l₁ ++ [(b, e)] ∧ M b = some ⟨none, e⟩ ∧ seek M stop fuel a = some (false, b) ∧
      ∀ c f, (c, f) ∈ l → ∀ n, M c = some ⟨n, f⟩ → stop ⟨n, f⟩ = false) := by
  induction l generalizing a fuel with
  | nil => exact absurd h (by simp [Chain])
  | cons c l ih =>
    obtain ⟨a', e⟩ := c
    obtain ⟨ha, n, hcell, hrest⟩ := h
    cases ha
    obtain ⟨fuel, rfl⟩ : ∃ f, fuel = f + 1 := ⟨fuel - 1, by simp at hfuel; omega⟩
    cases hstop : stop ⟨n, e⟩ with
    | true =>
      have hstep : seekStep M stop a = .inr (some (true, a)) := by simp [seekStep, hcell, hstop]
      exact .inl ⟨[], a, e, n, l, rfl, hcell, hstop, by rw [seek, loop_succ_of_inr _ hstep]; rfl⟩
    | false =>
      cases n with
      | none =>
        have hstep : seekStep M stop a = .inr (some (false, a)) := by
          simp [seekStep, hcell, hstop]
        obtain rfl := hrest.eq_nil
        refine .inr ⟨[], a, e, rfl, hcell, by rw [seek, loop_succ_of_inr _ hstep]; rfl, ?_⟩
        intro c f hmem n hc
        cases mem_singleton.mp hmem
        rw [hcell] at hc
        rw [← some.inj hc, hstop]
      | some b =>
        have hstep : seekStep M stop a = .inl b := by simp [seekStep, hcell, hstop]
        have hseek : seek M stop (fuel + 1) a = seek M stop fuel b := by
          rw [seek, loop_succ_of_inl _ hstep, seek]
        rw [hseek]
        rcases ih hrest (Nat.le_of_succ_le_succ hfuel) with
          ⟨l₁, b', e', n', l₂, rfl, hb, hs, hfound⟩ | ⟨l₁, b', e', rfl, hb, hfound, hnone⟩
        · exact .inl ⟨(a, e) :: l₁, b', e', n', l₂, rfl, hb, hs, hfound⟩
        · refine .inr ⟨(a, e) :: l₁, b', e', rfl, hb, hfound, fun c f hmem n hc => ?_⟩
          rcases mem_cons.mp hmem with heq | hmem
          · cases heq
            rw [hcell] at hc
            rw [← some.inj hc, hstop]
          · exact hnone c f hmem n hc

end TraceHarbor.Lib
