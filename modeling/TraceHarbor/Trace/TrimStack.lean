import TraceHarbor.Trace.MethodStack

/-!
# Trimming a Method Stack

`trimStack` drops items in rounds that get stricter, each round from the end of the list, and stops as
soon as the target is reached. With the filter of `EvilMethodTracer` every item dropped is the least of
those that are left: the one with the shortest duration in steps of `TIME_UPDATE_CYCLE_MS`, and of
several such the last.
-/

namespace TraceHarbor.Trace

open List

/-- `IStructuredDataFilter` -/
structure StructuredDataFilter where
  isFilter (during : Int) (filterCount : ℕ) : Bool
  getFilterMaxCount : ℕ
  fallback (stack : List MethodItem) (size : ℕ) : List MethodItem

/-- The inner loop of `trimStack`, on the items with the last one first: the items that are left,
and whether the target was reached. -/
def trimRound (isFilter : Int → Bool) (targetCount : ℕ) :
    ℕ → List MethodItem → List MethodItem × Bool
  | _, [] => ([], false)
  | curStackSize, item :: earlier =>
    if isFilter item.durTime then
      if curStackSize - 1 ≤ targetCount then (earlier, true)
      else trimRound isFilter targetCount (curStackSize - 1) earlier
    else
      let r := trimRound isFilter targetCount curStackSize earlier
      (item :: r.1, r.2)

/-- The outer loop of `trimStack`, with the number of rounds that are left. -/
def trimLoop (filter : StructuredDataFilter) (targetCount : ℕ) :
    ℕ → ℕ → List MethodItem → List MethodItem × Bool
  | 0, _, stack => (stack, false)
  | rounds + 1, filterCount, stack =>
    if targetCount < stack.length then
      let r := trimRound (filter.isFilter · filterCount) targetCount stack.length stack.reverse
      if r.2 then (r.1.reverse, true)
      else trimLoop filter targetCount rounds (filterCount + 1) r.1.reverse
    else (stack, false)

/-- `TraceDataUtils.trimStack`; the first round is made whatever the maximum is. -/
def trimStack (stack : List MethodItem) (targetCount : Int) (filter : StructuredDataFilter) :
    List MethodItem :=
  if 0 > targetCount then []
  else
    let r := trimLoop filter targetCount.toNat (max 1 filter.getFilterMaxCount) 1 stack
    if !r.2 && targetCount.toNat < r.1.length then filter.fallback r.1 r.1.length else r.1

/-- The filter of `EvilMethodTracer.analyse`, with its target. -/
def evilMethodFilter (target : ℕ) : StructuredDataFilter where
  isFilter during filterCount := during < filterCount * 5
  getFilterMaxCount := 60
  fallback stack size := stack.take (min size target)

/-! ## The greatest items -/

/-- The duration in steps of 5 ms, as far as the filter tells them apart. -/
def grade (item : MethodItem) : Int := min (item.durTime / 5) 60

/-- The order of items with their positions: the longer one first, then the earlier one. -/
def Better (a b : MethodItem × ℕ) : Prop :=
  grade b.1 < grade a.1 ∨ grade a.1 = grade b.1 ∧ a.2 < b.2

/-- Some items in their order, each better than all the others. -/
structure Greatest (all kept : List (MethodItem × ℕ)) : Prop where
  sublist : kept.Sublist all
  better : ∀ a ∈ kept, ∀ b ∈ all, b ∉ kept → Better a b

namespace Greatest

variable {all kept before after : List (MethodItem × ℕ)} {x : MethodItem × ℕ}

theorem refl (all : List (MethodItem × ℕ)) : Greatest all all :=
  ⟨.refl _, fun _ _ _ hb hnot => absurd hb hnot⟩

theorem erase (h : Greatest all (before ++ x :: after)) (hx : ∀ a ∈ before ++ after, Better a x) :
    Greatest all (before ++ after) := by
  refine ⟨.trans (List.Sublist.append_left (sublist_cons_self ..) _) h.sublist, ?_⟩
  intro a ha b hb hnot
  by_cases hbx : b = x
  · exact hbx ▸ hx a ha
  · refine h.better a ?_ b hb ?_
    · simp only [mem_append, mem_cons] at ha ⊢
      tauto
    · simp only [mem_append, mem_cons] at hnot ⊢
      tauto

theorem take (h : Greatest all kept) (hpos : kept.Pairwise (·.2 < ·.2)) {g : Int}
    (hg : ∀ a ∈ kept, grade a.1 = g) (n : ℕ) : Greatest all (kept.take n) := by
  refine ⟨(take_sublist n kept).trans h.sublist, fun a ha b hb hnot => ?_⟩
  have hkept := mem_of_mem_take ha
  by_cases hbk : b ∈ kept
  · have hdrop : b ∈ kept.drop n := by
      rw [← take_append_drop n kept, mem_append] at hbk
      exact hbk.resolve_left hnot
    rw [← take_append_drop n kept, pairwise_append] at hpos
    exact .inr ⟨(hg a hkept).trans (hg b hbk).symm, hpos.2.2 a ha b hdrop⟩
  · exact h.better a hkept b hb hbk

end Greatest

/-! ## Rounds -/

theorem grade_of_filtered {item : MethodItem} {k : ℕ}
    (hfilt : item.durTime < ((k + 1 : ℕ) : Int) * 5) : grade item ≤ k := by
  unfold grade
  omega

theorem grade_of_not_filtered {item : MethodItem} {k : ℕ} (hk : k < 60)
    (hfilt : ¬ item.durTime < ((k + 1 : ℕ) : Int) * 5) : k + 1 ≤ grade item := by
  unfold grade
  omega

variable {all : List (MethodItem × ℕ)} {target k : ℕ}

/-- **One round** over the items `todo`, the last one first, with the items `done` behind them. -/
theorem trimRound_greatest (hpos : all.Pairwise (·.2 < ·.2)) (hk : k < 60)
    {todo done : List (MethodItem × ℕ)} (h : Greatest all (todo.reverse ++ done))
    (htodo : ∀ a ∈ todo, k ≤ grade a.1) (hdone : ∀ a ∈ done, k + 1 ≤ grade a.1)
    (hsize : target < todo.length + done.length) :
    ∃ left : List (MethodItem × ℕ),
      (trimRound ((evilMethodFilter target).isFilter · (k + 1)) target (todo.length + done.length)
        (todo.map Prod.fst)).1 = left.map Prod.fst ∧ Greatest all (left.reverse ++ done) ∧
      if (trimRound ((evilMethodFilter target).isFilter · (k + 1)) target
          (todo.length + done.length) (todo.map Prod.fst)).2
      then left.length + done.length = target
      else (∀ a ∈ left, k + 1 ≤ grade a.1) ∧ target < left.length + done.length := by
  induction todo generalizing done with
  | nil => exact ⟨[], rfl, h, (nofun), hsize⟩
  | cons x todo ih =>
    obtain ⟨hx, htodo⟩ := forall_mem_cons.mp htodo
    have hlist : (x :: todo).reverse ++ done = todo.reverse ++ x :: done := by simp
    rw [hlist] at h
    rw [map_cons, trimRound]
    by_cases hfilt : x.1.durTime < ((k + 1 : ℕ) : Int) * 5
    · -- the item is dropped, and it is the least that is left
      have hleast : ∀ a ∈ todo.reverse ++ done, Better a x := by
        have hx' := grade_of_filtered hfilt
        intro a ha
        rcases mem_append.mp ha with ha | ha
        · have hbef := (pairwise_append.mp (hpos.sublist h.sublist)).2.2 a ha x
            (mem_cons_self ..)
          have hgrade := htodo a (mem_reverse.mp ha)
          rcases hgrade.lt_or_eq with hlt | heq
          · exact .inl (by omega)
          · exact .inr ⟨by omega, hbef⟩
        · have hgrade := hdone a ha
          exact .inl (by omega)
      have hrest := h.erase hleast
      rw [if_pos (by simpa [evilMethodFilter] using hfilt), length_cons,
        show todo.length + 1 + done.length - 1 = todo.length + done.length by omega]
      by_cases hreac : todo.length + done.length ≤ target
      · rw [if_pos hreac]
        rw [length_cons] at hsize
        exact ⟨todo, rfl, hrest, by simp; omega⟩
      · rw [if_neg hreac]
        exact ih hrest htodo hdone (by omega)
    · have hkeep := @ih (x :: done) h htodo
        (forall_mem_cons.mpr ⟨grade_of_not_filtered hk hfilt, hdone⟩)
        (by simp only [length_cons] at hsize ⊢; omega)
      rw [if_neg (by simpa [evilMethodFilter] using hfilt), length_cons,
        show todo.length + 1 + done.length = todo.length + (x :: done).length by
          rw [length_cons]; omega]
      obtain ⟨left, hleft, hgt, hend⟩ := hkeep
      dsimp only
      refine ⟨x :: left, by rw [hleft]; rfl, by simpa using hgt, ?_⟩
      simp only [length_cons] at hend ⊢
      split_ifs at hend ⊢
      · omega
      · exact ⟨forall_mem_cons.mpr ⟨grade_of_not_filtered hk hfilt, hend.1⟩, by omega⟩

/-- **All rounds** from the round after `k` on. -/
theorem trimLoop_greatest (hpos : all.Pairwise (·.2 < ·.2)) {rounds : ℕ} (hroun : k + rounds = 60)
    {left : List (MethodItem × ℕ)} (h : Greatest all left) (hgrade : ∀ a ∈ left, k ≤ grade a.1) :
    ∃ kept : List (MethodItem × ℕ),
      (trimLoop (evilMethodFilter target) target rounds (k + 1) (left.map Prod.fst)).1 =
        kept.map Prod.fst ∧ Greatest all kept ∧
      (kept.length = min left.length target ∨ target < kept.length ∧
        (trimLoop (evilMethodFilter target) target rounds (k + 1) (left.map Prod.fst)).2 = false ∧
        target < left.length ∧ ∀ a ∈ kept, grade a.1 = 60) := by
  induction rounds generalizing k left with
  | zero =>
    refine ⟨left, rfl, h, ?_⟩
    rcases Nat.lt_or_ge target left.length with hlt | hge
    · refine .inr ⟨hlt, rfl, hlt, fun a ha => ?_⟩
      have hle := hgrade a ha
      have hmax : grade a.1 ≤ 60 := min_le_right ..
      omega
    · exact .inl (by omega)
  | succ rounds ih =>
    rw [trimLoop, length_map]
    split_ifs with hlt
    · obtain ⟨rest, hrest, hgt, hend⟩ := @trimRound_greatest all target k hpos
        (by omega) left.reverse [] (by simpa using h)
        (fun a ha => hgrade a (mem_reverse.mp ha)) (nofun)
        (by simpa using hlt)
      simp only [length_nil, Nat.add_zero, length_reverse, map_reverse,
        append_nil] at hrest hgt hend
      dsimp only
      rw [hrest]
      split_ifs at hend ⊢
      · refine ⟨rest.reverse, by rw [map_reverse], hgt, .inl ?_⟩
        rw [length_reverse]
        omega
      · rw [← map_reverse]
        obtain ⟨kept, hkept, hgreat, hlen⟩ := ih (k := k + 1) (by omega) hgt
          fun a ha => by exact_mod_cast hend.1 a (mem_reverse.mp ha)
        rw [length_reverse] at hlen
        refine ⟨kept, hkept, hgreat, hlen.imp (fun hlen => ?_) fun ⟨hmore, hflag, _, heq⟩ =>
          ⟨hmore, hflag, hlt, heq⟩⟩
        omega
    · exact ⟨left, rfl, h, .inl (by omega)⟩

/-- **The longest items are kept**: exactly as many as the target asks for, in their order, and
each of them is better than every item that was dropped. -/
theorem trimStack_keeps_greatest (stack : List MethodItem) (target : Int) (htarget : 0 ≤ target)
    (hdur : ∀ item ∈ stack, 0 ≤ item.durTime) :
    ∃ kept : List (MethodItem × ℕ),
      trimStack stack target (evilMethodFilter target.toNat) = kept.map Prod.fst ∧
      kept.Sublist stack.zipIdx ∧ kept.length = min stack.length target.toNat ∧
      ∀ a ∈ kept, ∀ b ∈ stack.zipIdx, b ∉ kept → Better a b := by
  have hpos : stack.zipIdx.Pairwise (·.2 < ·.2) := by
    rw [← pairwise_map, zipIdx_map_snd]
    exact pairwise_lt_range'
  have hgrade : ∀ a ∈ stack.zipIdx, ((0 : ℕ) : Int) ≤ grade a.1 := by
    intro a ha
    have hle := hdur a.1 (fst_mem_of_mem_zipIdx ha)
    unfold grade
    omega
  obtain ⟨kept, hkept, h, hlen⟩ := @trimLoop_greatest _ target.toNat 0 hpos 60
    (Nat.zero_add 60) _ (.refl _) hgrade
  rw [zipIdx_map_fst, length_zipIdx] at *
  rw [trimStack, if_neg (by omega)]
  simp only [evilMethodFilter, show max 1 60 = 60 from rfl] at hkept hlen ⊢
  rw [hkept, length_map]
  rcases hlen with hlen | ⟨hlt, hflag, hmore, heq⟩
  · rw [if_neg (by simp; omega)]
    exact ⟨kept, rfl, h.sublist, hlen, h.better⟩
  · rw [if_pos (by simp [hflag, hlt]), min_eq_right hlt.le]
    have htake := h.take (hpos.sublist h.sublist) heq target.toNat
    refine ⟨kept.take target.toNat, by rw [map_take], htake.sublist, ?_, htake.better⟩
    rw [length_take]
    omega

theorem trimStack_keeps_greatest_pair :
    ∃ kept : List (MethodItem × ℕ),
      trimStack [⟨1, 3, 0, 1⟩, ⟨2, 9, 0, 1⟩] 1 (evilMethodFilter 1) = kept.map Prod.fst ∧
      kept.Sublist [(⟨1, 3, 0, 1⟩, 0), (⟨2, 9, 0, 1⟩, 1)] ∧ kept.length = 1 ∧
      ∀ a ∈ kept, ∀ b ∈ [(⟨1, 3, 0, 1⟩, 0), (⟨2, 9, 0, 1⟩, 1)], b ∉ kept → Better a b :=
  trimStack_keeps_greatest [⟨1, 3, 0, 1⟩, ⟨2, 9, 0, 1⟩] 1 (by decide) (by decide)

end TraceHarbor.Trace
