import TraceHarbor.Hprof.ClassDump

/-!
# Exclude Matchers and Superclass Walks

Flattening resolves the names of a matcher to the first string and the first class with that name, and
the matchers that hit a class are those for any class and for a class on the recorded superclass chain.
The walk up the chain ends unless it runs into a cycle that misses the class it looks for (`WalkEnds`).
-/

namespace TraceHarbor.Hprof

open TraceHarbor.Lib Relation List Option

/-! ## Walking up a Superclass Chain -/

section Chains

variable {α : Type*} {r s : α → α → Prop}

/-- The walk from `a` meets `b` or comes to an end. -/
def WalkEnds (r : α → α → Prop) (a b : α) : Prop :=
  ∃ x, ReflTransGen r a x ∧ (x = b ∨ ∀ y, ¬ r x y)

theorem WalkEnds.of_sub {a b : α} (hsub : ∀ x y, r x y → s x y)
    (hfun : ∀ x y z, s x y → s x z → y = z) (h : WalkEnds s a b) : WalkEnds r a b := by
  obtain ⟨x, hax, hx⟩ := h
  induction hax using ReflTransGen.head_induction_on with
  | refl => exact ⟨x, .refl, hx.imp id fun hend y hy => hend y (hsub x y hy)⟩
  | @head a c hstep _ ih =>
    by_cases hlink : r a c
    · obtain ⟨x', hcx, hx'⟩ := ih
      exact ⟨x', .head hlink hcx, hx'⟩
    · refine ⟨a, .refl, .inr fun y hy => hlink ?_⟩
      rwa [hfun a c y hstep (hsub a y hy)]

end Chains

/-- `b` is recorded as the superclass of `a`. -/
def Heap.SuperStep (h : Heap) (a b : ObjectId) : Prop := h.getSuperClass a = some b

variable {h : Heap} {a b : ObjectId}

theorem childClassStep_of_super {c : ObjectId} (hab : a ≠ b) (hsup : h.getSuperClass a = some c) :
    h.childClassStep b a = .inl c := by
  rw [Heap.childClassStep, if_neg hab, hsup]

theorem childClassStep_of_no_super (hab : a ≠ b) (hsup : h.getSuperClass a = none) :
    h.childClassStep b a = .inr false := by
  rw [Heap.childClassStep, if_neg hab, hsup]

/-- An answer of `ChildClassOf` is right, and the walk ended. -/
theorem childClassOf_sound {fuel : ℕ} {answer : Bool} (hrun : h.childClassOf fuel a b = some
      answer) :
    (answer = true ↔ ReflTransGen h.SuperStep a b) ∧ WalkEnds h.SuperStep a b := by
  unfold Heap.childClassOf at hrun
  induction fuel generalizing a with
  | zero => cases hrun
  | succ fuel ih =>
    by_cases hab : a = b
    · have hstep : h.childClassStep b a = .inr true := if_pos hab
      rw [loop_succ_of_inr fuel hstep] at hrun
      cases hrun
      subst hab
      exact ⟨⟨fun _ => .refl, fun _ => rfl⟩, a, .refl, .inl rfl⟩
    · cases hsup : h.getSuperClass a with
      | some c =>
        rw [loop_succ_of_inl fuel (childClassStep_of_super hab hsup)] at hrun
        obtain ⟨hiff, x, hx, hend⟩ := ih hrun
        refine ⟨hiff.trans ⟨fun hcb => .head hsup hcb, fun hab' => ?_⟩, x, .head hsup hx, hend⟩
        rcases ReflTransGen.cases_head hab' with heq | ⟨d, had, hdb⟩
        · exact absurd heq hab
        · have hd : c = d := some.inj (hsup.symm.trans had)
          rwa [hd]
      | none =>
        rw [loop_succ_of_inr fuel (childClassStep_of_no_super hab hsup)] at hrun
        cases hrun
        have hend : ∀ y, ¬ h.SuperStep a y := fun y hy => by
          rw [Heap.SuperStep, hsup] at hy
          cases hy
        refine ⟨⟨fun hfalse => (Bool.false_ne_true hfalse).elim, fun hab' => ?_⟩,
          a, .refl, .inr hend⟩
        rcases ReflTransGen.cases_head hab' with heq | ⟨d, had, _⟩
        · exact absurd heq hab
        · exact absurd had (hend d)

theorem childClassOf_terminates (hwalk : WalkEnds h.SuperStep a b) :
    ∃ fuel₀ answer, ∀ fuel ≥ fuel₀, h.childClassOf fuel a b = some answer := by
  obtain ⟨x, hax, hx⟩ := hwalk
  have hhere : ∀ a, a = b → h.childClassOf 1 a b = some true := fun a hab =>
    loop_succ_of_inr 0 (if_pos hab)
  have hsome : ∃ fuel answer, h.childClassOf fuel a b = some answer := by
    induction hax using ReflTransGen.head_induction_on with
    | refl =>
      by_cases hxb : x = b
      · exact ⟨1, true, hhere x hxb⟩
      · have hnone : h.getSuperClass x = none := by
          cases hsup : h.getSuperClass x with
          | none => rfl
          | some y => exact absurd hsup ((hx.resolve_left hxb) y)
        exact ⟨1, false, loop_succ_of_inr 0 (childClassStep_of_no_super hxb hnone)⟩
    | @head a c hstep _ ih =>
      by_cases hab : a = b
      · exact ⟨1, true, hhere a hab⟩
      · obtain ⟨fuel, answer, hrun⟩ := ih
        exact ⟨fuel + 1, answer,
          (loop_succ_of_inl fuel (childClassStep_of_super hab hstep)).trans hrun⟩
  obtain ⟨fuel, answer, hrun⟩ := hsome
  exact ⟨fuel, answer, fun fuel' hle => loop_eq_some_of_le hrun hle⟩

/-! ## The Matchers -/

/-- The class id of a matcher, 0 for a full match. -/
def Heap.resolveClass (h : Heap) (matcher : FieldExcludeMatcher) : Option ObjectId :=
  if matcher.classNameFullMatch then some 0 else Heap.nonZero (h.classIdOf matcher.className)

/-- The field name id of a matcher, 0 for a full match. -/
def Heap.resolveField (h : Heap) (matcher : FieldExcludeMatcher) : Option StringId :=
  if matcher.fieldNameFullMatch then some 0
  else Heap.nonZero (h.findStringIdInternal matcher.fieldName)

/-- The ids a matcher stands for; `none` if a name is not in the dump. -/
def Heap.resolve (h : Heap) (matcher : FieldExcludeMatcher) : Option FieldExcludeMatcherFlatten :=
  (h.resolveClass matcher).bind fun classId =>
    (h.resolveField matcher).map fun fieldNameId => ⟨classId, fieldNameId⟩

theorem Heap.SameButMemo.resolve {h' : Heap} (hs : h.SameButMemo h') : h'.resolve = h.resolve := by
  obtain ⟨_, _, rfl⟩ := hs
  rfl

theorem findClassId_spec (hmemo : h.MemoCoherent) (matcher : FieldExcludeMatcher) :
    (matcher.findClassId h).1 = h.resolveClass matcher ∧
      (matcher.findClassId h).2.MemoCoherent := by
  unfold FieldExcludeMatcher.findClassId Heap.resolveClass
  split
  · exact ⟨rfl, hmemo⟩
  · exact Heap.findClassByName_spec hmemo matcher.className

theorem findFieldNameId_spec (hmemo : h.MemoCoherent) (matcher : FieldExcludeMatcher) :
    (matcher.findFieldNameId h).1 = h.resolveField matcher ∧
      (matcher.findFieldNameId h).2.MemoCoherent := by
  unfold FieldExcludeMatcher.findFieldNameId Heap.resolveField
  split
  · exact ⟨rfl, hmemo⟩
  · exact Heap.findStringId_spec hmemo matcher.fieldName

theorem flattenFieldExcludeMatchers_spec (hmemo : h.MemoCoherent)
    (matchers : List FieldExcludeMatcher) :
    (flattenFieldExcludeMatchers matchers h).1 = matchers.filterMap h.resolve ∧
      (flattenFieldExcludeMatchers matchers h).2.MemoCoherent := by
  induction matchers generalizing h with
  | nil => exact ⟨rfl, hmemo⟩
  | cons matcher matchers ih =>
    obtain ⟨hclass, hmemo₁⟩ := findClassId_spec hmemo matcher
    have hsame₁ := matcher.sameButMemo_findClassId h
    rw [flattenFieldExcludeMatchers, filterMap_cons, Heap.resolve, ← hclass]
    rcases hc : matcher.findClassId h with ⟨_ | classId, h₁⟩ <;> rw [hc] at hmemo₁ hsame₁
    · obtain ⟨hlist, hmemo₂⟩ := ih hmemo₁
      exact ⟨hlist.trans (by rw [hsame₁.resolve]; rfl), hmemo₂⟩
    · obtain ⟨hfld, hmemo₂⟩ := findFieldNameId_spec hmemo₁ matcher
      have hsame₂ := matcher.sameButMemo_findFieldNameId h₁
      have hrslv : h₁.resolveField matcher = h.resolveField matcher := by
        obtain ⟨_, _, rfl⟩ := hsame₁
        rfl
      rw [← hrslv, ← hfld]
      dsimp only
      rcases hf : matcher.findFieldNameId h₁ with ⟨_ | fieldNameId, h₂⟩ <;>
        rw [hf] at hmemo₂ hsame₂ <;> obtain ⟨hlist, hmemo₃⟩ := ih hmemo₂ <;>
        have hrest := congrArg (fun f => matchers.filterMap f) (hsame₁.trans hsame₂).resolve
      · exact ⟨hlist.trans hrest, hmemo₃⟩
      · exact ⟨congrArg (cons _) (hlist.trans hrest), hmemo₃⟩

theorem classMatchMatchers_sound {fuel : ℕ} {classId : ObjectId}
    {flattened hits : List FieldExcludeMatcherFlatten}
    (hrun : classMatchMatchers fuel h classId flattened = some hits) :
    (∀ m, m ∈ hits ↔
      m ∈ flattened ∧ (m.classId = 0 ∨ ReflTransGen h.SuperStep classId m.classId)) ∧
    ∀ m ∈ flattened, m.classId ≠ 0 → WalkEnds h.SuperStep classId m.classId := by
  induction flattened generalizing hits with
  | nil =>
    cases hrun
    simp
  | cons matcher flattened ih =>
    obtain ⟨hit, hhit, hrun⟩ := bind_eq_some_iff.mp hrun
    obtain ⟨rest, hrest, hrun⟩ := bind_eq_some_iff.mp hrun
    obtain ⟨hmem, hends⟩ := ih hrest
    have hfst : (hit = true ↔
          matcher.classId = 0 ∨ ReflTransGen h.SuperStep classId matcher.classId) ∧
        (matcher.classId ≠ 0 → WalkEnds h.SuperStep classId matcher.classId) := by
      unfold hitsClass at hhit
      split at hhit
      · rename_i hzero
        cases hhit
        simp [hzero]
      · rename_i hzero
        obtain ⟨hiff, hwalk⟩ := childClassOf_sound hhit
        exact ⟨by simp [hiff, hzero], fun _ => hwalk⟩
    constructor
    · intro m
      cases some.inj hrun
      cases hit with
      | true =>
        have := hfst.1.mp rfl
        simp only [if_true, mem_cons, hmem]
        constructor
        · rintro (rfl | ⟨hm, hc⟩)
          · exact ⟨.inl rfl, this⟩
          · exact ⟨.inr hm, hc⟩
        · rintro ⟨rfl | hm, hc⟩
          · exact .inl rfl
          · exact .inr ⟨hm, hc⟩
      | false =>
        have hno : ¬ (matcher.classId = 0 ∨ ReflTransGen h.SuperStep classId matcher.classId) :=
          fun hc => Bool.false_ne_true (hfst.1.mpr hc)
        simp only [Bool.false_eq_true, if_false, mem_cons, hmem]
        constructor
        · rintro ⟨hm, hc⟩
          exact ⟨.inr hm, hc⟩
        · rintro ⟨rfl | hm, hc⟩
          · exact absurd hc hno
          · exact ⟨hm, hc⟩
    · intro m hm
      rcases mem_cons.mp hm with rfl | hm
      · exact hfst.2
      · exact hends m hm

theorem classMatchMatchers_terminates {classId : ObjectId}
    {flattened : List FieldExcludeMatcherFlatten}
    (hends : ∀ m ∈ flattened, m.classId ≠ 0 → WalkEnds h.SuperStep classId m.classId) :
    ∃ fuel₀ hits, ∀ fuel ≥ fuel₀, classMatchMatchers fuel h classId flattened = some hits := by
  induction flattened with
  | nil => exact ⟨0, [], fun _ _ => rfl⟩
  | cons matcher flattened ih =>
    obtain ⟨fuel₁, rest, hrest⟩ := ih fun m hm => hends m (mem_cons_of_mem _ hm)
    have hfst : ∃ fuel₀ hit, ∀ fuel ≥ fuel₀,
        hitsClass fuel h classId matcher = some hit := by
      by_cases hzero : matcher.classId = 0
      · exact ⟨0, true, fun _ _ => if_pos hzero⟩
      · obtain ⟨fuel₀, answer, hrun⟩ :=
          childClassOf_terminates (hends matcher (mem_cons_self ..) hzero)
        exact ⟨fuel₀, answer, fun fuel hle => (if_neg hzero).trans (hrun fuel hle)⟩
    obtain ⟨fuel₀, hit, hhit⟩ := hfst
    refine ⟨max fuel₀ fuel₁, if hit then matcher :: rest else rest, fun fuel hle => ?_⟩
    rw [classMatchMatchers, hhit fuel (le_of_max_le_left hle), hrest fuel (le_of_max_le_right hle)]
    rfl

end TraceHarbor.Hprof
