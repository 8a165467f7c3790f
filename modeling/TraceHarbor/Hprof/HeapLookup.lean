import TraceHarbor.Hprof.Heap

/-!
# Lookups by Name

As long as the memo tables agree with the tables of the heap (`MemoCoherent`), a lookup by name answers
with the string or class of the smallest id, changes nothing but the memo tables (`SameButMemo`), and
keeps them coherent.
-/

namespace TraceHarbor.Hprof

open TraceHarbor.Lib

namespace Heap

/-- The class `FindClassByName` finds without a memo: the first one whose name id is the first
string id with the name; 0 if there is none. -/
def classIdOf (h : Heap) (className : Text) : ObjectId :=
  match nonZero (h.findStringIdInternal className) with
  | none => 0
  | some classNameId =>
    match h.classNames.findFirst fun _ nameId => decide (nameId = classNameId) with
    | some (classId, _) => classId
    | none => 0

/-- The memo tables hold the answers that the tables of the heap give. -/
structure MemoCoherent (h : Heap) : Prop where
  strings : ∀ value id, h.findStringIdMemorized[value]? = some id →
    id = h.findStringIdInternal value
  classes : ∀ className id, h.findClassByNameMemorized[className]? = some id →
    id = h.classIdOf className

/-- The heaps differ in their memo tables at most. -/
def SameButMemo (h h' : Heap) : Prop :=
  ∃ strings classes,
    h' = { h with findStringIdMemorized := strings, findClassByNameMemorized := classes }

namespace SameButMemo

variable {h h' h'' : Heap}

theorem refl (h : Heap) : SameButMemo h h := ⟨_, _, rfl⟩

theorem trans (h₁ : SameButMemo h h') (h₂ : SameButMemo h' h'') : SameButMemo h h'' := by
  obtain ⟨_, _, rfl⟩ := h₁
  obtain ⟨s, c, rfl⟩ := h₂
  exact ⟨s, c, rfl⟩

theorem references (hs : SameButMemo h h') : h'.references = h.references := by
  obtain ⟨_, _, rfl⟩ := hs
  rfl

theorem findStringIdInternal (hs : SameButMemo h h') (value : Text) :
    h'.findStringIdInternal value = h.findStringIdInternal value := by
  obtain ⟨_, _, rfl⟩ := hs
  rfl

theorem classIdOf (hs : SameButMemo h h') (className : Text) :
    h'.classIdOf className = h.classIdOf className := by
  obtain ⟨_, _, rfl⟩ := hs
  rfl

end SameButMemo

theorem sameButMemo_findStringId (h : Heap) (value : Text) :
    SameButMemo h (h.findStringId value).2 := by
  unfold findStringId
  cases h.findStringIdMemorized[value]? with
  | some memorized => exact .refl h
  | none => exact ⟨_, _, rfl⟩

theorem sameButMemo_findClassByNameInternal (h : Heap) (className : Text) :
    SameButMemo h (h.findClassByNameInternal className).2 := by
  have hsame := sameButMemo_findStringId h className
  unfold findClassByNameInternal
  rcases hfind : h.findStringId className with ⟨_ | classNameId, h'⟩
  · rwa [hfind] at hsame
  · rw [hfind] at hsame
    simp only
    cases h'.classNames.findFirst fun _ nameId => decide (nameId = classNameId) <;> exact hsame

theorem sameButMemo_findClassByName (h : Heap) (className : Text) :
    SameButMemo h (h.findClassByName className).2 := by
  unfold findClassByName
  cases h.findClassByNameMemorized[className]? with
  | some memorized => exact .refl h
  | none => exact (sameButMemo_findClassByNameInternal h className).trans ⟨_, _, rfl⟩

variable {h : Heap}

/-- **String lookup**: the first id of the text, whatever has been looked up before. -/
theorem findStringId_spec (hmemo : h.MemoCoherent) (value : Text) :
    (h.findStringId value).1 = nonZero (h.findStringIdInternal value) ∧
      (h.findStringId value).2.MemoCoherent := by
  unfold findStringId
  cases hget : h.findStringIdMemorized[value]? with
  | some memorized =>
    rw [hmemo.strings value memorized hget]
    exact ⟨rfl, hmemo⟩
  | none =>
    refine ⟨rfl, ⟨fun v id hv => ?_, hmemo.classes⟩⟩
    rw [OrdMap.get_insert] at hv
    split at hv
    · rename_i heq
      subst heq
      exact (Option.some.inj hv).symm
    · exact hmemo.strings v id hv

theorem findClassByNameInternal_spec (hmemo : h.MemoCoherent) (className : Text) :
    (h.findClassByNameInternal className).1 = h.classIdOf className ∧
      (h.findClassByNameInternal className).2.MemoCoherent := by
  obtain ⟨hfst, hmemo'⟩ := findStringId_spec hmemo className
  have hsame := sameButMemo_findStringId h className
  unfold findClassByNameInternal classIdOf
  rw [← hfst]
  rcases hfind : h.findStringId className with ⟨_ | classNameId, h'⟩
  · rw [hfind] at hmemo'
    exact ⟨rfl, hmemo'⟩
  · rw [hfind] at hsame hmemo'
    have hnam : h'.classNames = h.classNames := by
      obtain ⟨_, _, rfl⟩ := hsame
      rfl
    simp only [hnam]
    cases h.classNames.findFirst fun _ nameId => decide (nameId = classNameId) <;>
      exact ⟨rfl, hmemo'⟩

/-- **Class lookup**: the first class with the name, whatever has been looked up before. -/
theorem findClassByName_spec (hmemo : h.MemoCoherent) (className : Text) :
    (h.findClassByName className).1 = nonZero (h.classIdOf className) ∧
      (h.findClassByName className).2.MemoCoherent := by
  unfold findClassByName
  cases hget : h.findClassByNameMemorized[className]? with
  | some memorized =>
    rw [hmemo.classes className memorized hget]
    exact ⟨rfl, hmemo⟩
  | none =>
    obtain ⟨hfst, hmemo'⟩ := findClassByNameInternal_spec hmemo className
    have hsame := sameButMemo_findClassByNameInternal h className
    rcases hfind : h.findClassByNameInternal className with ⟨classId, h'⟩
    rw [hfind] at hfst hsame hmemo'
    subst hfst
    refine ⟨rfl, ⟨hmemo'.strings, fun name id hname => ?_⟩⟩
    rw [OrdMap.get_insert] at hname
    split at hname
    · rename_i heq
      subst heq
      exact (Option.some.inj hname).symm.trans (hsame.classIdOf name).symm
    · exact hmemo'.classes name id hname

theorem findStringIdInternal_eq {value : Text} {id : StringId} (hid : h.strings[id]? = some value)
    (hmin : ∀ id', h.strings[id']? = some value → id ≤ id') :
    h.findStringIdInternal value = id := by
  have hfst : h.strings.findFirst (fun id _ => decide (h.getString id = some value)) =
      some (id, value) := by
    refine OrdMap.findFirst_eq_some.mpr ⟨hid, decide_eq_true hid, fun id' _ _ hp => ?_⟩
    exact hmin id' (of_decide_eq_true hp)
  rw [findStringIdInternal, hfst]

theorem nonZero_eq_some {id found : ℕ} : nonZero id = some found ↔ id ≠ 0 ∧ id = found := by
  unfold nonZero
  split <;> simp_all

theorem getString_of_findStringIdInternal {value : Text} {id : StringId}
    (hfind : nonZero (h.findStringIdInternal value) = some id) :
    h.getString id = some value := by
  obtain ⟨hne, rfl⟩ := nonZero_eq_some.mp hfind
  unfold findStringIdInternal at hne ⊢
  cases hfst : h.strings.findFirst fun id _ => decide (h.getString id = some value) with
  | none => simp [hfst] at hne
  | some entry =>
    exact of_decide_eq_true (OrdMap.findFirst_eq_some.mp hfst).2.1

theorem getClassName_of_classIdOf {className : Text} {classId : ObjectId}
    (hfind : nonZero (h.classIdOf className) = some classId) :
    h.getClassName classId = some className := by
  obtain ⟨hne, rfl⟩ := nonZero_eq_some.mp hfind
  unfold classIdOf at hne ⊢
  cases hname : nonZero (h.findStringIdInternal className) with
  | none => simp [hname] at hne
  | some classNameId =>
    simp only [hname] at hne ⊢
    cases hfst : h.classNames.findFirst fun _ nameId => decide (nameId = classNameId) with
    | none => simp [hfst] at hne
    | some entry =>
      obtain ⟨hget, heq, _⟩ := OrdMap.findFirst_eq_some.mp hfst
      rw [of_decide_eq_true heq] at hget
      simp only [getClassName, getClassNameId, hget, Option.bind_some]
      exact getString_of_findStringIdInternal hname

end Heap

end TraceHarbor.Hprof
