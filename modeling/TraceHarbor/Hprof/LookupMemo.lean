import TraceHarbor.Hprof.HeapLookup
import TraceHarbor.Lib.Run

/-!
# Lookups Return Their First Answer

The `Find` functions of `Heap` return the answer that they memorized for the same argument, and adding
a string or a class name does not take a memorized answer back. So a lookup answers from the records
at the time of the first lookup of its argument.
-/

namespace TraceHarbor.Hprof

open TraceHarbor.Lib List

/-! ## Records -/

/-- The strings and class names that have been recorded. -/
structure Records where
  strings : OrdMap StringId Text
  classNames : OrdMap ObjectId StringId

namespace Records

/-- A scan of the strings: the first id with the text. -/
def findStringId (r : Records) (value : Text) : Option StringId :=
  (r.strings.findFirst fun _ text => decide (text = value)).map Prod.fst

/-- A scan of the class names: the first class with the name id. -/
def findClass (r : Records) (classNameId : StringId) : Option ObjectId :=
  (r.classNames.findFirst fun _ nameId => decide (nameId = classNameId)).map Prod.fst

def findClassByName (r : Records) (className : Text) : Option ObjectId :=
  (r.findStringId className).bind r.findClass

end Records

/-! ## Calls -/

inductive NameLookup where
  | findStringId (value : Text)
  | findClassByName (className : Text)
  deriving Repr, DecidableEq

/-- The calls on one heap that record names or look them up. -/
inductive NameCall where
  | addString (stringId : StringId) (data : Text)
  | addClassNameRecord (classId : ObjectId) (classNameId : StringId)
  | find (lookup : NameLookup)
  deriving Repr, DecidableEq

namespace NameLookup

def text : NameLookup → Text
  | findStringId value => value
  | findClassByName className => className

/-- The answer of the heap, and the heap with the new memo. -/
def apply (h : Heap) : NameLookup → Option ℕ × Heap
  | findStringId value => h.findStringId value
  | findClassByName className => h.findClassByName className

def scan (r : Records) : NameLookup → Option ℕ
  | findStringId value => r.findStringId value
  | findClassByName className => r.findClassByName className

end NameLookup

namespace NameCall

def apply (h : Heap) : NameCall → Heap
  | addString stringId data => h.addString stringId data
  | addClassNameRecord classId classNameId => h.addClassNameRecord classId classNameId
  | find lookup => (lookup.apply h).2

def record (r : Records) : NameCall → Records
  | addString stringId data => { r with strings := r.strings.insert stringId data }
  | addClassNameRecord classId classNameId =>
    { r with classNames := r.classNames.insert classId classNameId }
  | find _ => r

def NonZero : NameCall → Prop
  | addString stringId _ => stringId ≠ 0
  | addClassNameRecord classId classNameId => classId ≠ 0 ∧ classNameId ≠ 0
  | find _ => True

instance decidableNonZero : DecidablePred NonZero
  | addString .. => inferInstanceAs (Decidable (_ ≠ _))
  | addClassNameRecord .. => inferInstanceAs (Decidable (_ ∧ _))
  | find _ => inferInstanceAs (Decidable True)

def looksUp (value : Text) : NameCall → Bool
  | find lookup => lookup.text = value
  | _ => false

def looksUpClass (className : Text) (call : NameCall) : Bool :=
  call = .find (.findClassByName className)

end NameCall

def recordsOf (calls : List NameCall) : Records := calls.foldl NameCall.record ⟨∅, ∅⟩

def heapOf (idSize : ℕ) (calls : List NameCall) : Heap := run NameCall.apply (.new idSize) calls

/-- The calls before the first one of a kind; all of them if there is none. -/
def callsBefore (kind : NameCall → Bool) (calls : List NameCall) : List NameCall :=
  calls.takeWhile fun call => !kind call

/-- The string id of a text in the records at its first lookup. -/
def firstStringId (calls : List NameCall) (value : Text) : Option StringId :=
  (recordsOf (callsBefore (NameCall.looksUp value) calls)).findStringId value

/-- The class in the records at the first lookup of the class, for the string id from the first lookup
of the name. -/
def firstClass (calls : List NameCall) (className : Text) : Option ObjectId :=
  (firstStringId calls className).bind
    (recordsOf (callsBefore (NameCall.looksUpClass className) calls)).findClass

/-- The answer from the records at the first lookup. -/
def firstAnswer (calls : List NameCall) : NameLookup → Option ℕ
  | .findStringId value => firstStringId calls value
  | .findClassByName className => firstClass calls className

/-! ## The first call of a kind -/

section FirstCall

variable {kind : NameCall → Bool} {calls : List NameCall} {call : NameCall}

theorem callsBefore_of_any (h : calls.any kind = true) (more : List NameCall) :
    callsBefore kind (calls ++ more) = callsBefore kind calls := by
  induction calls with
  | nil => cases h
  | cons first calls ih =>
    cases hfst : kind first with
    | true => simp [callsBefore, hfst]
    | false =>
      rw [any_cons, hfst] at h
      have htail := ih h
      simp only [callsBefore] at htail
      simp [callsBefore, takeWhile_cons, htail]

theorem callsBefore_of_not_any (h : calls.any kind = false) : callsBefore kind calls = calls := by
  refine takeWhile_eq_self_iff.mpr fun call hcall => ?_
  rw [Bool.not_eq_true', Bool.eq_false_iff]
  exact fun hkind => Bool.false_ne_true (h.symm.trans (any_eq_true.mpr ⟨call, hcall, hkind⟩))

theorem callsBefore_concat (h : calls.any kind = false) (hcall : kind call = true) :
    callsBefore kind (calls ++ [call]) = calls := by
  rw [callsBefore, takeWhile_append_of_pos]
  · simp [hcall]
  · exact takeWhile_eq_self_iff.mp (callsBefore_of_not_any h)

theorem recordsOf_concat (calls : List NameCall) (call : NameCall) :
    recordsOf (calls ++ [call]) = call.record (recordsOf calls) :=
  foldl_concat ..

theorem looksUp_of_looksUpClass {className : Text}
    (h : calls.any (NameCall.looksUpClass className) = true) :
    calls.any (NameCall.looksUp className) = true := by
  obtain ⟨call, hcall, hclass⟩ := any_eq_true.mp h
  refine any_eq_true.mpr ⟨call, hcall, ?_⟩
  rw [of_decide_eq_true hclass]
  exact decide_eq_true rfl

theorem callsBefore_append_call (hcall : kind call = true) :
    callsBefore kind (calls ++ [call]) = callsBefore kind calls := by
  cases hany : calls.any kind with
  | true => exact callsBefore_of_any hany [call]
  | false => rw [callsBefore_concat hany hcall, callsBefore_of_not_any hany]

/-- What is memorized about an argument: nothing before the first call, and an answer from then on. -/
def memoOf (kind : NameCall → Bool) (answer : List NameCall → Option ℕ) (calls : List NameCall) :
    Option ℕ :=
  if calls.any kind then some ((answer calls).getD 0) else none

variable {answer : List NameCall → Option ℕ}

theorem memoOf_append_of_any (h : calls.any kind = true)
    (hsame : answer (calls ++ [call]) = answer calls) :
    memoOf kind answer (calls ++ [call]) = memoOf kind answer calls := by
  rw [memoOf, memoOf, any_append, h, Bool.true_or, hsame]

theorem memoOf_append_of_not_kind (h : kind call = false)
    (hsame : calls.any kind = true → answer (calls ++ [call]) = answer calls) :
    memoOf kind answer (calls ++ [call]) = memoOf kind answer calls := by
  cases hany : calls.any kind with
  | true => exact memoOf_append_of_any hany (hsame hany)
  | false =>
    have hany' : (calls ++ [call]).any kind = false := by
      rw [any_append, hany, any_cons, h, any_nil, Bool.or_false, Bool.or_false]
    rw [memoOf, memoOf, hany, hany', if_neg Bool.false_ne_true, if_neg Bool.false_ne_true]

theorem memoOf_append_of_kind (h : kind call = true)
    (hsame : answer (calls ++ [call]) = answer calls) :
    memoOf kind answer (calls ++ [call]) = some ((answer calls).getD 0) := by
  rw [memoOf, any_append, any_cons, h, Bool.true_or, Bool.or_true, if_pos rfl, hsame]

theorem memoOf_eq_some {id : ℕ} (h : memoOf kind answer calls = some id) :
    id = (answer calls).getD 0 := by
  rw [memoOf] at h
  split at h
  · exact (Option.some.inj h).symm
  · cases h

theorem not_any_of_memoOf_eq_none (h : memoOf kind answer calls = none) :
    calls.any kind = false := by
  rw [memoOf] at h
  split at h
  · cases h
  · exact Bool.eq_false_iff.mpr ‹_›

theorem firstStringId_append {value : Text} (h : calls.any (NameCall.looksUp value) = true)
    (more : List NameCall) : firstStringId (calls ++ more) value = firstStringId calls value := by
  rw [firstStringId, callsBefore_of_any h, firstStringId]

theorem firstStringId_append_call {value : Text} (h : call.looksUp value = true) :
    firstStringId (calls ++ [call]) value = firstStringId calls value := by
  rw [firstStringId, callsBefore_append_call h, firstStringId]

theorem firstClass_append {className : Text}
    (h : calls.any (NameCall.looksUpClass className) = true) (more : List NameCall) :
    firstClass (calls ++ more) className = firstClass calls className := by
  rw [firstClass, callsBefore_of_any h, firstStringId_append (looksUp_of_looksUpClass h), firstClass]

theorem firstClass_append_call (className : Text) :
    firstClass (calls ++ [.find (.findClassByName className)]) className =
      firstClass calls className := by
  have hself : (NameCall.find (.findClassByName className)).looksUp className = true :=
    decide_eq_true rfl
  rw [firstClass, callsBefore_append_call (decide_eq_true rfl), firstStringId_append_call hself,
    firstClass]

end FirstCall

/-! ## Non-zero ids -/

/-- No recorded id is 0, the value that stands for "not found". -/
structure Records.NonZero (r : Records) : Prop where
  strings : r.strings[0]? = none
  classes : r.classNames[0]? = none

theorem Records.NonZero.record {r : Records} (h : r.NonZero) {call : NameCall}
    (hcall : call.NonZero) : (call.record r).NonZero := by
  cases call with
  | addString stringId data =>
    exact ⟨(OrdMap.get_insert_of_ne _ _ hcall.symm).trans h.strings, h.classes⟩
  | addClassNameRecord classId classNameId =>
    exact ⟨h.strings, (OrdMap.get_insert_of_ne _ _ hcall.1.symm).trans h.classes⟩
  | find lookup => exact h

theorem nonZero_recordsOf {calls : List NameCall} (h : ∀ call ∈ calls, call.NonZero) :
    (recordsOf calls).NonZero := by
  induction calls using reverseRecOn with
  | nil => exact ⟨rfl, rfl⟩
  | append_singleton calls call ih =>
    rw [forall_mem_append, forall_mem_singleton] at h
    rw [recordsOf_concat]
    exact (ih h.1).record h.2

theorem nonZero_getD_findFirst {α : Type} {m : OrdMap ℕ α} (h : m[0]? = none)
    (p : ℕ → α → Bool) :
    Heap.nonZero (((m.findFirst p).map Prod.fst).getD 0) = (m.findFirst p).map Prod.fst := by
  cases hfst : m.findFirst p with
  | none => rfl
  | some entry =>
    obtain ⟨id, a⟩ := entry
    have hget := (OrdMap.findFirst_eq_some.mp hfst).1
    refine if_neg fun hid : id = 0 => ?_
    rw [hid, h] at hget
    cases hget

/-! ## The memo tables -/

/-- **What a heap holds after a sequence of calls**: the records, and for everything that has been
looked up the first answer. -/
structure Tracks (calls : List NameCall) (h : Heap) : Prop where
  strings_eq : h.strings = (recordsOf calls).strings
  classNames_eq : h.classNames = (recordsOf calls).classNames
  stringMemo : ∀ value, h.findStringIdMemorized[value]? =
    memoOf (NameCall.looksUp value) (firstStringId · value) calls
  classMemo : ∀ className, h.findClassByNameMemorized[className]? =
    memoOf (NameCall.looksUpClass className) (firstClass · className) calls

namespace Tracks

variable {calls : List NameCall} {h : Heap}

theorem findStringIdInternal_eq (ht : Tracks calls h) (value : Text) :
    h.findStringIdInternal value = ((recordsOf calls).findStringId value).getD 0 := by
  have hscan : h.strings.findFirst (fun id _ => decide (h.getString id = some value)) =
      (recordsOf calls).strings.findFirst fun _ text => decide (text = value) := by
    rw [← ht.strings_eq, OrdMap.findFirst]
    refine find?_congr fun entry hent => ?_
    rw [Heap.getString, OrdMap.mem_toList.mp hent]
    exact decide_eq_decide.mpr Option.some_inj
  rw [Heap.findStringIdInternal, hscan, Records.findStringId]
  cases (recordsOf calls).strings.findFirst fun _ text => decide (text = value) <;> rfl

theorem findClassByNameMemorized_findStringId (h : Heap) (value : Text) :
    (h.findStringId value).2.findClassByNameMemorized = h.findClassByNameMemorized := by
  rw [Heap.findStringId]
  cases h.findStringIdMemorized[value]? <;> rfl

section

variable (ht : Tracks calls h)

include ht

theorem add {call : NameCall} (hfind : ∀ lookup, call ≠ .find lookup) {h' : Heap}
    (hstrs : h'.strings = (call.record (recordsOf calls)).strings)
    (hclas : h'.classNames = (call.record (recordsOf calls)).classNames)
    (hstringMemo : h'.findStringIdMemorized = h.findStringIdMemorized)
    (hclassMemo : h'.findClassByNameMemorized = h.findClassByNameMemorized) :
    Tracks (calls ++ [call]) h' where
  strings_eq := by rw [recordsOf_concat, hstrs]
  classNames_eq := by rw [recordsOf_concat, hclas]
  stringMemo := by
    intro value
    have hkind : call.looksUp value = false := by
      cases call with
      | find lookup => exact absurd rfl (hfind lookup)
      | _ => rfl
    rw [hstringMemo, ht.stringMemo]
    exact (memoOf_append_of_not_kind hkind fun hany => firstStringId_append hany _).symm
  classMemo := by
    intro className
    have hkind : call.looksUpClass className = false := decide_eq_false (hfind _)
    rw [hclassMemo, ht.classMemo]
    exact (memoOf_append_of_not_kind hkind fun hany => firstClass_append hany _).symm

theorem findStringId_spec (hne : ∀ call ∈ calls, call.NonZero) (lookup : NameLookup) :
    (h.findStringId lookup.text).1 = firstStringId calls lookup.text ∧
      ∀ value, (h.findStringId lookup.text).2.findStringIdMemorized[value]? =
        memoOf (NameCall.looksUp value) (firstStringId · value) (calls ++ [.find lookup]) := by
  have hfst : Heap.nonZero ((firstStringId calls lookup.text).getD 0) =
      firstStringId calls lookup.text :=
    nonZero_getD_findFirst (nonZero_recordsOf fun call hcall =>
      hne call (takeWhile_subset _ hcall)).strings _
  have hself : (NameCall.find lookup).looksUp lookup.text = true := decide_eq_true rfl
  have hoth : ∀ value, value ≠ lookup.text → memoOf (NameCall.looksUp value)
      (firstStringId · value) (calls ++ [.find lookup]) = h.findStringIdMemorized[value]? := by
    intro value hval
    rw [ht.stringMemo]
    exact memoOf_append_of_not_kind (decide_eq_false (Ne.symm hval))
      fun hany => firstStringId_append hany _
  have hmemo : memoOf (NameCall.looksUp lookup.text) (firstStringId · lookup.text)
      (calls ++ [.find lookup]) = some ((firstStringId calls lookup.text).getD 0) :=
    memoOf_append_of_kind hself (firstStringId_append_call hself)
  rw [Heap.findStringId]
  cases hget : h.findStringIdMemorized[lookup.text]? with
  | some memorized =>
    rw [memoOf_eq_some ((ht.stringMemo lookup.text).symm.trans hget)]
    refine ⟨hfst, fun value => ?_⟩
    by_cases hval : value = lookup.text
    · rw [hval, hmemo]
      exact hget.trans
        (congrArg some (memoOf_eq_some ((ht.stringMemo lookup.text).symm.trans hget)))
    · exact (hoth value hval).symm
  | none =>
    have hnone := not_any_of_memoOf_eq_none ((ht.stringMemo lookup.text).symm.trans hget)
    have hscan : h.findStringIdInternal lookup.text = (firstStringId calls lookup.text).getD 0 := by
      rw [ht.findStringIdInternal_eq, firstStringId, callsBefore_of_not_any hnone]
    simp only [hscan]
    refine ⟨hfst, fun value => ?_⟩
    rw [OrdMap.get_insert]
    split_ifs with hval
    · rw [hval, hmemo]
    · rw [hoth value hval]

theorem findStringId (hne : ∀ call ∈ calls, call.NonZero) (value : Text) :
    Tracks (calls ++ [.find (.findStringId value)]) (h.findStringId value).2 := by
  obtain ⟨_, hmemo⟩ := ht.findStringId_spec hne (.findStringId value)
  obtain ⟨s, c, hsame⟩ := Heap.sameButMemo_findStringId h value
  refine ⟨?_, ?_, hmemo, fun className => ?_⟩
  · rw [recordsOf_concat, hsame]
    exact ht.strings_eq
  · rw [recordsOf_concat, hsame]
    exact ht.classNames_eq
  · rw [findClassByNameMemorized_findStringId, ht.classMemo]
    exact (memoOf_append_of_not_kind (decide_eq_false nofun)
      fun hany => firstClass_append hany _).symm

theorem findClassByNameInternal_spec (hne : ∀ call ∈ calls, call.NonZero) (className : Text) :
    (h.findClassByNameInternal className).1 =
        ((firstStringId calls className).bind (recordsOf calls).findClass).getD 0 ∧
      (h.findClassByNameInternal className).2 = (h.findStringId className).2 := by
  have hansw := (ht.findStringId_spec hne (.findClassByName className)).1
  have hnam : (h.findStringId className).2.classNames = (recordsOf calls).classNames := by
    obtain ⟨s, c, hsame⟩ := Heap.sameButMemo_findStringId h className
    rw [hsame]
    exact ht.classNames_eq
  rw [NameLookup.text] at hansw
  rw [← hansw, Heap.findClassByNameInternal]
  generalize h.findStringId className = found at hnam ⊢
  obtain ⟨_ | classNameId, h'⟩ := found
  · exact ⟨rfl, rfl⟩
  · simp only at hnam
    simp only [hnam, Option.bind_some, Records.findClass]
    cases (recordsOf calls).classNames.findFirst fun _ nameId => decide (nameId = classNameId) <;>
      exact ⟨rfl, rfl⟩

theorem findClassByName_spec (hne : ∀ call ∈ calls, call.NonZero) (className : Text) :
    (h.findClassByName className).1 = firstClass calls className ∧
      Tracks (calls ++ [.find (.findClassByName className)]) (h.findClassByName className).2 := by
  have hfst : Heap.nonZero ((firstClass calls className).getD 0) = firstClass calls className := by
    rw [firstClass]
    cases firstStringId calls className with
    | none => rfl
    | some classNameId =>
      exact nonZero_getD_findFirst (nonZero_recordsOf fun call hcall =>
        hne call (takeWhile_subset _ hcall)).classes _
  have hself : (NameCall.find (.findClassByName className)).looksUpClass className = true :=
    decide_eq_true rfl
  have hoth : ∀ name, name ≠ className → memoOf (NameCall.looksUpClass name) (firstClass · name)
      (calls ++ [.find (.findClassByName className)]) = h.findClassByNameMemorized[name]? := by
    intro name hname
    rw [ht.classMemo]
    refine memoOf_append_of_not_kind (decide_eq_false fun heq => hname ?_)
      fun hany => firstClass_append hany _
    cases heq
    rfl
  have hmemo : memoOf (NameCall.looksUpClass className) (firstClass · className)
      (calls ++ [.find (.findClassByName className)]) =
      some ((firstClass calls className).getD 0) :=
    memoOf_append_of_kind hself (firstClass_append_call className)
  rw [Heap.findClassByName]
  cases hget : h.findClassByNameMemorized[className]? with
  | some memorized =>
    have hmem := memoOf_eq_some ((ht.classMemo className).symm.trans hget)
    have hany : calls.any (NameCall.looksUpClass className) = true := by
      by_contra hnone
      rw [ht.classMemo, memoOf, if_neg hnone] at hget
      cases hget
    rw [hmem]
    refine ⟨hfst, ?_, ?_, fun value => ?_, fun name => ?_⟩
    · rw [recordsOf_concat]
      exact ht.strings_eq
    · rw [recordsOf_concat]
      exact ht.classNames_eq
    · -- the string of the class name was looked up together with the class
      rw [ht.stringMemo]
      by_cases hval : value = className
      · rw [hval]
        exact (memoOf_append_of_any (looksUp_of_looksUpClass hany)
          (firstStringId_append (looksUp_of_looksUpClass hany) _)).symm
      · exact (memoOf_append_of_not_kind (decide_eq_false (Ne.symm hval))
          fun hany => firstStringId_append hany _).symm
    · by_cases hname : name = className
      · rw [hname, hmemo]
        exact hget.trans (congrArg some hmem)
      · exact (hoth name hname).symm
  | none =>
    have hnone := not_any_of_memoOf_eq_none ((ht.classMemo className).symm.trans hget)
    obtain ⟨hid, hheap⟩ := ht.findClassByNameInternal_spec hne className
    have hscan : (h.findClassByNameInternal className).1 = (firstClass calls className).getD 0 := by
      rw [hid, firstClass, callsBefore_of_not_any hnone]
    obtain ⟨_, hstrs⟩ := ht.findStringId_spec hne (.findClassByName className)
    obtain ⟨s, c, hsame⟩ := Heap.sameButMemo_findStringId h className
    have hclas := findClassByNameMemorized_findStringId h className
    simp only [hscan, hheap]
    refine ⟨hfst, ?_, ?_, hstrs, fun name => ?_⟩
    · rw [recordsOf_concat, hsame]
      exact ht.strings_eq
    · rw [recordsOf_concat, hsame]
      exact ht.classNames_eq
    · rw [hclas, OrdMap.get_insert]
      split_ifs with hname
      · rw [hname, hmemo]
      · rw [hoth name hname]

/-- **One call**: the records and the first answers are tracked. -/
theorem call (hne : ∀ call ∈ calls, call.NonZero) (call : NameCall) :
    Tracks (calls ++ [call]) (call.apply h) := by
  cases call with
  | addString stringId data =>
    exact ht.add (by rintro _ ⟨⟩) (by rw [NameCall.record, ← ht.strings_eq]; rfl)
      ht.classNames_eq rfl rfl
  | addClassNameRecord classId classNameId =>
    exact ht.add (by rintro _ ⟨⟩) ht.strings_eq
      (by rw [NameCall.record, ← ht.classNames_eq]; rfl) rfl rfl
  | find lookup =>
    cases lookup with
    | findStringId value => exact ht.findStringId hne value
    | findClassByName className => exact (ht.findClassByName_spec hne className).2

end

end Tracks

/-! ## Lookups -/

/-- **Every sequence of calls** is tracked. -/
theorem tracks_heapOf (idSize : ℕ) {calls : List NameCall} (h : ∀ call ∈ calls, call.NonZero) :
    Tracks calls (heapOf idSize calls) := by
  induction calls using reverseRecOn with
  | nil => exact ⟨rfl, rfl, fun _ => rfl, fun _ => rfl⟩
  | append_singleton calls call ih =>
    rw [forall_mem_append] at h
    rw [heapOf, run_append]
    exact (ih h.1).call h.1 call

/-- **A lookup returns the first answer**: after any sequence of calls that record non-zero ids, what a
scan of the records at the first lookup of the same argument returns. -/
theorem answer_eq_firstAnswer (idSize : ℕ) (calls : List NameCall)
    (h : ∀ call ∈ calls, call.NonZero) (lookup : NameLookup) :
    (lookup.apply (heapOf idSize calls)).1 = firstAnswer calls lookup := by
  have ht := tracks_heapOf idSize h
  cases lookup with
  | findStringId value => exact (ht.findStringId_spec h (.findStringId value)).1
  | findClassByName className => exact (ht.findClassByName_spec h className).1

/-- A class that is recorded between two lookups of it. -/
def lateClassCalls : List NameCall :=
  [.addString 1 [65], .find (.findClassByName [65]), .addClassNameRecord 2 1, .addString 3 [66],
    .find (.findStringId [66])]

theorem answer_eq_firstAnswer_lateClass :
    (∀ call ∈ lateClassCalls, call.NonZero) ∧
      (NameLookup.apply (heapOf 4 lateClassCalls) (.findClassByName [65])).1 =
        firstAnswer lateClassCalls (.findClassByName [65]) :=
  ⟨by decide, answer_eq_firstAnswer 4 lateClassCalls (by decide) _⟩

/-- A class and a string that are recorded after their first lookup are not found, though a scan finds
them. -/
theorem lookups_miss_late_records :
    (∀ call ∈ lateClassCalls ++ [.addString 4 [67]], call.NonZero) ∧
      (NameLookup.apply (heapOf 4 lateClassCalls) (.findClassByName [65])).1 = none ∧
      NameLookup.scan (recordsOf lateClassCalls) (.findClassByName [65]) = some 2 ∧
      (NameLookup.apply (heapOf 4 [.find (.findStringId [67]), .addString 4 [67]])
        (.findStringId [67])).1 = none ∧
      NameLookup.scan (recordsOf [.find (.findStringId [67]), .addString 4 [67]])
        (.findStringId [67]) = some 4 := by
  decide +kernel

end TraceHarbor.Hprof
