import TraceHarbor.Lib.OrdMap

/-!
# The Parsed Heap

`Heap` holds what the HPROF parser reads from a dump. Every `std::map` is an `OrdMap`, so that scans see
the entries in ascending key order as the program does; identifiers are natural numbers. The `find`
functions memorize their answers, with 0 for "not found", and return the heap with the new memo.
-/

namespace TraceHarbor.Hprof

open TraceHarbor.Lib

abbrev ObjectId := ℕ

abbrev StringId := ℕ

/-- The bytes of a `std::string`. -/
abbrev Text := List UInt8

inductive ReferenceType where
  | kStaticField
  | kInstanceField
  | kArrayElement
  deriving Repr, DecidableEq

/-- `reference_t`; the member that a constructor call does not name is 0. -/
structure Reference where
  type : ReferenceType
  index : ℕ
  fieldNameId : StringId
  deriving Repr, DecidableEq

inductive ValueType where
  | kObject
  | kBoolean
  | kChar
  | kFloat
  | kDouble
  | kByte
  | kShort
  | kInt
  | kLong
  deriving Repr, DecidableEq

def getValueTypeSize : ValueType → ℕ
  | .kObject => 0
  | .kBoolean | .kByte => 1
  | .kChar | .kShort => 2
  | .kFloat | .kInt => 4
  | .kDouble | .kLong => 8

/-- `value_type_cast`; `none` is the fatal error "invalid value type". -/
def valueTypeCast : ℕ → Option ValueType
  | 2 => some .kObject
  | 4 => some .kBoolean
  | 5 => some .kChar
  | 6 => some .kFloat
  | 7 => some .kDouble
  | 8 => some .kByte
  | 9 => some .kShort
  | 10 => some .kInt
  | 11 => some .kLong
  | _ => none

structure Field where
  nameId : StringId
  type : ValueType
  deriving Repr, DecidableEq

inductive ObjectType where
  | kClass
  | kObjectArray
  | kPrimitiveArray
  | kInstance
  deriving Repr, DecidableEq

/-- The references of the heap: referrer to referent to reference. -/
abbrev ReferenceMap := OrdMap ObjectId (OrdMap ObjectId Reference)

/-- The members of `Heap` that the modelled functions use, and the memo tables of this heap. -/
structure Heap where
  idSize : ℕ
  classNames : OrdMap ObjectId StringId
  inheritance : OrdMap ObjectId ObjectId
  instanceFields : OrdMap ObjectId (List Field)
  instanceTypes : OrdMap ObjectId ObjectType
  gcRoots : List ObjectId
  strings : OrdMap StringId Text
  references : ReferenceMap
  excludedReferences : ReferenceMap
  /-- `find_class_by_name_memorized[this]` -/
  findClassByNameMemorized : OrdMap Text ObjectId
  /-- `find_string_id_memorized[this]` -/
  findStringIdMemorized : OrdMap Text StringId

namespace Heap

/-- A new heap with an identifier size; 0 stands for a size that is not initialized. -/
def new (idSize : ℕ) : Heap where
  idSize := idSize
  classNames := ∅
  inheritance := ∅
  instanceFields := ∅
  instanceTypes := ∅
  gcRoots := []
  strings := ∅
  references := ∅
  excludedReferences := ∅
  findClassByNameMemorized := ∅
  findStringIdMemorized := ∅

/-- `GetIdSize`; `none` is the fatal error "identifier size not initialized". -/
def getIdSize (h : Heap) : Option ℕ := if h.idSize = 0 then none else some h.idSize

/-! ## Strings -/

def addString (h : Heap) (stringId : StringId) (data : Text) : Heap :=
  { h with strings := h.strings.insert stringId data }

def getString (h : Heap) (stringId : StringId) : Option Text := h.strings[stringId]?

def findStringIdInternal (h : Heap) (value : Text) : StringId :=
  match h.strings.findFirst fun id _ => decide (h.getString id = some value) with
  | some (id, _) => id
  | none => 0

/-- The value 0 of a `find` result stands for "not found". -/
def nonZero (id : ℕ) : Option ℕ := if id = 0 then none else some id

def findStringId (h : Heap) (value : Text) : Option StringId × Heap :=
  match h.findStringIdMemorized[value]? with
  | some memorized => (nonZero memorized, h)
  | none =>
    let stringId := h.findStringIdInternal value
    (nonZero stringId,
      { h with findStringIdMemorized := h.findStringIdMemorized.insert value stringId })

/-! ## Class names -/

def addClassNameRecord (h : Heap) (classId : ObjectId) (classNameId : StringId) : Heap :=
  { h with classNames := h.classNames.insert classId classNameId }

def getClassNameId (h : Heap) (classId : ObjectId) : Option StringId := h.classNames[classId]?

def getClassName (h : Heap) (classId : ObjectId) : Option Text :=
  (h.getClassNameId classId).bind h.getString

def findClassByNameInternal (h : Heap) (className : Text) : ObjectId × Heap :=
  match h.findStringId className with
  | (none, h) => (0, h)
  | (some classNameId, h) =>
    match h.classNames.findFirst fun _ nameId => decide (nameId = classNameId) with
    | some (classId, _) => (classId, h)
    | none => (0, h)

def findClassByName (h : Heap) (className : Text) : Option ObjectId × Heap :=
  match h.findClassByNameMemorized[className]? with
  | some memorized => (nonZero memorized, h)
  | none =>
    let (classId, h) := h.findClassByNameInternal className
    (nonZero classId,
      { h with findClassByNameMemorized := h.findClassByNameMemorized.insert className classId })

/-! ## Inheritance -/

def addInheritanceRecord (h : Heap) (classId superClassId : ObjectId) : Heap :=
  { h with inheritance := h.inheritance.insert classId superClassId }

def getSuperClass (h : Heap) (classId : ObjectId) : Option ObjectId :=
  match h.inheritance[classId]? with
  | some superClassId => nonZero superClassId
  | none => none

/-- One round of the loop of `ChildClassOf`. -/
def childClassStep (h : Heap) (superClassId current : ObjectId) : ObjectId ⊕ Bool :=
  if current = superClassId then .inr true
  else match h.getSuperClass current with
    | some super => .inl super
    | none => .inr false

def childClassOf (fuel : ℕ) (h : Heap) (classId superClassId : ObjectId) : Option Bool :=
  loop (h.childClassStep superClassId) fuel classId

/-! ## Instance fields and types -/

def addInstanceFieldRecord (h : Heap) (classId : ObjectId) (field : Field) : Heap :=
  { h with instanceFields :=
      h.instanceFields.insert classId (h.instanceFields[classId]?.getD [] ++ [field]) }

def addInstanceTypeRecord (h : Heap) (instanceId : ObjectId) (type : ObjectType) : Heap :=
  { h with instanceTypes := h.instanceTypes.insert instanceId type }

end Heap

/-- `map[referrer][referent] = reference` -/
def ReferenceMap.add (m : ReferenceMap) (referrer : ObjectId) (reference : Reference)
    (referent : ObjectId) : ReferenceMap :=
  m.insert referrer ((m[referrer]?.getD ∅).insert referent reference)

def ReferenceMap.get (m : ReferenceMap) (referrer referent : ObjectId) : Option Reference :=
  m[referrer]?.bind fun references => references[referent]?

theorem ReferenceMap.get_add (m : ReferenceMap) (referrer : ObjectId) (reference : Reference)
    (referent a b : ObjectId) :
    (m.add referrer reference referent).get a b =
      if a = referrer ∧ b = referent then some reference else m.get a b := by
  unfold add get
  rw [OrdMap.get_insert]
  by_cases ha : a = referrer
  · subst ha
    rw [if_pos rfl, Option.bind_some, OrdMap.get_insert]
    by_cases hb : b = referent
    · simp [hb]
    · cases m[a]? <;> simp [hb]
  · simp [ha]

namespace Heap

def addReference (h : Heap) (referrer : ObjectId) (reference : Reference) (referent : ObjectId) :
    Heap :=
  { h with references := h.references.add referrer reference referent }

def addExcludedReference (h : Heap) (referrer : ObjectId) (reference : Reference)
    (referent : ObjectId) : Heap :=
  { h with excludedReferences := h.excludedReferences.add referrer reference referent }

def fieldReference (staticReference : Bool) (fieldNameId : StringId) : Reference :=
  ⟨if staticReference then .kStaticField else .kInstanceField, 0, fieldNameId⟩

def addFieldReference (h : Heap) (referrer : ObjectId) (fieldNameId : StringId)
    (referent : ObjectId) (staticReference : Bool) : Heap :=
  h.addReference referrer (fieldReference staticReference fieldNameId) referent

def addFieldExcludedReference (h : Heap) (referrer : ObjectId) (fieldNameId : StringId)
    (referent : ObjectId) (staticReference : Bool) : Heap :=
  h.addExcludedReference referrer (fieldReference staticReference fieldNameId) referent

/-- The scan of one reference map for a field name. -/
def scanField (m : ReferenceMap) (referrer : ObjectId) (fieldNameId : StringId) :
    Option ObjectId :=
  match m[referrer]? with
  | some references =>
    (references.findFirst fun _ reference => decide (reference.fieldNameId = fieldNameId)).map
      Prod.fst
  | none => none

def getFieldReference (h : Heap) (referrer : ObjectId) (referenceName : Text)
    (withExcluded : Bool) : Option ObjectId × Heap :=
  match h.findStringId referenceName with
  | (none, h) => (none, h)
  | (some fieldNameId, h) =>
    match scanField h.references referrer fieldNameId with
    | some referent => (some referent, h)
    | none =>
      (if withExcluded then scanField h.excludedReferences referrer fieldNameId else none, h)

def addArrayReference (h : Heap) (referrer : ObjectId) (index : ℕ) (referent : ObjectId) : Heap :=
  h.addReference referrer ⟨.kArrayElement, index, 0⟩ referent

def getArrayReference (h : Heap) (referrer : ObjectId) (index : ℕ) : Option ObjectId :=
  match h.references[referrer]? with
  | some references =>
    (references.findFirst fun _ reference => decide (reference.index = index)).map Prod.fst
  | none => none

/-! ## GC roots -/

/-- `MarkGcRoot`, without the root's type. -/
def markGcRoot (h : Heap) (instanceId : ObjectId) : Heap :=
  { h with gcRoots := h.gcRoots ++ [instanceId] }

end Heap

end TraceHarbor.Hprof
