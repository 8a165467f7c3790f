import TraceHarbor.Hprof.Heap
import TraceHarbor.Hprof.Reader

/-!
# Parsing Class Dumps

`ParseHeapContentClassSubRecord` records the superclass of a class dump, decides for every static object
field whether an exclude matcher hits it, and adds the reference to the leak reference graph or to the
excluded references. The matchers of class names are compared with the superclasses of the class dumps
parsed so far. `ChildClassOf` takes fuel, since the superclass map may be cyclic.

Beside the heap, the parser here returns the static references in the order they were added, each with
the side it went to.
-/

namespace TraceHarbor.Hprof

open TraceHarbor.Lib

structure FieldExcludeMatcher where
  classNameFullMatch : Bool
  className : Text
  fieldNameFullMatch : Bool
  fieldName : Text
  deriving Repr, DecidableEq

/-- The bytes of `"*"`. -/
def star : Text := [0x2a]

/-- The constructor of `FieldExcludeMatcher`. -/
def FieldExcludeMatcher.new (className fieldName : Text) : FieldExcludeMatcher where
  classNameFullMatch := className = star
  className := if className = star then [] else className
  fieldNameFullMatch := fieldName = star
  fieldName := if fieldName = star then [] else fieldName

/-- `field_exclude_matcher_flatten_t`; 0 stands for a full match. -/
structure FieldExcludeMatcherFlatten where
  classId : ObjectId
  fieldNameId : StringId
  deriving Repr, DecidableEq

def FieldExcludeMatcher.findClassId (matcher : FieldExcludeMatcher) (h : Heap) :
    Option ObjectId × Heap :=
  if matcher.classNameFullMatch then (some 0, h) else h.findClassByName matcher.className

def FieldExcludeMatcher.findFieldNameId (matcher : FieldExcludeMatcher) (h : Heap) :
    Option StringId × Heap :=
  if matcher.fieldNameFullMatch then (some 0, h) else h.findStringId matcher.fieldName

/-- `flatten_field_exclude_matchers`: matchers whose names cannot be resolved are left out. -/
def flattenFieldExcludeMatchers :
    List FieldExcludeMatcher → Heap → List FieldExcludeMatcherFlatten × Heap
  | [], h => ([], h)
  | matcher :: matchers, h =>
    match matcher.findClassId h with
    | (none, h) => flattenFieldExcludeMatchers matchers h
    | (some classId, h) =>
      match matcher.findFieldNameId h with
      | (none, h) => flattenFieldExcludeMatchers matchers h
      | (some fieldNameId, h) =>
        let (flattened, h) := flattenFieldExcludeMatchers matchers h
        (⟨classId, fieldNameId⟩ :: flattened, h)

/-- `matcher.class_id == 0 || heap.ChildClassOf(class_id, matcher.class_id)` -/
def hitsClass (fuel : ℕ) (h : Heap) (classId : ObjectId) (matcher : FieldExcludeMatcherFlatten) :
    Option Bool :=
  if matcher.classId = 0 then some true else h.childClassOf fuel classId matcher.classId

/-- The matchers that hit the class. -/
def classMatchMatchers (fuel : ℕ) (h : Heap) (classId : ObjectId) :
    List FieldExcludeMatcherFlatten → Option (List FieldExcludeMatcherFlatten)
  | [] => some []
  | matcher :: matchers => do
    let hit ← hitsClass fuel h classId matcher
    let hits ← classMatchMatchers fuel h classId matchers
    return if hit then matcher :: hits else hits

/-- A static reference and the side it was added to. -/
structure StaticReference where
  classId : ObjectId
  fieldNameId : StringId
  referentId : ObjectId
  excluded : Bool
  deriving Repr, DecidableEq

def StaticReference.addTo (h : Heap) (s : StaticReference) : Heap :=
  if s.excluded then h.addFieldExcludedReference s.classId s.fieldNameId s.referentId true
  else h.addFieldReference s.classId s.fieldNameId s.referentId true

/-- `value_type_cast(reader.ReadU1())` -/
def readValueType : ReadM ValueType := do
  let type ← Reader.readU1
  StateT.lift (valueTypeCast type)

def valueSize (idSize : ℕ) (type : ValueType) : ℕ :=
  if type = .kObject then idSize else getValueTypeSize type

/-- The loop over the constant pool; returns its part of `content_size`. -/
def skipConstantPool (idSize : ℕ) : ℕ → ReadM ℕ
  | 0 => pure 0
  | length + 1 => do
    Reader.skipU2
    let type ← readValueType
    Reader.skip (valueSize idSize type)
    let size ← skipConstantPool idSize length
    return 2 + 1 + valueSize idSize type + size

/-- The loop over the static fields; returns its part of `content_size` last. -/
def parseStaticFields (idSize : ℕ) (matchers : List FieldExcludeMatcherFlatten)
    (classId : ObjectId) : ℕ → Heap → ReadM (Heap × List StaticReference × ℕ)
  | 0, h => pure (h, [], 0)
  | length + 1, h => do
    let fieldNameId ← Reader.read idSize
    let type ← readValueType
    if type = .kObject then
      let referentId ← Reader.read idSize
      let excluded := matchers.any fun matcher =>
        matcher.fieldNameId = 0 ∨ matcher.fieldNameId = fieldNameId
      let static : StaticReference := ⟨classId, fieldNameId, referentId, excluded⟩
      let (h, statics, size) ← parseStaticFields idSize matchers classId length (static.addTo h)
      return (h, static :: statics, idSize + 1 + idSize + size)
    else
      Reader.skip (getValueTypeSize type)
      let (h, statics, size) ← parseStaticFields idSize matchers classId length h
      return (h, statics, idSize + 1 + getValueTypeSize type + size)

/-- The loop over the instance fields; returns its part of `content_size` last. -/
def parseInstanceFields (idSize : ℕ) (classId : ObjectId) : ℕ → Heap → ReadM (Heap × ℕ)
  | 0, h => pure (h, 0)
  | length + 1, h => do
    let fieldNameId ← Reader.read idSize
    let type ← readValueType
    let (h, size) ← parseInstanceFields idSize classId length
      (h.addInstanceFieldRecord classId ⟨fieldNameId, type⟩)
    return (h, idSize + 1 + size)

/-- `ParseHeapContentClassSubRecord`; returns the number of bytes read last. -/
def parseHeapContentClassSubRecord (fuel : ℕ) (staticFields : List FieldExcludeMatcher) (h : Heap) :
    ReadM (Heap × List StaticReference × ℕ) := do
  let idSize ← StateT.lift h.getIdSize
  let classId ← Reader.read idSize
  let h := h.addInstanceTypeRecord classId .kClass
  Reader.skipU4
  let superClassId ← Reader.read idSize
  let h := h.addInheritanceRecord classId superClassId
  -- class loader, signers, protection domain and two reserved identifiers
  Reader.skip idSize
  Reader.skip idSize
  Reader.skip idSize
  Reader.skip idSize
  Reader.skip idSize
  Reader.skipU4
  let constantPoolLength ← Reader.readU2
  let constantPoolSize ← skipConstantPool idSize constantPoolLength
  let staticFieldsLength ← Reader.readU2
  let (flattened, h) := flattenFieldExcludeMatchers staticFields h
  let matchers ← StateT.lift (classMatchMatchers fuel h classId flattened)
  let (h, statics, staticSize) ← parseStaticFields idSize matchers classId staticFieldsLength h
  let nonStaticFieldsLength ← Reader.readU2
  let (h, nonStaticSize) ← parseInstanceFields idSize classId nonStaticFieldsLength h
  let contentSize := 2 + constantPoolSize + (2 + staticSize) + (2 + nonStaticSize)
  return (h, statics, idSize + 4 + idSize * 6 + 4 + contentSize)

def parseClassSubRecords (fuel : ℕ) (staticFields : List FieldExcludeMatcher) :
    ℕ → Heap → ReadM (Heap × List StaticReference)
  | 0, h => pure (h, [])
  | count + 1, h => do
    let (h, statics, _) ← parseHeapContentClassSubRecord fuel staticFields h
    let (h, more) ← parseClassSubRecords fuel staticFields count h
    return (h, statics ++ more)

end TraceHarbor.Hprof
