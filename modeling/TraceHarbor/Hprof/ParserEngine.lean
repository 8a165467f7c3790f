import TraceHarbor.Hprof.DumpHeap

/-!
# The Parser Engine

`HeapParserEngineImpl`: the record loop, the sub-records of a heap dump, and the second pass over the
instances and GC roots. Every sub-record parser returns the number of bytes that it says it has read.
The loops of the source that are not over a counted range take fuel.
-/

namespace TraceHarbor.Hprof

open TraceHarbor.Lib

structure ThreadExcludeMatcher where
  threadNameFullMatch : Bool
  threadName : Text
  deriving Repr, DecidableEq

structure NativeGlobalExcludeMatcher where
  classNameFullMatch : Bool
  className : Text
  deriving Repr, DecidableEq

structure ExcludeMatcherGroup where
  instanceFields : List FieldExcludeMatcher
  staticFields : List FieldExcludeMatcher
  threads : List ThreadExcludeMatcher
  nativeGlobals : List NativeGlobalExcludeMatcher
  deriving Repr, DecidableEq

def asciiBytes (s : String) : Text := s.toList.map fun c => UInt8.ofNat c.toNat

namespace Parser

open Lib.Traced

/-! ## Header -/

/-- One round of `ReadNullTerminatedString`. -/
def readCharacter (text : Text) : ParseM (Text ⊕ Text) := do
  let current ← read 1
  if current = 0 then return .inr text else return .inl (text ++ [UInt8.ofNat current])

def readNullTerminatedString (fuel : ℕ) : ParseM Text := loopM readCharacter fuel []

/-- The versions that `ParseHeader` accepts. -/
def versions : List Text :=
  ["JAVA PROFILE 1.0", "JAVA PROFILE 1.0.1", "JAVA PROFILE 1.0.2", "JAVA PROFILE 1.0.3"].map
    asciiBytes

local instance : LawfulBEq Text := inferInstance

def parseHeader (fuel : ℕ) : ParseM Unit := do
  let version ← readNullTerminatedString fuel
  if version ∈ versions then
    let idSize ← read 4
    initializeIdSize idSize
    skip 8
  else fail .invalidHeader

/-! ## Strings and classes -/

/-- `record_length - heap.GetIdSize()`, the difference of two `size_t`. -/
def stringLength (recordLength idSize : ℕ) : ℕ := (recordLength + 2 ^ 64 - idSize) % 2 ^ 64

def parseStringRecord (recordLength : ℕ) : ParseM Unit := do
  let idSize ← getIdSize
  let stringId ← read idSize
  let slice ← extract (stringLength recordLength idSize)
  let buffer ← gets fun s => s.reader.buffer
  modifyHeap (DumpHeap.addString · buffer stringId slice)

def parseLoadClassRecord : ParseM Unit := do
  let idSize ← getIdSize
  skip 4
  let classId ← read idSize
  skip 4
  let classNameId ← read idSize
  updateHeap (Heap.addClassNameRecord · classId classNameId)

/-! ## GC roots -/

/-- `if (object_id != 0) heap.MarkGcRoot(object_id, type)` -/
def markGcRoot (type : GcRootType) (objectId : ObjectId) : ParseM Unit :=
  if objectId ≠ 0 then modifyHeap (DumpHeap.markGcRoot · objectId type) else pure ()

def skipAll : List ℕ → ParseM Unit
  | [] => pure ()
  | size :: sizes => do
    skip size
    skipAll sizes

/-- A GC root of which all but the object is skipped. -/
def parseRootSubRecord (type : GcRootType) (skipped : ℕ → List ℕ) : ParseM ℕ := do
  let idSize ← getIdSize
  let objectId ← read idSize
  markGcRoot type objectId
  skipAll (skipped idSize)
  return idSize + (skipped idSize).sum

/-- A GC root with a thread serial number, which is recorded for the object. -/
def parseThreadRootSubRecord (type : GcRootType) (record : DumpHeap → ObjectId → ℕ → DumpHeap) :
    ParseM ℕ := do
  let idSize ← getIdSize
  let objectId ← read idSize
  markGcRoot type objectId
  let threadSerialNumber ← read 4
  modifyHeap fun h => if objectId ≠ 0 then record h objectId threadSerialNumber else h
  skip 4
  return idSize + 4 + 4

def parseHeapContentRootUnknownSubRecord : ParseM ℕ :=
  parseRootSubRecord .kRootUnknown fun _ => []

def parseHeapContentRootJniGlobalSubRecord : ParseM ℕ :=
  parseRootSubRecord .kRootJniGlobal fun idSize => [idSize]

def parseHeapContentRootJniLocalSubRecord : ParseM ℕ :=
  parseRootSubRecord .kRootJniLocal fun _ => [4, 4]

def parseHeapContentRootJavaFrameSubRecord : ParseM ℕ :=
  parseThreadRootSubRecord .kRootJavaFrame DumpHeap.addThreadReferenceRecord

def parseHeapContentRootNativeStackSubRecord : ParseM ℕ :=
  parseRootSubRecord .kRootNativeStack fun _ => [4]

def parseHeapContentRootStickyClassSubRecord : ParseM ℕ :=
  parseRootSubRecord .kRootStickyClass fun _ => []

def parseHeapContentRootThreadBlockSubRecord : ParseM ℕ :=
  parseRootSubRecord .kRootThreadBlock fun _ => [4]

def parseHeapContentRootMonitorUsedSubRecord : ParseM ℕ :=
  parseRootSubRecord .kRootMonitorUsed fun _ => []

def parseHeapContentRootThreadObjectSubRecord : ParseM ℕ :=
  parseThreadRootSubRecord .kRootThreadObject DumpHeap.addThreadObjectRecord

def parseHeapContentRootInternedStringSubRecord : ParseM ℕ :=
  parseRootSubRecord .kRootInternedString fun _ => []

def parseHeapContentRootFinalizingSubRecord : ParseM ℕ :=
  parseRootSubRecord .kRootFinalizing fun _ => []

def parseHeapContentRootDebuggerSubRecord : ParseM ℕ :=
  parseRootSubRecord .kRootDebugger fun _ => []

def parseHeapContentRootReferenceCleanupSubRecord : ParseM ℕ :=
  parseRootSubRecord .kRootReferenceCleanup fun _ => []

def parseHeapContentRootVMInternalSubRecord : ParseM ℕ :=
  parseRootSubRecord .kRootVMInternal fun _ => []

def parseHeapContentRootJniMonitorSubRecord : ParseM ℕ :=
  parseRootSubRecord .kRootJniMonitor fun _ => [4, 4]

def parseHeapContentRootUnreachableSubRecord : ParseM ℕ :=
  parseRootSubRecord .kRootUnreachable fun _ => []

/-! ## Classes -/

/-- `matcher.FullMatchClassName() ? 0 : heap.FindClassByName(matcher.GetClassName())` -/
def findMatcherClass (fullMatch : Bool) (className : Text) : ParseM (Option ObjectId) :=
  if fullMatch then pure (some 0) else findClassByName className

/-- `matcher.FullMatchFieldName() ? 0 : heap.FindStringId(matcher.GetFieldName())` -/
def findMatcherField (fullMatch : Bool) (fieldName : Text) : ParseM (Option StringId) :=
  if fullMatch then pure (some 0) else findStringId fieldName

/-- One round of `flatten_field_exclude_matchers`: nothing for a name that is not found. -/
def flattenFieldExcludeMatcher (matcher : FieldExcludeMatcher) :
    ParseM (Option FieldExcludeMatcherFlatten) := do
  match ← findMatcherClass matcher.classNameFullMatch matcher.className with
  | none => return none
  | some classId =>
    match ← findMatcherField matcher.fieldNameFullMatch matcher.fieldName with
    | none => return none
    | some fieldNameId => return some ⟨classId, fieldNameId⟩

def flattenFieldExcludeMatchers :
    List FieldExcludeMatcher → ParseM (List FieldExcludeMatcherFlatten)
  | [] => return []
  | matcher :: matchers => do
    let flattened ← flattenFieldExcludeMatcher matcher
    let rest ← flattenFieldExcludeMatchers matchers
    return flattened.toList ++ rest

/-- `matcher.class_id == 0 || heap.ChildClassOf(class_id, matcher.class_id)` -/
def hitsClass (fuel : ℕ) (classId matcherClassId : ObjectId) : ParseM Bool :=
  if matcherClassId = 0 then pure true else childClassOf fuel classId matcherClassId

/-- The loop that fills `class_match_matchers`. -/
def classMatchMatchers (fuel : ℕ) (classId : ObjectId) :
    List FieldExcludeMatcherFlatten → ParseM (List FieldExcludeMatcherFlatten)
  | [] => return []
  | matcher :: matchers => do
    let hit ← hitsClass fuel classId matcher.classId
    let hits ← classMatchMatchers fuel classId matchers
    return if hit then matcher :: hits else hits

def excludes (matchers : List FieldExcludeMatcherFlatten) (fieldNameId : StringId) : Bool :=
  matchers.any fun matcher => matcher.fieldNameId = 0 ∨ matcher.fieldNameId = fieldNameId

/-- The reference of a field, to the side that the matchers say. -/
def addFieldReference (matchers : List FieldExcludeMatcherFlatten) (referrerId : ObjectId)
    (fieldNameId : StringId) (referentId : ObjectId) (static : Bool) : ParseM Unit :=
  updateHeap fun h =>
    if excludes matchers fieldNameId then
      h.addFieldExcludedReference referrerId fieldNameId referentId static
    else h.addFieldReference referrerId fieldNameId referentId static

def skipConstantPool (idSize : ℕ) : ℕ → ParseM ℕ
  | 0 => pure 0
  | length + 1 => do
    skip 2
    let type ← readValueType
    skip (valueSize idSize type)
    let size ← skipConstantPool idSize length
    return 2 + 1 + valueSize idSize type + size

def parseStaticValue (idSize : ℕ) (matchers : List FieldExcludeMatcherFlatten) (classId : ObjectId)
    (fieldNameId : StringId) (type : ValueType) : ParseM ℕ := do
  if type = .kObject then
    let referentId ← read idSize
    addFieldReference matchers classId fieldNameId referentId true
    return idSize
  else
    skip (getValueTypeSize type)
    return getValueTypeSize type

def parseStaticFields (idSize : ℕ) (matchers : List FieldExcludeMatcherFlatten)
    (classId : ObjectId) : ℕ → ParseM ℕ
  | 0 => pure 0
  | length + 1 => do
    let fieldNameId ← read idSize
    let type ← readValueType
    let valueSize ← parseStaticValue idSize matchers classId fieldNameId type
    let size ← parseStaticFields idSize matchers classId length
    return idSize + 1 + valueSize + size

def parseInstanceFields (idSize : ℕ) (classId : ObjectId) : ℕ → ParseM ℕ
  | 0 => pure 0
  | length + 1 => do
    let fieldNameId ← read idSize
    let type ← readValueType
    updateHeap (Heap.addInstanceFieldRecord · classId ⟨fieldNameId, type⟩)
    let size ← parseInstanceFields idSize classId length
    return idSize + 1 + size

def parseHeapContentClassSubRecord (fuel : ℕ) (group : ExcludeMatcherGroup) : ParseM ℕ := do
  let idSize ← getIdSize
  let classId ← read idSize
  updateHeap (Heap.addInstanceTypeRecord · classId .kClass)
  skip 4
  let superClassId ← read idSize
  updateHeap (Heap.addInheritanceRecord · classId superClassId)
  -- class loader, signers, protection domain and two reserved identifiers
  skipAll [idSize, idSize, idSize, idSize, idSize]
  skip 4
  let constantPoolLength ← read 2
  let constantPoolSize ← skipConstantPool idSize constantPoolLength
  let staticFieldsLength ← read 2
  let flattened ← flattenFieldExcludeMatchers group.staticFields
  let matchers ← classMatchMatchers fuel classId flattened
  let staticSize ← parseStaticFields idSize matchers classId staticFieldsLength
  let nonStaticFieldsLength ← read 2
  let nonStaticSize ← parseInstanceFields idSize classId nonStaticFieldsLength
  let contentSize := 2 + constantPoolSize + (2 + staticSize) + (2 + nonStaticSize)
  return idSize + 4 + idSize * 6 + 4 + contentSize

/-! ## Instances and arrays -/

def parseHeapContentInstanceSubRecord : ParseM ℕ := do
  let idSize ← getIdSize
  let instanceId ← read idSize
  updateHeap (Heap.addInstanceTypeRecord · instanceId .kInstance)
  skip 4
  let classId ← read idSize
  modifyHeap (DumpHeap.addInstanceClassRecord · instanceId classId)
  let fieldsDataSize ← read 4
  let fieldsData ← extract fieldsDataSize
  modifyHeap (DumpHeap.addFieldsData · ⟨instanceId, classId, fieldsData⟩)
  return idSize + 4 + idSize + 4 + fieldsDataSize

/-- The loop over the elements of an object array. -/
def parseElements (idSize : ℕ) (arrayId : ObjectId) : ℕ → ℕ → ParseM Unit
  | 0, _ => pure ()
  | length + 1, index => do
    let referentId ← read idSize
    updateHeap (Heap.addArrayReference · arrayId index referentId)
    parseElements idSize arrayId length (index + 1)

def parseHeapContentObjectArraySubRecord : ParseM ℕ := do
  let idSize ← getIdSize
  let arrayId ← read idSize
  updateHeap (Heap.addInstanceTypeRecord · arrayId .kObjectArray)
  skip 4
  let arrayLength ← read 4
  let classId ← read idSize
  modifyHeap (DumpHeap.addInstanceClassRecord · arrayId classId)
  parseElements idSize arrayId arrayLength 0
  return idSize + 4 + 4 + idSize + arrayLength * idSize

def readPrimitiveArray (arrayId : ObjectId) (type : ValueType) (dataSize : ℕ) : ParseM Unit :=
  if type = .kObject then fail .elementNotPrimitive
  else do
    let data ← extract dataSize
    modifyHeap (DumpHeap.addPrimitiveArray · arrayId ⟨type, data⟩)

def parseHeapContentPrimitiveArraySubRecord : ParseM ℕ := do
  let idSize ← getIdSize
  let arrayId ← read idSize
  updateHeap (Heap.addInstanceTypeRecord · arrayId .kPrimitiveArray)
  skip 4
  let arrayLength ← read 4
  let type ← readValueType
  let arraySize := arrayLength * getValueTypeSize type
  readPrimitiveArray arrayId type arraySize
  return idSize + 4 + 4 + 1 + arraySize

def parseHeapContentPrimitiveArrayNoDataDumpSubRecord : ParseM ℕ := do
  let idSize ← getIdSize
  let arrayId ← read idSize
  updateHeap (Heap.addInstanceTypeRecord · arrayId .kPrimitiveArray)
  skipAll [4, 4, 1]
  return idSize + 4 + 4 + 1

def skipHeapContentInfoSubRecord : ParseM ℕ := do
  let idSize ← getIdSize
  skipAll [4, idSize]
  return 4 + idSize

/-! ## Records -/

/-- The `switch` of `ParseHeapContent`. -/
def parseSubRecord (fuel : ℕ) (group : ExcludeMatcherGroup) (tag : ℕ) : ParseM ℕ :=
  match tag with
  | 0xff => parseHeapContentRootUnknownSubRecord
  | 0x01 => parseHeapContentRootJniGlobalSubRecord
  | 0x02 => parseHeapContentRootJniLocalSubRecord
  | 0x03 => parseHeapContentRootJavaFrameSubRecord
  | 0x04 => parseHeapContentRootNativeStackSubRecord
  | 0x05 => parseHeapContentRootStickyClassSubRecord
  | 0x06 => parseHeapContentRootThreadBlockSubRecord
  | 0x07 => parseHeapContentRootMonitorUsedSubRecord
  | 0x08 => parseHeapContentRootThreadObjectSubRecord
  | 0x89 => parseHeapContentRootInternedStringSubRecord
  | 0x8a => parseHeapContentRootFinalizingSubRecord
  | 0x8b => parseHeapContentRootDebuggerSubRecord
  | 0x8c => parseHeapContentRootReferenceCleanupSubRecord
  | 0x8d => parseHeapContentRootVMInternalSubRecord
  | 0x8e => parseHeapContentRootJniMonitorSubRecord
  | 0x90 => parseHeapContentRootUnreachableSubRecord
  | 0x20 => parseHeapContentClassSubRecord fuel group
  | 0x21 => parseHeapContentInstanceSubRecord
  | 0x22 => parseHeapContentObjectArraySubRecord
  | 0x23 => parseHeapContentPrimitiveArraySubRecord
  | 0xc3 => parseHeapContentPrimitiveArrayNoDataDumpSubRecord
  | 0xfe => skipHeapContentInfoSubRecord
  | tag => fail (.unsupportedTag tag)

/-- One round of the loop of `ParseHeapContent`. -/
def parseHeapContentRound (fuel : ℕ) (group : ExcludeMatcherGroup) (recordLength bytesRead : ℕ) :
    ParseM (ℕ ⊕ ℕ) :=
  if bytesRead < recordLength then do
    let tag ← read 1
    let size ← parseSubRecord fuel group tag
    return .inl (bytesRead + 1 + size)
  else return .inr bytesRead

/-- `ParseHeapContent`, with the final value of `bytes_read` -/
def parseHeapContent (fuel : ℕ) (group : ExcludeMatcherGroup) (recordLength : ℕ) : ParseM ℕ :=
  loopM (parseHeapContentRound fuel group recordLength) fuel 0

/-- The `switch` of `Parse`; the answer says whether the dump is at its end. -/
def parseRecord (fuel : ℕ) (group : ExcludeMatcherGroup) (tag length : ℕ) : ParseM (Unit ⊕ Unit) :=
  match tag with
  | 0x01 => do
    parseStringRecord length
    return .inl ()
  | 0x02 => do
    parseLoadClassRecord
    return .inl ()
  | 0x0c | 0x1c => do
    let _ ← parseHeapContent fuel group length
    return .inl ()
  | 0x2c => return .inr ()
  | _ => do
    skip length
    return .inl ()

/-- One round of the loop of `Parse`. -/
def parseRecordRound (fuel : ℕ) (group : ExcludeMatcherGroup) (_ : Unit) : ParseM (Unit ⊕ Unit) := do
  let tag ← read 1
  skip 4
  let length ← read 4
  emit (.header tag length)
  parseRecord fuel group tag length

/-! ## The second pass -/

/-- `fields_data_reader.Read(size)` -/
def scopedRead (size : ℕ) (scope : Reader) : ParseM (ℕ × Reader) :=
  orFail .endOfBuffer (Reader.read size scope)

def parseField (matchers : List FieldExcludeMatcherFlatten) (referrerId : ObjectId) (field : Field)
    (scope : Reader) : ParseM Reader := do
  if field.type = .kObject then
    let idSize ← getIdSize
    let (referentId, scope) ← scopedRead idSize scope
    addFieldReference matchers referrerId field.nameId referentId false
    return scope
  else
    let (data, scope) ← scopedRead (getValueTypeSize field.type) scope
    modifyHeap (DumpHeap.addPrimitive · referrerId field.nameId ⟨field.type, data⟩)
    return scope

def parseFields (matchers : List FieldExcludeMatcherFlatten) (referrerId : ObjectId) :
    List Field → Reader → ParseM Reader
  | [], scope => return scope
  | field :: fields, scope => do
    let scope ← parseField matchers referrerId field scope
    parseFields matchers referrerId fields scope

/-- One round of the loop over the classes of an instance. -/
def parseClassOfInstance (matchers : List FieldExcludeMatcherFlatten) (referrerId : ObjectId)
    (current : ObjectId × Reader) : ParseM ((ObjectId × Reader) ⊕ Unit) := do
  let h ← gets fun s => s.heap
  let scope ← parseFields matchers referrerId (h.instanceFields[current.1]?.getD []) current.2
  match h.getSuperClass current.1 with
  | some superClassId => return .inl (superClassId, scope)
  | none => return .inr ()

def walkFields (fuel : ℕ) (matchers : List FieldExcludeMatcherFlatten)
    (task : HeapFieldsData) : ParseM Unit := do
  let s ← gets fun s => s
  emit (.walkFields s.heap.toHeap task.classId task.fieldsData.length)
  loopM (parseClassOfInstance matchers task.instanceId) fuel
    (task.classId, ⟨task.fieldsData.bytes s.reader.buffer, 0⟩)

def parseInstances (fuel : ℕ) (flattened : List FieldExcludeMatcherFlatten) :
    List HeapFieldsData → ParseM Unit
  | [] => return ()
  | task :: tasks => do
    let matchers ← classMatchMatchers fuel task.classId flattened
    walkFields fuel matchers task
    parseInstances fuel flattened tasks

section Roots

-- `converter.to_bytes`; `none` is its `std::range_error`
variable (toBytes : List ℕ → Option Text)

/-- The code units of a UTF-16 text at a position of the buffer, if they lie in it. -/
def codeUnits (buffer : List UInt8) (start : ℕ) : ℕ → Option (List ℕ)
  | 0 => some []
  | count + 1 => do
    let high ← buffer[start]?
    let low ← buffer[start + 1]?
    let units ← codeUnits buffer (start + 2) count
    return (high.toNat * 2 ^ 8 + low.toNat) :: units

/-- `convert_utf_16_string`, at a position that may be outside the buffer. -/
def convertUtf16String (start size : ℕ) : ParseM Text := fun s =>
  let event := Event.convert s.reader.buffer start (size / 2)
  match (codeUnits s.reader.buffer start (size / 2)).bind toBytes with
  | some text => ⟨[event], .done text s⟩
  | none => ⟨[event], .crash⟩

/-- The branch of `GetValueFromStringInstance` for `char` arrays, in arithmetic of `size_t`. -/
def getCharContent (instanceId : ObjectId) (content : Slice) : ParseM Text := do
  let offset ← getFieldInt instanceId (asciiBytes "offset")
  let count ← getFieldInt instanceId (asciiBytes "count")
  let offset := (offset * 2 % 2 ^ 64).toNat
  let size := min (count * 2 % 2 ^ 64).toNat ((content.length + 2 ^ 64 - offset) % 2 ^ 64)
  convertUtf16String toBytes ((content.start + offset) % 2 ^ 64) size

def getStringContent (instanceId : ObjectId) (array : HeapPrimitiveArrayData) : ParseM Text := do
  if array.type = .kChar then getCharContent toBytes instanceId array.data
  else if array.type = .kByte then
    let buffer ← gets fun s => s.reader.buffer
    return array.data.bytes buffer
  else fail .unexpectedStringArray

/-- The part of `GetValueFromStringInstance` for a string. -/
def getStringValue (instanceId : ObjectId) : ParseM (Option Text) := do
  match ← getFieldReference instanceId (asciiBytes "value") with
  | none => return none
  | some arrayId =>
    let h ← gets fun s => s.heap
    match h.primitiveArrays[arrayId]? with
    | none => return none
    | some array => some <$> getStringContent toBytes instanceId array

/-- An instance of the class with the name; the answer without such a class is no. -/
def instanceOfNamed (fuel : ℕ) (instanceId : ObjectId) (className : Text) : ParseM Bool := do
  match ← findClassByName className with
  | none => return false
  | some classId => instanceOf fuel instanceId classId

def getValueFromStringInstance (fuel : ℕ) (instanceId : ObjectId) : ParseM (Option Text) := do
  if ← instanceOfNamed fuel instanceId (asciiBytes "java.lang.String") then
    getStringValue toBytes instanceId
  else return none

def getThreadName (fuel : ℕ) (threadObjectId : ObjectId) : ParseM (Option Text) := do
  if ← instanceOfNamed fuel threadObjectId (asciiBytes "java.lang.Thread") then
    match ← getFieldReference threadObjectId (asciiBytes "name") with
    | none => return none
    | some nameStringId => getValueFromStringInstance toBytes fuel nameStringId
  else return none

/-- The root of a Java frame: excluded if a matcher names its thread. -/
def excludeJavaFrame (fuel : ℕ) (threads : List ThreadExcludeMatcher) (gcRoot : ObjectId) :
    ParseM Unit := do
  let h ← gets fun s => s.heap
  let threadSerialNumber ← orFail .noThreadSerialNumber h.threadSerialNumbers[gcRoot]?
  let threadObjectId ← orFail .noThreadObject h.threadObjectIds[threadSerialNumber]?
  match ← getThreadName toBytes fuel threadObjectId with
  | none => return ()
  | some threadName =>
    if threads.any fun matcher => matcher.threadNameFullMatch ∨ matcher.threadName = threadName then
      modifyHeap (DumpHeap.excludeReferences · gcRoot)
    else return ()

def flattenNativeGlobalExcludeMatchers :
    List NativeGlobalExcludeMatcher → ParseM (List ObjectId)
  | [] => return []
  | matcher :: matchers => do
    let classId ← findMatcherClass matcher.classNameFullMatch matcher.className
    let rest ← flattenNativeGlobalExcludeMatchers matchers
    return classId.toList ++ rest

/-- `matcher.class_id == 0 || heap.InstanceOf(gc_root, matcher.class_id)` -/
def hitsRoot (fuel : ℕ) (gcRoot matcherClassId : ObjectId) : ParseM Bool :=
  if matcherClassId = 0 then pure true else instanceOf fuel gcRoot matcherClassId

/-- The root of a native global: excluded if a matcher names a class of it. -/
def excludeJniGlobal (fuel : ℕ) (gcRoot : ObjectId) : List ObjectId → ParseM Unit
  | [] => return ()
  | classId :: classIds => do
    let hit ← hitsRoot fuel gcRoot classId
    modifyHeap fun h => if hit then h.excludeReferences gcRoot else h
    excludeJniGlobal fuel gcRoot classIds

def excludeRoot (fuel : ℕ) (threads : List ThreadExcludeMatcher) (classIds : List ObjectId)
    (gcRoot : ObjectId) : ParseM Unit := do
  let h ← gets fun s => s.heap
  let type ← orFail .noGcRootType h.gcRootTypes[gcRoot]?
  if type = .kRootJavaFrame then excludeJavaFrame toBytes fuel threads gcRoot
  else if type = .kRootJniGlobal then excludeJniGlobal fuel gcRoot classIds
  else return ()

def excludeRoots (fuel : ℕ) (threads : List ThreadExcludeMatcher) (classIds : List ObjectId) :
    List ObjectId → ParseM Unit
  | [] => return ()
  | gcRoot :: gcRoots => do
    excludeRoot toBytes fuel threads classIds gcRoot
    excludeRoots fuel threads classIds gcRoots

/-- The instances in the order of their ids: `ScopedGetFieldsDataList` -/
def scopedGetFieldsDataList (h : DumpHeap) : List HeapFieldsData := h.fieldsData.toList.map Prod.snd

def lazyParse (fuel : ℕ) (group : ExcludeMatcherGroup) : ParseM Unit := do
  let flattened ← flattenFieldExcludeMatchers group.instanceFields
  let tasks ← gets fun s => scopedGetFieldsDataList s.heap
  parseInstances fuel flattened tasks
  let classIds ← flattenNativeGlobalExcludeMatchers group.nativeGlobals
  let gcRoots ← gets fun s => s.heap.gcRoots
  excludeRoots toBytes fuel group.threads classIds gcRoots

def parse (fuel : ℕ) (group : ExcludeMatcherGroup) : ParseM Unit := do
  parseHeader fuel
  loopM (parseRecordRound fuel group) fuel ()
  lazyParse toBytes fuel group

end Roots

/-- The state at the start of `Parse`. -/
def start (buffer : List UInt8) : ParserState := ⟨⟨buffer, 0⟩, .new⟩

end Parser

end TraceHarbor.Hprof
