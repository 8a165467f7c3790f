import TraceHarbor.Hprof.Engine
import TraceHarbor.Lib.Traced

/-!
# The Heap of a Dump and the Parser's Steps

`DumpHeap` is the whole of `Heap`, with the pieces of the input buffer that strings, instances and arrays
refer to. `ParseM` is a step of the parser: it may end in one of the fatal errors (`Fatal`), and leaves a
trace (`Event`) of the record headers, the calls of the reader, and the places where the program might
not go on.

Sizes and the cursor are of type `size_t`, with 64 bits, so that `Skip` may wrap around.
-/

namespace TraceHarbor.Hprof

open TraceHarbor.Lib

/-! ## Data -/

inductive GcRootType where
  | kRootJniGlobal
  | kRootJniLocal
  | kRootJavaFrame
  | kRootNativeStack
  | kRootStickyClass
  | kRootThreadBlock
  | kRootMonitorUsed
  | kRootThreadObject
  | kRootInternedString
  | kRootFinalizing
  | kRootDebugger
  | kRootReferenceCleanup
  | kRootVMInternal
  | kRootJniMonitor
  | kRootUnknown
  | kRootUnreachable
  deriving Repr, DecidableEq

structure Slice where
  start : ℕ
  length : ℕ
  deriving Repr, DecidableEq

namespace Slice

def Inside (slice : Slice) (size : ℕ) : Prop := slice.start + slice.length ≤ size

instance (slice : Slice) (size : ℕ) : Decidable (slice.Inside size) :=
  inferInstanceAs (Decidable (_ ≤ _))

def bytes (slice : Slice) (buffer : List UInt8) : List UInt8 :=
  (buffer.drop slice.start).take slice.length

end Slice

structure HeapFieldsData where
  instanceId : ObjectId
  classId : ObjectId
  fieldsData : Slice
  deriving Repr, DecidableEq

structure HeapPrimitiveData where
  type : ValueType
  data : ℕ
  deriving Repr, DecidableEq

structure HeapPrimitiveArrayData where
  type : ValueType
  data : Slice
  deriving Repr, DecidableEq

/-- `Heap`, with the slices of the input buffer. `strings` holds the bytes of the string slices. -/
structure DumpHeap extends Heap where
  instanceClasses : OrdMap ObjectId ObjectId
  gcRootTypes : OrdMap ObjectId GcRootType
  threadSerialNumbers : OrdMap ObjectId ℕ
  threadObjectIds : OrdMap ℕ ObjectId
  stringSlices : OrdMap StringId Slice
  fieldsData : OrdMap ObjectId HeapFieldsData
  primitives : OrdMap ObjectId (OrdMap StringId HeapPrimitiveData)
  primitiveArrays : OrdMap ObjectId HeapPrimitiveArrayData

namespace DumpHeap

def new : DumpHeap where
  toHeap := .new 0
  instanceClasses := ∅
  gcRootTypes := ∅
  threadSerialNumbers := ∅
  threadObjectIds := ∅
  stringSlices := ∅
  fieldsData := ∅
  primitives := ∅
  primitiveArrays := ∅

def updateHeap (h : DumpHeap) (f : Heap → Heap) : DumpHeap := { h with toHeap := f h.toHeap }

/-- `AddString`, for a slice of the buffer. -/
def addString (h : DumpHeap) (buffer : List UInt8) (stringId : StringId) (slice : Slice) :
    DumpHeap :=
  { h.updateHeap (Heap.addString · stringId (slice.bytes buffer)) with
    stringSlices := h.stringSlices.insert stringId slice }

def addInstanceClassRecord (h : DumpHeap) (instanceId classId : ObjectId) : DumpHeap :=
  { h with instanceClasses := h.instanceClasses.insert instanceId classId }

def markGcRoot (h : DumpHeap) (instanceId : ObjectId) (type : GcRootType) : DumpHeap :=
  { h.updateHeap (Heap.markGcRoot · instanceId) with
    gcRootTypes := h.gcRootTypes.insert instanceId type }

def addThreadReferenceRecord (h : DumpHeap) (instanceId : ObjectId) (threadSerialNumber : ℕ) :
    DumpHeap :=
  { h with threadSerialNumbers := h.threadSerialNumbers.insert instanceId threadSerialNumber }

def addThreadObjectRecord (h : DumpHeap) (threadObjectId : ObjectId) (threadSerialNumber : ℕ) :
    DumpHeap :=
  { h with threadObjectIds := h.threadObjectIds.insert threadSerialNumber threadObjectId }

/-- The part of `ReadFieldsData` after the slice is extracted; `emplace` keeps what is there. -/
def addFieldsData (h : DumpHeap) (data : HeapFieldsData) : DumpHeap :=
  { h with fieldsData := h.fieldsData.insertIfNew data.instanceId data }

/-- The part of `ReadPrimitive` after the value is read. -/
def addPrimitive (h : DumpHeap) (referrerId : ObjectId) (fieldNameId : StringId)
    (data : HeapPrimitiveData) : DumpHeap :=
  let values := (h.primitives[referrerId]?.getD ∅).insertIfNew fieldNameId data
  { h with primitives := h.primitives.insert referrerId values }

/-- The part of `ReadPrimitiveArray` after the slice is extracted. -/
def addPrimitiveArray (h : DumpHeap) (arrayId : ObjectId) (data : HeapPrimitiveArrayData) :
    DumpHeap :=
  { h with primitiveArrays := h.primitiveArrays.insertIfNew arrayId data }

def excludeReferences (h : DumpHeap) (referrerId : ObjectId) : DumpHeap :=
  match h.references[referrerId]? with
  | none => h
  | some references => h.updateHeap fun heap =>
    let heap' := references.toList.foldl
      (fun heap pair => heap.addExcludedReference referrerId pair.2 pair.1) heap
    { heap' with references := heap'.references.erase referrerId }

end DumpHeap

/-! ## Errors -/

/-- The calls of `pub_fatal`. -/
inductive Fatal where
  | endOfBuffer
  | invalidValueType (type : ℕ)
  | valueNotPrimitive
  | elementNotPrimitive
  | invalidIdSize
  | idSizeInitialized
  | idSizeNotInitialized
  | noGcRootType
  | noThreadSerialNumber
  | noThreadObject
  | unexpectedStringArray
  | invalidHeader
  | unsupportedTag (tag : ℕ)
  deriving Repr, DecidableEq

def Fatal.message : Fatal → String
  | endOfBuffer => "reach the end of buffer"
  | invalidValueType type => "invalid value type " ++ toString type
  | valueNotPrimitive => "value type is not primitive"
  | elementNotPrimitive => "array element type is not primitive"
  | invalidIdSize => "invalid identifier size"
  | idSizeInitialized => "identifier size already initialized"
  | idSizeNotInitialized => "identifier size not initialized"
  | noGcRootType => "find GC root type failed"
  | noThreadSerialNumber => "find thread serial number failed"
  | noThreadObject => "find thread object failed"
  | unexpectedStringArray => "unexpected array type for field java.lang.String.value"
  | invalidHeader => "invalid HPROF header"
  | unsupportedTag tag => "unsupported heap dump tag " ++ toString tag

/-! ## Steps -/

structure ParserState where
  reader : Reader
  heap : DumpHeap

inductive Event where
  /-- A record header. -/
  | header (tag length : ℕ)
  /-- A call of the reader for `size` bytes, with the cursor before and after it. -/
  | call (start size stop : ℕ)
  /-- A call of `ChildClassOf`. -/
  | childClassOf (h : Heap) (classId superClassId : ObjectId)
  /-- The loop over the classes of an instance, with the number of bytes of its data. -/
  | walkFields (h : Heap) (classId : ObjectId) (size : ℕ)
  /-- A scan of the strings. -/
  | findString (slices : OrdMap StringId Slice) (buffer : List UInt8) (value : Text)
  /-- A conversion of UTF-16 code units at a position of the buffer. -/
  | convert (buffer : List UInt8) (start count : ℕ)

abbrev ParseM := Lib.Traced Event Fatal ParserState

/-- `Skip(size)`, with a sum that may wrap around. -/
def Reader.skipSize (size : ℕ) : ReadM Unit := fun r =>
  if (r.cursor + size) % 2 ^ 64 > r.buffer.length then none
  else some ((), { r with cursor := (r.cursor + size) % 2 ^ 64 })

namespace Parser

open Lib.Traced

def onReader {α : Type} (size : ℕ) (action : ReadM α) : ParseM α := fun s =>
  match action s.reader with
  | some (a, r) => ⟨[.call s.reader.cursor size r.cursor], .done a { s with reader := r }⟩
  | none => ⟨[], .fatal .endOfBuffer⟩

def read (size : ℕ) : ParseM ℕ := onReader size (Reader.read size)

def skip (size : ℕ) : ParseM Unit := onReader size (Reader.skipSize size)

def extract (size : ℕ) : ParseM Slice := do
  let start ← gets fun s => s.reader.cursor
  skip size
  return ⟨start, size⟩

def modifyHeap (f : DumpHeap → DumpHeap) : ParseM Unit :=
  modify fun s => { s with heap := f s.heap }

def updateHeap (f : Heap → Heap) : ParseM Unit := modifyHeap (DumpHeap.updateHeap · f)

def getIdSize : ParseM ℕ := do
  let h ← gets fun s => s.heap
  orFail .idSizeNotInitialized h.getIdSize

def initializeIdSize (idSize : ℕ) : ParseM Unit := do
  let h ← gets fun s => s.heap
  if idSize = 0 then fail .invalidIdSize
  else if h.idSize ≠ 0 then fail .idSizeInitialized
  else updateHeap fun h => { h with idSize := idSize }

/-- `value_type_cast(reader.ReadU1())` -/
def readValueType : ParseM ValueType := do
  let type ← read 1
  orFail (.invalidValueType type) (valueTypeCast type)

/-! ## Lookups -/

/-- A scan of the strings comes to one whose slice is outside the buffer before it finds the text,
and throws `std::length_error`. -/
def scanThrows (slices : OrdMap StringId Slice) (buffer : List UInt8) (value : Text) : Bool :=
  match slices.findFirst fun _ slice =>
      decide (¬ slice.Inside buffer.length ∨ slice.bytes buffer = value) with
  | some (_, slice) => decide (¬ slice.Inside buffer.length)
  | none => false

def findStringId (value : Text) : ParseM (Option StringId) := fun s =>
  match s.heap.findStringIdMemorized[value]? with
  | some memorized => ⟨[], .done (Heap.nonZero memorized) s⟩
  | none =>
    let event := Event.findString s.heap.stringSlices s.reader.buffer value
    if scanThrows s.heap.stringSlices s.reader.buffer value then ⟨[event], .crash⟩
    else
      let (answer, h) := s.heap.toHeap.findStringId value
      ⟨[event], .done answer { s with heap := { s.heap with toHeap := h } }⟩

def findClassByNameInternal (className : Text) : ParseM ObjectId := do
  match ← findStringId className with
  | none => return 0
  | some classNameId =>
    let h ← gets fun s => s.heap
    match h.classNames.findFirst fun _ nameId => decide (nameId = classNameId) with
    | some (classId, _) => return classId
    | none => return 0

def findClassByName (className : Text) : ParseM (Option ObjectId) := do
  let h ← gets fun s => s.heap
  match h.findClassByNameMemorized[className]? with
  | some memorized => return Heap.nonZero memorized
  | none =>
    let classId ← findClassByNameInternal className
    updateHeap fun h =>
      { h with findClassByNameMemorized := h.findClassByNameMemorized.insert className classId }
    return Heap.nonZero classId

def childClassOf (fuel : ℕ) (classId superClassId : ObjectId) : ParseM Bool := fun s =>
  let event := Event.childClassOf s.heap.toHeap classId superClassId
  match s.heap.childClassOf fuel classId superClassId with
  | some answer => ⟨[event], .done answer s⟩
  | none => ⟨[event], .endless⟩

def instanceOf (fuel : ℕ) (instanceId classId : ObjectId) : ParseM Bool := do
  let h ← gets fun s => s.heap
  match h.instanceClasses[instanceId]? with
  | none => return false
  | some instanceClassId => childClassOf fuel instanceClassId classId

/-- `GetFieldReference`, without excluded references -/
def getFieldReference (referrerId : ObjectId) (referenceName : Text) :
    ParseM (Option ObjectId) := do
  match ← findStringId referenceName with
  | none => return none
  | some referenceNameId =>
    let h ← gets fun s => s.heap
    return Heap.scanField h.references referrerId referenceNameId

/-- `GetFieldPrimitive<int32_t>`, with the default 0 -/
def getFieldInt (referrerId : ObjectId) (referenceName : Text) : ParseM ℤ := do
  match ← findStringId referenceName with
  | none => return 0
  | some referenceNameId =>
    let h ← gets fun s => s.heap
    match h.primitives[referrerId]?.bind (·[referenceNameId]?) with
    | none => return 0
    | some data => return (BitVec.ofNat 32 data.data).toInt

end Parser

end TraceHarbor.Hprof
