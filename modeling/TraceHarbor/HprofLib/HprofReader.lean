import TraceHarbor.Lib.ByteParser
import TraceHarbor.Lib.Text

/-!
# Reading a Heap Dump

`HprofReader` calls a visitor for every record, and for every sub-record of a heap dump; here it returns
the list of visits. An end of the stream inside a record ends the reading quietly; every other exception
is a failure. Where the source reads a count or a size as a signed number, so does the model, and asking
for an array of negative size is a failure.
-/

namespace TraceHarbor.HprofLib

open Lib Lib.Parser

/-! ## Values -/

abbrev ID := List UInt8

/-- `Type`: the types of fields and of the elements of arrays. -/
inductive FieldType where
  | object | boolean | char | float | double | byte | short | int | long
  deriving DecidableEq, Repr

namespace FieldType

def typeId : FieldType → UInt8
  | object => 2
  | boolean => 4
  | char => 5
  | float => 6
  | double => 7
  | byte => 8
  | short => 9
  | int => 10
  | long => 11

def getType (id : UInt8) : Option FieldType :=
  [object, boolean, char, float, double, byte, short, int, long].find? fun t => t.typeId = id

def getSize (idSize : ℕ) : FieldType → ℕ
  | object => idSize
  | boolean => 1
  | char => 2
  | float => 4
  | double => 8
  | byte => 1
  | short => 2
  | int => 4
  | long => 8

theorem getType_typeId (t : FieldType) : getType t.typeId = some t := by
  cases t <;> rfl

end FieldType

/-- The value of a static field. Floating-point values are their bits. -/
inductive Value where
  | object (id : ID)
  | boolean (value : Bool)
  | char (value : BitVec 16)
  | float (bits : BitVec 32)
  | double (bits : BitVec 64)
  | byte (value : UInt8)
  | short (value : BitVec 16)
  | int (value : BitVec 32)
  | long (value : BitVec 64)
  deriving DecidableEq

/-- A field. The type is what was read, nothing standing for the end of the stream. -/
structure Field where
  typeId : Option UInt8
  nameId : ID
  staticValue : Option Value
  deriving DecidableEq

/-! ## Visits -/

inductive HeapVisit where
  | info (heapId : BitVec 32) (heapNameId : ID)
  | basicObj (tag : UInt8) (id : ID)
  | jniLocal (id : ID) (threadSerialNumber stackFrameNumber : BitVec 32)
  | javaFrame (id : ID) (threadSerialNumber stackFrameNumber : BitVec 32)
  | nativeStack (id : ID) (threadSerialNumber : BitVec 32)
  | threadBlock (id : ID) (threadSerialNumber : BitVec 32)
  | threadObject (id : ID) (threadSerialNumber stackFrameNumber : BitVec 32)
  | classDump (id : ID) (stackSerialNumber : BitVec 32) (superClassId classLoaderId : ID)
      (instanceSize : BitVec 32) (staticFields instanceFields : List Field)
  | instanceDump (id : ID) (stackId : BitVec 32) (typeId : ID) (instanceData : List UInt8)
  | objectArray (id : ID) (stackId numElements : BitVec 32) (typeId : ID) (elements : List UInt8)
  | primitiveArray (tag : UInt8) (id : ID) (stackId numElements : BitVec 32) (typeId : UInt8)
      (elements : List UInt8)
  | jniMonitor (id : ID) (threadSerialNumber stackDepth : BitVec 32)
  deriving DecidableEq

inductive Visit where
  | header (text : Text) (idSize : ℕ) (timestamp : BitVec 64)
  | stringRecord (id : ID) (text : Text) (timestamp : BitVec 32) (length : ℕ)
  | loadClassRecord (serialNumber : BitVec 32) (classObjectId : ID) (stackTraceSerial : BitVec 32)
      (classNameStringId : ID) (timestamp : BitVec 32) (length : ℕ)
  | stackFrameRecord (id methodNameId methodSignatureId sourceFileId : ID)
      (serial lineNumber timestamp : BitVec 32) (length : ℕ)
  | stackTraceRecord (serialNumber threadSerialNumber : BitVec 32) (frameIds : List ID)
      (timestamp : BitVec 32) (length : ℕ)
  | heapDumpRecord (tag : UInt8) (timestamp : BitVec 32) (length : ℕ)
  | heap (visit : HeapVisit)
  | heapEnd
  | unconcernedRecord (tag : UInt8) (timestamp : BitVec 32) (length : ℕ) (data : List UInt8)
  | visitEnd
  deriving DecidableEq

/-! ## Primitive values -/

def readBEShort : Parser (BitVec 16) := readBE 16 2

def readBEInt : Parser (BitVec 32) := readBE 32 4

def readBELong : Parser (BitVec 64) := readBE 64 8

/-- A new array of so many bytes, filled from the stream. -/
def readArray (size : ℤ) : Parser (List UInt8) :=
  if size < 0 then Parser.fail else take size.toNat

def readID (idSize : ℕ) : Parser ID := take idSize

def utf8Encode (text : Text) : List UInt8 := text.flatMap String.utf8EncodeChar

/-- The text of valid bytes. A malformed text is replaced, as a whole. -/
def utf8Decode (bytes : List UInt8) : Text :=
  match bytes.toByteArray.utf8Decode? with
  | some text => text.toList
  | none => [Char.ofNat 0xFFFD]

/-- `length` is an `int` here. -/
def readString (length : ℤ) : Parser Text := do
  let bytes ← readArray (length.bmod (2 ^ 32))
  pure (utf8Decode bytes)

def readValue (idSize : ℕ) : FieldType → Parser Value
  | .object => do return .object (← readID idSize)
  | .boolean => do return .boolean ((← readByte) ≠ some 0)
  | .char => do return .char (← readBEShort)
  | .float => do return .float (← readBEInt)
  | .double => do return .double (← readBELong)
  | .byte => do return .byte ((← readByte).getD 0xFF)
  | .short => do return .short (← readBEShort)
  | .int => do return .int (← readBEInt)
  | .long => do return .long (← readBELong)

/-! ## Sub-records of a heap dump

Each returns its visit and the number of bytes that it says it has read. -/

def acceptHeapDumpInfo (idSize : ℕ) : Parser (HeapVisit × ℕ) := do
  let heapId ← readBEInt
  let heapNameId ← readID idSize
  return (.info heapId heapNameId, 4 + idSize)

def acceptBasicObj (idSize : ℕ) (tag : UInt8) : Parser (HeapVisit × ℕ) := do
  let id ← readID idSize
  return (.basicObj tag id, idSize)

def acceptJniGlobal (idSize : ℕ) (tag : UInt8) : Parser (HeapVisit × ℕ) := do
  let id ← readID idSize
  skip idSize
  return (.basicObj tag id, 2 * idSize)

def acceptIdInt (idSize : ℕ) (visit : ID → BitVec 32 → HeapVisit) : Parser (HeapVisit × ℕ) := do
  let id ← readID idSize
  let threadSerialNumber ← readBEInt
  return (visit id threadSerialNumber, idSize + 4)

/-- A sub-record of an identifier and two numbers. -/
def acceptIdIntInt (idSize : ℕ) (visit : ID → BitVec 32 → BitVec 32 → HeapVisit) :
    Parser (HeapVisit × ℕ) := do
  let id ← readID idSize
  let threadSerialNumber ← readBEInt
  let stackFrameNumber ← readBEInt
  return (visit id threadSerialNumber stackFrameNumber, idSize + 4 + 4)

def acceptJniLocal (idSize : ℕ) := acceptIdIntInt idSize .jniLocal

def acceptJavaFrame (idSize : ℕ) := acceptIdIntInt idSize .javaFrame

def acceptNativeStack (idSize : ℕ) := acceptIdInt idSize .nativeStack

def acceptThreadBlock (idSize : ℕ) := acceptIdInt idSize .threadBlock

def acceptThreadObject (idSize : ℕ) := acceptIdIntInt idSize .threadObject

def acceptJniMonitor (idSize : ℕ) := acceptIdIntInt idSize .jniMonitor

def readType (typeId : Option UInt8) : Parser FieldType :=
  match typeId.bind FieldType.getType with
  | some t => pure t
  | none => Parser.fail

/-- A constant of a class dump: its index and its value, both skipped. -/
def skipConstant (idSize : ℕ) : Parser ℕ := do
  skip 2
  let t ← readType (← readByte)
  skip (t.getSize idSize)
  return 2 + (t.getSize idSize + 1)

def readStaticField (idSize : ℕ) : Parser (Field × ℕ) := do
  let nameId ← readID idSize
  let typeId ← readByte
  let t ← readType typeId
  let staticValue ← readValue idSize t
  return (⟨typeId, nameId, some staticValue⟩, idSize + 1 + t.getSize idSize)

def readInstanceField (idSize : ℕ) : Parser (Field × ℕ) := do
  let nameId ← readID idSize
  let typeId ← readByte
  return (⟨typeId, nameId, none⟩, idSize + 1)

def readFields (field : Parser (Field × ℕ)) : Parser (List (Field × ℕ)) := do
  let numEntries ← readBEShort
  if numEntries.toInt < 0 then Parser.fail else many field numEntries.toInt.toNat

def acceptClassDump (idSize : ℕ) : Parser (HeapVisit × ℕ) := do
  let id ← readID idSize
  let stackSerialNumber ← readBEInt
  let superClassId ← readID idSize
  let classLoaderId ← readID idSize
  skip (4 * idSize)
  let instanceSize ← readBEInt
  -- a negative number of constants means none
  let numConstants ← readBEShort
  let constants ← many (skipConstant idSize) numConstants.toInt.toNat
  let staticFields ← readFields (readStaticField idSize)
  let instanceFields ← readFields (readInstanceField idSize)
  let bytesRead := 7 * idSize + 4 + 4 + 2 + constants.sum +
    2 + (staticFields.map Prod.snd).sum + 2 + (instanceFields.map Prod.snd).sum
  return (.classDump id stackSerialNumber superClassId classLoaderId instanceSize
    (staticFields.map Prod.fst) (instanceFields.map Prod.fst), bytesRead)

def acceptInstanceDump (idSize : ℕ) : Parser (HeapVisit × ℕ) := do
  let id ← readID idSize
  let stackId ← readBEInt
  let typeId ← readID idSize
  let remaining ← readBEInt
  let instanceData ← readArray remaining.toInt
  return (.instanceDump id stackId typeId instanceData,
    idSize + 4 + idSize + 4 + instanceData.length)

def acceptObjectArrayDump (idSize : ℕ) : Parser (HeapVisit × ℕ) := do
  let id ← readID idSize
  let stackId ← readBEInt
  let numElements ← readBEInt
  let typeId ← readID idSize
  let remaining := numElements * BitVec.ofNat 32 idSize
  let elements ← readArray remaining.toInt
  return (.objectArray id stackId numElements typeId elements,
    idSize + 4 + 4 + idSize + elements.length)

def acceptPrimitiveArrayDump (idSize : ℕ) (tag : UInt8) : Parser (HeapVisit × ℕ) := do
  let id ← readID idSize
  let stackId ← readBEInt
  let numElements ← readBEInt
  let t ← readType (← readByte)
  let remaining := numElements * BitVec.ofNat 32 (t.getSize idSize)
  let elements ← readArray remaining.toInt
  return (.primitiveArray tag id stackId numElements t.typeId elements,
    idSize + 4 + 4 + 1 + elements.length)

/-- The sub-records that are only a tag and an identifier. -/
inductive BasicTag where
  | unknown | stickyClass | monitorUsed | internedString | finalizing | debugger
  | referenceCleanup | vmInternal | unreachable
  deriving DecidableEq, Repr

def BasicTag.tag : BasicTag → UInt8
  | unknown => 0xff
  | stickyClass => 0x05
  | monitorUsed => 0x07
  | internedString => 0x89
  | finalizing => 0x8a
  | debugger => 0x8b
  | referenceCleanup => 0x8c
  | vmInternal => 0x8d
  | unreachable => 0x90

def acceptSubRecord (idSize : ℕ) : Parser (HeapVisit × ℕ) := do
  match ← readByte with
  | none => Parser.fail
  | some tag =>
    match tag.toNat with
    | 0xff | 0x05 | 0x07 | 0x89 | 0x8a | 0x8b | 0x8c | 0x8d | 0x90 => acceptBasicObj idSize tag
    | 0x01 => acceptJniGlobal idSize tag
    | 0x02 => acceptJniLocal idSize
    | 0x03 => acceptJavaFrame idSize
    | 0x04 => acceptNativeStack idSize
    | 0x06 => acceptThreadBlock idSize
    | 0x08 => acceptThreadObject idSize
    | 0x20 => acceptClassDump idSize
    | 0x21 => acceptInstanceDump idSize
    | 0x22 => acceptObjectArrayDump idSize
    | 0x23 | 0xc3 => acceptPrimitiveArrayDump idSize tag
    | 0xfe => acceptHeapDumpInfo idSize
    | 0x8e => acceptJniMonitor idSize
    | _ => Parser.fail

/-- The loop over the sub-records. The visits made so far are kept if the stream ends. -/
def subRecordLoop (idSize : ℕ) : ℕ → ℤ → List UInt8 → List HeapVisit × ParseResult Unit
  | 0, _, _ => ([], .fail)
  | fuel + 1, remaining, b =>
    if remaining ≤ 0 then
      ([], .ok () b)
    else
      match acceptSubRecord idSize b with
      | .ok (visit, bytesRead) rest =>
        let (visits, outcome) := subRecordLoop idSize fuel (remaining - 1 - bytesRead) rest
        (visit :: visits, outcome)
      | .eof => ([], .eof)
      | .fail => ([], .fail)

/-! ## Records -/

def acceptStringRecord (idSize : ℕ) (timestamp : BitVec 32) (length : ℕ) : Parser Visit := do
  let id ← readID idSize
  let text ← readString (length - idSize)
  return .stringRecord id text timestamp length

def acceptLoadClassRecord (idSize : ℕ) (timestamp : BitVec 32) (length : ℕ) : Parser Visit := do
  let serialNumber ← readBEInt
  let classObjectId ← readID idSize
  let stackTraceSerial ← readBEInt
  let classNameStringId ← readID idSize
  return .loadClassRecord serialNumber classObjectId stackTraceSerial classNameStringId timestamp
    length

def acceptStackFrameRecord (idSize : ℕ) (timestamp : BitVec 32) (length : ℕ) : Parser Visit := do
  let id ← readID idSize
  let methodNameId ← readID idSize
  let methodSignatureId ← readID idSize
  let sourceFileId ← readID idSize
  let serial ← readBEInt
  let lineNumber ← readBEInt
  return .stackFrameRecord id methodNameId methodSignatureId sourceFileId serial lineNumber
    timestamp length

def acceptStackTraceRecord (idSize : ℕ) (timestamp : BitVec 32) (length : ℕ) : Parser Visit := do
  let serialNumber ← readBEInt
  let threadSerialNumber ← readBEInt
  let numFrames ← readBEInt
  if numFrames.toInt < 0 then
    Parser.fail
  else
    let frameIds ← many (readID idSize) numFrames.toInt.toNat
    return .stackTraceRecord serialNumber threadSerialNumber frameIds timestamp length

def acceptUnconcernedRecord (tag : UInt8) (timestamp : BitVec 32) (length : ℕ) : Parser Visit := do
  let data ← readArray ((length : ℤ).bmod (2 ^ 32))
  return .unconcernedRecord tag timestamp length data

/-- The tag, the time stamp and the length of a record. -/
def recordHeader : Parser (Option UInt8 × BitVec 32 × ℕ) := do
  let tag ← readByte
  let timestamp ← readBEInt
  let length ← readBEInt
  return (tag, timestamp, length.toNat)

/-- A record other than a heap dump. -/
def acceptPlainRecord (idSize : ℕ) (tag : UInt8) (timestamp : BitVec 32) (length : ℕ) :
    Parser Visit :=
  match tag.toNat with
  | 0x01 => acceptStringRecord idSize timestamp length
  | 0x02 => acceptLoadClassRecord idSize timestamp length
  | 0x04 => acceptStackFrameRecord idSize timestamp length
  | 0x05 => acceptStackTraceRecord idSize timestamp length
  | _ => acceptUnconcernedRecord tag timestamp length

/-- `RECORD_TAG_HEAP_DUMP` and `RECORD_TAG_HEAP_DUMP_SEGMENT`. -/
def isHeapDumpTag (tag : UInt8) : Bool := tag = 0x0c || tag = 0x1c

/-- The loop over the records, which ends with the stream. -/
def recordLoop (idSize : ℕ) : ℕ → List UInt8 → Option (List Visit)
  | 0, _ => none
  | fuel + 1, b =>
    match recordHeader b with
    | .eof => some []
    | .fail => none
    | .ok (none, _, _) _ => some []
    | .ok (some tag, timestamp, length) rest =>
      if isHeapDumpTag tag then
        match subRecordLoop idSize (rest.length + 1) length rest with
        | (visits, .ok () rest) => do
          let later ← recordLoop idSize fuel rest
          some (.heapDumpRecord tag timestamp length :: visits.map .heap ++ .heapEnd :: later)
        | (visits, .eof) => some (.heapDumpRecord tag timestamp length :: visits.map .heap)
        | (_, .fail) => none
      else
        match acceptPlainRecord idSize tag timestamp length rest with
        | .ok visit rest => do
          let later ← recordLoop idSize fuel rest
          some (visit :: later)
        | .eof => some []
        | .fail => none

/-- The characters up to a zero byte, one a byte. Without a zero byte there is no end. -/
def readNullTerminatedString : Parser Text
  | [] => .fail
  | x :: rest =>
    if x = 0 then
      .ok [] rest
    else
      match readNullTerminatedString rest with
      | .ok text rest => .ok (Char.ofNat x.toNat :: text) rest
      | .eof => .eof
      | .fail => .fail

/-- The header: the format, the size of the identifiers and a time stamp. -/
def acceptHeader : Parser (Text × ℕ × BitVec 64) := do
  let text ← readNullTerminatedString
  let idSize ← readBEInt
  if idSize.toInt ≤ 0 ∨ 2 ^ 30 - 1 ≤ idSize.toInt then
    Parser.fail
  else
    let timestamp ← readBELong
    return (text, idSize.toNat, timestamp)

/-- All visits, or nothing if an exception is thrown. -/
def accept (b : List UInt8) : Option (List Visit) :=
  match acceptHeader b with
  | .ok (text, idSize, timestamp) rest => do
    let visits ← recordLoop idSize (rest.length + 1) rest
    some (.header text idSize timestamp :: visits ++ [.visitEnd])
  | .eof => none
  | .fail => none

end TraceHarbor.HprofLib
