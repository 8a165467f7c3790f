import TraceHarbor.HprofLib.HprofReader

/-!
# Writing a Heap Dump

`HprofWriter` is a visitor that writes a record for every visit. The sub-records of a heap dump are
collected in a buffer first, so that the length of the record is that of what was written; the
lengths of other records are those of the visits.
-/

namespace TraceHarbor.HprofLib

open Lib Lib.Parser

/-! ## Primitive values -/

def writeBEShort (value : ℕ) : List UInt8 := beBytes 2 value

def writeBEInt (value : BitVec 32) : List UInt8 := beBytes 4 value.toNat

def writeBELong (value : BitVec 64) : List UInt8 := beBytes 8 value.toNat

/-- The number of UTF-16 units, which is what the source calls the length of a text. -/
def utf16Length (text : Text) : ℕ := (text.map fun c => if c.toNat < 0x10000 then 1 else 2).sum

/-- As many bytes of the encoded text as the text has units. -/
def writeString (text : Text) : List UInt8 := (utf8Encode text).take (utf16Length text)

def writeNullTerminatedString (text : Text) : List UInt8 := utf8Encode text ++ [0]

def writeValue : Value → List UInt8
  | .object id => id
  | .boolean value => [if value then 1 else 0]
  | .char value => beBytes 2 value.toNat
  | .float bits => writeBEInt bits
  | .double bits => writeBELong bits
  | .byte value => [value]
  | .short value => beBytes 2 value.toNat
  | .int value => writeBEInt value
  | .long value => writeBELong value

def writeSkip (size : ℕ) : List UInt8 := List.replicate size 0

/-- `OutputStream.write` of a part of an array, which has to be long enough. -/
def writePart (data : List UInt8) (size : ℤ) : Option (List UInt8) :=
  if 0 ≤ size ∧ size.toNat ≤ data.length then some (data.take size.toNat) else none

/-- `write` of a number: its low byte. -/
def writeTypeId (typeId : Option UInt8) : List UInt8 := [typeId.getD 0xFF]

/-! ## Sub-records -/

def writeStaticField (field : Field) : Option (List UInt8) := do
  let value ← field.staticValue
  some (field.nameId ++ writeTypeId field.typeId ++ writeValue value)

def writeInstanceField (field : Field) : List UInt8 := field.nameId ++ writeTypeId field.typeId

def writeHeapVisit (idSize : ℕ) : HeapVisit → Option (List UInt8)
  | .info heapId heapNameId => some (0xfe :: (writeBEInt heapId ++ heapNameId))
  | .basicObj tag id => some (tag :: (id ++ if tag = 0x01 then writeSkip idSize else []))
  | .jniLocal id a b => some (0x02 :: (id ++ writeBEInt a ++ writeBEInt b))
  | .javaFrame id a b => some (0x03 :: (id ++ writeBEInt a ++ writeBEInt b))
  | .nativeStack id a => some (0x04 :: (id ++ writeBEInt a))
  | .threadBlock id a => some (0x06 :: (id ++ writeBEInt a))
  | .threadObject id a b => some (0x08 :: (id ++ writeBEInt a ++ writeBEInt b))
  | .classDump id stackSerialNumber superClassId classLoaderId instanceSize staticFields
      instanceFields => do
    let statics ← staticFields.mapM writeStaticField
    some (0x20 :: (id ++ writeBEInt stackSerialNumber ++ superClassId ++ classLoaderId ++
      writeSkip (4 * idSize) ++ writeBEInt instanceSize ++ writeBEShort 0 ++
      writeBEShort staticFields.length ++ statics.flatten ++
      writeBEShort instanceFields.length ++ instanceFields.flatMap writeInstanceField))
  | .instanceDump id stackId typeId instanceData =>
    some (0x21 :: (id ++ writeBEInt stackId ++ typeId ++
      writeBEInt (BitVec.ofNat 32 instanceData.length) ++ instanceData))
  | .objectArray id stackId numElements typeId elements => do
    let data ← writePart elements (numElements * BitVec.ofNat 32 idSize).toInt
    some (0x22 :: (id ++ writeBEInt stackId ++ writeBEInt numElements ++ typeId ++ data))
  | .primitiveArray tag id stackId numElements typeId elements => do
    let t ← FieldType.getType typeId
    let data ← writePart elements (numElements * BitVec.ofNat 32 (t.getSize idSize)).toInt
    some (tag :: (id ++ writeBEInt stackId ++ writeBEInt numElements ++ [typeId] ++ data))
  | .jniMonitor id a b => some (0x8e :: (id ++ writeBEInt a ++ writeBEInt b))

/-! ## Records -/

/-- The writer: what was written, the buffer of the sub-records, and the heap dump being written. -/
structure Writer where
  out : List UInt8
  idSize : ℕ
  heapDumpOut : List UInt8
  heapDump : Option (UInt8 × BitVec 32)

def writeRecordHeader (tag : UInt8) (timestamp : BitVec 32) (length : ℕ) : List UInt8 :=
  tag :: (writeBEInt timestamp ++ writeBEInt (BitVec.ofNat 32 length))

def writePlainRecord : Visit → Option (List UInt8)
  | .stringRecord id text timestamp length =>
    some (writeRecordHeader 0x01 timestamp length ++ id ++ writeString text)
  | .loadClassRecord serialNumber classObjectId stackTraceSerial classNameStringId timestamp
      length =>
    some (writeRecordHeader 0x02 timestamp length ++ writeBEInt serialNumber ++ classObjectId ++
      writeBEInt stackTraceSerial ++ classNameStringId)
  | .stackFrameRecord id methodNameId methodSignatureId sourceFileId serial lineNumber timestamp
      length =>
    some (writeRecordHeader 0x04 timestamp length ++ id ++ methodNameId ++ methodSignatureId ++
      sourceFileId ++ writeBEInt serial ++ writeBEInt lineNumber)
  | .stackTraceRecord serialNumber threadSerialNumber frameIds timestamp length =>
    some (writeRecordHeader 0x05 timestamp length ++ writeBEInt serialNumber ++
      writeBEInt threadSerialNumber ++ writeBEInt (BitVec.ofNat 32 frameIds.length) ++
      frameIds.flatten)
  | .unconcernedRecord tag timestamp length data => do
    let data ← writePart data ((length : ℤ).bmod (2 ^ 32))
    some (writeRecordHeader tag timestamp length ++ data)
  | _ => none

/-- The most bytes that the buffer of the sub-records can hold. -/
def maxBuffer : ℕ := 2 ^ 31 - 1

def Writer.visit (w : Writer) : Visit → Option Writer
  | .header text idSize timestamp =>
    if idSize = 0 ∨ 2 ^ 30 - 1 ≤ idSize then
      none
    else
      some { w with
        idSize := idSize
        out := w.out ++ writeNullTerminatedString text ++ writeBEInt (BitVec.ofNat 32 idSize) ++
          writeBELong timestamp }
  | .heapDumpRecord tag timestamp _ => some { w with heapDump := some (tag, timestamp) }
  | .heap v => do
    let bytes ← writeHeapVisit w.idSize v
    -- the buffer cannot grow beyond the size of an array
    if w.heapDumpOut.length + bytes.length ≤ maxBuffer then
      some { w with heapDumpOut := w.heapDumpOut ++ bytes }
    else
      none
  | .heapEnd => do
    let (tag, timestamp) ← w.heapDump
    some { w with
      out := w.out ++ writeRecordHeader tag timestamp w.heapDumpOut.length ++ w.heapDumpOut
      heapDumpOut := []
      heapDump := none }
  | .visitEnd => some w
  | v => do
    let bytes ← writePlainRecord v
    some { w with out := w.out ++ bytes }

/-- What the writer has written after some visits, or nothing if it throws an exception. -/
def write (visits : List Visit) : Option (List UInt8) := do
  let w ← visits.foldlM Writer.visit ⟨[], 0, [], none⟩
  some w.out

end TraceHarbor.HprofLib
