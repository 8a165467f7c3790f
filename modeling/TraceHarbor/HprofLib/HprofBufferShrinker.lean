import TraceHarbor.HprofLib.HprofReader
import TraceHarbor.Lib.OrdMap

/-!
# Shrinking a Heap Dump

`HprofBufferShrinker` goes through a dump three times. The first pass looks up the classes of bitmaps
and of texts, the second one collects their buffers and arrays and merges buffers with the same content,
and the third one hands the visits to the writer, without the primitive arrays that are not needed and
with the merged buffers in the place of the others. The digest that decides about equality and the
order of the hash map are parameters.
-/

namespace TraceHarbor.HprofLib

open Lib Lib.Parser

/-! ## The first pass -/

def bitmapClassName : Text := "android.graphics.Bitmap".toList

def mBufferFieldName : Text := "mBuffer".toList

def mRecycledFieldName : Text := "mRecycled".toList

def stringClassName : Text := "java.lang.String".toList

def valueFieldName : Text := "value".toList

structure Info where
  bitmapClassNameStringId : Option ID := none
  bmpClassId : Option ID := none
  mBufferFieldNameStringId : Option ID := none
  mRecycledFieldNameStringId : Option ID := none
  stringClassNameStringId : Option ID := none
  stringClassId : Option ID := none
  valueFieldNameStringId : Option ID := none
  idSize : ℕ := 0
  nullBufferId : Option ID := none
  bmpClassInstanceFields : Option (List Field) := none
  stringClassInstanceFields : Option (List Field) := none

/-- `HprofInfoCollectVisitor` -/
def Info.visit (s : Info) : Visit → Info
  | .header _ idSize _ =>
    { s with idSize := idSize, nullBufferId := some (List.replicate idSize 0) }
  | .stringRecord id text _ _ =>
    if s.bitmapClassNameStringId = none ∧ text = bitmapClassName then
      { s with bitmapClassNameStringId := some id }
    else if s.mBufferFieldNameStringId = none ∧ text = mBufferFieldName then
      { s with mBufferFieldNameStringId := some id }
    else if s.mRecycledFieldNameStringId = none ∧ text = mRecycledFieldName then
      { s with mRecycledFieldNameStringId := some id }
    else if s.stringClassNameStringId = none ∧ text = stringClassName then
      { s with stringClassNameStringId := some id }
    else if s.valueFieldNameStringId = none ∧ text = valueFieldName then
      { s with valueFieldNameStringId := some id }
    else s
  | .loadClassRecord _ classObjectId _ classNameStringId _ _ =>
    if s.bmpClassId = none ∧ s.bitmapClassNameStringId = some classNameStringId then
      { s with bmpClassId := some classObjectId }
    else if s.stringClassId = none ∧ s.stringClassNameStringId = some classNameStringId then
      { s with stringClassId := some classObjectId }
    else s
  | .heap (.classDump id _ _ _ _ _ instanceFields) =>
    if s.bmpClassInstanceFields = none ∧ s.bmpClassId = some id then
      { s with bmpClassInstanceFields := some instanceFields }
    else if s.stringClassInstanceFields = none ∧ s.stringClassId = some id then
      { s with stringClassInstanceFields := some instanceFields }
    else s
  | _ => s

def collectInfo (visits : List Visit) : Info := visits.foldl Info.visit {}

/-! ## The second pass -/

def readObject (idSize : ℕ) (t : FieldType) : Parser ID := do
  match ← readValue idSize t with
  | .object id => pure id
  | _ => Parser.fail

def readBoolean (idSize : ℕ) (t : FieldType) : Parser Bool := do
  match ← readValue idSize t with
  | .boolean value => pure value
  | _ => Parser.fail

/-- The loop over the fields of a bitmap, which ends early once it has found both. -/
def bitmapLoop (info : Info) :
    List Field → Option ID → Option Bool → Parser (Option ID × Option Bool)
  | [], bufferId, isRecycled => pure (bufferId, isRecycled)
  | field :: fields, bufferId, isRecycled => do
    let fieldType ← readType field.typeId
    if info.mBufferFieldNameStringId = some field.nameId then
      let id ← readObject info.idSize fieldType
      bitmapLoop info fields (some id) isRecycled
    else if info.mRecycledFieldNameStringId = some field.nameId then
      let value ← readBoolean info.idSize fieldType
      bitmapLoop info fields bufferId (some value)
    else if bufferId = none ∨ isRecycled = none then
      skip (fieldType.getSize info.idSize)
      bitmapLoop info fields bufferId isRecycled
    else
      pure (bufferId, isRecycled)

def stringLoop (info : Info) : List Field → Option ID → Parser (Option ID)
  | [], strValueId => pure strValueId
  | field :: fields, strValueId => do
    let fieldType ← readType field.typeId
    if info.valueFieldNameStringId = some field.nameId then
      let id ← readObject info.idSize fieldType
      stringLoop info fields (some id)
    else if strValueId = none then
      skip (fieldType.getSize info.idSize)
      stringLoop info fields strValueId
    else
      pure strValueId

/-- What is read from the data of an object, unless an exception is thrown. -/
def valueOf {α : Type} (p : Parser α) (instanceData : List UInt8) : Option α :=
  match p instanceData with
  | .ok a _ => some a
  | .eof => none
  | .fail => none

/-- What the second pass collects. The newest entry of a merged buffer counts. -/
structure Kept where
  bmpBufferIds : List ID := []
  bufferIdToElementData : OrdMap ID (List UInt8) := ∅
  stringValueIds : List ID := []
  bmpBufferIdToDeduplicatedId : List (ID × ID) := []

section Passes

variable {δ : Type} [DecidableEq δ] (md5 : List UInt8 → δ)
  (iterate : OrdMap ID (List UInt8) → List (ID × List UInt8))

/-- One entry of the loop of `visitEnd`: the buffers with a digest, and the merged ones. -/
def mergeBuffer (bmpBufferIds : List ID) (s : List (δ × ID) × List (ID × ID))
    (entry : ID × List UInt8) : List (δ × ID) × List (ID × ID) :=
  if entry.1 ∈ bmpBufferIds then
    match s.1.lookup (md5 entry.2) with
    | none => ((md5 entry.2, entry.1) :: s.1, s.2)
    | some mergedBufferId =>
      (s.1, (entry.1, mergedBufferId) :: (mergedBufferId, mergedBufferId) :: s.2)
  else s

/-- `HprofKeptBufferCollectVisitor` -/
def Kept.visit (info : Info) (s : Kept) : Visit → Option Kept
  | .heap (.instanceDump _ _ typeId instanceData) =>
    if info.bmpClassId = some typeId then do
      let (bufferId, isRecycled) ← valueOf
        (bitmapLoop info (info.bmpClassInstanceFields.getD []) none none) instanceData
      match bufferId with
      | some id =>
        if isRecycled ≠ some true ∧ info.nullBufferId ≠ some id then
          some { s with bmpBufferIds := id :: s.bmpBufferIds }
        else
          some s
      | none => some s
    else if info.stringClassId = some typeId then do
      let strValueId ← valueOf
        (stringLoop info (info.stringClassInstanceFields.getD []) none) instanceData
      match strValueId with
      | some id =>
        if info.nullBufferId ≠ some id then
          some { s with stringValueIds := id :: s.stringValueIds }
        else
          some s
      | none => some s
    else
      some s
  | .heap (.primitiveArray _ id _ _ _ elements) =>
    some { s with bufferIdToElementData := s.bufferIdToElementData.insert id elements }
  | .visitEnd =>
    some { s with
      bmpBufferIdToDeduplicatedId :=
        ((iterate s.bufferIdToElementData).foldl (mergeBuffer md5 s.bmpBufferIds)
          ([], s.bmpBufferIdToDeduplicatedId)).2
      bufferIdToElementData := ∅ }
  | _ => some s

def collectKept (info : Info) (visits : List Visit) : Option Kept :=
  visits.foldlM (Kept.visit md5 iterate info) {}

/-! ## The third pass -/

/-- The loop over the fields of a bitmap, with the place of the buffer. -/
def bufferLoop (info : Info) : List Field → ℕ → Parser (Option ID × ℕ)
  | [], bufferIdPos => pure (none, bufferIdPos)
  | field :: fields, bufferIdPos => do
    let fieldType ← readType field.typeId
    if info.mBufferFieldNameStringId = some field.nameId then
      let id ← readObject info.idSize fieldType
      pure (some id, bufferIdPos)
    else
      skip (fieldType.getSize info.idSize)
      bufferLoop info fields (bufferIdPos + fieldType.getSize info.idSize)

/-- The bytes of an identifier are put over those of a buffer, which has to be long enough. -/
def modifyIdInBuffer (buf : List UInt8) (off : ℕ) (newId : ID) : Option (List UInt8) :=
  if off + newId.length ≤ buf.length then
    some (buf.take off ++ newId ++ buf.drop (off + newId.length))
  else none

/-- `HprofBufferShrinkVisitor`: the visits that are handed on. -/
def shrinkVisit (info : Info) (kept : Kept) : Visit → Option (List Visit)
  | .heap (.instanceDump id stackId typeId instanceData) =>
    if info.bmpClassId = some typeId then do
      let (bufferId, bufferIdPos) ← valueOf
        (bufferLoop info (info.bmpClassInstanceFields.getD []) 0) instanceData
      match bufferId with
      | some bufferId =>
        match kept.bmpBufferIdToDeduplicatedId.lookup bufferId with
        | some deduplicatedId =>
          if bufferId ≠ deduplicatedId ∧ info.nullBufferId ≠ some bufferId then do
            let modified ← modifyIdInBuffer instanceData bufferIdPos deduplicatedId
            some [.heap (.instanceDump id stackId typeId modified)]
          else
            some [.heap (.instanceDump id stackId typeId instanceData)]
        | none => some [.heap (.instanceDump id stackId typeId instanceData)]
      | none => some [.heap (.instanceDump id stackId typeId instanceData)]
    else
      some [.heap (.instanceDump id stackId typeId instanceData)]
  | .heap (.primitiveArray tag id stackId numElements typeId elements) =>
    if kept.bmpBufferIdToDeduplicatedId.lookup id = some id ∨ id ∈ kept.stringValueIds then
      some [.heap (.primitiveArray tag id stackId numElements typeId elements)]
    else
      some []
  | v => some [v]

/-- `shrink`: the visits that the writer gets, or nothing if an exception is thrown. -/
def shrink (visits : List Visit) : Option (List Visit) := do
  let info := collectInfo visits
  let kept ← collectKept md5 iterate info visits
  let parts ← visits.mapM (shrinkVisit info kept)
  some parts.flatten

end Passes

end TraceHarbor.HprofLib
