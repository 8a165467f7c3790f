import TraceHarbor.Arsc.Data

/-!
# Reading Resource Tables

`ArscReader` reads the chunks of a resource table from a file, with seeks between them. The texts
that it logs are left out, but not the strings that it resolves for them: these may end in an
exception.
-/

namespace TraceHarbor.Arsc

open Lib Lib.Input

section Reader

variable {S : Type} [Text S] [DecidableEq S] (file : Bytes)

/-! ## Stream -/

def readByte : Input (BitVec 8) := readWord file 1 8

def readShort : Input (BitVec 16) := readWord file 2 16

def readInt : Input (BitVec 32) := readWord file 4 32

/-- `ByteArray(n)` and `read` into it; a negative size is an exception. -/
def readBuffer (n : ℤ) : Input Bytes := fun pos =>
  if 0 ≤ n then readInto file n.toNat pos else none

def orThrow {α : Type} (a : Option α) : Input α := fun pos => a.map (·, pos)

/-- `list!![index]`. -/
def elementAt {α : Type} (list : Option (List α)) (index : BitVec 32) : Option α :=
  if 0 ≤ index.toInt then (list.getD [])[index.toInt.toNat]? else none

/-- The string at an index of a pool: `strings!![index]`, resolved. -/
def lookup (pool : ResStringBlock S) (index : BitVec 32) : Option S :=
  (elementAt pool.strings index).bind (resolveStringPoolEntry · pool.utf8)

def readWhen {α : Type} (there : Bool) (part : Input α) : Input (Option α) :=
  if there then some <$> part else pure none

/-! ## String pools -/

/-- The sizes of the string buffers: up to the next offset, the styles or the end of the chunk. -/
def stringSizes (styleCount styleStart stringStart chunkSize : ℤ) : List (BitVec 32) → List ℤ
  | [] => []
  | [last] =>
    [if 0 < styleCount then styleStart - (last.toInt + stringStart)
      else chunkSize - stringStart - last.toInt]
  | offset :: next :: offsets =>
    (next.toInt - offset.toInt) ::
      stringSizes styleCount styleStart stringStart chunkSize (next :: offsets)

/-- A string buffer, with the string that it stands for. -/
def readString (utf8 : Bool) (size : ℤ) : Input (Bytes × S) := do
  let buffer ← readBuffer file size
  let str ← orThrow (resolveStringPoolEntry buffer utf8)
  return (buffer, str)

def readStringBlock : Input (ResStringBlock S) := do
  let headStart ← get
  let chunkType ← readShort file
  let headSize ← readShort file
  let chunkSize ← readInt file
  let stringCount ← readInt file
  let styleCount ← readInt file
  let flag ← readInt file
  let stringStart ← readInt file
  let styleStart ← readInt file
  let headPadding : ℤ := headSize.toInt + headStart - (← get)
  seek (headStart + headSize.toInt)
  let stringOffsets ← forEach (fun _ => readInt file) (List.range stringCount.toInt.toNat)
  let styleOffsets ← forEach (fun _ => readInt file) (List.range styleCount.toInt.toNat)
  seek (headStart + stringStart.toInt)
  let strings ← forEach (readString file (flag &&& 0x100 ≠ 0))
    (stringSizes styleCount.toInt styleStart.toInt stringStart.toInt chunkSize.toInt stringOffsets)
  let styles ← readWhen (0 < styleCount.toInt)
    (readBuffer file (chunkSize.toInt - styleStart.toInt))
  let chunkPadding : ℤ := chunkSize.toInt + headStart - (← get)
  let strings? := 0 < stringCount.toInt
  return {
    chunkType, headSize, chunkSize, headPadding, chunkPadding, stringCount, styleCount, flag,
    stringStart, styleStart, styles
    stringOffsets := if strings? then some stringOffsets else none
    styleOffsets := if 0 < styleCount.toInt then some styleOffsets else none
    strings := if strings? then some (strings.map Prod.fst) else none
    -- a later string replaces an earlier one that is equal
    stringIndexMap := if strings? then some (indexFrom Prod.snd 0 strings fun _ => none)
      else none }

/-! ## Entries -/

/-- `readResValue`; a string value is looked up in the global pool. -/
def readResValue (globalPool : ResStringBlock S) : Input ResValue := do
  let size ← readShort file
  let res0 ← readByte file
  let dataType ← readByte file
  let data ← readInt file
  if dataType = resValueDataTypeString then
    let _ : S ← orThrow (lookup globalPool data)
    return ⟨size, res0, dataType, data⟩
  else return ⟨size, res0, dataType, data⟩

def readResMapValue (globalPool : ResStringBlock S) : Input ResMapValue := do
  let name ← readInt file
  let resValue ← readResValue file globalPool
  return ⟨name, resValue⟩

/-- `readResEntry`; the name is resolved in the name pool of the package. -/
def readResEntry (globalPool : ResStringBlock S) (namePool : Option (ResStringBlock S))
    (start : ℤ) : Input (ResEntry S) := do
  seek start
  let size ← readShort file
  let flag ← readShort file
  let stringPoolIndex ← readInt file
  let entryName ← orThrow (namePool.bind fun pool => lookup pool stringPoolIndex)
  if flag &&& 0x0001 ≠ 0 then
    let parent ← readInt file
    let pairCount ← readInt file
    let values ← forEach (fun _ => readResMapValue file globalPool)
      (List.range pairCount.toInt.toNat)
    return {
      size, flag, stringPoolIndex, parent, pairCount
      entryName := some entryName
      resValue := none
      resMapValues := if 0 < pairCount.toInt then some values else none }
  else
    let resValue ← readResValue file globalPool
    return {
      size, flag, stringPoolIndex
      entryName := some entryName
      resValue := some resValue
      parent := 0
      pairCount := 0
      resMapValues := none }

/-! ## Types -/

def readResConfig : Input ResConfig := do
  let size ← readInt file
  if 4 < size.toInt then
    let content ← readBuffer file (size.toInt - 4)
    return ⟨size, some content⟩
  else return ⟨size, none⟩

def readResTypeSpec : Input ResTypeSpec := do
  let headStart ← get
  let _ ← readShort file
  let headSize ← readShort file
  let chunkSize ← readInt file
  let id ← readByte file
  let reserved0 ← readByte file
  let reserved1 ← readShort file
  let entryCount ← readInt file
  let headPadding : ℤ := headSize.toInt + headStart - (← get)
  let configFlags ← readWhen (0 < chunkSize.toInt - headSize.toInt)
    (readBuffer file (chunkSize.toInt - headSize.toInt))
  let chunkPadding : ℤ := chunkSize.toInt + headStart - (← get)
  return {
    headSize := headSize
    chunkSize, headPadding, chunkPadding, id, reserved0, reserved1, entryCount, configFlags }

/-- `readResType`. The entries are read at their offsets; setting the entry table counts the
references to names. -/
def readResType (globalPool : ResStringBlock S) (namePool : Option (ResStringBlock S)) :
    Input (ResType S) := do
  let headStart ← get
  let _ ← readShort file
  let headSize ← readShort file
  let chunkSize ← readInt file
  let id ← readByte file
  let reserved0 ← readByte file
  let reserved1 ← readShort file
  let entryCount ← readInt file
  let entryTableOffset ← readInt file
  let resConfigFlags ← readResConfig file
  let headPadding : ℤ := headSize.toInt + headStart - (← get)
  let offsets ← forEach (fun _ => readInt file) (List.range entryCount.toInt.toNat)
  seek (headStart + entryTableOffset.toInt)
  let entryTable ← forEach (fun offset : BitVec 32 =>
    if offset = noEntryIndex then pure none
    else some <$> readResEntry file globalPool namePool
      (headStart + entryTableOffset.toInt + offset.toInt)) offsets
  let chunkPadding : ℤ := chunkSize.toInt + headStart - (← get)
  orThrow (ResType.updateResNameReferenceCount {
    headSize, chunkSize, headPadding, chunkPadding, id, reserved0, reserved1, entryCount,
    entryTableOffset, resConfigFlags
    entryOffsets := if 0 < entryCount.toInt then some offsets else none
    entryTable := some entryTable
    resNameStringCountMap := ∅ })

/-! ## Packages and tables -/

/-- The loop over the chunks of a package. What is no chunk is skipped by two bytes at a time. -/
def readChunks (globalPool : ResStringBlock S) (namePool : Option (ResStringBlock S)) (stop : ℤ) :
    ℕ → Input (List (ResChunk S))
  | 0 => fun _ => none
  | fuel + 1 => do
    let pos ← get
    if pos < stop then
      let chunkType ← readShort file
      if chunkType = ResTypeSpec.chunkType then
        seek pos
        let spec ← readResTypeSpec file
        let rest ← readChunks globalPool namePool stop fuel
        return .typeSpec spec :: rest
      else if chunkType = ResType.chunkType then
        seek pos
        let t ← readResType file globalPool namePool
        let rest ← readChunks globalPool namePool stop fuel
        return .resType t :: rest
      else readChunks globalPool namePool stop fuel
    else return []

/-- A pool at an offset from the start of the package, if the offset is positive. -/
def readPoolAt (headStart : ℕ) (offset : BitVec 32) : Input (Option (ResStringBlock S)) :=
  readWhen (0 < offset.toInt) do
    seek (headStart + offset.toInt)
    readStringBlock file

def readPackage (globalPool : ResStringBlock S) : Input (ResPackage S) := do
  let headStart ← get
  let chunkType ← readShort file
  let headSize ← readShort file
  let chunkSize ← readInt file
  let id ← readInt file
  let name ← readBuffer file 256
  let resTypePoolOffset ← readInt file
  let lastPublicType ← readInt file
  let resNamePoolOffset ← readInt file
  let lastPublicName ← readInt file
  let headPadding : ℤ := headSize.toInt + headStart - (← get)
  let resTypePool ← readPoolAt file headStart resTypePoolOffset
  let resNamePool ← readPoolAt file headStart resNamePoolOffset
  let chunks ← readChunks file globalPool resNamePool (headStart + chunkSize.toInt)
    (file.length + 1)
  let chunkPadding : ℤ := chunkSize.toInt + headStart - (← get)
  return {
    chunkType, headSize, chunkSize, headPadding, chunkPadding, id, name, resTypePoolOffset,
    lastPublicType, resNamePoolOffset, lastPublicName, resTypePool, resNamePool
    resTypeArray := some chunks
    resProguardPool := none }

/-- `readResourceTable`, from the start of the file. -/
def readTable : Input (ResTable S) := do
  let chunkType ← readShort file
  let headSize ← readShort file
  let chunkSize ← readInt file
  let packageCount ← readInt file
  let headPadding : ℤ := headSize.toInt - (← get)
  let globalPool ← readStringBlock file
  let packages ← forEach (fun _ => readPackage file globalPool)
    (List.range packageCount.toInt.toNat)
  let chunkPadding : ℤ := chunkSize.toInt - (← get)
  return {
    chunkType, headSize, chunkSize, headPadding, chunkPadding, packageCount
    globalStringPool := some globalPool
    packages := if 0 < packageCount.toInt then some packages else none }

def readResourceTable : Option (ResTable S) := (readTable file 0).map Prod.fst

end Reader

end TraceHarbor.Arsc
