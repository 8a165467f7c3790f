import TraceHarbor.Lib.IndexMap
import TraceHarbor.Lib.OrdMap
import TraceHarbor.Lib.RandomAccess

/-!
# Resource Tables

The chunks of a compiled resource table in memory, their serialization (`toBytes`), and the functions
that bring sizes and offsets up to date (`refresh`). Sums of sizes are taken over the integers and wrap
around where they are stored; `none` stands for an exception. The fields that say where a chunk was
read are left out.
-/

namespace TraceHarbor.Arsc

open Lib List

abbrev Bytes := List UInt8

/-! ## Buffers -/

def put (b : BitVec 8) : Bytes := leBytes 1 b.toNat

def putShort (v : BitVec 16) : Bytes := leBytes 2 v.toNat

def putInt (v : BitVec 32) : Bytes := leBytes 4 v.toNat

/-- `ByteArray(n)`, for padding that is only written if it is positive. -/
def zeros (n : ℤ) : Bytes := List.replicate n.toNat 0

/-- `ByteBuffer.allocate`, filled from the start: the rest stays zero, and too much is an exception.
-/
def allocate (size : ℤ) (contents : Bytes) : Option Bytes :=
  if contents.length ≤ size then some (contents ++ zeros (size - contents.length)) else none

def padding (size : ℤ) : ℤ := if size % 4 = 0 then 0 else 4 - size % 4

/-! ## Strings -/

/-- A character set; strings that it cannot represent are left out. -/
structure Charset (S : Type) where
  encode : S → Bytes
  decode : Bytes → S
  decode_encode : ∀ s, decode (encode s) = s
  /-- zeros after a string are decoded as well -/
  decode_append_zeros : ∀ s n, 0 < n → decode (encode s ++ zeros n) ≠ s

/-- The strings of the platform. -/
class Text (S : Type) where
  utf8 : Charset S
  utf16le : Charset S
  /-- the number of UTF-16 units -/
  length : S → ℕ
  empty : S
  length_empty : length empty = 0
  utf8_empty : utf8.encode empty = []
  utf16le_empty : utf16le.encode empty = []

/-- ASCII strings, on which the definitions can be run. -/
abbrev Ascii := List (Fin 128)

namespace Ascii

def encode8 (s : Ascii) : Bytes := s.map fun c => UInt8.ofNat c.val

def decode8 (bytes : Bytes) : Ascii := bytes.map fun b => Fin.ofNat 128 b.toNat

def encode16 : Ascii → Bytes
  | [] => []
  | c :: s => UInt8.ofNat c.val :: 0 :: encode16 s

/-- A byte that is left over becomes a replacement character. -/
def decode16 : Bytes → Ascii
  | [] => []
  | [_] => [0x3f]
  | low :: high :: bytes => Fin.ofNat 128 (low.toNat + 256 * high.toNat) :: decode16 bytes

theorem ofNat_toNat (c : Fin 128) : Fin.ofNat 128 (UInt8.ofNat c.val).toNat = c := by
  decide +revert

theorem decode8_encode8 (s : Ascii) : decode8 (encode8 s) = s := by
  rw [decode8, encode8, map_map]
  exact map_id'' ofNat_toNat s

theorem decode16_encode16 (s : Ascii) : decode16 (encode16 s) = s := by
  induction s with
  | nil => rfl
  | cons c s ih =>
    rw [encode16, decode16, ih]
    exact congrArg (· :: s) (ofNat_toNat c)

theorem length_decode16 (bytes : Bytes) : (decode16 bytes).length = (bytes.length + 1) / 2 := by
  induction bytes using decode16.induct with
  | case1 => rfl
  | case2 b => simp [decode16]
  | case3 low high bytes ih =>
    rw [decode16, length_cons, length_cons, length_cons]
    omega

theorem length_encode16 (s : Ascii) : (encode16 s).length = 2 * s.length := by
  induction s with
  | nil => rfl
  | cons c s ih =>
    rw [encode16, length_cons, length_cons, length_cons]
    omega

theorem decode8_append_zeros (s : Ascii) (n : ℤ) (hn : 0 < n) :
    decode8 (encode8 s ++ zeros n) ≠ s := by
  intro heq
  have hlen := congrArg length heq
  rw [decode8, encode8, zeros, length_map, length_append, length_map,
    length_replicate] at hlen
  omega

theorem decode16_append_zeros (s : Ascii) (n : ℤ) (hn : 0 < n) :
    decode16 (encode16 s ++ zeros n) ≠ s := by
  intro heq
  have hlen := congrArg length heq
  rw [length_decode16, length_append, length_encode16, zeros, length_replicate] at hlen
  omega

instance : Text Ascii where
  utf8 := ⟨encode8, decode8, decode8_encode8, decode8_append_zeros⟩
  utf16le := ⟨encode16, decode16, decode16_encode16, decode16_append_zeros⟩
  length := List.length
  empty := []
  length_empty := rfl
  utf8_empty := rfl
  utf16le_empty := rfl

end Ascii

section Strings

variable {S : Type} [Text S]

/-- `resolveStringPoolEntry`. For UTF-8 the two bytes of the length are skipped. For UTF-16 only two
bytes are copied to read the length from, so a length of two units ends in an exception. -/
def resolveStringPoolEntry (buffer : Bytes) (utf8 : Bool) : Option S :=
  if utf8 then
    if buffer.length < 3 then none
    else some (Text.utf8.decode ((buffer.drop 2).take (buffer.length - 2 - 1)))
  else
    if buffer.length < 4 then none
    else if (leValue (buffer.take 2)).testBit 15 then none
    else some (Text.utf16le.decode ((buffer.drop 2).take (buffer.length - 4)))

def encodeStringPoolEntry (str : S) (utf8 : Bool) : Bytes :=
  let len := Text.length str
  if utf8 then
    (if 0xff < len then [UInt8.ofNat ((len &&& 0x7f00) >>> 8 ||| 0x80), UInt8.ofNat (len &&& 0xff)]
      else [UInt8.ofNat (len &&& 0xff), UInt8.ofNat (len &&& 0xff)]) ++
      Text.utf8.encode str ++ [0]
  else
    (if 0xffff < len then
        leBytes 2 ((len &&& 0x7fff0000) >>> 16 ||| 0x8000) ++ leBytes 2 (len &&& 0xffff)
      else leBytes 2 (len &&& 0xffff)) ++
      Text.utf16le.encode str ++ [0, 0]

end Strings

/-! ## String pools -/

structure ResStringBlock (S : Type) where
  chunkType : BitVec 16
  headSize : BitVec 16
  chunkSize : BitVec 32
  headPadding : ℤ
  chunkPadding : ℤ
  stringCount : BitVec 32
  styleCount : BitVec 32
  flag : BitVec 32
  stringStart : BitVec 32
  styleStart : BitVec 32
  stringOffsets : Option (List (BitVec 32))
  styleOffsets : Option (List (BitVec 32))
  strings : Option (List Bytes)
  styles : Option Bytes
  stringIndexMap : Option (S → Option ℕ)

namespace ResStringBlock

variable {S : Type}

/-- `charSet`: the flag of UTF-8, and UTF-16 otherwise. -/
def utf8 (p : ResStringBlock S) : Bool := p.flag &&& 0x100 ≠ 0

/-- The offsets of buffers that follow one another. -/
def offsetsFrom : ℕ → List Bytes → List (BitVec 32)
  | _, [] => []
  | start, buffer :: buffers =>
    BitVec.ofNat 32 start :: offsetsFrom (start + buffer.length) buffers

/-- The loop that fills `stringIndexMap`; a later string replaces an earlier one that is equal. -/
def indexStrings [Text S] [DecidableEq S] (utf8 : Bool) :
    ℕ → List Bytes → (S → Option ℕ) → Option (S → Option ℕ)
  | _, [], map => some map
  | i, buffer :: buffers, map => do
    let str ← resolveStringPoolEntry buffer utf8
    indexStrings utf8 (i + 1) buffers (Function.update map str (some i))

/-- The string index is filled again, if there is one. -/
def reindex [Text S] [DecidableEq S] (p : ResStringBlock S) (strings : List Bytes) :
    Option (Option (S → Option ℕ)) :=
  match p.stringIndexMap with
  | none => some none
  | some _ => (indexStrings p.utf8 0 strings fun _ => none).map some

/-- The part of `refresh` for a block with strings. -/
def refreshStrings [Text S] [DecidableEq S] (p : ResStringBlock S) (strings : List Bytes) :
    Option (ResStringBlock S × ℤ) := do
  let start : ℤ := p.headSize.toInt + p.styleCount.toInt * 4 + p.stringCount.toInt * 4
  let count := p.stringCount.toInt.toNat
  -- the strings are looked up by their index
  if strings.length < count then none
  else
    let map ← p.reindex (strings.take count)
    let p := { p with stringStart := BitVec.ofInt 32 start, stringIndexMap := map }
    match p.stringOffsets with
    | none => some (p, 0)
    | some _ =>
      if 0 < p.stringCount.toInt then
        let before := ((strings.take count).map List.length).sum
        let p := { p with
          stringOffsets := some (offsetsFrom 0 (strings.take count))
          styleStart := if 0 < p.styleCount.toInt then BitVec.ofInt 32 (start + before)
            else p.styleStart }
        some (p, (strings.map List.length).sum)
      else some ({ p with stringOffsets := some [] }, 0)

def refresh [Text S] [DecidableEq S] (p : ResStringBlock S) : Option (ResStringBlock S) := do
  let (p, size) ← match p.strings with
    | none => some (p, 0)
    | some strings => p.refreshStrings strings
  let size : ℤ := p.headSize.toInt + p.stringCount.toInt * 4 + p.styleCount.toInt * 4 + size +
    (p.styles.getD []).length
  return { p with
    chunkSize := BitVec.ofInt 32 (size + padding size)
    chunkPadding := padding size }

def toBytes (p : ResStringBlock S) : Option Bytes :=
  allocate p.chunkSize.toInt (putShort p.chunkType ++ putShort p.headSize ++ putInt p.chunkSize ++
    putInt p.stringCount ++ putInt p.styleCount ++ putInt p.flag ++ putInt p.stringStart ++
    putInt p.styleStart ++ zeros p.headPadding ++ (p.stringOffsets.getD []).flatMap putInt ++
    (p.styleOffsets.getD []).flatMap putInt ++ (p.strings.getD []).flatten ++ p.styles.getD [] ++
    zeros p.chunkPadding)

end ResStringBlock

/-! ## Entries -/

structure ResValue where
  size : BitVec 16
  res0 : BitVec 8
  dataType : BitVec 8
  data : BitVec 32
  deriving DecidableEq

def resValueDataTypeString : BitVec 8 := 0x03

def ResValue.toBytes (v : ResValue) : Option Bytes :=
  allocate v.size.toInt (putShort v.size ++ put v.res0 ++ put v.dataType ++ putInt v.data)

structure ResMapValue where
  name : BitVec 32
  resValue : ResValue
  deriving DecidableEq

def ResMapValue.toBytes (v : ResMapValue) : Option Bytes := do
  let bytes ← v.resValue.toBytes
  allocate (4 + v.resValue.size.toInt) (putInt v.name ++ bytes)

structure ResEntry (S : Type) where
  size : BitVec 16
  flag : BitVec 16
  stringPoolIndex : BitVec 32
  entryName : Option S
  resValue : Option ResValue
  parent : BitVec 32
  pairCount : BitVec 32
  resMapValues : Option (List ResMapValue)
  deriving DecidableEq

namespace ResEntry

variable {S : Type}

/-- The flag `RES_TABLE_ENTRY_FLAG_COMPLEX`. -/
def complex (e : ResEntry S) : Bool := e.flag &&& 0x0001 ≠ 0

def toBytes (e : ResEntry S) : Option Bytes :=
  if e.complex then do
    let head ← allocate e.size.toInt (putShort e.size ++ putShort e.flag ++
      putInt e.stringPoolIndex ++ putInt e.parent ++ putInt e.pairCount)
    let pairs := if 0 < e.pairCount.toInt then e.resMapValues.getD [] else []
    let values ← pairs.mapM ResMapValue.toBytes
    return head ++ values.flatten
  else do
    let head ← allocate e.size.toInt (putShort e.size ++ putShort e.flag ++
      putInt e.stringPoolIndex)
    let value ← e.resValue
    let bytes ← value.toBytes
    return head ++ bytes

end ResEntry

/-! ## Types -/

/-- `ResConfig`; only its size is looked at. -/
structure ResConfig where
  size : BitVec 32
  content : Option Bytes
  deriving DecidableEq

def ResConfig.toBytes (c : ResConfig) : Option Bytes :=
  allocate c.size.toInt (putInt c.size ++ c.content.getD [])

def noEntryIndex : BitVec 32 := -1

structure ResType (S : Type) where
  headSize : BitVec 16
  chunkSize : BitVec 32
  headPadding : ℤ
  chunkPadding : ℤ
  id : BitVec 8
  reserved0 : BitVec 8
  reserved1 : BitVec 16
  entryCount : BitVec 32
  entryTableOffset : BitVec 32
  resConfigFlags : ResConfig
  entryOffsets : Option (List (BitVec 32))
  entryTable : Option (List (Option (ResEntry S)))
  resNameStringCountMap : OrdMap ℤ ℕ

namespace ResType

variable {S : Type}

/-- `RES_TABLE_TYPE_TYPE`. -/
def chunkType : BitVec 16 := 513

def countName (counts : OrdMap ℤ ℕ) (e : ResEntry S) : OrdMap ℤ ℕ :=
  counts.insert e.stringPoolIndex.toInt ((counts[e.stringPoolIndex.toInt]?).getD 0 + 1)

/-- `updateResNameReferenceCount`: the references of the first `entryCount` entries. -/
def updateResNameReferenceCount (t : ResType S) : Option (ResType S) :=
  match t.entryTable with
  | none => some { t with resNameStringCountMap := ∅ }
  | some table =>
    if table.length < t.entryCount.toInt then none
    else some { t with resNameStringCountMap :=
      (table.take t.entryCount.toInt.toNat).reduceOption.foldl countName ∅ }

def removeEntry (t : ResType S) (entryId : ℕ) : Option (ResType S) := do
  let table ← t.entryTable
  let offsets ← t.entryOffsets
  if entryId < table.length ∧ entryId < offsets.length then
    return { t with
      entryTable := some (table.set entryId none)
      entryOffsets := some (offsets.set entryId noEntryIndex) }
  else none

/-- The loop of `refresh` over offsets and entries: an offset that is not `NO_ENTRY_INDEX` becomes the
end of the entries before it. -/
def placeEntries : ℕ → List (BitVec 32) → List (Option (ResEntry S)) → Option (List (BitVec 32))
  | _, [], _ => some []
  | _, _ :: _, [] => none
  | last, offset :: offsets, entry :: entries =>
    if offset = noEntryIndex then do
      let rest ← placeEntries last offsets entries
      return noEntryIndex :: rest
    else do
      let bytes ← (← entry).toBytes
      let rest ← placeEntries (last + bytes.length) offsets entries
      return BitVec.ofNat 32 last :: rest

def entryBytes (t : ResType S) : Option (List Bytes) :=
  (t.entryTable.getD []).reduceOption.mapM ResEntry.toBytes

/-- `recomputeChunkSize`: a type without entries is of size zero and has no entry count. -/
def recomputeChunkSize (t : ResType S) : Option (ResType S) := do
  let entries ← t.entryBytes
  let size : ℤ := t.headSize.toInt + (t.entryOffsets.getD []).length * 4 +
    (entries.map List.length).sum
  if entries.length = 0 then return { t with entryCount := 0, chunkSize := 0, chunkPadding := 0 }
  else return { t with
    chunkSize := BitVec.ofInt 32 (size + padding size)
    chunkPadding := padding size }

def refresh (t : ResType S) : Option (ResType S) := do
  let t ← match t.entryTable, t.entryOffsets with
    | some table, some offsets => do
      let count := t.entryCount.toInt.toNat
      if offsets.length < count then none
      else
        let placed ← placeEntries 0 (offsets.take count) table
        { t with entryOffsets := some (placed ++ offsets.drop count) }.updateResNameReferenceCount
    | _, _ => some t
  t.recomputeChunkSize

def toBytes (t : ResType S) : Option Bytes := do
  let config ← t.resConfigFlags.toBytes
  let entries ← t.entryBytes
  allocate t.chunkSize.toInt (putShort chunkType ++ putShort t.headSize ++ putInt t.chunkSize ++
    put t.id ++ put t.reserved0 ++ putShort t.reserved1 ++ putInt t.entryCount ++
    putInt t.entryTableOffset ++ config ++ zeros t.headPadding ++
    (t.entryOffsets.getD []).flatMap putInt ++ entries.flatten ++ zeros t.chunkPadding)

end ResType

structure ResTypeSpec where
  headSize : BitVec 16
  chunkSize : BitVec 32
  headPadding : ℤ
  chunkPadding : ℤ
  id : BitVec 8
  reserved0 : BitVec 8
  reserved1 : BitVec 16
  entryCount : BitVec 32
  configFlags : Option Bytes

namespace ResTypeSpec

/-- `RES_TABLE_TYPE_SPEC_TYPE`. -/
def chunkType : BitVec 16 := 514

def toBytes (s : ResTypeSpec) : Option Bytes :=
  allocate s.chunkSize.toInt (putShort chunkType ++ putShort s.headSize ++ putInt s.chunkSize ++
    put s.id ++ put s.reserved0 ++ putShort s.reserved1 ++ putInt s.entryCount ++
    zeros s.headPadding ++ s.configFlags.getD [] ++ zeros s.chunkPadding)

end ResTypeSpec

/-- The chunks in a package. The class of a chunk is the value of its `type`. -/
inductive ResChunk (S : Type) where
  | typeSpec (spec : ResTypeSpec)
  | resType (t : ResType S)

namespace ResChunk

variable {S : Type}

def chunkSize : ResChunk S → BitVec 32
  | .typeSpec s => s.chunkSize
  | .resType t => t.chunkSize

def toBytes : ResChunk S → Option Bytes
  | .typeSpec s => s.toBytes
  | .resType t => t.toBytes

end ResChunk

/-! ## Packages and tables -/

structure ResPackage (S : Type) where
  chunkType : BitVec 16
  headSize : BitVec 16
  chunkSize : BitVec 32
  headPadding : ℤ
  chunkPadding : ℤ
  id : BitVec 32
  name : Bytes
  resTypePoolOffset : BitVec 32
  lastPublicType : BitVec 32
  resNamePoolOffset : BitVec 32
  lastPublicName : BitVec 32
  resTypePool : Option (ResStringBlock S)
  resNamePool : Option (ResStringBlock S)
  resTypeArray : Option (List (ResChunk S))
  resProguardPool : Option (ResStringBlock S)

namespace ResPackage

variable {S : Type}

def written (p : ResPackage S) : List (ResChunk S) :=
  (p.resTypeArray.getD []).filter fun chunk => 0 < chunk.chunkSize.toInt

def recomputeChunkSize (p : ResPackage S) : ResPackage S :=
  let size : ℤ := p.headSize.toInt + (p.resTypePool.elim 0 fun pool => pool.chunkSize.toInt) +
    (p.resNamePool.elim 0 fun pool => pool.chunkSize.toInt) +
    (p.written.map fun chunk => chunk.chunkSize.toInt).sum
  { p with chunkSize := BitVec.ofInt 32 (size + padding size), chunkPadding := padding size }

/-- `refresh`: the pool of `resProguardPool` takes the place of the name pool, as the same object.
-/
def refresh [Text S] [DecidableEq S] (p : ResPackage S) : Option (ResPackage S) := do
  match p.resProguardPool with
  | none => return p.recomputeChunkSize
  | some pool =>
    let pool ← pool.refresh
    return { p with resNamePool := some pool, resProguardPool := some pool }.recomputeChunkSize

def counted (p : ResPackage S) (index : ℤ) : Bool :=
  (p.resTypeArray.getD []).any fun
    | .typeSpec _ => false
    | .resType t => t.resNameStringCountMap.contains index

/-- `shrinkResNameStringPool`: every name that no type counts is replaced by the empty string, in
`resProguardPool` too, once that is set. -/
def shrinkResNameStringPool [Text S] [DecidableEq S] (p : ResPackage S) : Option (ResPackage S) :=
  match p.resNamePool with
  | none => some p
  | some pool => do
    let strings := pool.strings.getD []
    let count := pool.stringCount.toInt.toNat
    if strings.length < count then none
    else
      let blank := encodeStringPoolEntry (Text.empty : S) pool.utf8
      let strings := strings.mapIdx fun i buffer =>
        if i < count ∧ ¬ p.counted i then blank else buffer
      let pool ← { pool with strings := pool.strings.map fun _ => strings }.refresh
      return { p with
        resNamePool := some pool
        resProguardPool := p.resProguardPool.map fun _ => pool }

def toBytes (p : ResPackage S) : Option Bytes := do
  let typePool ← p.resTypePool.mapM ResStringBlock.toBytes
  let namePool ← p.resNamePool.mapM ResStringBlock.toBytes
  let chunks ← p.written.mapM ResChunk.toBytes
  allocate p.chunkSize.toInt (putShort p.chunkType ++ putShort p.headSize ++ putInt p.chunkSize ++
    putInt p.id ++ p.name ++ putInt p.resTypePoolOffset ++ putInt p.lastPublicType ++
    putInt p.resNamePoolOffset ++ putInt p.lastPublicName ++ zeros p.headPadding ++
    typePool.getD [] ++ namePool.getD [] ++ chunks.flatten ++ zeros p.chunkPadding)

end ResPackage

structure ResTable (S : Type) where
  chunkType : BitVec 16
  headSize : BitVec 16
  chunkSize : BitVec 32
  headPadding : ℤ
  chunkPadding : ℤ
  packageCount : BitVec 32
  globalStringPool : Option (ResStringBlock S)
  packages : Option (List (ResPackage S))

namespace ResTable

variable {S : Type}

/-- `refresh`, which is `recomputeChunkSize`. -/
def refresh (t : ResTable S) : ResTable S :=
  let size : ℤ := t.headSize.toInt + (t.globalStringPool.elim 0 fun pool => pool.chunkSize.toInt) +
    ((t.packages.getD []).map fun p => p.chunkSize.toInt).sum
  { t with chunkSize := BitVec.ofInt 32 (size + padding size), chunkPadding := padding size }

def toBytes (t : ResTable S) : Option Bytes := do
  let pool ← t.globalStringPool.mapM ResStringBlock.toBytes
  let packages ← (t.packages.getD []).mapM ResPackage.toBytes
  allocate t.chunkSize.toInt (putShort t.chunkType ++ putShort t.headSize ++ putInt t.chunkSize ++
    putInt t.packageCount ++ zeros t.headPadding ++ pool.getD [] ++ packages.flatten ++
    zeros t.chunkPadding)

end ResTable

end TraceHarbor.Arsc
