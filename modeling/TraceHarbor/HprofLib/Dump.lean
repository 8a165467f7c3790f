import TraceHarbor.HprofLib.HprofWriter

/-!
# Well-formed Dumps

The format of a dump, as data: a header and records, a heap dump record having sub-records. The
identifiers have the size that the header states, by their type, and a value has the size of its
type. `encode` gives the bytes.
-/

namespace TraceHarbor.HprofLib

open Lib Lib.Parser List

variable {k : ℕ}

/-! ## The format -/

/-- An identifier of the size that the header states. -/
abbrev Id (k : ℕ) := { bytes : List UInt8 // bytes.length = k }

structure Constant (k : ℕ) where
  index : BitVec 16
  type : FieldType
  value : List UInt8
  size_eq : value.length = type.getSize k

structure StaticField (k : ℕ) where
  nameId : Id k
  type : FieldType
  value : List UInt8
  size_eq : value.length = type.getSize k

structure InstanceField (k : ℕ) where
  nameId : Id k
  typeId : UInt8

structure ClassRecord (k : ℕ) where
  id : Id k
  stackSerialNumber : BitVec 32
  superClassId : Id k
  classLoaderId : Id k
  /-- the signers, the protection domain and two reserved identifiers -/
  others : Id (4 * k)
  instanceSize : BitVec 32
  constants : List (Constant k)
  staticFields : List (StaticField k)
  instanceFields : List (InstanceField k)

inductive IdIntKind where
  | nativeStack | threadBlock
  deriving DecidableEq

def IdIntKind.tag : IdIntKind → UInt8
  | nativeStack => 0x04
  | threadBlock => 0x06

def IdIntKind.visit : IdIntKind → ID → BitVec 32 → HeapVisit
  | nativeStack => .nativeStack
  | threadBlock => .threadBlock

inductive IdIntIntKind where
  | jniLocal | javaFrame | threadObject | jniMonitor
  deriving DecidableEq

def IdIntIntKind.tag : IdIntIntKind → UInt8
  | jniLocal => 0x02
  | javaFrame => 0x03
  | threadObject => 0x08
  | jniMonitor => 0x8e

def IdIntIntKind.visit : IdIntIntKind → ID → BitVec 32 → BitVec 32 → HeapVisit
  | jniLocal => .jniLocal
  | javaFrame => .javaFrame
  | threadObject => .threadObject
  | jniMonitor => .jniMonitor

/-- The sub-records. An array without data has its elements all the same, as the reader sees it. -/
inductive SubRecord (k : ℕ) where
  | info (heapId : BitVec 32) (heapNameId : Id k)
  | basic (tag : BasicTag) (id : Id k)
  | jniGlobal (id ref : Id k)
  | idInt (kind : IdIntKind) (id : Id k) (a : BitVec 32)
  | idIntInt (kind : IdIntIntKind) (id : Id k) (a b : BitVec 32)
  | classRecord (c : ClassRecord k)
  | instanceRecord (id : Id k) (stackId : BitVec 32) (typeId : Id k) (data : List UInt8)
  | objectArray (id : Id k) (stackId : BitVec 32) (typeId : Id k) (elements : List (Id k))
  | primitiveArray (noData : Bool) (id : Id k) (stackId : BitVec 32) (type : FieldType)
      (numElements : ℕ) (elements : Id (numElements * type.getSize k))

inductive Record (k : ℕ) where
  | string (timestamp : BitVec 32) (id : Id k) (text : Text)
  | loadClass (timestamp serialNumber : BitVec 32) (classObjectId : Id k)
      (stackTraceSerial : BitVec 32) (classNameStringId : Id k)
  | stackFrame (timestamp : BitVec 32) (id methodNameId methodSignatureId sourceFileId : Id k)
      (serial lineNumber : BitVec 32)
  | stackTrace (timestamp serialNumber threadSerialNumber : BitVec 32) (frameIds : List (Id k))
  | heapDump (segment : Bool) (timestamp : BitVec 32) (subRecords : List (SubRecord k))
  | other (tag : UInt8) (timestamp : BitVec 32) (data : List UInt8)
      (hother : tag ∉ [0x01, 0x02, 0x04, 0x05, 0x0c, 0x1c])

/-! ## Bytes -/

def Constant.encode (c : Constant k) : List UInt8 :=
  beBytes 2 c.index.toNat ++ ([c.type.typeId] ++ c.value)

def StaticField.encode (f : StaticField k) : List UInt8 :=
  f.nameId.1 ++ ([f.type.typeId] ++ f.value)

def InstanceField.encode (f : InstanceField k) : List UInt8 := f.nameId.1 ++ [f.typeId]

def ClassRecord.encode (c : ClassRecord k) : List UInt8 :=
  c.id.1 ++ (writeBEInt c.stackSerialNumber ++ (c.superClassId.1 ++ (c.classLoaderId.1 ++
    (c.others.1 ++ (writeBEInt c.instanceSize ++
      (writeBEShort c.constants.length ++ (c.constants.flatMap Constant.encode ++
        ((writeBEShort c.staticFields.length ++ c.staticFields.flatMap StaticField.encode) ++
          (writeBEShort c.instanceFields.length ++
            c.instanceFields.flatMap InstanceField.encode)))))))))

namespace SubRecord

def tag : SubRecord k → UInt8
  | .info .. => 0xfe
  | .basic tag _ => tag.tag
  | .jniGlobal .. => 0x01
  | .idInt kind .. => kind.tag
  | .idIntInt kind .. => kind.tag
  | .classRecord _ => 0x20
  | .instanceRecord .. => 0x21
  | .objectArray .. => 0x22
  | .primitiveArray noData .. => if noData then 0xc3 else 0x23

def body : SubRecord k → List UInt8
  | .info heapId heapNameId => writeBEInt heapId ++ heapNameId.1
  | .basic _ id => id.1
  | .jniGlobal id ref => id.1 ++ ref.1
  | .idInt _ id a => id.1 ++ writeBEInt a
  | .idIntInt _ id a b => id.1 ++ (writeBEInt a ++ writeBEInt b)
  | .classRecord c => c.encode
  | .instanceRecord id stackId typeId data =>
    id.1 ++ (writeBEInt stackId ++ (typeId.1 ++
      (writeBEInt (BitVec.ofNat 32 data.length) ++ data)))
  | .objectArray id stackId typeId elements =>
    id.1 ++ (writeBEInt stackId ++ (writeBEInt (BitVec.ofNat 32 elements.length) ++
      (typeId.1 ++ elements.flatMap Subtype.val)))
  | .primitiveArray _ id stackId type numElements elements =>
    id.1 ++ (writeBEInt stackId ++ (writeBEInt (BitVec.ofNat 32 numElements) ++
      ([type.typeId] ++ elements.1)))

def encode (r : SubRecord k) : List UInt8 := [r.tag] ++ r.body

end SubRecord

/-! ## Visits -/

def decodeValue : FieldType → List UInt8 → Value
  | .object, bytes => .object bytes
  | .boolean, bytes => .boolean (bytes.head? ≠ some 0)
  | .char, bytes => .char (BitVec.ofNat 16 (ofBE bytes))
  | .float, bytes => .float (BitVec.ofNat 32 (ofBE bytes))
  | .double, bytes => .double (BitVec.ofNat 64 (ofBE bytes))
  | .byte, bytes => .byte (bytes.head?.getD 0xFF)
  | .short, bytes => .short (BitVec.ofNat 16 (ofBE bytes))
  | .int, bytes => .int (BitVec.ofNat 32 (ofBE bytes))
  | .long, bytes => .long (BitVec.ofNat 64 (ofBE bytes))

def StaticField.field (f : StaticField k) : Field :=
  ⟨some f.type.typeId, f.nameId.1, some (decodeValue f.type f.value)⟩

def InstanceField.field (f : InstanceField k) : Field := ⟨some f.typeId, f.nameId.1, none⟩

def SubRecord.visit : SubRecord k → HeapVisit
  | .info heapId heapNameId => .info heapId heapNameId.1
  | .basic tag id => .basicObj tag.tag id.1
  | .jniGlobal id _ => .basicObj 0x01 id.1
  | .idInt kind id a => kind.visit id.1 a
  | .idIntInt kind id a b => kind.visit id.1 a b
  | .classRecord c => .classDump c.id.1 c.stackSerialNumber c.superClassId.1 c.classLoaderId.1
      c.instanceSize (c.staticFields.map StaticField.field)
      (c.instanceFields.map InstanceField.field)
  | .instanceRecord id stackId typeId data => .instanceDump id.1 stackId typeId.1 data
  | .objectArray id stackId typeId elements =>
    .objectArray id.1 stackId (BitVec.ofNat 32 elements.length) typeId.1
      (elements.flatMap Subtype.val)
  | .primitiveArray noData id stackId type numElements elements =>
    .primitiveArray (if noData then 0xc3 else 0x23) id.1 stackId (BitVec.ofNat 32 numElements)
      type.typeId elements.1

/-! ## Reading values -/

theorem reads_readID (id : Id k) : Reads (readID k) id.1 id.1 := by
  have h := reads_take id.1
  rwa [id.2] at h

theorem reads_readBEInt (v : BitVec 32) : Reads readBEInt (writeBEInt v) v :=
  reads_readBE (by decide) v

theorem reads_readBEShort {n : ℕ} (h : n < 2 ^ 16) :
    Reads readBEShort (writeBEShort n) (BitVec.ofNat 16 n) := by
  have hread := reads_readBE (w := 16) (k := 2) (by decide) (BitVec.ofNat 16 n)
  rwa [BitVec.toNat_ofNat, Nat.mod_eq_of_lt h] at hread

theorem reads_readType (t : FieldType) : Reads (readType (some t.typeId)) [] t := by
  intro rest
  simp only [readType, Option.bind_some, FieldType.getType_typeId]
  rfl

variable {bytes : List UInt8}

theorem reads_readByte_of_length (h : bytes.length = 1) :
    Reads readByte bytes bytes.head? := by
  obtain ⟨x, rfl⟩ := length_eq_one_iff.mp h
  exact reads_readByte x

theorem reads_word {w n : ℕ} (h : bytes.length = n) :
    Reads (readBE w n) bytes (BitVec.ofNat w (ofBE bytes)) := by
  have hread := reads_readBE_bytes w bytes
  rwa [h] at hread

theorem reads_readValue (t : FieldType) (h : bytes.length = t.getSize k) :
    Reads (readValue k t) bytes (decodeValue t bytes) := by
  cases t with
  | object => exact (reads_readID ⟨bytes, h⟩).map
  | boolean | byte => exact (reads_readByte_of_length h).map
  | char | short | float | int | double | long => exact (reads_word h).map

theorem reads_skipConstant (c : Constant k) :
    Reads (skipConstant k) c.encode c.encode.length := by
  have hidx : Reads (skip 2) (beBytes 2 c.index.toNat) () := by
    have h := reads_skip (beBytes 2 c.index.toNat)
    rwa [length_beBytes] at h
  have hval : Reads (skip (c.type.getSize k)) c.value () := by
    have h := reads_skip c.value
    rwa [c.size_eq] at h
  have hlen : c.encode.length = 2 + (c.type.getSize k + 1) := by
    simp only [Constant.encode, length_append, length_beBytes, length_singleton,
      c.size_eq]
    omega
  rw [hlen]
  exact hidx.bind ((reads_readByte _).bind ((reads_readType c.type).bind hval.map))

theorem reads_readStaticField (f : StaticField k) :
    Reads (readStaticField k) f.encode (f.field, f.encode.length) := by
  have hlen : f.encode.length = k + 1 + f.type.getSize k := by
    simp only [StaticField.encode, length_append, f.nameId.2, length_singleton, f.size_eq]
    omega
  rw [hlen]
  exact (reads_readID f.nameId).bind ((reads_readByte _).bind
    ((reads_readType f.type).bind (reads_readValue f.type f.size_eq).map))

theorem reads_readInstanceField (f : InstanceField k) :
    Reads (readInstanceField k) f.encode (f.field, f.encode.length) := by
  have hlen : f.encode.length = k + 1 := by
    simp [InstanceField.encode, f.nameId.2]
  rw [hlen]
  exact (reads_readID f.nameId).bind (reads_readByte _).map

/-- A count whose highest bit is not set is read as it is. -/
theorem bmod_of_lt {w n : ℕ} (h : n < 2 ^ w) : (n : ℤ).bmod (2 ^ (w + 1)) = n := by
  exact Int.bmod_eq_of_le (by omega) (by omega)

theorem bmod_neg {w n : ℕ} (h : ¬ n < 2 ^ w) (h' : n < 2 ^ (w + 1)) :
    (n : ℤ).bmod (2 ^ (w + 1)) < 0 := by
  rw [Int.bmod_def, Int.emod_eq_of_lt (by omega) (by omega)]
  omega

theorem toInt_ofNat_of_lt {w n : ℕ} (h : n < 2 ^ w) : (BitVec.ofNat (w + 1) n).toInt = n :=
  (BitVec.toInt_ofNat' n).trans (bmod_of_lt h)

theorem readsIf_readFields {ι : Type} {p : Parser (Field × ℕ)} {encode : ι → List UInt8}
    {field : ι → Field} {l : List ι} (hp : ∀ x, Reads p (encode x) (field x, (encode x).length))
    (hl : l.length < 2 ^ 16) :
    ReadsIf (l.length < 2 ^ 15) (readFields p) (writeBEShort l.length ++ l.flatMap encode)
      (l.map fun x => (field x, (encode x).length)) := by
  refine (reads_readBEShort hl).bind_if ?_
  rw [BitVec.toInt_ofNat']
  by_cases hfew : l.length < 2 ^ 15
  · rw [bmod_of_lt (w := 15) hfew]
    exact (reads_many fun x _ => hp x).readsIf hfew
  · rw [if_pos (bmod_neg (w := 15) hfew hl)]
    exact readsIf_fail hfew

theorem readsIf_readArray {data : List UInt8} {n : ℕ} (hn : data.length = n) (h : n < 2 ^ 32) :
    ReadsIf (n < 2 ^ 31) (readArray ((n : ℤ).bmod (2 ^ 32))) data data := by
  unfold readArray
  by_cases hshort : n < 2 ^ 31
  · rw [bmod_of_lt (w := 31) hshort, ← hn]
    exact (reads_take data).readsIf (hn ▸ hshort)
  · rw [if_pos (bmod_neg (w := 31) hshort h)]
    exact readsIf_fail hshort

theorem readsIf_readArray_toInt {data : List UInt8} {n : ℕ} (hn : data.length = n)
    (h : n < 2 ^ 32) : ReadsIf (n < 2 ^ 31) (readArray (BitVec.ofNat 32 n).toInt) data data := by
  rw [BitVec.toInt_ofNat']
  exact readsIf_readArray hn h

/-! ## Reading sub-records -/

namespace SubRecord

/-- A class dump has no more constants than the reader can count. -/
def FewConstants : SubRecord k → Prop
  | .classRecord c => c.constants.length < 2 ^ 15
  | _ => True

/-- The fields of a class can be counted, and the bytes of an object or an array fit an array. -/
def Readable : SubRecord k → Prop
  | .classRecord c => c.staticFields.length < 2 ^ 15 ∧ c.instanceFields.length < 2 ^ 15
  | .instanceRecord _ _ _ data => data.length < 2 ^ 31
  | .objectArray _ _ _ elements => elements.length * k < 2 ^ 31
  | .primitiveArray _ _ _ type numElements _ => numElements * type.getSize k < 2 ^ 31
  | _ => True

/-- The counts of a class dump fit their places. -/
def Fits : SubRecord k → Prop
  | .classRecord c => c.constants.length < 2 ^ 16 ∧ c.staticFields.length < 2 ^ 16 ∧
      c.instanceFields.length < 2 ^ 16
  | _ => True

end SubRecord

theorem length_writeBEInt (v : BitVec 32) : (writeBEInt v).length = 4 := length_beBytes ..

theorem length_writeBEShort (n : ℕ) : (writeBEShort n).length = 2 := length_beBytes ..

theorem length_elements (elements : List (Id k)) :
    (elements.flatMap Subtype.val).length = elements.length * k := by
  rw [length_flatMap, map_congr_left fun e _ => e.2]
  simp

theorem reads_skip_id (id : Id k) : Reads (skip k) id.1 () := by
  have h := reads_skip id.1
  rwa [id.2] at h

theorem reads_constants {constants : List (Constant k)} (h : constants.length < 2 ^ 15) :
    Reads (many (skipConstant k) (BitVec.ofNat 16 constants.length).toInt.toNat)
      (constants.flatMap Constant.encode) (constants.map fun x => x.encode.length) := by
  rw [toInt_ofNat_of_lt (w := 15) h]
  exact reads_many fun x _ => reads_skipConstant x

theorem readsIf_acceptClassDump {c : ClassRecord k} (hcons : c.constants.length < 2 ^ 15)
    (hstat : c.staticFields.length < 2 ^ 16) (hinst : c.instanceFields.length < 2 ^ 16) :
    ReadsIf (c.staticFields.length < 2 ^ 15 ∧ c.instanceFields.length < 2 ^ 15) (acceptClassDump k)
      c.encode ((SubRecord.classRecord c).visit, c.encode.length) := by
  have hlen : c.encode.length = 7 * k + 4 + 4 + 2 + (c.constants.map fun x => x.encode.length).sum +
      2 + (c.staticFields.map fun x => x.encode.length).sum +
      2 + (c.instanceFields.map fun x => x.encode.length).sum := by
    simp only [ClassRecord.encode, length_append, c.id.2, c.superClassId.2, c.classLoaderId.2,
      c.others.2, length_writeBEInt, length_writeBEShort, length_flatMap]
    ring
  have hread : ReadsIf (c.staticFields.length < 2 ^ 15 ∧ c.instanceFields.length < 2 ^ 15)
      (acceptClassDump k) c.encode
      (.classDump c.id.1 c.stackSerialNumber c.superClassId.1 c.classLoaderId.1 c.instanceSize
          ((c.staticFields.map fun x => (x.field, x.encode.length)).map Prod.fst)
          ((c.instanceFields.map fun x => (x.field, x.encode.length)).map Prod.fst),
        7 * k + 4 + 4 + 2 + (c.constants.map fun x => x.encode.length).sum +
          2 + ((c.staticFields.map fun x => (x.field, x.encode.length)).map Prod.snd).sum +
          2 + ((c.instanceFields.map fun x => (x.field, x.encode.length)).map Prod.snd).sum) := by
    refine (reads_readID c.id).bind_if ?_
    refine (reads_readBEInt c.stackSerialNumber).bind_if ?_
    refine (reads_readID c.superClassId).bind_if ?_
    refine (reads_readID c.classLoaderId).bind_if ?_
    refine (reads_skip_id c.others).bind_if ?_
    refine (reads_readBEInt c.instanceSize).bind_if ?_
    refine (reads_readBEShort (by omega)).bind_if ?_
    refine (reads_constants hcons).bind_if ?_
    refine (readsIf_readFields reads_readStaticField hstat).bind ?_
    exact (readsIf_readFields reads_readInstanceField hinst).map
  simp only [map_map, Function.comp_def] at hread
  rw [hlen]
  exact hread

/-- The function that reads a sub-record after its tag. -/
def SubRecord.parser : SubRecord k → Parser (HeapVisit × ℕ)
  | .info .. => acceptHeapDumpInfo k
  | .basic tag _ => acceptBasicObj k tag.tag
  | .jniGlobal .. => acceptJniGlobal k 0x01
  | .idInt kind .. => acceptIdInt k kind.visit
  | .idIntInt kind .. => acceptIdIntInt k kind.visit
  | .classRecord _ => acceptClassDump k
  | .instanceRecord .. => acceptInstanceDump k
  | .objectArray .. => acceptObjectArrayDump k
  | .primitiveArray noData .. => acceptPrimitiveArrayDump k (if noData then 0xc3 else 0x23)

theorem acceptSubRecord_tag (r : SubRecord k) (b : List UInt8) :
    acceptSubRecord k (r.encode ++ b) = r.parser (r.body ++ b) := by
  cases r with
  | basic tag _ => cases tag <;> rfl
  | idInt kind _ _ | idIntInt kind _ _ _ => cases kind <;> rfl
  | primitiveArray noData _ _ _ _ _ => cases noData <;> rfl
  | _ => rfl

theorem readsIf_subRecord {r : SubRecord k} (hcons : r.FewConstants) (hfits : r.Fits)
    (hbody : r.body.length < 2 ^ 32) :
    ReadsIf r.Readable r.parser r.body (r.visit, r.body.length) := by
  cases r with
  | info heapId heapNameId =>
    have hlen : (SubRecord.info heapId heapNameId).body.length = 4 + k := by
      simp [SubRecord.body, length_writeBEInt, heapNameId.2]
    rw [hlen]
    exact ((reads_readBEInt heapId).bind (reads_readID heapNameId).map).readsIf trivial
  | basic tag id =>
    rw [show (SubRecord.basic tag id).body.length = k from id.2]
    exact (reads_readID id).map.readsIf trivial
  | jniGlobal id ref =>
    have hlen : (SubRecord.jniGlobal id ref).body.length = 2 * k := by
      simp only [SubRecord.body, length_append, id.2, ref.2]
      omega
    rw [hlen]
    exact ((reads_readID id).bind (reads_skip_id ref).map).readsIf trivial
  | idInt kind id a =>
    have hlen : (SubRecord.idInt kind id a).body.length = k + 4 := by
      simp [SubRecord.body, id.2, length_writeBEInt]
    rw [hlen]
    exact ((reads_readID id).bind (reads_readBEInt a).map).readsIf trivial
  | idIntInt kind id a b =>
    have hlen : (SubRecord.idIntInt kind id a b).body.length = k + 4 + 4 := by
      simp [SubRecord.body, id.2, length_writeBEInt]
    rw [hlen]
    exact ((reads_readID id).bind ((reads_readBEInt a).bind (reads_readBEInt b).map)).readsIf trivial
  | classRecord c => exact readsIf_acceptClassDump hcons hfits.2.1 hfits.2.2
  | instanceRecord id stackId typeId data =>
    have hlen : (SubRecord.instanceRecord id stackId typeId data).body.length =
        k + 4 + k + 4 + data.length := by
      simp only [SubRecord.body, length_append, id.2, typeId.2, length_writeBEInt]
      omega
    rw [hlen] at hbody ⊢
    refine (reads_readID id).bind_if ((reads_readBEInt stackId).bind_if ?_)
    refine (reads_readID typeId).bind_if ((reads_readBEInt _).bind_if ?_)
    exact (readsIf_readArray_toInt rfl (by omega)).map
  | objectArray id stackId typeId elements =>
    have hlen : (SubRecord.objectArray id stackId typeId elements).body.length =
        k + 4 + 4 + k + (elements.flatMap Subtype.val).length := by
      simp only [SubRecord.body, length_append, id.2, typeId.2, length_writeBEInt]
      omega
    have hdata := length_elements elements
    rw [hlen] at hbody ⊢
    refine (reads_readID id).bind_if ((reads_readBEInt stackId).bind_if ?_)
    refine (reads_readBEInt _).bind_if ((reads_readID typeId).bind_if ?_)
    rw [← BitVec.ofNat_mul]
    exact (readsIf_readArray_toInt hdata (by omega)).map
  | primitiveArray noData id stackId type numElements elements =>
    have hlen : (SubRecord.primitiveArray noData id stackId type numElements elements).body.length =
        k + 4 + 4 + 1 + elements.1.length := by
      simp only [SubRecord.body, length_append, id.2, length_writeBEInt, length_singleton]
      omega
    rw [hlen] at hbody ⊢
    refine (reads_readID id).bind_if ((reads_readBEInt stackId).bind_if ?_)
    refine (reads_readBEInt _).bind_if ((reads_readByte _).bind_if ?_)
    refine (reads_readType type).bind_if ?_
    rw [← BitVec.ofNat_mul]
    have hdata := elements.2
    exact (readsIf_readArray_toInt hdata (by omega)).map

/-! ## Reading a heap dump -/

theorem subRecordLoop_encode {subs : List (SubRecord k)}
    (h : ∀ r ∈ subs, r.FewConstants ∧ r.Fits ∧ r.body.length < 2 ^ 32) {fuel : ℕ}
    (hfuel : subs.length < fuel) (rest : List UInt8) :
    ((∀ r ∈ subs, r.Readable) → subRecordLoop k fuel ((subs.flatMap SubRecord.encode).length : ℤ)
        (subs.flatMap SubRecord.encode ++ rest) = (subs.map SubRecord.visit, .ok () rest)) ∧
      ((¬ ∀ r ∈ subs, r.Readable) →
        (subRecordLoop k fuel ((subs.flatMap SubRecord.encode).length : ℤ)
          (subs.flatMap SubRecord.encode ++ rest)).2 = .fail) := by
  obtain ⟨fuel, rfl⟩ := Nat.exists_eq_succ_of_ne_zero (Nat.ne_of_gt (Nat.zero_lt_of_lt hfuel))
  induction subs generalizing fuel with
  | nil => simp [subRecordLoop]
  | cons r subs ih =>
    obtain ⟨fuel, rfl⟩ := Nat.exists_eq_succ_of_ne_zero
      (Nat.ne_of_gt (Nat.zero_lt_of_lt (Nat.lt_of_succ_lt_succ hfuel)))
    obtain ⟨⟨hfew, hfits, hbody⟩, hsubs⟩ := forall_mem_cons.mp h
    obtain ⟨hread, hfail⟩ := ih hsubs fuel (Nat.lt_of_succ_lt_succ hfuel)
    have hhead := readsIf_subRecord hfew hfits hbody (subs.flatMap SubRecord.encode ++ rest)
    rw [← acceptSubRecord_tag] at hhead
    have hlen : r.encode.length = 1 + r.body.length := by
      simp only [SubRecord.encode, length_append, length_singleton]
    have hsub : (((1 + r.body.length + (subs.flatMap SubRecord.encode).length : ℕ) : ℤ)) - 1 -
        (r.body.length : ℤ) = ((subs.flatMap SubRecord.encode).length : ℤ) := by
      push_cast
      ring
    rw [subRecordLoop, flatMap_cons, append_assoc, length_append, hlen,
      if_neg (by omega), forall_mem_cons]
    by_cases hr : r.Readable
    · rw [if_pos hr] at hhead
      simp only [hhead, hsub, hr, true_and, map_cons]
      exact ⟨fun hall => by rw [hread hall], hfail⟩
    · rw [if_neg hr] at hhead
      simp [hhead, hr]

theorem length_le_length_encode (subs : List (SubRecord k)) :
    subs.length ≤ (subs.flatMap SubRecord.encode).length := by
  rw [length_flatMap, ← length_map]
  exact length_le_sum_of_one_le _ (forall_mem_map.mpr fun s _ => by simp [SubRecord.encode])

/-! ## Records -/

namespace Record

def tag : Record k → UInt8
  | .string .. => 0x01
  | .loadClass .. => 0x02
  | .stackFrame .. => 0x04
  | .stackTrace .. => 0x05
  | .heapDump segment .. => if segment then 0x1c else 0x0c
  | .other tag .. => tag

def timestamp : Record k → BitVec 32
  | .string timestamp .. => timestamp
  | .loadClass timestamp .. => timestamp
  | .stackFrame timestamp .. => timestamp
  | .stackTrace timestamp .. => timestamp
  | .heapDump _ timestamp _ => timestamp
  | .other _ timestamp .. => timestamp

def body : Record k → List UInt8
  | .string _ id text => id.1 ++ utf8Encode text
  | .loadClass _ serialNumber classObjectId stackTraceSerial classNameStringId =>
    writeBEInt serialNumber ++ (classObjectId.1 ++ (writeBEInt stackTraceSerial ++
      classNameStringId.1))
  | .stackFrame _ id methodNameId methodSignatureId sourceFileId serial lineNumber =>
    id.1 ++ (methodNameId.1 ++ (methodSignatureId.1 ++ (sourceFileId.1 ++
      (writeBEInt serial ++ writeBEInt lineNumber))))
  | .stackTrace _ serialNumber threadSerialNumber frameIds =>
    writeBEInt serialNumber ++ (writeBEInt threadSerialNumber ++
      (writeBEInt (BitVec.ofNat 32 frameIds.length) ++ frameIds.flatMap Subtype.val))
  | .heapDump _ _ subRecords => subRecords.flatMap SubRecord.encode
  | .other _ _ data _ => data

def encode (r : Record k) : List UInt8 :=
  writeRecordHeader r.tag r.timestamp r.body.length ++ r.body

def visits (r : Record k) : List Visit :=
  match r with
  | .string timestamp id text => [.stringRecord id.1 text timestamp r.body.length]
  | .loadClass timestamp serialNumber classObjectId stackTraceSerial classNameStringId =>
    [.loadClassRecord serialNumber classObjectId.1 stackTraceSerial classNameStringId.1 timestamp
      r.body.length]
  | .stackFrame timestamp id methodNameId methodSignatureId sourceFileId serial lineNumber =>
    [.stackFrameRecord id.1 methodNameId.1 methodSignatureId.1 sourceFileId.1 serial lineNumber
      timestamp r.body.length]
  | .stackTrace timestamp serialNumber threadSerialNumber frameIds =>
    [.stackTraceRecord serialNumber threadSerialNumber (frameIds.map Subtype.val) timestamp
      r.body.length]
  | .heapDump _ timestamp subRecords =>
    .heapDumpRecord r.tag timestamp r.body.length ::
      subRecords.map (fun s => .heap s.visit) ++ [.heapEnd]
  | .other tag timestamp data _ => [.unconcernedRecord tag timestamp r.body.length data]

/-- The length of a record fits its place, and so do the counts of the class dumps. -/
def Fits (r : Record k) : Prop :=
  r.body.length < 2 ^ 32 ∧
    match r with
    | .heapDump _ _ subRecords => ∀ s ∈ subRecords, s.Fits
    | _ => True

def FewConstants : Record k → Prop
  | .heapDump _ _ subRecords => ∀ s ∈ subRecords, s.FewConstants
  | _ => True

/-- The bytes of a text or of an unknown record fit an array, and sub-records can be read. -/
def Readable : Record k → Prop
  | .string _ _ text => (utf8Encode text).length < 2 ^ 31
  | .heapDump _ _ subRecords => ∀ s ∈ subRecords, s.Readable
  | .other _ _ data _ => data.length < 2 ^ 31
  | _ => True

end Record

theorem utf8Decode_utf8Encode (text : Text) : utf8Decode (utf8Encode text) = text := by
  have h : (utf8Encode text).toByteArray = text.utf8Encode := rfl
  rw [utf8Decode, h, utf8Decode?_utf8Encode]

theorem reads_recordHeader (tag : UInt8) (timestamp : BitVec 32) {length : ℕ}
    (h : length < 2 ^ 32) :
    Reads recordHeader (writeRecordHeader tag timestamp length) (some tag, timestamp, length) := by
  have hlen : (BitVec.ofNat 32 length).toNat = length := by
    rw [BitVec.toNat_ofNat, Nat.mod_eq_of_lt h]
  have hread : Reads recordHeader (writeRecordHeader tag timestamp length)
      (some tag, timestamp, (BitVec.ofNat 32 length).toNat) :=
    (reads_readByte tag).bind ((reads_readBEInt timestamp).bind (reads_readBEInt _).map)
  rwa [hlen] at hread

theorem length_string_text (id : Id k) (text : Text) :
    ((id.1 ++ utf8Encode text).length : ℤ) - k = (utf8Encode text).length := by
  rw [length_append, id.2]
  push_cast
  ring

theorem isHeapDumpTag_other {tag : UInt8} (h : tag ∉ [0x01, 0x02, 0x04, 0x05, 0x0c, 0x1c]) :
    isHeapDumpTag tag = false := by
  simp only [mem_cons, not_or] at h
  simp [isHeapDumpTag, h]

theorem acceptPlainRecord_other {tag : UInt8} (h : tag ∉ [0x01, 0x02, 0x04, 0x05, 0x0c, 0x1c])
    (timestamp : BitVec 32) (length : ℕ) :
    acceptPlainRecord k tag timestamp length = acceptUnconcernedRecord tag timestamp length := by
  simp only [mem_cons, not_or, ← UInt8.toNat_inj] at h
  unfold acceptPlainRecord
  split
  · exact absurd ‹_› h.1
  · exact absurd ‹_› h.2.1
  · exact absurd ‹_› h.2.2.1
  · exact absurd ‹_› h.2.2.2.1
  · rfl

open Classical in
theorem recordLoop_plain {r : Record k} {v : Visit} {c : Prop} (hlen : r.body.length < 2 ^ 32)
    (htag : isHeapDumpTag r.tag = false)
    (hread : ReadsIf c (acceptPlainRecord k r.tag r.timestamp r.body.length) r.body v) (fuel : ℕ)
    (rest : List UInt8) :
    recordLoop k (fuel + 1) (r.encode ++ rest) =
      if c then (recordLoop k fuel rest).map ([v] ++ ·) else none := by
  rw [recordLoop, Record.encode, append_assoc, reads_recordHeader _ _ hlen]
  simp only [htag, Bool.false_eq_true, if_false]
  rw [hread rest]
  split_ifs
  · dsimp only
    cases recordLoop k fuel rest <;> rfl
  · rfl

theorem isHeapDumpTag_heapDump (segment : Bool) (timestamp : BitVec 32)
    (subRecords : List (SubRecord k)) :
    isHeapDumpTag (Record.heapDump segment timestamp subRecords).tag = true := by
  cases segment <;> rfl

open Classical in
/-- A readable record is read as it is, and then the loop goes on; an unreadable one makes the loop
fail. -/
theorem recordLoop_record {r : Record k} (hk : 4 ≤ k) (hfits : r.Fits) (hcons : r.FewConstants)
    (fuel : ℕ) (rest : List UInt8) :
    recordLoop k (fuel + 1) (r.encode ++ rest) =
      if r.Readable then (recordLoop k fuel rest).map (r.visits ++ ·) else none := by
  have hbody := hfits.1
  cases r with
  | string timestamp id text =>
    refine recordLoop_plain hbody rfl ((reads_readID id).bind_if ?_) fuel rest
    have htext : ReadsIf ((utf8Encode text).length < 2 ^ 31)
        (readString ((id.1 ++ utf8Encode text).length - k)) (utf8Encode text)
        (utf8Decode (utf8Encode text)) := by
      simp only [Record.body, length_append] at hbody
      unfold readString
      rw [length_string_text]
      exact (readsIf_readArray rfl (by omega)).map
    rw [utf8Decode_utf8Encode] at htext
    exact htext.map
  | loadClass timestamp serialNumber classObjectId stackTraceSerial classNameStringId =>
    refine recordLoop_plain hbody rfl (Reads.readsIf ?_ trivial) fuel rest
    exact (reads_readBEInt _).bind ((reads_readID _).bind ((reads_readBEInt _).bind
      (reads_readID _).map))
  | stackFrame timestamp id methodNameId methodSignatureId sourceFileId serial lineNumber =>
    refine recordLoop_plain hbody rfl (Reads.readsIf ?_ trivial) fuel rest
    exact (reads_readID _).bind ((reads_readID _).bind ((reads_readID _).bind
      ((reads_readID _).bind ((reads_readBEInt _).bind (reads_readBEInt _).map))))
  | stackTrace timestamp serialNumber threadSerialNumber frameIds =>
    -- the length of the record bounds the number of frames
    have hfrs : frameIds.length < 2 ^ 31 := by
      simp only [Record.body, length_append, length_elements] at hbody
      have := Nat.mul_le_mul_left frameIds.length hk
      omega
    refine recordLoop_plain hbody rfl (Reads.readsIf ?_ trivial) fuel rest
    refine (reads_readBEInt _).bind ((reads_readBEInt _).bind ((reads_readBEInt _).bind ?_))
    rw [toInt_ofNat_of_lt (w := 31) hfrs, if_neg (by omega), Int.toNat_natCast]
    exact (reads_many fun id _ => reads_readID id).map
  | heapDump segment timestamp subRecords =>
    have hbod : ∀ s ∈ subRecords, s.FewConstants ∧ s.Fits ∧ s.body.length < 2 ^ 32 := by
      intro s hs
      refine ⟨hcons s hs, hfits.2 s hs, lt_of_le_of_lt ?_ hbody⟩
      calc s.body.length ≤ s.encode.length := by simp [SubRecord.encode]
        _ ≤ (subRecords.flatMap SubRecord.encode).length :=
          (sublist_flatten_of_mem (mem_map_of_mem hs)).length_le
    have hfuel : subRecords.length < (subRecords.flatMap SubRecord.encode ++ rest).length + 1 := by
      have := length_le_length_encode subRecords
      rw [length_append]
      omega
    obtain ⟨hread, hfail⟩ := subRecordLoop_encode hbod hfuel rest
    rw [recordLoop, Record.encode, append_assoc, reads_recordHeader _ _ hbody]
    simp only [isHeapDumpTag_heapDump, if_true, Record.body]
    split_ifs with hr
    · simp only [hread hr]
      cases recordLoop k fuel rest with
      | none => rfl
      | some later => simp [Record.visits, Record.body, Record.timestamp, Function.comp_def]
    · have hfail := hfail hr
      generalize subRecordLoop k _ _ _ = out at hfail
      obtain ⟨visits, outcome⟩ := out
      obtain rfl : outcome = .fail := hfail
      rfl
  | other tag timestamp data hother =>
    refine recordLoop_plain hbody (isHeapDumpTag_other hother) ?_ fuel rest
    have hplain : acceptPlainRecord k tag timestamp data.length =
        acceptUnconcernedRecord tag timestamp data.length := acceptPlainRecord_other hother ..
    rw [show (Record.other tag timestamp data hother).tag = tag from rfl,
      show (Record.other tag timestamp data hother).timestamp = timestamp from rfl,
      show (Record.other tag timestamp data hother).body = data from rfl, hplain]
    exact (@readsIf_readArray data _ rfl hbody).map

open Classical in
theorem recordLoop_encode {records : List (Record k)} (hk : 4 ≤ k)
    (hfits : ∀ r ∈ records, r.Fits) (hcons : ∀ r ∈ records, r.FewConstants) {fuel : ℕ}
    (hfuel : records.length < fuel) :
    recordLoop k fuel (records.flatMap Record.encode) =
      if ∀ r ∈ records, r.Readable then some (records.flatMap Record.visits) else none := by
  obtain ⟨fuel, rfl⟩ := Nat.exists_eq_succ_of_ne_zero (Nat.ne_of_gt (Nat.zero_lt_of_lt hfuel))
  induction records generalizing fuel with
  | nil => rw [if_pos nofun]; rfl
  | cons r records ih =>
    obtain ⟨fuel, rfl⟩ := Nat.exists_eq_succ_of_ne_zero
      (Nat.ne_of_gt (Nat.zero_lt_of_lt (Nat.lt_of_succ_lt_succ hfuel)))
    rw [forall_mem_cons] at hfits hcons
    rw [flatMap_cons, recordLoop_record hk hfits.1 hcons.1,
      ih hfits.2 hcons.2 fuel (Nat.lt_of_succ_lt_succ hfuel)]
    by_cases hr : r.Readable
    · simp only [forall_mem_cons, hr, true_and, if_true, flatMap_cons]
      split_ifs <;> rfl
    · simp only [forall_mem_cons, hr, false_and, if_false]

/-! ## Dumps -/

structure Dump where
  text : Text
  idSize : ℕ
  timestamp : BitVec 64
  records : List (Record idSize)
  text_ascii : ∀ c ∈ text, 0 < c.toNat ∧ c.toNat < 128
  idSize_eq : idSize = 4 ∨ idSize = 8
  fits : ∀ r ∈ records, r.Fits

namespace Dump

def header (d : Dump) : List UInt8 :=
  writeNullTerminatedString d.text ++ (writeBEInt (BitVec.ofNat 32 d.idSize) ++
    writeBELong d.timestamp)

def encode (d : Dump) : List UInt8 := d.header ++ d.records.flatMap Record.encode

/-- The visits of a dump, in the order of the file. -/
def visits (d : Dump) : List Visit :=
  .header d.text d.idSize d.timestamp :: d.records.flatMap Record.visits ++ [.visitEnd]

/-- The reader can count the constants of every class. -/
def FewConstants (d : Dump) : Prop := ∀ r ∈ d.records, r.FewConstants

def Readable (d : Dump) : Prop := ∀ r ∈ d.records, r.Readable

theorem four_le_idSize (d : Dump) : 4 ≤ d.idSize := by
  rcases d.idSize_eq with h | h <;> omega

end Dump

theorem utf8EncodeChar_of_ascii {c : Char} (h : c.toNat < 128) :
    String.utf8EncodeChar c = [UInt8.ofNat c.toNat] := by
  have hval : c.val.toNat ≤ 0x7f := by
    have : c.val.toNat = c.toNat := rfl
    omega
  rw [String.utf8EncodeChar]
  simp only [hval, if_true]
  rfl

theorem reads_readNullTerminatedString {text : Text}
    (h : ∀ c ∈ text, 0 < c.toNat ∧ c.toNat < 128) :
    Reads readNullTerminatedString (writeNullTerminatedString text) text := by
  intro rest
  induction text with
  | nil => rfl
  | cons c text ih =>
    rw [forall_mem_cons] at h
    have hbyte : (UInt8.ofNat c.toNat).toNat = c.toNat := by
      rw [UInt8.toNat_ofNat', Nat.mod_eq_of_lt (by omega)]
    have hne : UInt8.ofNat c.toNat ≠ 0 := by
      intro h0
      rw [h0] at hbyte
      exact absurd h.1.1 (by rw [← hbyte]; decide)
    have hih : readNullTerminatedString (utf8Encode text ++ [0] ++ rest) = .ok text rest := ih h.2
    rw [writeNullTerminatedString, utf8Encode, flatMap_cons, utf8EncodeChar_of_ascii h.1.2]
    simp only [cons_append, nil_append, readNullTerminatedString, if_neg hne]
    rw [← utf8Encode, hih]
    simp [hbyte]

theorem reads_acceptHeader (d : Dump) :
    Reads acceptHeader d.header (d.text, d.idSize, d.timestamp) := by
  have hsize : (BitVec.ofNat 32 d.idSize).toInt = d.idSize ∧
      (BitVec.ofNat 32 d.idSize).toNat = d.idSize ∧ 0 < d.idSize ∧ d.idSize < 2 ^ 30 - 1 := by
    rcases d.idSize_eq with h | h <;> rw [h] <;> decide
  obtain ⟨hint, hnat, hpos, hlt⟩ := hsize
  have hread : Reads acceptHeader d.header
      (d.text, (BitVec.ofNat 32 d.idSize).toNat, d.timestamp) := by
    refine (reads_readNullTerminatedString d.text_ascii).bind ((reads_readBEInt _).bind ?_)
    rw [if_neg (by omega)]
    exact (reads_readBE (by decide) d.timestamp).map
  rwa [hnat] at hread

theorem length_le_length_records (records : List (Record k)) :
    records.length ≤ (records.flatMap Record.encode).length := by
  rw [length_flatMap, ← length_map]
  exact length_le_sum_of_one_le _
    (forall_mem_map.mpr fun r _ => by simp [Record.encode, writeRecordHeader])

open Classical in
/-- **Reading a dump**: the reader visits what the dump says, if it can read every record. -/
theorem accept_encode {d : Dump} (hcons : d.FewConstants) :
    accept d.encode = if d.Readable then some d.visits else none := by
  rw [accept, Dump.encode, reads_acceptHeader d]
  dsimp only
  rw [recordLoop_encode d.four_le_idSize d.fits hcons
    (Nat.lt_succ_of_le (length_le_length_records _)), Dump.Readable]
  split_ifs <;> rfl

end TraceHarbor.HprofLib
