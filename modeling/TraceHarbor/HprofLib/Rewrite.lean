import TraceHarbor.HprofLib.Dump
import TraceHarbor.HprofLib.VisitSize

/-!
# Rewriting a Dump

A dump is read into the writer, and what was written is read again. The second reading should make the
visits of the first, but for the lengths of the heap dump records. A text that is not ASCII is cut when
it is written, while the record keeps its length: every visit costs the reader at least the bytes that
its arguments stand for, and the writer has written fewer.
-/

namespace TraceHarbor.HprofLib

open Lib Lib.Parser List Option Function

variable {k : ℕ}

/-! ## The bytes of a visit, written again -/

/-- A static field as it is written: a truth value is 0 or 1. -/
def StaticField.rewritten (f : StaticField k) : StaticField k where
  nameId := f.nameId
  type := f.type
  value := writeValue (decodeValue f.type f.value)
  size_eq := by
    obtain ⟨nameId, type, value, size_eq⟩ := f
    cases type with
    | object => exact size_eq
    | boolean => rfl
    | byte => rfl
    | _ => exact length_beBytes ..

/-- A class dump as it is written: without constants, and with zeros for what is skipped. -/
def ClassRecord.rewritten (c : ClassRecord k) : ClassRecord k :=
  { c with
    others := ⟨writeSkip (4 * k), length_replicate⟩
    constants := []
    staticFields := c.staticFields.map StaticField.rewritten }

def SubRecord.rewritten : SubRecord k → SubRecord k
  | .jniGlobal id _ => .jniGlobal id ⟨writeSkip k, length_replicate⟩
  | .classRecord c => .classRecord c.rewritten
  | r => r

theorem beBytes_toNat {w n : ℕ} (h : 2 ^ w ≤ 256 ^ n) (v : BitVec w) :
    BitVec.ofNat w (ofBE (beBytes n v.toNat)) = v := by
  rw [ofBE_beBytes (lt_of_lt_of_le v.isLt h), BitVec.ofNat_toNat, BitVec.setWidth_eq]

theorem decodeValue_writeValue (t : FieldType) (bytes : List UInt8) :
    decodeValue t (writeValue (decodeValue t bytes)) = decodeValue t bytes := by
  cases t with
  | object => rfl
  | boolean =>
    simp only [decodeValue, writeValue]
    by_cases h : bytes.head? = some 0 <;> simp [h]
  | byte => rfl
  | char => exact congrArg Value.char (beBytes_toNat (by decide) _)
  | float => exact congrArg Value.float (beBytes_toNat (by decide) _)
  | double => exact congrArg Value.double (beBytes_toNat (by decide) _)
  | short => exact congrArg Value.short (beBytes_toNat (by decide) _)
  | int => exact congrArg Value.int (beBytes_toNat (by decide) _)
  | long => exact congrArg Value.long (beBytes_toNat (by decide) _)

theorem field_rewritten (f : StaticField k) : f.rewritten.field = f.field := by
  simp only [StaticField.field, StaticField.rewritten, decodeValue_writeValue]

section Visits

attribute [local simp] SubRecord.visit SubRecord.encode SubRecord.tag SubRecord.body
  SubRecord.rewritten

theorem visit_rewritten (r : SubRecord k) : r.rewritten.visit = r.visit := by
  cases r with
  | classRecord c =>
    simp [ClassRecord.rewritten, field_rewritten]
  | _ => rfl

theorem writeStaticField_field (f : StaticField k) :
    writeStaticField f.field = some f.rewritten.encode := by
  simp [writeStaticField, StaticField.field, StaticField.rewritten, StaticField.encode, writeTypeId]

theorem mapM_writeStaticField (l : List (StaticField k)) :
    (l.map StaticField.field).mapM writeStaticField =
      some (l.map fun f => f.rewritten.encode) := by
  induction l with
  | nil => rfl
  | cons f l ih => simp [writeStaticField_field, ih]

theorem writePart_all {data : List UInt8} {n : ℕ} (hn : data.length = n) (h : n < 2 ^ 31) :
    writePart data (BitVec.ofNat 32 n).toInt = some data := by
  rw [writePart, toInt_ofNat_of_lt (w := 31) h, Int.toNat_natCast, if_pos ⟨by omega, hn.ge⟩, ← hn,
    take_length]

theorem writeHeapVisit_visit {r : SubRecord k} (hread : r.Readable) :
    writeHeapVisit k r.visit = some r.rewritten.encode := by
  cases r with
  | info heapId heapNameId => rfl
  | basic tag id => cases tag <;> simp [writeHeapVisit, BasicTag.tag]
  | jniGlobal id ref => rfl
  | idInt kind id a => cases kind <;> rfl
  | idIntInt kind id a b => cases kind <;> simp [writeHeapVisit, IdIntIntKind.visit, IdIntIntKind.tag]
  | classRecord c =>
    have hstat : (c.staticFields.map fun f => f.rewritten.encode).flatten =
        (c.staticFields.map StaticField.rewritten).flatMap StaticField.encode := by
      rw [flatMap_map]
      rfl
    have hinst : (c.instanceFields.map InstanceField.field).flatMap writeInstanceField =
        c.instanceFields.flatMap InstanceField.encode := by
      rw [flatMap_map]
      rfl
    simp only [SubRecord.visit, writeHeapVisit, mapM_writeStaticField, hstat, hinst,
      bind_eq_bind, bind_some]
    simp [ClassRecord.encode, ClassRecord.rewritten]
  | instanceRecord id stackId typeId data =>
    simp [writeHeapVisit]
  | objectArray id stackId typeId elements =>
    have hpart : writePart (elements.flatMap Subtype.val)
        (BitVec.ofNat 32 elements.length * BitVec.ofNat 32 k).toInt =
          some (elements.flatMap Subtype.val) := by
      rw [← BitVec.ofNat_mul]
      exact writePart_all (length_elements _) hread
    simp only [SubRecord.visit, writeHeapVisit, hpart]
    simp
  | primitiveArray noData id stackId type numElements elements =>
    have hpart : writePart elements.1
        (BitVec.ofNat 32 numElements * BitVec.ofNat 32 (type.getSize k)).toInt =
          some elements.1 := by
      rw [← BitVec.ofNat_mul]
      exact writePart_all elements.2 hread
    simp only [SubRecord.visit, writeHeapVisit, FieldType.getType_typeId, bind_eq_bind,
      bind_some, hpart]
    simp

end Visits

/-! ## The bytes of a dump, written again -/

/-- The length of a sub-record without the constants of a class. -/
def SubRecord.keptLength : SubRecord k → ℕ
  | .classRecord c => (SubRecord.classRecord { c with constants := [] }).encode.length
  | r => r.encode.length

section Lengths

attribute [local simp] SubRecord.encode SubRecord.tag SubRecord.body SubRecord.rewritten
  SubRecord.keptLength

theorem length_encode_rewritten (r : SubRecord k) : r.rewritten.encode.length = r.keptLength := by
  cases r with
  | jniGlobal id ref =>
    simp [ref.2, writeSkip]
  | classRecord c =>
    have hfld : ∀ f : StaticField k, f.rewritten.encode.length = f.encode.length := by
      intro f
      simp only [StaticField.encode, length_append, f.size_eq, f.rewritten.size_eq]
      rfl
    simp [ClassRecord.encode, ClassRecord.rewritten, length_flatMap, c.others.2, writeSkip, hfld,
      comp_def]
  | _ => rfl

theorem keptLength_le (r : SubRecord k) : r.keptLength ≤ r.encode.length := by
  cases r with
  | classRecord c =>
    simp [ClassRecord.encode, length_writeBEShort]
  | _ => exact le_rfl

end Lengths

namespace Record

/-- A record as it is written, if it is not a text. -/
def rewritten : Record k → Record k
  | .heapDump segment timestamp subRecords =>
    .heapDump segment timestamp (subRecords.map SubRecord.rewritten)
  | r => r

def written (r : Record k) : List UInt8 :=
  match r with
  | .string timestamp id text =>
    writeRecordHeader 0x01 timestamp r.body.length ++ id.1 ++ writeString text
  | r => r.rewritten.encode

/-- The sub-records of a heap dump, without constants, fit the buffer of the writer. -/
def Buffered : Record k → Prop
  | .heapDump _ _ subRecords => (subRecords.map SubRecord.keptLength).sum ≤ maxBuffer
  | _ => True

def Ascii : Record k → Prop
  | .string _ _ text => ∀ c ∈ text, c.toNat < 128
  | _ => True

end Record

def Writer.Idle (w : Writer) (k : ℕ) : Prop :=
  w.idSize = k ∧ w.heapDumpOut = [] ∧ w.heapDump = none

theorem length_rewritten (subs : List (SubRecord k)) :
    ((subs.map SubRecord.rewritten).flatMap SubRecord.encode).length =
      (subs.map SubRecord.keptLength).sum := by
  rw [flatMap_map, length_flatMap]
  simp only [length_encode_rewritten]

theorem foldlM_heap {subs : List (SubRecord k)} (hread : ∀ s ∈ subs, s.Readable) (w : Writer)
    (hsize : w.idSize = k) (hbuf : w.heapDumpOut.length ≤ maxBuffer) :
    (subs.map fun s => Visit.heap s.visit).foldlM Writer.visit w =
      if w.heapDumpOut.length + (subs.map SubRecord.keptLength).sum ≤ maxBuffer then
        some { w with
          heapDumpOut := w.heapDumpOut ++ (subs.map SubRecord.rewritten).flatMap SubRecord.encode }
      else none := by
  induction subs generalizing w with
  | nil => simp [hbuf]
  | cons s subs ih =>
    rw [forall_mem_cons] at hread
    have hwrite : writeHeapVisit w.idSize s.visit = some s.rewritten.encode := by
      rw [hsize]
      exact writeHeapVisit_visit hread.1
    simp only [map_cons, foldlM_cons, Writer.visit, hwrite, bind_eq_bind,
      bind_some, length_encode_rewritten, sum_cons]
    by_cases hfit : w.heapDumpOut.length + s.keptLength ≤ maxBuffer
    · have hlen : (w.heapDumpOut ++ s.rewritten.encode).length =
          w.heapDumpOut.length + s.keptLength := by
        rw [length_append, length_encode_rewritten]
      have htail := ih hread.2 { w with heapDumpOut := w.heapDumpOut ++ s.rewritten.encode } hsize
        (by rwa [hlen])
      rw [if_pos hfit, bind_some, htail]
      simp [hlen, Nat.add_assoc]
    · rw [if_neg hfit, if_neg (by omega)]
      rfl

theorem writePart_bmod {data : List UInt8} (h : data.length < 2 ^ 31) :
    writePart data ((data.length : ℤ).bmod (2 ^ 32)) = some data := by
  rw [writePart, bmod_of_lt (w := 31) h, Int.toNat_natCast, if_pos ⟨by omega, le_rfl⟩, take_length]

variable {r : Record k}

section Records

attribute [local simp] Record.visits Record.encode Record.body Record.tag Record.timestamp
  Record.rewritten Record.written Writer.visit writePlainRecord

/-- **Writing a record**: the record is appended, or the buffer overflows. -/
theorem foldlM_record (hread : r.Readable) {w : Writer} (hidle : w.Idle k) :
    (r.Buffered → r.visits.foldlM Writer.visit w = some { w with out := w.out ++ r.written }) ∧
      (¬ r.Buffered → r.visits.foldlM Writer.visit w = none) := by
  obtain ⟨hsize, hemp, hnone⟩ := hidle
  cases r with
  | heapDump segment timestamp subRecords =>
    have hheap := foldlM_heap hread
      { w with heapDump := some ((Record.heapDump segment timestamp subRecords).tag, timestamp) }
      hsize (by simp [hemp])
    simp only [hemp, length_nil, Nat.zero_add, nil_append] at hheap
    have hvis : (Record.heapDump segment timestamp subRecords).visits.foldlM Writer.visit w =
        ((subRecords.map fun s => Visit.heap s.visit).foldlM Writer.visit
          { w with heapDump := some ((Record.heapDump segment timestamp subRecords).tag, timestamp) }
          ).bind fun w => w.visit .heapEnd := by
      simp
    constructor
    · intro (hbufd : (subRecords.map SubRecord.keptLength).sum ≤ maxBuffer)
      rw [hvis, hemp, hheap, if_pos hbufd]
      simp [hnone]
    · intro (hbufd : ¬ (subRecords.map SubRecord.keptLength).sum ≤ maxBuffer)
      rw [hvis, hemp, hheap, if_neg hbufd]
      rfl
  | other tag timestamp data hoth =>
    refine ⟨fun _ => ?_, fun h => absurd trivial h⟩
    have hpart : writePart data ((data.length : ℤ).bmod (2 ^ 32)) = some data :=
      writePart_bmod hread
    simp only [Record.visits, Record.body, foldlM_cons, Writer.visit, writePlainRecord, hpart]
    simp
  | stackTrace timestamp serialNumber threadSerialNumber frameIds =>
    refine ⟨fun _ => ?_, fun h => absurd trivial h⟩
    simp [flatMap]
  | _ =>
    refine ⟨fun _ => ?_, fun h => absurd trivial h⟩
    simp

end Records

theorem foldlM_records {records : List (Record k)} (hread : ∀ r ∈ records, r.Readable) {w : Writer}
    (hidle : w.Idle k) :
    ((∀ r ∈ records, r.Buffered) → (records.flatMap Record.visits).foldlM Writer.visit w =
        some { w with out := w.out ++ records.flatMap Record.written }) ∧
      ((¬ ∀ r ∈ records, r.Buffered) →
        (records.flatMap Record.visits).foldlM Writer.visit w = none) := by
  induction records generalizing w with
  | nil => exact ⟨fun _ => by simp, fun h => absurd (nofun) h⟩
  | cons r records ih =>
    rw [forall_mem_cons] at hread
    obtain ⟨hwrit, hov⟩ := foldlM_record hread.1 hidle
    have hidle' : ({ w with out := w.out ++ r.written } : Writer).Idle k := hidle
    obtain ⟨ihwritten, ihoverflow⟩ := ih hread.2 hidle'
    simp only [forall_mem_cons, flatMap_cons, foldlM_append, bind_eq_bind]
    constructor
    · rintro ⟨hr, hrecs⟩
      rw [hwrit hr, bind_some, ihwritten hrecs]
      simp only [append_assoc]
    · intro hnot
      by_cases hr : r.Buffered
      · rw [hwrit hr, bind_some, ihoverflow fun hall => hnot ⟨hr, hall⟩]
      · rw [hov hr]
        rfl

/-- The heap dumps of a dump fit the buffer of the writer. -/
def Dump.Buffered (d : Dump) : Prop := ∀ r ∈ d.records, r.Buffered

variable {d : Dump}

theorem write_visits (hread : d.Readable) :
    (d.Buffered → write d.visits = some (d.header ++ d.records.flatMap Record.written)) ∧
      (¬ d.Buffered → write d.visits = none) := by
  have hsize : ¬ (d.idSize = 0 ∨ 2 ^ 30 - 1 ≤ d.idSize) := by
    rcases d.idSize_eq with h | h <;> omega
  have hidle : Writer.Idle ⟨d.header, d.idSize, [], none⟩ d.idSize := ⟨rfl, rfl, rfl⟩
  obtain ⟨hwrit, hov⟩ := foldlM_records hread hidle
  have hwrite : write d.visits = (((d.records.flatMap Record.visits).foldlM Writer.visit
      ⟨d.header, d.idSize, [], none⟩).map Writer.out) := by
    have hhdr : (⟨[], 0, [], none⟩ : Writer).visit (.header d.text d.idSize d.timestamp) =
        some ⟨d.header, d.idSize, [], none⟩ := by
      simp only [Writer.visit, if_neg hsize, nil_append, Dump.header, append_assoc]
    rw [write, Dump.visits, cons_append, foldlM_cons, hhdr]
    simp only [bind_eq_bind, bind_some, foldlM_append]
    cases (d.records.flatMap Record.visits).foldlM Writer.visit ⟨d.header, d.idSize, [], none⟩ <;>
      rfl
  constructor
  · intro hbufd
    rw [hwrite, hwrit hbufd]
    rfl
  · intro hbufd
    rw [hwrite, hov hbufd]
    rfl

/-! ## Transparency -/

/-- The bytes that are written for the sub-records at the front of the visits. -/
def heapLength (k : ℕ) : List Visit → ℕ
  | .heap v :: visits => ((writeHeapVisit k v).getD []).length + heapLength k visits
  | _ => 0

/-- The visits with the lengths of the heap dumps as they are written, for the size of identifiers
that the header states. -/
def relength : ℕ → List Visit → List Visit
  | _, [] => []
  | _, .header text idSize timestamp :: visits =>
    .header text idSize timestamp :: relength idSize visits
  | k, .heapDumpRecord tag timestamp _ :: visits =>
    .heapDumpRecord tag timestamp (heapLength k visits) :: relength k visits
  | k, v :: visits => v :: relength k visits

/-- What is read into the writer can be read again, with the same visits. -/
def Transparent (b : List UInt8) : Prop :=
  ∃ visits out, accept b = some visits ∧ write visits = some out ∧
    accept out = some (relength 0 visits)

theorem heapLength_subRecords {subs : List (SubRecord k)} (hread : ∀ s ∈ subs, s.Readable)
    (rest : List Visit) :
    heapLength k (subs.map (fun s => .heap s.visit) ++ .heapEnd :: rest) =
      (subs.map SubRecord.keptLength).sum := by
  induction subs with
  | nil => rfl
  | cons s subs ih =>
    rw [forall_mem_cons] at hread
    simp [heapLength, writeHeapVisit_visit hread.1, length_encode_rewritten, ih hread.2]

theorem relength_subRecords (subs : List (SubRecord k)) (rest : List Visit) :
    relength k (subs.map (fun s => .heap s.visit) ++ .heapEnd :: rest) =
      subs.map (fun s => .heap s.visit) ++ .heapEnd :: relength k rest := by
  induction subs with
  | nil => rfl
  | cons s subs ih => simp [relength, ih]

theorem relength_record (hread : r.Readable) (rest : List Visit) :
    relength k (r.visits ++ rest) = r.rewritten.visits ++ relength k rest := by
  cases r with
  | heapDump segment timestamp subRecords =>
    have hvis : ((subRecords.map SubRecord.rewritten).map fun s => Visit.heap s.visit) =
        subRecords.map fun s => .heap s.visit := by
      simp [visit_rewritten]
    simp only [Record.visits, Record.rewritten, Record.body, Record.tag, cons_append,
      append_assoc, nil_append, relength, heapLength_subRecords hread,
      relength_subRecords, length_rewritten, hvis]
  | _ => rfl

theorem relength_records {records : List (Record k)} (hread : ∀ r ∈ records, r.Readable) :
    relength k (records.flatMap Record.visits ++ [.visitEnd]) =
      (records.map Record.rewritten).flatMap Record.visits ++ [.visitEnd] := by
  induction records with
  | nil => rfl
  | cons r records ih =>
    rw [forall_mem_cons] at hread
    rw [flatMap_cons, append_assoc, relength_record hread.1, ih hread.2, map_cons,
      flatMap_cons, append_assoc]

theorem relength_visits (hread : d.Readable) :
    relength 0 d.visits = .header d.text d.idSize d.timestamp ::
      (d.records.map Record.rewritten).flatMap Record.visits ++ [.visitEnd] := by
  rw [Dump.visits, cons_append, relength, relength_records hread, cons_append]

/-! ## Texts -/

theorem utf8Size_eq (c : Char) : c.utf8Size =
    if c.toNat ≤ 0x7f then 1 else if c.toNat ≤ 0x7ff then 2 else if c.toNat ≤ 0xffff then 3 else 4 :=
  rfl

theorem units_le_utf8Size (c : Char) :
    (if c.toNat < 0x10000 then 1 else 2) ≤ c.utf8Size ∧
      (¬ c.toNat < 128 → (if c.toNat < 0x10000 then 1 else 2) < c.utf8Size) := by
  rw [utf8Size_eq]
  constructor
  · split_ifs <;> omega
  · intro h
    split_ifs <;> omega

theorem length_utf8Encode (text : Text) :
    (utf8Encode text).length = (text.map Char.utf8Size).sum := by
  rw [utf8Encode, length_flatMap]
  simp

theorem utf16Length_lt {text : Text} (h : ¬ ∀ c ∈ text, c.toNat < 128) :
    utf16Length text < (utf8Encode text).length := by
  push Not at h
  obtain ⟨c, hc, hasc⟩ := h
  rw [length_utf8Encode]
  exact sum_lt_sum _ _ (fun c _ => (units_le_utf8Size c).1)
    ⟨c, hc, (units_le_utf8Size c).2 (not_lt.mpr hasc)⟩

theorem writeString_of_ascii {text : Text} (h : ∀ c ∈ text, c.toNat < 128) :
    writeString text = utf8Encode text := by
  have hlen : (utf8Encode text).length = utf16Length text := by
    rw [length_utf8Encode]
    congr 1
    refine map_congr_left fun c hc => ?_
    rw [← String.length_utf8EncodeChar, utf8EncodeChar_of_ascii (h c hc), if_pos]
    · rfl
    · have := h c hc
      omega
  rw [writeString, ← hlen, take_length]

/-! ## Dumps that are kept -/

theorem fits_rewritten (h : r.Fits) : r.rewritten.Fits := by
  cases r with
  | heapDump segment timestamp subRecords =>
    obtain ⟨hlen, hsubs⟩ := h
    refine ⟨lt_of_le_of_lt ?_ hlen, ?_⟩
    · simp only [Record.rewritten, Record.body]
      rw [length_rewritten, length_flatMap]
      exact sum_le_sum fun s _ => keptLength_le s
    · intro s hs
      obtain ⟨s, hmem, rfl⟩ := mem_map.mp hs
      have hfits := hsubs s hmem
      cases s with
      | classRecord c =>
        simp only [SubRecord.Fits, SubRecord.rewritten, ClassRecord.rewritten, length_map,
          length_nil] at hfits ⊢
        exact ⟨by decide, hfits.2⟩
      | _ => exact hfits
  | _ => exact h

theorem readable_rewritten (h : r.Readable) : r.rewritten.Readable := by
  cases r with
  | heapDump segment timestamp subRecords =>
    intro s hs
    obtain ⟨s, hmem, rfl⟩ := mem_map.mp hs
    have hread := h s hmem
    cases s with
    | classRecord c =>
      simpa [SubRecord.Readable, SubRecord.rewritten, ClassRecord.rewritten]
        using hread
    | _ => exact hread
  | _ => exact h

theorem fewConstants_rewritten : r.rewritten.FewConstants := by
  cases r with
  | heapDump segment timestamp subRecords =>
    intro s hs
    obtain ⟨s, -, rfl⟩ := mem_map.mp hs
    cases s with
    | classRecord c => exact Nat.two_pow_pos 15
    | _ => exact trivial
  | _ => exact trivial

theorem written_of_ascii (h : r.Ascii) : r.written = r.rewritten.encode := by
  cases r with
  | string timestamp id text =>
    simp [Record.written, writeString_of_ascii h, Record.rewritten, Record.encode, Record.tag,
      Record.timestamp, Record.body]
  | _ => rfl

/-- A dump as it is written, if its texts are ASCII. -/
def Dump.rewritten (d : Dump) : Dump :=
  { d with
    records := d.records.map Record.rewritten
    fits := by
      intro r hr
      obtain ⟨r, hmem, rfl⟩ := mem_map.mp hr
      exact fits_rewritten (d.fits r hmem) }

def Dump.Ascii (d : Dump) : Prop := ∀ r ∈ d.records, r.Ascii

theorem transparent_of_ascii (hcons : d.FewConstants) (hread : d.Readable)
    (hbufd : d.Buffered) (hasc : d.Ascii) : Transparent d.encode := by
  have hout : d.header ++ d.records.flatMap Record.written = d.rewritten.encode := by
    have hrecs : d.records.flatMap Record.written =
        (d.records.map Record.rewritten).flatMap Record.encode := by
      rw [flatMap_map]
      exact flatMap_congr fun r hr => written_of_ascii (hasc r hr)
    rw [hrecs]
    rfl
  have hag : accept d.rewritten.encode = some d.rewritten.visits := by
    refine (accept_encode ?_).trans (if_pos ?_)
    · intro r hr
      obtain ⟨r, -, rfl⟩ := mem_map.mp hr
      exact fewConstants_rewritten
    · intro r hr
      obtain ⟨r, hmem, rfl⟩ := mem_map.mp hr
      exact readable_rewritten (hread r hmem)
  refine ⟨d.visits, _, (accept_encode hcons).trans (if_pos hread),
    (write_visits hread).1 hbufd, ?_⟩
  rw [hout, hag, relength_visits hread]
  rfl

/-! ## Texts that are cut -/

theorem size_field (f : StaticField k) : f.field.size = f.encode.length := by
  obtain ⟨nameId, type, value, size_eq⟩ := f
  have hval : (decodeValue type value).size = value.length := by
    cases type <;> simp [decodeValue, Value.size, size_eq, FieldType.getSize]
  simp only [StaticField.field, Field.size, StaticField.encode, length_append, hval,
    toList_some, map_some, getD_some, length_singleton]
  omega

theorem size_instanceField (f : InstanceField k) : f.field.size = f.encode.length := by
  simp [InstanceField.field, Field.size, InstanceField.encode]

section Sizes

attribute [local simp] SubRecord.visit HeapVisit.size SubRecord.keptLength SubRecord.encode
  SubRecord.body length_writeBEInt

theorem size_visit (r : SubRecord k) : 1 + r.visit.size k = r.keptLength := by
  cases r with
  | basic tag id => cases tag <;> simp [BasicTag.tag] <;> omega
  | idInt kind id a => cases kind <;> simp [IdIntKind.visit] <;> omega
  | idIntInt kind id a b => cases kind <;> simp [IdIntIntKind.visit] <;> omega
  | classRecord c =>
    have hstat : ((c.staticFields.map StaticField.field).map Field.size).sum =
        (c.staticFields.flatMap StaticField.encode).length := by
      rw [List.map_map, List.length_flatMap]
      simp only [comp_def, size_field]
    have hinst : ((c.instanceFields.map InstanceField.field).map Field.size).sum =
        (c.instanceFields.flatMap InstanceField.encode).length := by
      rw [List.map_map, List.length_flatMap]
      simp only [comp_def, size_instanceField]
    simp [-List.map_map, -length_flatMap, hstat, hinst, ClassRecord.encode, c.others.2,
      length_writeBEShort]
    omega
  | _ =>
    simp
    omega

end Sizes

theorem length_writeRecordHeader (tag : UInt8) (timestamp : BitVec 32) (length : ℕ) :
    (writeRecordHeader tag timestamp length).length = 9 := by
  simp [writeRecordHeader, length_writeBEInt]

def Record.cost (r : Record k) : ℕ := (r.visits.map (Visit.size k)).sum

section Costs

attribute [local simp] Record.cost Record.visits Record.body Record.encode Record.rewritten
  Record.written Visit.size length_writeRecordHeader length_writeBEInt

theorem cost_rewritten (r : Record k) : r.rewritten.cost = r.cost := by
  cases r with
  | heapDump segment timestamp subRecords => simp [comp_def, visit_rewritten]
  | _ => rfl

theorem length_written (hread : r.Readable) :
    r.written.length ≤ r.cost ∧ (¬ r.Ascii → r.written.length < r.cost) := by
  cases r with
  | string timestamp id text =>
    have hcost : (Record.string timestamp id text).cost =
        9 + id.1.length + (utf8Encode text).length := by
      simp only [Record.cost, Record.visits, Record.body, map_cons, map_nil, Visit.size,
        sum_cons, sum_nil, length_string_text, bmod_of_lt (w := 31) hread, Int.toNat_natCast,
        Nat.add_zero]
    have hwrit : (Record.string timestamp id text).written.length =
        9 + id.1.length + min (utf16Length text) (utf8Encode text).length := by
      simp [writeString, Nat.add_assoc]
    refine ⟨?_, fun hasc => ?_⟩
    · omega
    · have hlt : utf16Length text < (utf8Encode text).length := utf16Length_lt hasc
      omega
  | heapDump segment timestamp subRecords =>
    refine ⟨le_of_eq ?_, fun h => absurd trivial h⟩
    simp [length_encode_rewritten, comp_def, size_visit]
  | other tag timestamp data hoth => exact ⟨le_of_eq (by simp), fun h => absurd trivial h⟩
  | _ =>
    refine ⟨le_of_eq ?_, fun h => absurd trivial h⟩
    simp
    omega

end Costs

theorem ascii_of_transparent (hread : d.Readable)
    (h : accept (d.header ++ d.records.flatMap Record.written) = some (relength 0 d.visits)) :
    d.Ascii := by
  rw [accept, reads_acceptHeader d, relength_visits hread] at h
  obtain ⟨visits, hloop, hvis⟩ := bind_eq_some_iff.mp h
  obtain rfl : visits = (d.records.map Record.rewritten).flatMap Record.visits := by
    simpa using hvis
  have hcost := size_recordLoop hloop
  have htot : (((d.records.map Record.rewritten).flatMap Record.visits).map
      (Visit.size d.idSize)).sum = (d.records.map Record.cost).sum := by
    rw [List.map_flatMap, List.flatMap, List.sum_flatten, List.map_map, List.map_map]
    exact congrArg sum (map_congr_left fun r _ => cost_rewritten r)
  rw [length_flatMap] at hcost
  by_contra hasc
  unfold Dump.Ascii at hasc
  push Not at hasc
  obtain ⟨r, hr, hcut⟩ := hasc
  have hlt := sum_lt_sum (l := d.records) (fun r => r.written.length) Record.cost
    (fun r hr => (length_written (hread r hr)).1) ⟨r, hr, (length_written (hread r hr)).2 hcut⟩
  omega

theorem kept_of_transparent (hcons : d.FewConstants)
    (h : Transparent d.encode) : d.Readable ∧ d.Buffered ∧ d.Ascii := by
  obtain ⟨visits, out, hfst, hwrite, hag⟩ := h
  have hread : d.Readable := by
    by_contra hread
    rw [accept_encode hcons, if_neg hread] at hfst
    exact nomatch hfst
  rw [accept_encode hcons, if_pos hread] at hfst
  cases hfst
  have hbufd : d.Buffered := by
    by_contra hbufd
    rw [(write_visits hread).2 hbufd] at hwrite
    exact nomatch hwrite
  rw [(write_visits hread).1 hbufd] at hwrite
  cases hwrite
  exact ⟨hread, hbufd, ascii_of_transparent hread hag⟩

/-- **Rewriting**: among the dumps whose constants the reader can count, those are kept whose texts
are ASCII, whose fields can be counted with 15 bits, whose data fit an array and whose heap dumps
fit the buffer of the writer. -/
theorem transparent_iff (d : Dump) (hconstants : d.FewConstants) :
    Transparent d.encode ↔ d.Readable ∧ d.Buffered ∧ d.Ascii :=
  ⟨kept_of_transparent hconstants, fun ⟨hread, hbufd, hasc⟩ =>
    transparent_of_ascii hconstants hread hbufd hasc⟩

/-- A class with a constant and a static truth value, and an object of it. -/
def smallHeap : List (SubRecord 4) := [
  .classRecord {
    id := ⟨[0, 0, 0, 2], rfl⟩
    stackSerialNumber := 0
    superClassId := ⟨[0, 0, 0, 0], rfl⟩
    classLoaderId := ⟨[0, 0, 0, 0], rfl⟩
    others := ⟨List.replicate 16 0, rfl⟩
    instanceSize := 0
    constants := [⟨1, .byte, [7], rfl⟩]
    staticFields := [⟨⟨[0, 0, 0, 1], rfl⟩, .boolean, [3], rfl⟩]
    instanceFields := [] },
  .instanceRecord ⟨[0, 0, 0, 3], rfl⟩ 0 ⟨[0, 0, 0, 2], rfl⟩ []]

def smallDump (c : Char) : Dump where
  text := ['J', 'A', 'V', 'A']
  idSize := 4
  timestamp := 0
  records := [.string 0 ⟨[0, 0, 0, 1], rfl⟩ [c], .heapDump true 0 smallHeap]
  text_ascii := by simp
  idSize_eq := .inl rfl
  fits := by
    rw [forall_mem_cons, forall_mem_singleton]
    refine ⟨⟨?_, trivial⟩, ?_, ?_⟩
    · have hlen : (utf8Encode [c]).length ≤ 4 := by
        rw [length_utf8Encode]
        simpa using c.utf8Size_le_four
      simp only [Record.body, length_append, length_cons, length_nil]
      omega
    · have hlen : (smallHeap.flatMap SubRecord.encode).length = 70 := by decide +kernel
      simp only [Record.body, hlen]
      omega
    · exact forall_mem_cons.mpr ⟨⟨by decide, by decide, by decide⟩,
        forall_mem_singleton.mpr trivial⟩

theorem fewConstants_smallDump (c : Char) : (smallDump c).FewConstants := by
  refine forall_mem_cons.mpr ⟨trivial, forall_mem_singleton.mpr ?_⟩
  exact forall_mem_cons.mpr ⟨Nat.lt_of_sub_eq_succ rfl, forall_mem_singleton.mpr trivial⟩

theorem transparent_iff_smallDump :
    (smallDump 'x').FewConstants ∧ Transparent (smallDump 'x').encode := by
  refine ⟨fewConstants_smallDump _, (transparent_iff _ (fewConstants_smallDump _)).mpr ⟨?_, ?_, ?_⟩⟩
  · refine forall_mem_cons.mpr ⟨?_, forall_mem_singleton.mpr ?_⟩
    · have hlen : (utf8Encode ['x']).length = 1 := by decide +kernel
      simp only [Record.Readable, hlen]
      omega
    · have hnil : ([] : List UInt8).length < 2 ^ 31 := Nat.two_pow_pos 31
      exact forall_mem_cons.mpr ⟨⟨by decide, by decide⟩, forall_mem_singleton.mpr hnil⟩
  · refine forall_mem_cons.mpr ⟨trivial, forall_mem_singleton.mpr ?_⟩
    have hlen : (smallHeap.map SubRecord.keptLength).sum = 66 := by decide +kernel
    exact hlen.trans_le (by decide)
  · exact forall_mem_cons.mpr ⟨by simp [Record.Ascii], forall_mem_singleton.mpr trivial⟩

/-- The second byte of the text is not written, so that the rest of the dump is not found. -/
theorem accented_text_is_cut : ¬ Transparent (smallDump 'é').encode := by
  intro h
  obtain ⟨-, -, hasc⟩ := kept_of_transparent (fewConstants_smallDump _) h
  have htext : ∀ c ∈ ['é'], c.toNat < 128 := hasc _ (mem_cons_self ..)
  simp at htext

end TraceHarbor.HprofLib
