import TraceHarbor.HprofLib.HprofReader

/-!
# What a Visit Costs the Reader

`Visit.size` is a lower bound of the bytes that the reader takes from any stream for a visit. A byte that
is missing at the end of the stream is not always noticed, so that the bound of some parts holds only if
the stream goes on; the count that follows the static fields of a class shows that it does.
-/

namespace TraceHarbor.HprofLib

open Lib Lib.Parser List Option

variable {k : ℕ}

/-! ## Sizes -/

def Value.size : Value → ℕ
  | .object id => id.length
  | .boolean _ => 1
  | .char _ => 2
  | .float _ => 4
  | .double _ => 8
  | .byte _ => 1
  | .short _ => 2
  | .int _ => 4
  | .long _ => 8

/-- The bytes of a field: its name, its type and the value of a static field. -/
def Field.size (f : Field) : ℕ :=
  f.nameId.length + f.typeId.toList.length + (f.staticValue.map Value.size).getD 0

def HeapVisit.size (k : ℕ) : HeapVisit → ℕ
  | .info _ heapNameId => 4 + heapNameId.length
  | .basicObj tag id => id.length + if tag = 0x01 then k else 0
  | .jniLocal id _ _ | .javaFrame id _ _ | .threadObject id _ _ | .jniMonitor id _ _ =>
    id.length + 8
  | .nativeStack id _ | .threadBlock id _ => id.length + 4
  | .classDump id _ superClassId classLoaderId _ staticFields instanceFields =>
    id.length + superClassId.length + classLoaderId.length + 4 * k + 14 +
      (staticFields.map Field.size).sum + (instanceFields.map Field.size).sum
  | .instanceDump id _ typeId instanceData =>
    id.length + typeId.length + 8 + instanceData.length
  | .objectArray id _ _ typeId elements => id.length + typeId.length + 8 + elements.length
  | .primitiveArray _ id _ _ _ elements => id.length + 9 + elements.length

/-- The bytes of a visit. The sub-records of a heap dump are counted by themselves. -/
def Visit.size (k : ℕ) : Visit → ℕ
  | .stringRecord id _ _ length => 9 + id.length + ((length - k : ℤ).bmod (2 ^ 32)).toNat
  | .loadClassRecord _ classObjectId _ classNameStringId _ _ =>
    9 + classObjectId.length + classNameStringId.length + 8
  | .stackFrameRecord id methodNameId methodSignatureId sourceFileId _ _ _ _ =>
    9 + id.length + methodNameId.length + methodSignatureId.length + sourceFileId.length + 8
  | .stackTraceRecord _ _ frameIds _ _ => 9 + 12 + (frameIds.map List.length).sum
  | .heapDumpRecord .. => 9
  | .heap v => 1 + v.size k
  | .unconcernedRecord _ _ _ data => 9 + data.length
  | .header .. | .heapEnd | .visitEnd => 0

/-! ## The cost of values -/

theorem takes_readArray (size : ℤ) : Takes (readArray size) length := by
  unfold readArray
  split
  · exact takes_fail
  · exact takes_take _

theorem takes_readType (typeId : Option UInt8) : Takes (readType typeId) fun _ => 0 := by
  unfold readType
  split
  · exact takes_pure rfl
  · exact takes_fail

theorem uses_readValue (t : FieldType) : Uses (readValue k t) Value.size := by
  cases t with
  | object =>
    refine (Takes.bind (takes_take k) fun id => takes_pure ?_).uses
    simp [Value.size]
  | boolean | byte =>
    refine uses_readByte.bind fun _ => (takes_pure ?_).uses
    simp [Value.size]
  | char | short => exact (Takes.bind (takes_readBE 16 2) fun _ => takes_pure rfl).uses
  | float | int => exact (Takes.bind (takes_readBE 32 4) fun _ => takes_pure rfl).uses
  | double | long => exact (Takes.bind (takes_readBE 64 8) fun _ => takes_pure rfl).uses

theorem uses_readStaticField : Uses (readStaticField k) fun p => p.1.size := by
  refine (takes_take k).uses.bind fun nameId => takes_readByte.uses.bind fun typeId =>
    (takes_readType typeId).uses.bind fun t => (uses_readValue t).bind fun v => (takes_pure ?_).uses
  simp only [Field.size, map_some, getD_some]
  omega

theorem takes_readInstanceField : Takes (readInstanceField k) fun p => p.1.size := by
  refine (takes_take k).bind fun nameId => takes_readByte.bind fun typeId => takes_pure ?_
  simp only [Field.size, map_none, getD_none]
  omega

theorem uses_readFields {p : Parser (Field × ℕ)} (hp : Uses p fun x => x.1.size) :
    Uses (readFields p) fun l => 2 + (l.map fun x => x.1.size).sum := by
  refine (takes_readBE 16 2).uses.bind fun n => ?_
  split
  · exact takes_fail.uses
  · simpa using uses_many hp n.toInt.toNat

theorem takes_readFields {p : Parser (Field × ℕ)} (hp : Takes p fun x => x.1.size) :
    Takes (readFields p) fun l => 2 + (l.map fun x => x.1.size).sum := by
  refine (takes_readBE 16 2).bind fun n => ?_
  split
  · exact takes_fail
  · simpa using takes_many hp n.toInt.toNat

/-! ## The cost of sub-records -/

theorem takes_acceptBasicObj {tag : UInt8} (h : tag ≠ 0x01) :
    Takes (acceptBasicObj k tag) fun p => p.1.size k := by
  refine (takes_take k).bind fun id => takes_pure ?_
  simp only [HeapVisit.size, if_neg h]
  omega

theorem takes_acceptJniGlobal (tag : UInt8) :
    Takes (acceptJniGlobal k tag) fun p => p.1.size k := by
  refine (takes_take k).bind fun id => (takes_skip k).bind fun _ => takes_pure ?_
  simp only [HeapVisit.size]
  split <;> omega

theorem takes_acceptHeapDumpInfo : Takes (acceptHeapDumpInfo k) fun p => p.1.size k := by
  refine (takes_readBE 32 4).bind fun heapId => (takes_take k).bind fun id => takes_pure ?_
  simp only [HeapVisit.size]
  omega

theorem takes_acceptIdInt {visit : ID → BitVec 32 → HeapVisit}
    (h : ∀ id a, (visit id a).size k = id.length + 4) :
    Takes (acceptIdInt k visit) fun p => p.1.size k := by
  refine (takes_take k).bind fun id => (takes_readBE 32 4).bind fun a => takes_pure ?_
  simp only [h]
  omega

theorem takes_acceptIdIntInt {visit : ID → BitVec 32 → BitVec 32 → HeapVisit}
    (h : ∀ id a b, (visit id a b).size k = id.length + 8) :
    Takes (acceptIdIntInt k visit) fun p => p.1.size k := by
  refine (takes_take k).bind fun id => (takes_readBE 32 4).bind fun a =>
    (takes_readBE 32 4).bind fun b => takes_pure ?_
  simp only [h]
  omega

theorem takes_constants (n : ℕ) : Takes (many (skipConstant k) n) fun _ => 0 := by
  have hskip : Takes (skipConstant k) fun _ => 0 := by
    refine (takes_skip 2).bind fun _ => takes_readByte.bind fun typeId =>
      (takes_readType typeId).bind fun t => (takes_skip _).bind fun _ => takes_pure ?_
    omega
  simpa using takes_many hskip n

theorem takes_acceptClassDump : Takes (acceptClassDump k) fun p => p.1.size k := by
  refine (takes_take k).bind fun id => (takes_readBE 32 4).bind fun stackSerialNumber =>
    (takes_take k).bind fun superClassId => (takes_take k).bind fun classLoaderId =>
    (takes_skip (4 * k)).bind fun _ => (takes_readBE 32 4).bind fun instanceSize =>
    (takes_readBE 16 2).bind fun numConstants => ?_
  refine (takes_constants _).bind fun constants => ?_
  refine (uses_readFields uses_readStaticField).bind_takes (fun staticFields => ?_) ?_
  · refine (takes_readFields takes_readInstanceField).bind fun instanceFields => takes_pure ?_
    simp only [HeapVisit.size, List.map_map, Function.comp_def]
    omega
  · intro staticFields c rest hok
    obtain ⟨_, _, hcnt, _⟩ := bind_eq_ok hok
    exact nomatch hcnt

theorem takes_acceptInstanceDump : Takes (acceptInstanceDump k) fun p => p.1.size k := by
  refine (takes_take k).bind fun id => (takes_readBE 32 4).bind fun stackId =>
    (takes_take k).bind fun typeId => (takes_readBE 32 4).bind fun remaining =>
    (takes_readArray _).bind fun data => takes_pure ?_
  simp only [HeapVisit.size]
  omega

theorem takes_acceptObjectArrayDump : Takes (acceptObjectArrayDump k) fun p => p.1.size k := by
  refine (takes_take k).bind fun id => (takes_readBE 32 4).bind fun stackId =>
    (takes_readBE 32 4).bind fun numElements => (takes_take k).bind fun typeId =>
    (takes_readArray _).bind fun elements => takes_pure ?_
  simp only [HeapVisit.size]
  omega

theorem takes_acceptPrimitiveArrayDump (tag : UInt8) :
    Takes (acceptPrimitiveArrayDump k tag) fun p => p.1.size k := by
  refine (takes_take k).bind fun id => (takes_readBE 32 4).bind fun stackId =>
    (takes_readBE 32 4).bind fun numElements => takes_readByte.bind fun typeId => ?_
  cases typeId with
  | none => exact nofun
  | some typeId =>
    refine (takes_readType _).bind fun t => (takes_readArray _).bind fun elements => takes_pure ?_
    simp only [HeapVisit.size, toList_some, length_singleton]
    omega

theorem takes_acceptSubRecord : Takes (acceptSubRecord k) fun p => 1 + p.1.size k := by
  refine takes_readByte.bind fun tag => ?_
  cases tag with
  | none => exact takes_fail
  | some tag =>
    simp only [toList_some, length_singleton, Nat.add_sub_cancel_left]
    have hne : ∀ n : ℕ, tag.toNat = n → n ≠ 1 → tag ≠ 0x01 := by
      rintro n hn hn1 rfl
      exact hn1 hn.symm
    split
    all_goals first
      | exact takes_acceptBasicObj (hne _ ‹_› (by decide))
      | exact takes_acceptJniGlobal _
      | exact takes_acceptIdIntInt fun _ _ _ => rfl
      | exact takes_acceptIdInt fun _ _ => rfl
      | exact takes_acceptClassDump
      | exact takes_acceptInstanceDump
      | exact takes_acceptObjectArrayDump
      | exact takes_acceptPrimitiveArrayDump _
      | exact takes_acceptHeapDumpInfo
      | exact takes_fail

theorem size_subRecordLoop (fuel : ℕ) (remaining : ℤ) (b : List UInt8) :
    match subRecordLoop k fuel remaining b with
    | (visits, .ok () rest) =>
      rest.length + (visits.map fun v => 1 + v.size k).sum ≤ b.length
    | (visits, .eof) => (visits.map fun v => 1 + v.size k).sum ≤ b.length
    | (_, .fail) => True := by
  induction fuel generalizing remaining b with
  | zero => exact trivial
  | succ fuel ih =>
    rw [subRecordLoop]
    split_ifs with hdone
    · exact le_rfl
    · cases hsub : acceptSubRecord k b with
      | eof => exact Nat.zero_le _
      | fail => exact trivial
      | ok a mid =>
        obtain ⟨visit, bytesRead⟩ := a
        have hcost : mid.length + (1 + visit.size k) ≤ b.length := takes_acceptSubRecord _ _ _ hsub
        have htail := ih (remaining - 1 - bytesRead) mid
        dsimp only
        generalize subRecordLoop k fuel (remaining - 1 - bytesRead) mid = out at htail ⊢
        obtain ⟨visits, _ | _ | _⟩ := out
        · simp only [map_cons, sum_cons] at htail ⊢
          omega
        · simp only [map_cons, sum_cons] at htail ⊢
          omega
        · exact trivial

/-! ## The cost of records -/

theorem takes_readString (length : ℤ) :
    Takes (readString length) fun _ => (length.bmod (2 ^ 32)).toNat := by
  unfold readString readArray
  split
  · exact nofun
  · refine (takes_exactly _).bind fun bytes => takes_pure ?_
    omega

theorem takes_acceptPlainRecord (tag : UInt8) (timestamp : BitVec 32) (length : ℕ) :
    Takes (acceptPlainRecord k tag timestamp length) fun v => v.size k - 9 := by
  unfold acceptPlainRecord
  split
  · refine (takes_take k).bind fun id => (takes_readString _).bind fun text => takes_pure ?_
    simp only [Visit.size]
    omega
  · refine (takes_readBE 32 4).bind fun serialNumber => (takes_take k).bind fun classObjectId =>
      (takes_readBE 32 4).bind fun stackTraceSerial => (takes_take k).bind fun nameId =>
      takes_pure ?_
    simp only [Visit.size]
    omega
  · refine (takes_take k).bind fun id => (takes_take k).bind fun methodNameId =>
      (takes_take k).bind fun methodSignatureId => (takes_take k).bind fun sourceFileId =>
      (takes_readBE 32 4).bind fun serial => (takes_readBE 32 4).bind fun lineNumber =>
      takes_pure ?_
    simp only [Visit.size]
    omega
  · refine (takes_readBE 32 4).bind fun serialNumber => (takes_readBE 32 4).bind fun thread =>
      (takes_readBE 32 4).bind fun numFrames => ?_
    split
    · exact takes_fail
    · refine (takes_many (takes_take k) _).bind fun frameIds => takes_pure ?_
      simp only [Visit.size]
      omega
  · refine (takes_readArray _).bind fun data => takes_pure ?_
    simp only [Visit.size]
    omega

theorem takes_recordHeader : Takes recordHeader fun p => p.1.toList.length + 8 := by
  refine takes_readByte.bind fun tag => (takes_readBE 32 4).bind fun timestamp =>
    (takes_readBE 32 4).bind fun length => takes_pure ?_
  dsimp only
  omega

/-- **The cost of the visits**: they cost no more bytes than the stream has. -/
theorem size_recordLoop {fuel : ℕ} {b : List UInt8} {visits : List Visit}
    (h : recordLoop k fuel b = some visits) : (visits.map (Visit.size k)).sum ≤ b.length := by
  induction fuel generalizing b visits with
  | zero => exact nomatch h
  | succ fuel ih =>
    rw [recordLoop] at h
    cases hhdr : recordHeader b with
    | eof =>
      rw [hhdr] at h
      obtain rfl : [] = visits := some.inj h
      exact Nat.zero_le _
    | fail =>
      rw [hhdr] at h
      exact nomatch h
    | ok a mid =>
      obtain ⟨_ | tag, timestamp, length⟩ := a
      · rw [hhdr] at h
        obtain rfl : [] = visits := some.inj h
        exact Nat.zero_le _
      · have hcost : mid.length + 9 ≤ b.length := takes_recordHeader _ _ _ hhdr
        rw [hhdr] at h
        dsimp only at h
        by_cases htag : isHeapDumpTag tag
        · rw [if_pos htag] at h
          have hloop := size_subRecordLoop (k := k) (mid.length + 1) length mid
          generalize subRecordLoop k (mid.length + 1) length mid = out at h hloop
          obtain ⟨subVisits, ⟨_, rest⟩ | _ | _⟩ := out
          · obtain ⟨later, hlat, rfl⟩ : ∃ later, recordLoop k fuel rest = some later ∧
                .heapDumpRecord tag timestamp length :: subVisits.map .heap ++ .heapEnd :: later =
                  visits := by
              simpa [bind_eq_some_iff] using h
            have hrest := ih hlat
            simp only [List.cons_append, List.map_cons, List.map_append, List.map_map,
              Function.comp_def, List.sum_cons, List.sum_append, Visit.size]
            omega
          · obtain rfl : .heapDumpRecord tag timestamp length :: subVisits.map .heap = visits :=
              some.inj h
            simp only [List.map_cons, List.map_map, Function.comp_def, List.sum_cons, Visit.size]
            omega
          · exact nomatch h
        · rw [if_neg htag] at h
          cases hplain : acceptPlainRecord k tag timestamp length mid with
          | eof =>
            rw [hplain] at h
            obtain rfl : [] = visits := some.inj h
            exact Nat.zero_le _
          | fail =>
            rw [hplain] at h
            exact nomatch h
          | ok v rest =>
            have hv : rest.length + (v.size k - 9) ≤ mid.length :=
              takes_acceptPlainRecord _ _ _ _ _ _ hplain
            rw [hplain] at h
            obtain ⟨later, hlat, rfl⟩ : ∃ later, recordLoop k fuel rest = some later ∧
                v :: later = visits := by
              simpa [bind_eq_some_iff] using h
            have hrest := ih hlat
            rw [map_cons, sum_cons]
            omega

end TraceHarbor.HprofLib
