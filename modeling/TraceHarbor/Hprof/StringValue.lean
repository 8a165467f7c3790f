import TraceHarbor.Hprof.ParserEngine

/-!
# Reading String Instances

`GetValueFromStringInstance` converts code units of the `value` array at the position that the field
`offset` says. A negative offset, or one behind the array, leads out of the array: the difference that
bounds the number of code units wraps around.
-/

namespace TraceHarbor.Hprof.Parser

open Lib Lib.Traced

/-- What is converted lies in the slice. -/
def ConvertsInside (slice : Slice) (trace : List Event) : Prop :=
  ∀ buffer start count, .convert buffer start count ∈ trace →
    count = 0 ∨ slice.start ≤ start ∧ start + 2 * count ≤ slice.start + slice.length

theorem getFieldInt_done {referrerId : ObjectId} {name : Text} {s s' : ParserState} {v : ℤ}
    (h : (getFieldInt referrerId name s).outcome = .done v s') :
    s'.reader = s.reader ∧ (-2 ^ 31 ≤ v ∧ v < 2 ^ 31) ∧
      ∀ buffer start count,
        .convert buffer start count ∉ (getFieldInt referrerId name s).trace := by
  obtain ⟨id, s₁, hid, hrest, htrace⟩ := bind_eq_done h
  have hfind : s₁.reader = s.reader ∧
      ∀ buffer start count, .convert buffer start count ∉ (findStringId name s).trace := by
    rw [findStringId] at hid ⊢
    split at hid
    · cases hid
      simp [*]
    · split_ifs at hid with hthro
      cases hid
      simp [*]
  rw [getFieldInt, htrace]
  cases id with
  | none =>
    cases hrest
    simpa [pure_apply] using hfind
  | some id =>
    obtain ⟨heap, s₂, hheap, hval, hgets⟩ := bind_eq_done hrest
    rw [hgets]
    cases hheap
    cases hdata : s₁.heap.primitives[referrerId]?.bind (·[id]?) with
    | none =>
      simp only [hdata] at hval ⊢
      cases hval
      simpa [gets, pure_apply] using hfind
    | some data =>
      have hle := BitVec.le_toInt (BitVec.ofNat 32 data.data)
      have hlt := BitVec.toInt_lt (x := BitVec.ofNat 32 data.data)
      simp only [hdata] at hval ⊢
      cases hval
      refine ⟨hfind.1, ⟨hle, hlt⟩, ?_⟩
      simpa [gets, pure_apply] using hfind.2

/-- **Reads of a string instance**: what is converted lies in the array, and is what the fields say,
exactly if no code units are asked for or the offset is in the array. -/
theorem string_reads_inside_iff (toBytes : List ℕ → Option Text) (instanceId : ObjectId)
    (array : HeapPrimitiveArrayData) (s s₁ s₂ : ParserState) (offset count : ℤ)
    (hfits : array.data.start + array.data.length < 2 ^ 63)
    (hoffset : (getFieldInt instanceId (asciiBytes "offset") s).outcome = .done offset s₁)
    (hcount : (getFieldInt instanceId (asciiBytes "count") s₁).outcome = .done count s₂) :
    ConvertsInside array.data (getStringContent toBytes instanceId array s).trace ∧
      (array.type = .kChar → 0 ≤ offset → 0 ≤ count → 2 * (offset + count) ≤ array.data.length →
        .convert s.reader.buffer (array.data.start + 2 * offset.toNat) count.toNat ∈
          (getStringContent toBytes instanceId array s).trace) ↔
    (array.type = .kChar → count = 0 ∨ 0 ≤ offset ∧ 2 * offset ≤ array.data.length) := by
  obtain ⟨hread, hrng, hquiet⟩ := getFieldInt_done hoffset
  obtain ⟨hread', hrng', hquiet'⟩ := getFieldInt_done hcount
  by_cases hchar : array.type = .kChar
  swap
  · have hnone : (getStringContent toBytes instanceId array s).trace = [] := by
      rw [getStringContent, if_neg hchar]
      split <;> rfl
    simp [hnone, hchar, ConvertsInside]
  have htrace : (getStringContent toBytes instanceId array s).trace =
      (getFieldInt instanceId (asciiBytes "offset") s).trace ++
      ((getFieldInt instanceId (asciiBytes "count") s₁).trace ++ [.convert s.reader.buffer
        ((array.data.start + (offset * 2 % 2 ^ 64).toNat) % 2 ^ 64)
        (min (count * 2 % 2 ^ 64).toNat
          ((array.data.length + 2 ^ 64 - (offset * 2 % 2 ^ 64).toNat) % 2 ^ 64) / 2)]) := by
    rw [getStringContent, if_pos hchar, getCharContent, bind_of_done hoffset, bind_of_done hcount,
      convertUtf16String, hread', hread]
    split <;> rfl
  rw [htrace]
  simp only [ConvertsInside, List.mem_append, hquiet, hquiet', false_or, List.mem_singleton, hchar,
    forall_const, Event.convert.injEq, and_imp]
  generalize hstart : (array.data.start + (offset * 2 % 2 ^ 64).toNat) % 2 ^ 64 = start
  generalize hun : min (count * 2 % 2 ^ 64).toNat
    ((array.data.length + 2 ^ 64 - (offset * 2 % 2 ^ 64).toNat) % 2 ^ 64) / 2 = units
  constructor
  · rintro ⟨hins, -⟩
    have := hins _ _ _ rfl rfl rfl
    omega
  · intro h
    refine ⟨?_, ?_⟩
    · rintro _ _ _ rfl rfl rfl
      omega
    · intros
      refine ⟨trivial, ?_, ?_⟩ <;> omega

/-- A string with the given fields. -/
def stringState (offset count : ℕ) : ParserState where
  reader := ⟨[0, 0, 0, 0, 0, 97], 0⟩
  heap := ((DumpHeap.new.updateHeap fun h => (h.addString 1 (asciiBytes "offset")).addString 2
    (asciiBytes "count")).addPrimitive 5 1 ⟨.kInt, offset⟩).addPrimitive 5 2 ⟨.kInt, count⟩

def charArray : HeapPrimitiveArrayData := ⟨.kChar, ⟨4, 2⟩⟩

theorem string_reads_inside_iff_whole :
    ConvertsInside charArray.data
      (getStringContent (fun _ => none) 5 charArray (stringState 0 1)).trace :=
  ((string_reads_inside_iff (fun _ => none) 5 charArray (stringState 0 1) _ _ 0 1 (by decide)
    rfl rfl).mpr fun _ => .inr (by decide)).1

/-- With the offset `-1`, two bytes before the array are converted. -/
theorem converts_before_array :
    (getStringContent (fun _ => none) 5 charArray (stringState 0xffffffff 1)).trace.filterMap (fun
      | .convert _ start count => some (start, count)
      | _ => none) = [(2, 1)] := by
  decide +kernel

end TraceHarbor.Hprof.Parser
