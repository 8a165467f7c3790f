import TraceHarbor.Hprof.HeapLookup
import TraceHarbor.Hprof.ParserEngine

/-!
# Bytes Read by the Parser

Every sub-record parser of the engine moves the cursor by the number of bytes that it returns, stays in
the buffer, and stores no slice that is not in it (`Advances`). The string records are the exception,
which is why the parsers of records are treated elsewhere.
-/

namespace TraceHarbor.Hprof

open TraceHarbor.Lib List

/-! ## Readers in the buffer -/

/-- A reader in an object of the program, which has fewer than `2 ^ 63` bytes. -/
structure Reader.Valid (r : Reader) : Prop where
  cursor_le : r.cursor ≤ r.buffer.length
  length_lt : r.buffer.length < 2 ^ 63

def Reader.onward (r : Reader) (n : ℕ) : Reader := { r with cursor := r.cursor + n }

theorem Reader.onward_onward (r : Reader) (n m : ℕ) : (r.onward n).onward m = r.onward (n + m) := by
  rw [onward, onward, onward, Nat.add_assoc]

variable {size : ℕ}

theorem Reader.readLoop_spec {ret value : ℕ} {r r' : Reader}
    (h : Reader.readLoop size ret r = some (value, r')) :
    r' = r.onward size ∧ (size ≠ 0 → r'.cursor ≤ r.buffer.length) ∧
      value < (ret + 1) * 2 ^ (8 * size) := by
  induction size generalizing ret r with
  | zero =>
    cases h
    exact ⟨rfl, fun hne => absurd rfl hne, by omega⟩
  | succ size ih =>
    rw [readLoop] at h
    cases hbyte : r.buffer[r.cursor]? with
    | none => simp [hbyte] at h
    | some byte =>
      simp only [hbyte] at h
      obtain ⟨rfl, hle, hlt⟩ := ih h
      have hcurs : r.cursor < r.buffer.length := (List.getElem?_eq_some_iff.mp hbyte).1
      refine ⟨?_, fun _ => ?_, ?_⟩
      · rw [onward, onward]
        simp only [Reader.mk.injEq, true_and]
        omega
      · by_cases hsize : size = 0
        · simp only [onward, hsize]
          omega
        · exact hle hsize
      · have hround : (ret * 2 ^ 8 + byte.toNat) % 2 ^ 64 + 1 ≤ (ret + 1) * 2 ^ 8 := by
          have hbyteLt : byte.toNat < 2 ^ 8 := byte.toNat_lt
          omega
        calc value < ((ret * 2 ^ 8 + byte.toNat) % 2 ^ 64 + 1) * 2 ^ (8 * size) := hlt
          _ ≤ (ret + 1) * 2 ^ 8 * 2 ^ (8 * size) := Nat.mul_le_mul_right _ hround
          _ = (ret + 1) * 2 ^ (8 * (size + 1)) := by
            rw [Nat.mul_assoc, ← pow_add, Nat.mul_add, Nat.add_comm 8]

theorem Reader.Valid.read {r r' : Reader} (h : r.Valid) {value : ℕ}
    (hread : Reader.read size r = some (value, r')) :
    r' = r.onward size ∧ r.cursor + size ≤ r.buffer.length ∧ value < 2 ^ (8 * size) := by
  obtain ⟨rfl, hle, hlt⟩ := readLoop_spec hread
  refine ⟨rfl, ?_, by simpa using hlt⟩
  by_cases hsize : size = 0
  · rw [hsize]
    exact h.cursor_le
  · exact hle hsize

theorem Reader.Valid.skipSize {r r' : Reader} (h : r.Valid) (hsize : size < 2 ^ 63)
    (hskip : Reader.skipSize size r = some ((), r')) :
    r' = r.onward size ∧ r.cursor + size ≤ r.buffer.length := by
  have hlt : r.cursor + size < 2 ^ 64 := by
    have := h.cursor_le
    have := h.length_lt
    omega
  rw [Reader.skipSize, Nat.mod_eq_of_lt hlt] at hskip
  split at hskip
  · cases hskip
  · cases hskip
    exact ⟨rfl, by omega⟩

theorem Reader.Valid.onward {r : Reader} (h : r.Valid) {n : ℕ}
    (hle : r.cursor + n ≤ r.buffer.length) : (r.onward n).Valid := ⟨hle, h.length_lt⟩

/-! ## Steps that move onward -/

/-- Every slice of the heap lies in a buffer of the size. -/
structure DumpHeap.SlicesInside (h : DumpHeap) (size : ℕ) : Prop where
  strings : ∀ (id : StringId) (slice : Slice), h.stringSlices[id]? = some slice → slice.Inside size
  fields : ∀ (id : ObjectId) (data : HeapFieldsData), h.fieldsData[id]? = some data →
    data.fieldsData.Inside size
  arrays : ∀ (id : ObjectId) (data : HeapPrimitiveArrayData), h.primitiveArrays[id]? = some data →
    data.data.Inside size

/-- A call of the reader for bytes in the buffer that does not move the cursor backwards. -/
def Event.Safe (size : ℕ) : Event → Prop
  | call start n stop => start + n ≤ size ∧ start ≤ stop ∧ stop ≤ size
  | _ => True

def Event.NoHeader : Event → Prop
  | header _ _ => False
  | _ => True

/-- The states of the parser: a valid reader and an identifier size of 32 bits. -/
structure ParserState.Sane (s : ParserState) : Prop where
  reader : s.reader.Valid
  idSize_lt : s.heap.idSize < 2 ^ 32

/-- The cursor was moved onward by `n`, and nothing outside the buffer was read or stored. -/
structure Onward (n : ℕ) (s : ParserState) (trace : List Event) (s' : ParserState) : Prop where
  reader_eq : s'.reader = s.reader.onward n
  inside : s.reader.cursor + n ≤ s.reader.buffer.length
  idSize_eq : s'.heap.idSize = s.heap.idSize
  safe : ∀ e ∈ trace, e.Safe s.reader.buffer.length
  noHeader : ∀ e ∈ trace, e.NoHeader
  slices : s.heap.SlicesInside s.reader.buffer.length →
    s'.heap.SlicesInside s.reader.buffer.length

variable {s s' : ParserState}

theorem Onward.sane {n : ℕ} {trace : List Event} (h : Onward n s trace s') (hs : s.Sane) :
    s'.Sane :=
  ⟨h.reader_eq ▸ hs.reader.onward h.inside, h.idSize_eq ▸ hs.idSize_lt⟩

theorem Onward.refl (hs : s.Sane) : Onward 0 s [] s :=
  ⟨rfl, hs.reader.cursor_le, rfl, nofun,
    nofun, fun h => h⟩

theorem Onward.trans {n m : ℕ} {s₁ : ParserState} {t t' : List Event} (h : Onward n s t s₁)
    (h' : Onward m s₁ t' s') : Onward (n + m) s (t ++ t') s' := by
  have hbuf : s₁.reader.buffer = s.reader.buffer := by rw [h.reader_eq]; rfl
  have hcurs : s₁.reader.cursor = s.reader.cursor + n := by rw [h.reader_eq]; rfl
  have hins := h'.inside
  have hsafe := h'.safe
  have hslic := h'.slices
  rw [hbuf] at hins hsafe hslic
  refine ⟨?_, by omega, h'.idSize_eq.trans h.idSize_eq, ?_, ?_, fun hs => hslic (h.slices hs)⟩
  · rw [h'.reader_eq, h.reader_eq, Reader.onward_onward]
  · exact forall_mem_append.mpr ⟨h.safe, hsafe⟩
  · exact forall_mem_append.mpr ⟨h.noHeader, h'.noHeader⟩

namespace Parser

open Lib.Traced

variable {α β : Type}

theorem extract_eq_done {slice : Slice} (h : (extract size s).outcome = .done slice s') :
    slice = ⟨s.reader.cursor, size⟩ ∧ (skip size s).outcome = .done () s' ∧
      (extract size s).trace = (skip size s).trace := by
  obtain ⟨start, s₀, hstart, hskip, htrace⟩ := bind_eq_done h
  cases hstart
  obtain ⟨_, s₁, hdone, hpure, htrace'⟩ := bind_eq_done hskip
  cases hpure
  refine ⟨rfl, hdone, htrace.trans ?_⟩
  rw [htrace']
  exact append_nil _

/-- **Steps that move the cursor onward**, by a number of bytes that is related to the result. -/
def Advances (x : ParseM α) (P : α → ℕ → Prop) : Prop :=
  Post x fun s trace a s' => s.Sane → ∃ n, P a n ∧ Onward n s trace s'

namespace Advances

variable {x : ParseM α} {f : α → ParseM β} {P P' : α → ℕ → Prop} {Q : β → ℕ → Prop}

theorem imp (h : Advances x P) (himp : ∀ a n, P a n → P' a n) : Advances x P' := by
  intro s a s' hx hs
  obtain ⟨n, hP, honw⟩ := h s a s' hx hs
  exact ⟨n, himp a n hP, honw⟩

/-- **Sequences**: the numbers of bytes add up. -/
theorem bind (hx : Advances x P) (hf : ∀ a n, P a n → Advances (f a) fun b m => Q b (n + m)) :
    Advances (x >>= f) Q := by
  intro s b s' h hs
  obtain ⟨a, s₁, ha, hb, htrace⟩ := bind_eq_done h
  obtain ⟨n, hP, honw⟩ := hx s a s₁ ha hs
  obtain ⟨m, hQ, honw'⟩ := hf a n hP s₁ b s' hb (honw.sane hs)
  rw [htrace]
  exact ⟨n + m, hQ, honw.trans honw'⟩

theorem pure {a : α} (h : P a 0) : Advances (Pure.pure a) P := by
  rintro s _ _ ⟨⟩ hs
  exact ⟨0, h, Onward.refl hs⟩

theorem gets {g : ParserState → α} (h : ∀ s, s.Sane → P (g s) 0) : Advances (Traced.gets g) P := by
  rintro s _ _ ⟨⟩ hs
  exact ⟨0, h s hs, Onward.refl hs⟩

theorem fail {error : Fatal} : Advances (Traced.fail error) P := by
  rintro s _ _ ⟨⟩

theorem orFail {error : Fatal} {a : Option α} (h : ∀ b, a = some b → P b 0) :
    Advances (Traced.orFail error a) P := by
  cases a with
  | none => exact fail
  | some b => exact pure (h b rfl)

theorem onReader {action : ReadM α}
    (hact : ∀ r a r', r.Valid → action r = some (a, r') →
      r' = r.onward size ∧ r.cursor + size ≤ r.buffer.length ∧ P a size) :
    Advances (Parser.onReader size action) P := by
  intro s a s' h hs
  rw [Parser.onReader] at h ⊢
  cases hr : action s.reader with
  | none =>
    rw [hr] at h
    cases h
  | some result =>
    obtain ⟨b, r⟩ := result
    rw [hr] at h
    cases h
    obtain ⟨rfl, hle, hP⟩ := hact _ _ _ hs.reader hr
    refine ⟨size, hP, rfl, hle, rfl, ?_, ?_, fun hslic => hslic⟩
    · intro e he
      rw [mem_singleton.mp he]
      exact ⟨hle, Nat.le_add_right _ _, hle⟩
    · intro e he
      rw [mem_singleton.mp he]
      trivial

theorem read (size : ℕ) :
    Advances (Parser.read size) fun value n => size = n ∧ value < 2 ^ (8 * size) := by
  refine onReader fun r value r' hr h => ?_
  obtain ⟨hr', hle, hlt⟩ := hr.read h
  exact ⟨hr', hle, rfl, hlt⟩

theorem read_bind {f : ℕ → ParseM β}
    (h : ∀ value < 2 ^ (8 * size), Advances (f value) fun b m => Q b (size + m)) :
    Advances (Parser.read size >>= f) Q := by
  refine (read size).bind ?_
  rintro value _ ⟨rfl, hlt⟩
  exact h value hlt

theorem skip (hsize : size < 2 ^ 63) : Advances (Parser.skip size) fun _ n => size = n := by
  refine onReader fun r value r' hr h => ?_
  obtain ⟨hr', hle⟩ := hr.skipSize hsize h
  exact ⟨hr', hle, rfl⟩

theorem skip_bind {f : Unit → ParseM β} (hsize : size < 2 ^ 63)
    (h : ∀ u, Advances (f u) fun b m => Q b (size + m)) : Advances (Parser.skip size >>= f) Q := by
  refine (skip hsize).bind ?_
  rintro u _ rfl
  exact h u

theorem extract (size : ℕ) (hsize : size < 2 ^ 63) {g : Slice → DumpHeap → DumpHeap}
    (hid : ∀ slice h, (g slice h).idSize = h.idSize)
    (hslic : ∀ (slice : Slice) h n, slice.Inside n → h.SlicesInside n →
      (g slice h).SlicesInside n) :
    Advances (Parser.extract size >>= fun slice => Parser.modifyHeap (g slice))
      fun _ n => size = n := by
  intro s a s' h hs
  obtain ⟨slice, s₁, hslice, hstore, htrace⟩ := bind_eq_done h
  obtain ⟨rfl, hskip, htrace'⟩ := extract_eq_done hslice
  cases hstore
  obtain ⟨n, rfl, honw⟩ := skip hsize s _ s₁ hskip hs
  have htrace : ((Parser.extract size >>= fun slice => Parser.modifyHeap (g slice)) s).trace =
      (Parser.skip size s).trace := by
    rw [htrace, htrace']
    exact append_nil _
  refine ⟨size, rfl, honw.reader_eq, honw.inside, (hid _ _).trans honw.idSize_eq, ?_, ?_,
    fun hins => hslic _ _ _ honw.inside (honw.slices hins)⟩
  · rw [htrace]
    exact honw.safe
  · rw [htrace]
    exact honw.noHeader

end Advances

/-! ## Steps that read nothing -/

/-- A step that leaves the reader and the slices alone. -/
def Still (x : ParseM α) : Prop := Advances x fun _ n => n = 0

namespace Still

variable {x : ParseM α} {f : α → ParseM β} {Q : β → ℕ → Prop}

theorem bind (hx : Still x) (hf : ∀ a, Advances (f a) Q) : Advances (x >>= f) Q := by
  refine Advances.bind hx ?_
  rintro a _ rfl
  simpa using hf a

theorem pure (a : α) : Still (Pure.pure a) := Advances.pure rfl

theorem gets (g : ParserState → α) : Still (Traced.gets g) := Advances.gets fun _ _ => rfl

theorem orFail (error : Fatal) (a : Option α) : Still (Traced.orFail error a) :=
  Advances.orFail fun _ _ => rfl

theorem modifyHeap {g : DumpHeap → DumpHeap}
    (h : ∀ h, (g h).idSize = h.idSize ∧ (g h).stringSlices = h.stringSlices ∧
      (g h).fieldsData = h.fieldsData ∧ (g h).primitiveArrays = h.primitiveArrays) :
    Still (Parser.modifyHeap g) := by
  rintro s _ _ ⟨⟩ hs
  obtain ⟨hid, hstrs, hflds, harr⟩ := h s.heap
  exact ⟨0, rfl, rfl, hs.reader.cursor_le, hid, nofun,
    nofun, fun hslic =>
      ⟨hstrs ▸ hslic.strings, hflds ▸ hslic.fields, harr ▸ hslic.arrays⟩⟩

theorem updateHeap {g : Heap → Heap} (h : ∀ h, (g h).idSize = h.idSize) :
    Still (Parser.updateHeap g) :=
  modifyHeap fun heap => ⟨h heap.toHeap, rfl, rfl, rfl⟩

end Still

/-! ## Lookups and walks -/

def Quiet : Event → Prop
  | .header _ _ => False
  | .call _ _ _ => False
  | _ => True

theorem Still.of_quiet {x : ParseM α}
    (h : ∀ s a s', (x s).outcome = .done a s' → s'.reader = s.reader ∧
      s'.heap.idSize = s.heap.idSize ∧
      (∀ size, s.heap.SlicesInside size → s'.heap.SlicesInside size) ∧
      ∀ e ∈ (x s).trace, Quiet e) : Still x := by
  intro s a s' hx hs
  obtain ⟨hread, hid, hslic, hquiet⟩ := h s a s' hx
  refine ⟨0, rfl, hread, hs.reader.cursor_le, hid, fun e he => ?_, fun e he => ?_, hslic _⟩
  · have := hquiet e he
    cases e <;> trivial
  · have := hquiet e he
    cases e <;> trivial

theorem getIdSize_eq_done {idSize : ℕ} (h : (getIdSize s).outcome = .done idSize s') :
    s' = s ∧ idSize = s.heap.idSize ∧ (getIdSize s).trace = [] := by
  obtain ⟨heap, s₁, hheap, hsize, htrace⟩ := bind_eq_done h
  cases hheap
  cases hget : s.heap.getIdSize with
  | none =>
    rw [hget] at hsize
    cases hsize
  | some size =>
    rw [hget] at hsize
    cases hsize
    refine ⟨rfl, ?_, ?_⟩
    · rw [Heap.getIdSize] at hget
      split at hget
      · cases hget
      · exact (Option.some.inj hget).symm
    · rw [getIdSize, htrace]
      simp only [hget]
      rfl

theorem advances_getIdSize : Advances getIdSize fun idSize n => n = 0 ∧ idSize < 2 ^ 32 := by
  intro s idSize s' h hs
  obtain ⟨rfl, rfl, htrace⟩ := getIdSize_eq_done h
  rw [htrace]
  exact ⟨0, ⟨rfl, hs.idSize_lt⟩, Onward.refl hs⟩

theorem getIdSize_bind {f : ℕ → ParseM β} {Q : β → ℕ → Prop}
    (h : ∀ idSize < 2 ^ 32, Advances (f idSize) Q) : Advances (getIdSize >>= f) Q := by
  refine advances_getIdSize.bind ?_
  rintro idSize _ ⟨rfl, hid⟩
  simpa using h idSize hid

theorem still_findStringId (value : Text) : Still (findStringId value) := by
  refine Still.of_quiet fun s a s' h => ?_
  rw [findStringId] at h ⊢
  cases hmemo : s.heap.findStringIdMemorized[value]? with
  | some memorized =>
    rw [hmemo] at h
    cases h
    exact ⟨rfl, rfl, fun _ hslic => hslic, nofun⟩
  | none =>
    simp only [hmemo] at h
    split at h
    · cases h
    · rename_i hscan
      cases h
      obtain ⟨strings, classes, hsame⟩ := Heap.sameButMemo_findStringId s.heap.toHeap value
      refine ⟨rfl, by rw [hsame], fun _ hslic => ⟨hslic.strings, hslic.fields, hslic.arrays⟩,
        fun e he => ?_⟩
      simp only [hscan] at he
      rw [mem_singleton.mp he]
      trivial

theorem still_findClassByName (className : Text) : Still (findClassByName className) := by
  refine (Still.gets _).bind fun h => ?_
  cases h.findClassByNameMemorized[className]? with
  | some memorized => exact Still.pure _
  | none =>
    refine Still.bind ?_ fun classId => ?_
    · refine (still_findStringId className).bind ?_
      rintro (_ | classNameId)
      · exact Still.pure _
      · refine (Still.gets _).bind fun h => ?_
        cases h.classNames.findFirst fun _ nameId => decide (nameId = classNameId) with
        | none | some entry => exact Still.pure _
    · refine Still.bind (.updateHeap fun _ => rfl) fun _ => ?_
      exact Still.pure _

theorem still_childClassOf (fuel : ℕ) (classId superClassId : ObjectId) :
    Still (childClassOf fuel classId superClassId) := by
  refine Still.of_quiet fun s a s' h => ?_
  rw [childClassOf] at h ⊢
  cases hwalk : s.heap.childClassOf fuel classId superClassId with
  | none =>
    rw [hwalk] at h
    cases h
  | some answer =>
    rw [hwalk] at h
    cases h
    refine ⟨rfl, rfl, fun _ hslic => hslic, fun e he => ?_⟩
    rw [mem_singleton.mp he]
    trivial

/-! ## Sub-records -/

theorem readValueType_bind {f : ValueType → ParseM β} {Q : β → ℕ → Prop}
    (h : ∀ type, Advances (f type) fun b m => Q b (1 + m)) : Advances (readValueType >>= f) Q := by
  have hread : Advances readValueType fun _ n => n = 1 :=
    .read_bind fun type _ => .orFail fun _ _ => rfl
  refine hread.bind ?_
  rintro type _ rfl
  exact h type

theorem advances_skipAll {sizes : List ℕ} (h : ∀ size ∈ sizes, size < 2 ^ 63) :
    Advances (skipAll sizes) fun _ n => sizes.sum = n := by
  induction sizes with
  | nil => exact .pure rfl
  | cons size sizes ih =>
    obtain ⟨hsize, hsiz⟩ := forall_mem_cons.mp h
    refine .skip_bind hsize fun _ => ?_
    exact (ih hsiz).imp fun _ m hm => by rw [sum_cons, hm]

theorem still_markGcRoot (type : GcRootType) (objectId : ObjectId) :
    Still (markGcRoot type objectId) := by
  rw [markGcRoot]
  split
  · exact .modifyHeap fun _ => ⟨rfl, rfl, rfl, rfl⟩
  · exact Still.pure _

/-- **GC roots**, all but those with a thread. -/
theorem advances_parseRootSubRecord (type : GcRootType) {skipped : ℕ → List ℕ}
    (h : ∀ idSize < 2 ^ 32, ∀ size ∈ skipped idSize, size < 2 ^ 63) :
    Advances (parseRootSubRecord type skipped) fun size n => size = n := by
  refine getIdSize_bind fun idSize hid => ?_
  refine .read_bind fun objectId _ => ?_
  refine (still_markGcRoot type objectId).bind fun _ => ?_
  refine (advances_skipAll (h idSize hid)).bind ?_
  rintro _ _ rfl
  exact .pure (by omega)

/-- **GC roots with a thread**. -/
theorem advances_parseThreadRootSubRecord (type : GcRootType)
    {record : DumpHeap → ObjectId → ℕ → DumpHeap}
    (h : ∀ h objectId number, (record h objectId number).idSize = h.idSize ∧
      (record h objectId number).stringSlices = h.stringSlices ∧
      (record h objectId number).fieldsData = h.fieldsData ∧
      (record h objectId number).primitiveArrays = h.primitiveArrays) :
    Advances (parseThreadRootSubRecord type record) fun size n => size = n := by
  refine getIdSize_bind fun idSize _ => ?_
  refine .read_bind fun objectId _ => ?_
  refine (still_markGcRoot type objectId).bind fun _ => ?_
  refine .read_bind fun number _ => ?_
  refine Still.bind (.modifyHeap fun heap => ?_) fun _ => ?_
  · split
    · exact h heap objectId number
    · exact ⟨rfl, rfl, rfl, rfl⟩
  refine .skip_bind (by omega) fun _ => ?_
  exact .pure (by omega)

theorem still_findMatcherClass (fullMatch : Bool) (className : Text) :
    Still (findMatcherClass fullMatch className) := by
  rw [findMatcherClass]
  split
  · exact Still.pure _
  · exact still_findClassByName className

theorem still_findMatcherField (fullMatch : Bool) (fieldName : Text) :
    Still (findMatcherField fullMatch fieldName) := by
  rw [findMatcherField]
  split
  · exact Still.pure _
  · exact still_findStringId fieldName

theorem still_flattenFieldExcludeMatcher (matcher : FieldExcludeMatcher) :
    Still (flattenFieldExcludeMatcher matcher) := by
  refine (still_findMatcherClass _ _).bind ?_
  rintro (_ | classId)
  · exact Still.pure _
  · refine (still_findMatcherField _ _).bind ?_
    rintro (_ | fieldNameId)
    · exact Still.pure _
    · exact Still.pure _

theorem still_flattenFieldExcludeMatchers (matchers : List FieldExcludeMatcher) :
    Still (flattenFieldExcludeMatchers matchers) := by
  induction matchers with
  | nil => exact Still.pure _
  | cons matcher matchers ih =>
    refine (still_flattenFieldExcludeMatcher matcher).bind fun flattened => ?_
    refine Still.bind ih fun rest => ?_
    exact Still.pure _

theorem still_hitsClass (fuel : ℕ) (classId matcherClassId : ObjectId) :
    Still (hitsClass fuel classId matcherClassId) := by
  rw [hitsClass]
  split
  · exact Still.pure _
  · exact still_childClassOf fuel classId matcherClassId

theorem still_classMatchMatchers (fuel : ℕ) (classId : ObjectId)
    (matchers : List FieldExcludeMatcherFlatten) :
    Still (classMatchMatchers fuel classId matchers) := by
  induction matchers with
  | nil => exact Still.pure _
  | cons matcher matchers ih =>
    refine (still_hitsClass fuel classId matcher.classId).bind fun hit => ?_
    refine Still.bind ih fun hits => ?_
    exact Still.pure _

theorem valueSize_lt {idSize : ℕ} (h : idSize < 2 ^ 32) (type : ValueType) :
    valueSize idSize type < 2 ^ 63 := by
  rw [valueSize]
  split
  · omega
  · cases type <;> simp [getValueTypeSize]

theorem getValueTypeSize_le (type : ValueType) : getValueTypeSize type ≤ 8 := by
  cases type <;> simp [getValueTypeSize]

theorem advances_skipConstantPool {idSize : ℕ} (h : idSize < 2 ^ 32) (length : ℕ) :
    Advances (skipConstantPool idSize length) fun size n => size = n := by
  induction length with
  | zero => exact .pure rfl
  | succ length ih =>
    refine .skip_bind (by omega) fun _ => ?_
    refine readValueType_bind fun type => ?_
    refine .skip_bind (valueSize_lt h type) fun _ => ?_
    refine ih.bind ?_
    rintro size _ rfl
    exact .pure (by omega)

theorem still_addFieldReference (matchers : List FieldExcludeMatcherFlatten)
    (referrerId : ObjectId) (fieldNameId : StringId) (referentId : ObjectId) (static : Bool) :
    Still (addFieldReference matchers referrerId fieldNameId referentId static) := by
  refine .updateHeap fun h => ?_
  split <;> rfl

theorem advances_parseStaticFields (idSize : ℕ) (matchers : List FieldExcludeMatcherFlatten)
    (classId : ObjectId) (length : ℕ) :
    Advances (parseStaticFields idSize matchers classId length) fun size n => size = n := by
  induction length with
  | zero => exact .pure rfl
  | succ length ih =>
    refine .read_bind fun fieldNameId _ => ?_
    refine readValueType_bind fun type => ?_
    refine Advances.bind (P := fun size n => size = n) ?_ ?_
    · rw [parseStaticValue]
      split
      · refine .read_bind fun referentId _ => ?_
        refine (still_addFieldReference matchers classId fieldNameId referentId true).bind fun _ => ?_
        exact .pure rfl
      · have hle := getValueTypeSize_le type
        refine .skip_bind (by omega) fun _ => ?_
        exact .pure rfl
    rintro valueSize _ rfl
    refine ih.bind ?_
    rintro size _ rfl
    exact .pure (by omega)

theorem advances_parseInstanceFields (idSize : ℕ) (classId : ObjectId) (length : ℕ) :
    Advances (parseInstanceFields idSize classId length) fun size n => size = n := by
  induction length with
  | zero => exact .pure rfl
  | succ length ih =>
    refine .read_bind fun fieldNameId _ => ?_
    refine readValueType_bind fun type => ?_
    refine Still.bind (.updateHeap fun _ => rfl) fun _ => ?_
    refine ih.bind ?_
    rintro size _ rfl
    exact .pure (by omega)

/-- **Class dumps**. -/
theorem advances_parseHeapContentClassSubRecord (fuel : ℕ) (group : ExcludeMatcherGroup) :
    Advances (parseHeapContentClassSubRecord fuel group) fun size n => size = n := by
  refine getIdSize_bind fun idSize hid => ?_
  refine .read_bind fun classId _ => ?_
  refine Still.bind (.updateHeap fun _ => rfl) fun _ => ?_
  refine .skip_bind (by omega) fun _ => ?_
  refine .read_bind fun superClassId _ => ?_
  refine Still.bind (.updateHeap fun _ => rfl) fun _ => ?_
  refine (advances_skipAll ?_).bind ?_
  · intro size hsize
    have : size = idSize := by simpa using hsize
    omega
  rintro _ _ rfl
  refine .skip_bind (by omega) fun _ => ?_
  refine .read_bind fun constantPoolLength _ => ?_
  refine (advances_skipConstantPool hid constantPoolLength).bind ?_
  rintro constantPoolSize _ rfl
  refine .read_bind fun staticFieldsLength _ => ?_
  refine (still_flattenFieldExcludeMatchers group.staticFields).bind fun flattened => ?_
  refine (still_classMatchMatchers fuel classId flattened).bind fun matchers => ?_
  refine (advances_parseStaticFields idSize matchers classId staticFieldsLength).bind ?_
  rintro staticSize _ rfl
  refine .read_bind fun nonStaticFieldsLength _ => ?_
  refine (advances_parseInstanceFields idSize classId nonStaticFieldsLength).bind ?_
  rintro nonStaticSize _ rfl
  refine .pure ?_
  simp only [sum_cons, sum_nil]
  omega

/-- **Instances**. -/
theorem advances_parseHeapContentInstanceSubRecord :
    Advances parseHeapContentInstanceSubRecord fun size n => size = n := by
  refine getIdSize_bind fun idSize _ => ?_
  refine .read_bind fun instanceId _ => ?_
  refine Still.bind (.updateHeap fun _ => rfl) fun _ => ?_
  refine .skip_bind (by omega) fun _ => ?_
  refine .read_bind fun classId _ => ?_
  refine Still.bind (.modifyHeap fun _ => ⟨rfl, rfl, rfl, rfl⟩) fun _ => ?_
  refine .read_bind fun fieldsDataSize hsize => ?_
  have hstore := Advances.extract fieldsDataSize (by omega)
    (g := fun slice h => h.addFieldsData ⟨instanceId, classId, slice⟩) (fun _ _ => rfl)
    fun slice h n hslice hslic => ⟨hslic.strings, fun id data hdata => ?_, hslic.arrays⟩
  · rw [← bind_assoc]
    refine hstore.bind ?_
    rintro _ _ rfl
    exact .pure (by omega)
  · rw [DumpHeap.addFieldsData, Std.ExtTreeMap.getElem?_insertIfNew] at hdata
    split at hdata
    · rw [← Option.some.inj hdata]
      exact hslice
    · exact hslic.fields id data hdata

theorem advances_parseElements (idSize : ℕ) (arrayId : ObjectId) (length index : ℕ) :
    Advances (parseElements idSize arrayId length index) fun _ n => length * idSize = n := by
  induction length generalizing index with
  | zero => exact .pure (Nat.zero_mul _)
  | succ length ih =>
    refine .read_bind fun referentId _ => ?_
    refine Still.bind (.updateHeap fun _ => rfl) fun _ => ?_
    exact (ih (index + 1)).imp fun _ m hm => by rw [Nat.succ_mul]; omega

/-- **Object arrays**. -/
theorem advances_parseHeapContentObjectArraySubRecord :
    Advances parseHeapContentObjectArraySubRecord fun size n => size = n := by
  refine getIdSize_bind fun idSize _ => ?_
  refine .read_bind fun arrayId _ => ?_
  refine Still.bind (.updateHeap fun _ => rfl) fun _ => ?_
  refine .skip_bind (by omega) fun _ => ?_
  refine .read_bind fun arrayLength _ => ?_
  refine .read_bind fun classId _ => ?_
  refine Still.bind (.modifyHeap fun _ => ⟨rfl, rfl, rfl, rfl⟩) fun _ => ?_
  refine (advances_parseElements idSize arrayId arrayLength 0).bind ?_
  rintro _ _ rfl
  exact .pure (by omega)

theorem advances_readPrimitiveArray (arrayId : ObjectId) (type : ValueType) {dataSize : ℕ}
    (hsize : dataSize < 2 ^ 63) :
    Advances (readPrimitiveArray arrayId type dataSize) fun _ n => dataSize = n := by
  rw [readPrimitiveArray]
  split
  · exact .fail
  · refine Advances.extract dataSize hsize (g := fun slice h => h.addPrimitiveArray arrayId ⟨type, slice⟩)
      (fun _ _ => rfl) fun slice h n hslice hslic =>
        ⟨hslic.strings, hslic.fields, fun id data hdata => ?_⟩
    rw [DumpHeap.addPrimitiveArray, Std.ExtTreeMap.getElem?_insertIfNew] at hdata
    split at hdata
    · rw [← Option.some.inj hdata]
      exact hslice
    · exact hslic.arrays id data hdata

/-- **Primitive arrays**. -/
theorem advances_parseHeapContentPrimitiveArraySubRecord :
    Advances parseHeapContentPrimitiveArraySubRecord fun size n => size = n := by
  refine getIdSize_bind fun idSize _ => ?_
  refine .read_bind fun arrayId _ => ?_
  refine Still.bind (.updateHeap fun _ => rfl) fun _ => ?_
  refine .skip_bind (by omega) fun _ => ?_
  refine .read_bind fun arrayLength hlen => ?_
  refine readValueType_bind fun type => ?_
  have hsize : arrayLength * getValueTypeSize type < 2 ^ 63 := by
    have hle := Nat.mul_le_mul_left arrayLength (getValueTypeSize_le type)
    omega
  refine (advances_readPrimitiveArray arrayId type hsize).bind ?_
  rintro _ _ rfl
  exact .pure (by omega)

/-- **Primitive arrays without data**. -/
theorem advances_parseHeapContentPrimitiveArrayNoDataDumpSubRecord :
    Advances parseHeapContentPrimitiveArrayNoDataDumpSubRecord fun size n => size = n := by
  refine getIdSize_bind fun idSize _ => ?_
  refine .read_bind fun arrayId _ => ?_
  refine Still.bind (.updateHeap fun _ => rfl) fun _ => ?_
  refine (advances_skipAll (by decide)).bind ?_
  rintro _ _ rfl
  exact .pure (by simp only [sum_cons, sum_nil]; omega)

/-- **Heap information**. -/
theorem advances_skipHeapContentInfoSubRecord :
    Advances skipHeapContentInfoSubRecord fun size n => size = n := by
  refine getIdSize_bind fun idSize hid => ?_
  refine (advances_skipAll ?_).bind ?_
  · simp only [forall_mem_cons, not_mem_nil, false_imp_iff, implies_true, and_true]
    omega
  rintro _ _ rfl
  exact .pure (by simp only [sum_cons, sum_nil]; omega)

/-- **All sub-records**: every parser moves the cursor by the number of bytes that it returns. -/
theorem advances_parseSubRecord (fuel : ℕ) (group : ExcludeMatcherGroup) (tag : ℕ) :
    Advances (parseSubRecord fuel group tag) fun size n => size = n := by
  have hroot : ∀ type (sizes : List ℕ), (∀ size ∈ sizes, size < 2 ^ 63) →
      Advances (parseRootSubRecord type fun _ => sizes) fun size n => size = n :=
    fun type sizes h => advances_parseRootSubRecord type fun _ _ => h
  unfold parseSubRecord
  split
  · exact hroot _ [] (by decide)
  · refine advances_parseRootSubRecord _ fun idSize hid size hsize => ?_
    rw [mem_singleton.mp hsize]
    omega
  · exact hroot _ [4, 4] (by decide)
  · exact advances_parseThreadRootSubRecord _ fun _ _ _ => ⟨rfl, rfl, rfl, rfl⟩
  · exact hroot _ [4] (by decide)
  · exact hroot _ [] (by decide)
  · exact hroot _ [4] (by decide)
  · exact hroot _ [] (by decide)
  · exact advances_parseThreadRootSubRecord _ fun _ _ _ => ⟨rfl, rfl, rfl, rfl⟩
  · exact hroot _ [] (by decide)
  · exact hroot _ [] (by decide)
  · exact hroot _ [] (by decide)
  · exact hroot _ [] (by decide)
  · exact hroot _ [] (by decide)
  · exact hroot _ [4, 4] (by decide)
  · exact hroot _ [] (by decide)
  · exact advances_parseHeapContentClassSubRecord fuel group
  · exact advances_parseHeapContentInstanceSubRecord
  · exact advances_parseHeapContentObjectArraySubRecord
  · exact advances_parseHeapContentPrimitiveArraySubRecord
  · exact advances_parseHeapContentPrimitiveArrayNoDataDumpSubRecord
  · exact advances_skipHeapContentInfoSubRecord
  · exact .fail

/-! ## Heap dump records -/

/-- **One round** of the loop over the sub-records. -/
theorem advances_parseHeapContentRound (fuel : ℕ) (group : ExcludeMatcherGroup)
    (recordLength bytesRead : ℕ) :
    Advances (parseHeapContentRound fuel group recordLength bytesRead) fun next n =>
      (∀ more, next = .inl more → bytesRead < recordLength ∧ more = bytesRead + n) ∧
        ∀ total, next = .inr total → recordLength ≤ total ∧ n = 0 ∧ total = bytesRead := by
  rw [parseHeapContentRound]
  split
  · rename_i hlt
    refine .read_bind fun tag _ => ?_
    refine (advances_parseSubRecord fuel group tag).bind ?_
    rintro size _ rfl
    refine .pure ⟨?_, nofun⟩
    rintro _ ⟨⟩
    exact ⟨hlt, by omega⟩
  · rename_i hle
    refine .pure ⟨(nofun), ?_⟩
    rintro _ ⟨⟩
    exact ⟨not_lt.mp hle, rfl, rfl⟩

/-- **A heap dump record**: the cursor moves by `bytes_read`. -/
theorem advances_parseHeapContent (fuel : ℕ) (group : ExcludeMatcherGroup) (recordLength : ℕ) :
    Advances (parseHeapContent fuel group recordLength) fun bytesRead n =>
      bytesRead = n ∧ recordLength ≤ bytesRead := by
  have hrun : ∀ rounds bytesRead,
      Advances (loopM (parseHeapContentRound fuel group recordLength) rounds bytesRead)
        fun total n => total = bytesRead + n ∧ recordLength ≤ total := by
    intro rounds
    induction rounds with
    | zero =>
      rintro bytesRead s a s' ⟨⟩
    | succ rounds ih =>
      intro bytesRead
      refine (advances_parseHeapContentRound fuel group recordLength bytesRead).bind ?_
      rintro (more | total) n ⟨hag, hdone⟩
      · obtain ⟨_, rfl⟩ := hag more rfl
        exact (ih _).imp fun total m h => ⟨by rw [h.1, Nat.add_assoc], h.2⟩
      · obtain ⟨hle, rfl, rfl⟩ := hdone total rfl
        exact .pure ⟨rfl, hle⟩
  exact (hrun fuel 0).imp fun total n h => ⟨h.1.trans (Nat.zero_add n), h.2⟩

/-- A number of sub-records in a row, with their bytes. -/
def parseSubRecords (fuel : ℕ) (group : ExcludeMatcherGroup) : ℕ → ParseM ℕ
  | 0 => pure 0
  | count + 1 => do
    let tag ← read 1
    let size ← parseSubRecord fuel group tag
    let rest ← parseSubRecords fuel group count
    return 1 + size + rest

theorem advances_parseSubRecords (fuel : ℕ) (group : ExcludeMatcherGroup) (count : ℕ) :
    Advances (parseSubRecords fuel group count) fun size n => size = n := by
  induction count with
  | zero => exact .pure rfl
  | succ count ih =>
    refine .read_bind fun tag _ => ?_
    refine (advances_parseSubRecord fuel group tag).bind ?_
    rintro size _ rfl
    refine ih.bind ?_
    rintro rest _ rfl
    exact .pure (by omega)

theorem loopM_of_boundary {fuel : ℕ} {group : ExcludeMatcherGroup} {recordLength count : ℕ} :
    ∀ {rounds bytesRead n total : ℕ} {s s₁ s' : ParserState},
      (parseSubRecords fuel group count s).outcome = .done n s₁ → bytesRead + n = recordLength →
      (loopM (parseHeapContentRound fuel group recordLength) rounds bytesRead s).outcome =
        .done total s' → total = recordLength ∧ s' = s₁ := by
  induction count with
  | zero =>
    rintro (_ | rounds) bytesRead n total s s₁ s' ⟨⟩ hlen h
    · cases h
    · have hround : parseHeapContentRound fuel group recordLength bytesRead = pure (.inr bytesRead) :=
        if_neg (by omega)
      rw [loopM_succ, hround] at h
      cases h
      exact ⟨hlen, rfl⟩
  | succ count ih =>
    rintro (_ | rounds) bytesRead n total s s₁ s' hrecs hlen h
    · cases h
    obtain ⟨tag, s₂, htag, hrest, _⟩ := bind_eq_done hrecs
    obtain ⟨size, s₃, hsize, hrest, _⟩ := bind_eq_done hrest
    obtain ⟨rest, s₄, hmore, hpure, _⟩ := bind_eq_done hrest
    cases hpure
    have hround : parseHeapContentRound fuel group recordLength bytesRead =
        (do let tag ← read 1
            let size ← parseSubRecord fuel group tag
            return .inl (bytesRead + 1 + size)) := if_pos (by omega)
    rw [loopM_succ, hround, bind_assoc, bind_of_done htag, bind_assoc, bind_of_done hsize] at h
    exact ih hmore (by omega) h

/-- **Byte accounting**: every sub-record parser returns the number of bytes by which it moved the
cursor; a heap dump record moves it by `bytes_read`, which is the length of the record if some number of
sub-records ends on its boundary. -/
theorem cursor_eq_add_bytesRead (fuel : ℕ) (group : ExcludeMatcherGroup) (s : ParserState)
    (hid : s.heap.idSize = 4 ∨ s.heap.idSize = 8) (hreader : s.reader.Valid) :
    (∀ tag size s', (parseSubRecord fuel group tag s).outcome = .done size s' →
      s'.reader = s.reader.onward size) ∧
    ∀ recordLength bytesRead s',
      (parseHeapContent fuel group recordLength s).outcome = .done bytesRead s' →
      s'.reader = s.reader.onward bytesRead ∧
      ∀ count size s₁, (parseSubRecords fuel group count s).outcome = .done size s₁ →
        s₁.reader.cursor = s.reader.cursor + recordLength →
        bytesRead = recordLength ∧ s'.reader = s.reader.onward recordLength := by
  have hs : s.Sane := ⟨hreader, by omega⟩
  refine ⟨fun tag size s' h => ?_, fun recordLength bytesRead s' h => ⟨?_, ?_⟩⟩
  · obtain ⟨n, rfl, honw⟩ := advances_parseSubRecord fuel group tag s size s' h hs
    exact honw.reader_eq
  · obtain ⟨n, ⟨rfl, _⟩, honw⟩ := advances_parseHeapContent fuel group recordLength s _ s' h hs
    exact honw.reader_eq
  · intro count size s₁ hrecs hboun
    obtain ⟨n, rfl, honw⟩ := advances_parseSubRecords fuel group count s size s₁ hrecs hs
    have hsize : s₁.reader.cursor = s.reader.cursor + size := by
      rw [honw.reader_eq]
      rfl
    obtain rfl : size = recordLength := by omega
    obtain ⟨rfl, rfl⟩ := loopM_of_boundary hrecs (Nat.zero_add size) h
    exact ⟨rfl, honw.reader_eq⟩

/-- A sticky class, an instance with two bytes of data, and heap information. -/
def sampleContent : List UInt8 :=
  [0x05, 0, 0, 0, 7] ++ [0x21, 0, 0, 0, 1, 0, 0, 0, 0, 0, 0, 0, 7, 0, 0, 0, 2, 65, 66] ++
    [0xfe, 0, 0, 0, 0, 0, 0, 0, 0]

def sampleState : ParserState :=
  ⟨⟨sampleContent, 0⟩, { DumpHeap.new with idSize := 4 }⟩

theorem cursor_eq_add_bytesRead_sample :
    (parseHeapContent 9 ⟨[], [], [], []⟩ 33 sampleState).outcome.result = some 33 ∧
      ∀ bytesRead s',
        (parseHeapContent 9 ⟨[], [], [], []⟩ 33 sampleState).outcome = .done bytesRead s' →
        s'.reader = sampleState.reader.onward bytesRead :=
  ⟨by decide +kernel, fun bytesRead s' h =>
    ((cursor_eq_add_bytesRead 9 ⟨[], [], [], []⟩ sampleState (.inl rfl) ⟨by decide, by decide⟩).2
      33 bytesRead s' h).1⟩

end Parser

end TraceHarbor.Hprof
