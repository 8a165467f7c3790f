import TraceHarbor.Hprof.ByteAccounting

/-!
# Slices in the Buffer

Apart from string records, the parser only reads and stores what lies in the buffer. For a string record
that is shorter than an identifier the length of the string wraps around, `Skip` then moves the cursor
backwards, and a slice that reaches far beyond the buffer is stored.
-/

namespace TraceHarbor.Hprof

open TraceHarbor.Lib List

/-- A string record is long enough for an identifier. -/
def Event.LongEnough (idSize : ℕ) : Event → Prop
  | header tag length => tag = 0x01 → idSize ≤ length
  | _ => True

theorem Event.NoHeader.longEnough {e : Event} (h : e.NoHeader) (idSize : ℕ) :
    e.LongEnough idSize := by
  cases e <;> trivial

namespace Parser

open Lib.Traced

variable {α β : Type}

/-! ## The second pass -/

theorem still_scopedRead (size : ℕ) (scope : Reader) :
    Still (scopedRead size scope) := .orFail _ _

theorem still_parseField (matchers : List FieldExcludeMatcherFlatten) (referrerId : ObjectId)
    (field : Field) (scope : Reader) :
    Still (parseField matchers referrerId field scope) := by
  rw [parseField]
  split
  · refine getIdSize_bind fun idSize _ => ?_
    refine (still_scopedRead idSize scope).bind fun ⟨referentId, scope⟩ => ?_
    refine (still_addFieldReference matchers referrerId field.nameId referentId false).bind fun _ => ?_
    exact Still.pure _
  · refine (still_scopedRead _ scope).bind fun ⟨data, scope⟩ => ?_
    refine Still.bind (.modifyHeap fun _ => ⟨rfl, rfl, rfl, rfl⟩) fun _ => ?_
    exact Still.pure _

theorem still_parseFields (matchers : List FieldExcludeMatcherFlatten) (referrerId : ObjectId)
    (fields : List Field) (scope : Reader) :
    Still (parseFields matchers referrerId fields scope) := by
  induction fields generalizing scope with
  | nil => exact Still.pure _
  | cons field fields ih =>
    refine (still_parseField matchers referrerId field scope).bind fun scope => ?_
    exact ih scope

theorem still_walkFields (fuel : ℕ) (matchers : List FieldExcludeMatcherFlatten)
    (task : HeapFieldsData) : Still (walkFields fuel matchers task) := by
  have hloop : ∀ rounds current,
      Still (loopM (parseClassOfInstance matchers task.instanceId) rounds current) := by
    intro rounds
    induction rounds with
    | zero =>
      rintro current s a s' ⟨⟩
    | succ rounds ih =>
      intro current
      refine Still.bind ?_ ?_
      · refine (Still.gets _).bind fun h => ?_
        refine (still_parseFields matchers task.instanceId _ current.2).bind fun scope => ?_
        cases h.getSuperClass current.1 with
        | some superClassId | none => exact Still.pure _
      rintro (next | _)
      · exact ih next
      · exact Still.pure _
  refine (Still.gets _).bind fun s => ?_
  refine Still.bind (.of_quiet ?_) ?_
  · rintro s _ _ ⟨⟩
    refine ⟨rfl, rfl, fun _ hslic => hslic, fun e he => ?_⟩
    rw [mem_singleton.mp he]
    trivial
  · intro _
    exact hloop fuel _

theorem still_parseInstances (fuel : ℕ) (flattened : List FieldExcludeMatcherFlatten)
    (tasks : List HeapFieldsData) :
    Still (parseInstances fuel flattened tasks) := by
  induction tasks with
  | nil => exact Still.pure _
  | cons task tasks ih =>
    refine (still_classMatchMatchers fuel task.classId flattened).bind fun matchers => ?_
    refine (still_walkFields fuel matchers task).bind fun _ => ?_
    exact ih

section Roots

variable (toBytes : List ℕ → Option Text)

theorem still_instanceOf (fuel : ℕ) (instanceId classId : ObjectId) :
    Still (instanceOf fuel instanceId classId) := by
  refine (Still.gets _).bind fun h => ?_
  cases h.instanceClasses[instanceId]? with
  | none => exact Still.pure _
  | some instanceClassId =>
    exact still_childClassOf fuel instanceClassId classId

theorem still_instanceOfNamed (fuel : ℕ) (instanceId : ObjectId) (className : Text) :
    Still (instanceOfNamed fuel instanceId className) := by
  refine (still_findClassByName className).bind ?_
  rintro (_ | classId)
  · exact Still.pure _
  · exact still_instanceOf fuel instanceId classId

theorem still_getFieldReference (referrerId : ObjectId) (referenceName : Text) :
    Still (getFieldReference referrerId referenceName) := by
  refine (still_findStringId referenceName).bind ?_
  rintro (_ | referenceNameId)
  · exact Still.pure _
  · refine (Still.gets _).bind fun h => ?_
    exact Still.pure _

theorem still_getFieldInt (referrerId : ObjectId) (referenceName : Text) :
    Still (getFieldInt referrerId referenceName) := by
  refine (still_findStringId referenceName).bind ?_
  rintro (_ | referenceNameId)
  · exact Still.pure _
  · refine (Still.gets _).bind fun h => ?_
    cases h.primitives[referrerId]?.bind (·[referenceNameId]?) with
    | none | some data => exact Still.pure _

theorem still_convertUtf16String (start size : ℕ) :
    Still (convertUtf16String toBytes start size) := by
  refine .of_quiet fun s a s' h => ?_
  rw [convertUtf16String] at h ⊢
  cases htext : (codeUnits s.reader.buffer start (size / 2)).bind toBytes with
  | none =>
    rw [htext] at h
    cases h
  | some text =>
    rw [htext] at h
    cases h
    refine ⟨rfl, rfl, fun _ hslic => hslic, fun e he => ?_⟩
    rw [mem_singleton.mp he]
    trivial

theorem still_getStringContent (instanceId : ObjectId) (array : HeapPrimitiveArrayData) :
    Still (getStringContent toBytes instanceId array) := by
  rw [getStringContent]
  split
  · refine (still_getFieldInt instanceId _).bind fun offset => ?_
    refine (still_getFieldInt instanceId _).bind fun count => ?_
    exact still_convertUtf16String toBytes _ _
  · split
    · refine (Still.gets _).bind fun buffer => ?_
      exact Still.pure _
    · exact .fail

theorem still_getStringValue (instanceId : ObjectId) :
    Still (getStringValue toBytes instanceId) := by
  refine (still_getFieldReference instanceId _).bind ?_
  rintro (_ | arrayId)
  · exact Still.pure _
  · refine (Still.gets _).bind fun h => ?_
    cases h.primitiveArrays[arrayId]? with
    | none => exact Still.pure _
    | some array =>
      refine (still_getStringContent toBytes instanceId array).bind fun text => ?_
      exact Still.pure _

theorem still_getThreadName (fuel : ℕ) (threadObjectId : ObjectId) :
    Still (getThreadName toBytes fuel threadObjectId) := by
  refine (still_instanceOfNamed fuel threadObjectId _).bind fun hit => ?_
  cases hit with
  | false => exact Still.pure _
  | true =>
    refine (still_getFieldReference threadObjectId _).bind ?_
    rintro (_ | nameStringId)
    · exact Still.pure _
    · refine (still_instanceOfNamed fuel nameStringId _).bind fun hit => ?_
      cases hit with
      | false => exact Still.pure _
      | true => exact still_getStringValue toBytes nameStringId

theorem excludeReferences_keeps (h : DumpHeap) (referrerId : ObjectId) :
    (h.excludeReferences referrerId).idSize = h.idSize ∧
      (h.excludeReferences referrerId).stringSlices = h.stringSlices ∧
      (h.excludeReferences referrerId).fieldsData = h.fieldsData ∧
      (h.excludeReferences referrerId).primitiveArrays = h.primitiveArrays := by
  rw [DumpHeap.excludeReferences]
  cases h.references[referrerId]? with
  | none => exact ⟨rfl, rfl, rfl, rfl⟩
  | some references =>
    refine ⟨?_, rfl, rfl, rfl⟩
    exact foldlRecOn (motive := fun heap : Heap => heap.idSize = h.idSize) _ _ rfl fun _ hid _ _ => hid

theorem still_excludeRoot (fuel : ℕ) (threads : List ThreadExcludeMatcher)
    (classIds : List ObjectId) (gcRoot : ObjectId) :
    Still (excludeRoot toBytes fuel threads classIds gcRoot) := by
  refine (Still.gets _).bind fun h => ?_
  refine (Still.orFail _ _).bind fun type => ?_
  split
  · refine (Still.gets _).bind fun h => ?_
    refine (Still.orFail _ _).bind fun number => ?_
    refine (Still.orFail _ _).bind fun threadObjectId => ?_
    refine (still_getThreadName toBytes fuel threadObjectId).bind ?_
    rintro (_ | threadName)
    · exact Still.pure _
    · simp only
      split
      · exact Still.modifyHeap fun h => excludeReferences_keeps h gcRoot
      · exact Still.pure _
  · split
    · have hglob : Still (excludeJniGlobal fuel gcRoot classIds) := by
        induction classIds with
        | nil => exact Still.pure _
        | cons classId classIds ih =>
          refine Still.bind ?_ ?_
          · rw [hitsRoot]
            split
            · exact Still.pure _
            · exact still_instanceOf fuel gcRoot classId
          intro hit
          refine Still.bind (.modifyHeap fun h => ?_) ?_
          · cases hit with
            | true => exact excludeReferences_keeps h gcRoot
            | false => exact ⟨rfl, rfl, rfl, rfl⟩
          intro _
          exact ih
      exact hglob
    · exact Still.pure _

/-- **The second pass** reads nothing from the reader and stores no slice. -/
theorem still_lazyParse (fuel : ℕ) (group : ExcludeMatcherGroup) :
    Still (lazyParse toBytes fuel group) := by
  have hglob : ∀ matchers,
      Still (flattenNativeGlobalExcludeMatchers matchers) := by
    intro matchers
    induction matchers with
    | nil => exact Still.pure _
    | cons matcher matchers ih =>
      refine Still.bind ?_ ?_
      · rw [findMatcherClass]
        split
        · exact Still.pure _
        · exact still_findClassByName _
      intro classId
      refine Still.bind ih ?_
      intro rest
      exact Still.pure _
  have hroots : ∀ classIds gcRoots,
      Still (excludeRoots toBytes fuel group.threads classIds gcRoots) := by
    intro classIds gcRoots
    induction gcRoots with
    | nil => exact Still.pure _
    | cons gcRoot gcRoots ih =>
      refine (still_excludeRoot toBytes fuel group.threads classIds gcRoot).bind fun _ => ?_
      exact ih
  refine (still_flattenFieldExcludeMatchers group.instanceFields).bind fun flattened => ?_
  refine (Still.gets _).bind fun tasks => ?_
  refine (still_parseInstances fuel flattened tasks).bind fun _ => ?_
  refine (hglob group.nativeGlobals).bind fun classIds => ?_
  refine (Still.gets _).bind fun gcRoots => ?_
  exact hroots classIds gcRoots

end Roots

/-! ## Records -/

/-- What a step on whole records keeps. It is safe exactly if every string record that it read is
long enough. -/
structure Whole (s : ParserState) (trace : List Event) (s' : ParserState) : Prop where
  sane : s'.Sane
  buffer_eq : s'.reader.buffer = s.reader.buffer
  idSize_eq : s'.heap.idSize = s.heap.idSize
  safe : (∀ e ∈ trace, e.LongEnough s.heap.idSize) →
    (∀ e ∈ trace, e.Safe s.reader.buffer.length) ∧
      (s.heap.SlicesInside s.reader.buffer.length → s'.heap.SlicesInside s.reader.buffer.length)
  longEnough : (∀ e ∈ trace, e.Safe s.reader.buffer.length) →
    ∀ e ∈ trace, e.LongEnough s.heap.idSize

variable {s s' : ParserState}

theorem Whole.trans {s₁ : ParserState} {t t' : List Event} (h : Whole s t s₁)
    (h' : Whole s₁ t' s') : Whole s (t ++ t') s' := by
  have hsafe := h'.safe
  have hlong := h'.longEnough
  rw [h.buffer_eq, h.idSize_eq] at hsafe hlong
  refine ⟨h'.sane, h'.buffer_eq.trans h.buffer_eq, h'.idSize_eq.trans h.idSize_eq, ?_, ?_⟩
  · intro hall
    rw [forall_mem_append] at hall
    obtain ⟨hs, hslic⟩ := h.safe hall.1
    obtain ⟨hs', hslic'⟩ := hsafe hall.2
    exact ⟨forall_mem_append.mpr ⟨hs, hs'⟩, fun hins => hslic' (hslic hins)⟩
  · intro hall
    rw [forall_mem_append] at hall
    exact forall_mem_append.mpr ⟨h.longEnough hall.1, hlong hall.2⟩

theorem whole_of_onward {n : ℕ} {trace : List Event} (h : Onward n s trace s') (hs : s.Sane) :
    Whole s trace s' :=
  ⟨h.sane hs, by rw [h.reader_eq]; rfl, h.idSize_eq, fun _ => ⟨h.safe, h.slices⟩,
    fun _ e he => (h.noHeader e he).longEnough _⟩

variable {u : Unit}

/-- What `Skip` does, wrapping around included. -/
theorem skip_ends {size : ℕ} (h : Ends (skip size) s u s') :
    (s.reader.cursor + size) % 2 ^ 64 ≤ s.reader.buffer.length ∧
      s' = { s with reader := { s.reader with cursor := (s.reader.cursor + size) % 2 ^ 64 } } ∧
      (skip size s).trace = [.call s.reader.cursor size ((s.reader.cursor + size) % 2 ^ 64)] := by
  rw [Ends, skip, onReader, Reader.skipSize] at h
  rw [skip, onReader, Reader.skipSize]
  by_cases hlt : (s.reader.cursor + size) % 2 ^ 64 > s.reader.buffer.length
  · rw [if_pos hlt] at h
    cases h
  · rw [if_neg hlt] at h ⊢
    cases h
    exact ⟨not_lt.mp hlt, rfl, rfl⟩

variable {recordLength idSize : ℕ}

theorem stringLength_of_le (hlen : recordLength < 2 ^ 32) (hle : idSize ≤ recordLength) :
    stringLength recordLength idSize = recordLength - idSize := by
  rw [stringLength]
  omega

theorem stringLength_of_lt (hid : idSize < 2 ^ 32) (hlt : recordLength < idSize) :
    stringLength recordLength idSize = 2 ^ 64 - (idSize - recordLength) := by
  rw [stringLength]
  omega

variable {length : ℕ}

/-- An identifier is read, a slice is skipped and stored. The length of the slice is a variable here, since
the unifier is not to compute with it. -/
theorem storeString_ends
    (h : Ends (do
      let stringId ← read idSize
      let slice ← extract length
      let buffer ← gets fun s => s.reader.buffer
      modifyHeap (DumpHeap.addString · buffer stringId slice)) s u s') :
    ∃ stringId s₁ s₂, Ends (read idSize) s stringId s₁ ∧ Ends (skip length) s₁ () s₂ ∧
      s'.reader = s₂.reader ∧
      s'.heap = s₂.heap.addString s₂.reader.buffer stringId ⟨s₁.reader.cursor, length⟩ ∧
      ((do
        let stringId ← read idSize
        let slice ← extract length
        let buffer ← gets fun s => s.reader.buffer
        modifyHeap (DumpHeap.addString · buffer stringId slice) : ParseM Unit) s).trace =
        (read idSize s).trace ++ (skip length s₁).trace := by
  obtain ⟨stringId, s₁, hread, h₁, htrace₁⟩ := h.bind
  obtain ⟨slice, s₂, hslice, h₂, htrace₂⟩ := h₁.bind
  obtain ⟨buffer, s₃, hbuf, hstore, htrace₃⟩ := h₂.bind
  obtain ⟨rfl, hskip, hextr⟩ := extract_eq_done hslice
  cases hbuf
  cases hstore
  refine ⟨stringId, s₁, s₂, hread, hskip, rfl, rfl, ?_⟩
  rw [htrace₁, htrace₂, htrace₃, hextr]
  simp [Traced.gets, Parser.modifyHeap, Traced.modify]

theorem parseStringRecord_ends (h : Ends (parseStringRecord recordLength) s u s') :
    ∃ stringId s₁ s₂, Ends (read s.heap.idSize) s stringId s₁ ∧
      Ends (skip (stringLength recordLength s.heap.idSize)) s₁ () s₂ ∧
      s'.reader = s₂.reader ∧
      s'.heap = s₂.heap.addString s₂.reader.buffer stringId
        ⟨s₁.reader.cursor, stringLength recordLength s.heap.idSize⟩ ∧
      (parseStringRecord recordLength s).trace = (read s.heap.idSize s).trace ++
        (skip (stringLength recordLength s.heap.idSize) s₁).trace := by
  rw [parseStringRecord] at h ⊢
  obtain ⟨idSize, s₀, hidSize, h₀, htrace₀⟩ := h.bind
  obtain ⟨rfl, rfl, hsil⟩ := getIdSize_eq_done hidSize
  rw [htrace₀, hsil]
  exact storeString_ends h₀

theorem slicesInside_addString {h : DumpHeap} {size : ℕ} (hslic : h.SlicesInside size)
    (buffer : List UInt8) (stringId : StringId) {slice : Slice} (hslice : slice.Inside size) :
    (h.addString buffer stringId slice).SlicesInside size := by
  refine ⟨fun id other hoth => ?_, hslic.fields, hslic.arrays⟩
  rw [DumpHeap.addString, OrdMap.get_insert] at hoth
  split at hoth
  · rw [← Option.some.inj hoth]
    exact hslice
  · exact hslic.strings id other hoth

/-- **A string record that is long enough** is like any other record. -/
theorem onward_parseStringRecord (hlen : recordLength < 2 ^ 32) (hs : s.Sane)
    (hle : s.heap.idSize ≤ recordLength) (h : Ends (parseStringRecord recordLength) s u s') :
    Onward recordLength s (parseStringRecord recordLength s).trace s' := by
  obtain ⟨stringId, s₁, s₂, hread, hskip, hreader, hheap, htrace⟩ := parseStringRecord_ends h
  rw [stringLength_of_le hlen hle] at hskip hheap htrace
  obtain ⟨n, ⟨rfl, _⟩, honw⟩ := Advances.read s.heap.idSize s stringId s₁ hread hs
  obtain ⟨m, rfl, honw'⟩ := Advances.skip (by omega) s₁ () s₂ hskip (honw.sane hs)
  have hboth := honw.trans honw'
  rw [Nat.add_sub_cancel' hle] at hboth
  have hbuf : s₁.reader.buffer = s.reader.buffer := by
    rw [honw.reader_eq]
    rfl
  rw [htrace]
  refine ⟨hreader.trans hboth.reader_eq, hboth.inside, ?_, hboth.safe, hboth.noHeader,
    fun hslic => ?_⟩
  · rw [hheap]
    exact hboth.idSize_eq
  · rw [hheap]
    refine slicesInside_addString (hboth.slices hslic) _ _ ?_
    rw [← hbuf]
    exact honw'.inside

theorem skip_unsafe (h : Ends (skip length) s u s') (hlong : s.reader.buffer.length < length) :
    s'.heap = s.heap ∧ s'.reader.buffer = s.reader.buffer ∧
      s'.reader.cursor ≤ s.reader.buffer.length ∧
      ∃ e ∈ (skip length s).trace, ¬ e.Safe s.reader.buffer.length := by
  obtain ⟨hle, rfl, htrace⟩ := skip_ends h
  refine ⟨rfl, rfl, hle, _, htrace ▸ mem_singleton_self _, ?_⟩
  rintro ⟨hins, _⟩
  omega

/-- **A string record that is shorter than an identifier**: the cursor moves backwards, and the slice is
longer than the buffer. -/
theorem parseStringRecord_short (hs : s.Sane) (hlt : recordLength < s.heap.idSize)
    (h : Ends (parseStringRecord recordLength) s u s') :
    s'.Sane ∧ s'.reader.buffer = s.reader.buffer ∧ s'.heap.idSize = s.heap.idSize ∧
      ∃ e ∈ (parseStringRecord recordLength s).trace, ¬ e.Safe s.reader.buffer.length := by
  obtain ⟨stringId, s₁, s₂, hread, hskip, hreader, hheap, htrace⟩ := parseStringRecord_ends h
  obtain ⟨n, ⟨rfl, _⟩, honw⟩ := Advances.read s.heap.idSize s stringId s₁ hread hs
  have hbuf : s₁.reader.buffer = s.reader.buffer := by
    rw [honw.reader_eq]
    rfl
  have hlong : s₁.reader.buffer.length < stringLength recordLength s.heap.idSize := by
    rw [stringLength_of_lt hs.idSize_lt hlt, hbuf]
    have hid := hs.idSize_lt
    have hbd := hs.reader.length_lt
    omega
  rw [htrace]
  generalize stringLength recordLength s.heap.idSize = length at hskip hheap hlong
  obtain ⟨hsame, hbuf₂, hcurs, e, he, huns⟩ := skip_unsafe hskip hlong
  rw [hbuf] at hbuf₂ hcurs huns
  have hid : s'.heap.idSize = s.heap.idSize := by
    rw [hheap, hsame]
    exact honw.idSize_eq
  refine ⟨⟨⟨?_, ?_⟩, ?_⟩, ?_, hid, e, mem_append_right _ he, huns⟩
  · rw [hreader, hbuf₂]
    exact hcurs
  · rw [hreader, hbuf₂]
    exact hs.reader.length_lt
  · rw [hid]
    exact hs.idSize_lt
  · rw [hreader, hbuf₂]

theorem Advances.whole {x : ParseM α} {P : α → ℕ → Prop} (hx : Advances x P) {a : α} (hs : s.Sane)
    (h : Ends x s a s') : Whole s (x s).trace s' := by
  obtain ⟨n, _, honw⟩ := hx s a s' h hs
  exact whole_of_onward honw hs

theorem advances_parseRecord (fuel : ℕ) (group : ExcludeMatcherGroup) {tag : ℕ} (htag : tag ≠ 0x01)
    (hlen : length < 2 ^ 32) : Advances (parseRecord fuel group tag length) fun _ _ => True := by
  unfold parseRecord
  split
  · exact absurd rfl htag
  · refine Advances.bind (P := fun _ _ => True) ?_ fun _ _ _ => .pure trivial
    refine getIdSize_bind fun idSize _ => ?_
    refine .skip_bind (by omega) fun _ => ?_
    refine .read_bind fun classId _ => ?_
    refine .skip_bind (by omega) fun _ => ?_
    refine .read_bind fun classNameId _ => ?_
    exact Advances.imp (Still.updateHeap fun _ => rfl) fun _ _ _ => trivial
  · exact (advances_parseHeapContent fuel group length).bind fun _ _ _ => .pure trivial
  · exact (advances_parseHeapContent fuel group length).bind fun _ _ _ => .pure trivial
  · exact .pure trivial
  · exact .skip_bind (by omega) fun _ => .pure trivial

theorem Whole.cons {trace : List Event} (h : Whole s trace s') {e : Event}
    (hsafe : e.Safe s.reader.buffer.length) (hlong : e.LongEnough s.heap.idSize) :
    Whole s (e :: trace) s' := by
  refine ⟨h.sane, h.buffer_eq, h.idSize_eq, fun hall => ?_, fun hall => ?_⟩
  · obtain ⟨hs, hslic⟩ := h.safe (forall_mem_cons.mp hall).2
    exact ⟨forall_mem_cons.mpr ⟨hsafe, hs⟩, hslic⟩
  · exact forall_mem_cons.mpr ⟨hlong, h.longEnough (forall_mem_cons.mp hall).2⟩

theorem parseRecord_string (fuel : ℕ) (group : ExcludeMatcherGroup) (length : ℕ) :
    parseRecord fuel group 0x01 length = (do
      parseStringRecord length
      return .inl ()) := by
  rw [parseRecord]

/-- **One record**, from its header on. -/
theorem whole_record {fuel tag : ℕ} {group : ExcludeMatcherGroup} (hlen : length < 2 ^ 32)
    {next : Unit ⊕ Unit} (hs : s.Sane) (h : Ends (parseRecord fuel group tag length) s next s') :
    Whole s (Event.header tag length :: (parseRecord fuel group tag length s).trace) s' := by
  by_cases htag : tag = 0x01
  · subst htag
    rw [parseRecord_string] at h ⊢
    obtain ⟨_, s₁, hrec, hdone, htrace⟩ := h.bind
    cases hdone
    rw [htrace, pure_apply, append_nil]
    by_cases hle : s.heap.idSize ≤ length
    · exact (whole_of_onward (onward_parseStringRecord hlen hs hle hrec) hs).cons trivial
        fun _ => hle
    · obtain ⟨hsane, hbuf, hid, e, he, huns⟩ :=
        parseStringRecord_short hs (not_le.mp hle) hrec
      refine ⟨hsane, hbuf, hid, fun hall => ?_, fun hall => ?_⟩
      · exact absurd ((forall_mem_cons.mp hall).1 rfl) hle
      · exact absurd ((forall_mem_cons.mp hall).2 e he) huns
  · exact ((advances_parseRecord fuel group htag hlen).whole hs h).cons trivial
      fun heq => absurd heq htag

/-- **One round of the record loop**. -/
theorem whole_round {fuel : ℕ} {group : ExcludeMatcherGroup} {next : Unit ⊕ Unit} (hs : s.Sane)
    (h : Ends (parseRecordRound fuel group u) s next s') :
    Whole s (parseRecordRound fuel group u s).trace s' := by
  rw [parseRecordRound] at h ⊢
  obtain ⟨tag, s₁, htag, h₁, htrace₁⟩ := h.bind
  obtain ⟨_, s₂, hskip, h₂, htrace₂⟩ := h₁.bind
  obtain ⟨length, s₃, hread, h₃, htrace₃⟩ := h₂.bind
  obtain ⟨_, s₄, hemit, hrec, htrace₄⟩ := h₃.bind
  cases hemit
  rw [htrace₁, htrace₂, htrace₃]
  have hw₁ := (Advances.read 1).whole hs htag
  have hw₂ := (Advances.skip (by omega)).whole hw₁.sane hskip
  have hs₂ := hw₂.sane
  obtain ⟨n, ⟨rfl, hlen⟩, honw⟩ := Advances.read 4 s₂ length s₃ hread hs₂
  have hw₃ := whole_of_onward honw hs₂
  have hw₄ := whole_record (by omega) hw₃.sane hrec
  exact hw₁.trans (hw₂.trans (hw₃.trans hw₄))

/-- **The record loop**. -/
theorem whole_records (fuel : ℕ) (group : ExcludeMatcherGroup) (rounds : ℕ) :
    ∀ {u r : Unit} {s s' : ParserState}, s.Sane →
      Ends (loopM (parseRecordRound fuel group) rounds u) s r s' →
      Whole s (loopM (parseRecordRound fuel group) rounds u s).trace s' := by
  induction rounds with
  | zero => exact nofun
  | succ rounds ih =>
    intro u r s s' hs h
    rw [loopM_succ] at h ⊢
    obtain ⟨next, s₁, hround, hrest, htrace⟩ := h.bind
    rw [htrace]
    have hw := whole_round hs hround
    cases next with
    | inl u' => exact hw.trans (ih hw.sane hrest)
    | inr r' =>
      cases hrest
      exact hw.trans ((Still.pure ()).whole hw.sane rfl)

/-! ## Whole dumps -/

theorem advances_readNullTerminatedString (fuel : ℕ) :
    Advances (readNullTerminatedString fuel) fun _ _ => True := by
  have hloop : ∀ rounds text, Advances (loopM readCharacter rounds text) fun _ _ => True := by
    intro rounds
    induction rounds with
    | zero =>
      rintro text s a s' ⟨⟩
    | succ rounds ih =>
      intro text
      refine Advances.bind (P := fun _ _ => True) ?_ ?_
      · refine .read_bind fun current _ => ?_
        split
        · exact .pure trivial
        · exact .pure trivial
      · rintro (text' | text') _ _
        · exact ih text'
        · exact .pure trivial
  exact hloop fuel []

theorem initializeIdSize_ends (h : Ends (initializeIdSize idSize) s u s') :
    s' = { s with heap := s.heap.updateHeap fun h => { h with idSize } } ∧
      (initializeIdSize idSize s).trace = [] := by
  rw [initializeIdSize] at h ⊢
  obtain ⟨heap, s₁, hheap, h₁, htrace⟩ := h.bind
  cases hheap
  rw [htrace]
  by_cases hzero : idSize = 0
  · rw [if_pos hzero] at h₁
    cases h₁
  · rw [if_neg hzero] at h₁ ⊢
    by_cases hset : s.heap.idSize ≠ 0
    · rw [if_pos hset] at h₁
      cases h₁
    · rw [if_neg hset] at h₁ ⊢
      cases h₁
      exact ⟨rfl, rfl⟩

/-- **The header**: it sets the identifier size, and reads no record. -/
theorem parseHeader_ends {fuel : ℕ} {buffer : List UInt8} (hbuf : buffer.length < 2 ^ 63)
    (h : Ends (parseHeader fuel) (start buffer) u s') :
    s'.Sane ∧ s'.reader.buffer = buffer ∧ s'.heap.SlicesInside buffer.length ∧
      (∀ e ∈ (parseHeader fuel (start buffer)).trace, e.Safe buffer.length) ∧
      ∀ e ∈ (parseHeader fuel (start buffer)).trace, e.NoHeader := by
  have hs : (start buffer).Sane := ⟨⟨Nat.zero_le _, hbuf⟩, show 0 < 2 ^ 32 by decide⟩
  have hslic : (start buffer).heap.SlicesInside buffer.length := by
    refine ⟨fun id slice h => ?_, fun id data h => ?_, fun id data h => ?_⟩ <;>
      simp [start, DumpHeap.new] at h
  rw [parseHeader] at h ⊢
  obtain ⟨version, s₁, hvers, h₁, htrace₁⟩ := h.bind
  rw [htrace₁]
  obtain ⟨n₁, _, honw₁⟩ := advances_readNullTerminatedString fuel _ version s₁ hvers hs
  by_cases hmem : version ∈ versions
  · rw [if_pos hmem] at h₁ ⊢
    obtain ⟨idSize, s₂, hread, h₂, htrace₂⟩ := h₁.bind
    obtain ⟨n₂, ⟨rfl, hid⟩, honw₂⟩ := Advances.read 4 s₁ idSize s₂ hread (honw₁.sane hs)
    obtain ⟨_, s₃, hinit, hskip, htrace₃⟩ := h₂.bind
    have hboth := honw₁.trans honw₂
    have hs₂ := hboth.sane hs
    obtain ⟨rfl, hsil⟩ := initializeIdSize_ends hinit
    -- only the identifier size is new, so that the rest of the header starts from a sane state again
    have hs₃ : ParserState.Sane { s₂ with heap := s₂.heap.updateHeap fun h => { h with idSize } } :=
      ⟨hs₂.reader, show idSize < 2 ^ 32 from hid⟩
    obtain ⟨n₃, rfl, honw₃⟩ := Advances.skip (by omega) _ _ s' hskip hs₃
    have hbuf₂ : s₂.reader.buffer = buffer := by
      rw [hboth.reader_eq]
      rfl
    have hsafe₃ := honw₃.safe
    have hslic₃ := honw₃.slices
    rw [hbuf₂] at hsafe₃ hslic₃
    rw [htrace₂, htrace₃, hsil, ← append_assoc]
    refine ⟨honw₃.sane hs₃, ?_, ?_, ?_, ?_⟩
    · rw [honw₃.reader_eq]
      exact hbuf₂
    · have hins := hboth.slices hslic
      exact hslic₃ ⟨hins.strings, hins.fields, hins.arrays⟩
    · exact forall_mem_append.mpr ⟨hboth.safe, hsafe₃⟩
    · exact forall_mem_append.mpr ⟨hboth.noHeader, honw₃.noHeader⟩
  · rw [if_neg hmem] at h₁
    cases h₁

section Dump

variable (toBytes : List ℕ → Option Text)

/-- **Slice safety**: in a dump that is parsed to its end, every slice of the heap lies in the buffer and
no call of the reader leaves the buffer or moves the cursor backwards, if and only if every string record
is long enough for an identifier. -/
theorem slices_safe_iff (fuel : ℕ) (group : ExcludeMatcherGroup) (buffer : List UInt8)
    (hbuffer : buffer.length < 2 ^ 63) (s' : ParserState)
    (h : (parse toBytes fuel group (start buffer)).outcome = .done () s') :
    ((∀ e ∈ (parse toBytes fuel group (start buffer)).trace, e.Safe buffer.length) ∧
        s'.heap.SlicesInside buffer.length) ↔
      ∀ e ∈ (parse toBytes fuel group (start buffer)).trace, e.LongEnough s'.heap.idSize := by
  have h : Ends (parse toBytes fuel group) (start buffer) () s' := h
  rw [parse] at h ⊢
  obtain ⟨_, s₁, hhdr, h₁, htrace₁⟩ := h.bind
  obtain ⟨_, s₂, hrecs, hlazy, htrace₂⟩ := h₁.bind
  obtain ⟨hs₁, hbuf₁, hslic₁, hsafe₁, hnoHeader₁⟩ := parseHeader_ends hbuffer hhdr
  have hw₂ := whole_records fuel group fuel hs₁ hrecs
  have hw := hw₂.trans ((still_lazyParse toBytes fuel group).whole hw₂.sane hlazy)
  have hid := hw.idSize_eq
  have hsafe := hw.safe
  have hlong := hw.longEnough
  rw [hbuf₁] at hsafe hlong
  rw [htrace₁, htrace₂, hid]
  constructor
  · rintro ⟨hall, _⟩
    refine forall_mem_append.mpr ⟨fun e he => (hnoHeader₁ e he).longEnough _, ?_⟩
    exact hlong (forall_mem_append.mp hall).2
  · intro hall
    obtain ⟨hsafe₂, hslic₂⟩ := hsafe (forall_mem_append.mp hall).2
    exact ⟨forall_mem_append.mpr ⟨hsafe₁, hsafe₂⟩, hslic₂ hslic₁⟩

end Dump

/-- The header of a dump with identifiers of four bytes. -/
def sampleHeader : List UInt8 :=
  asciiBytes "JAVA PROFILE 1.0" ++ [0] ++ [0, 0, 0, 4] ++ [0, 0, 0, 0, 0, 0, 0, 0]

/-- A dump with the string `A`, which has the identifier 7. -/
def sampleDump : List UInt8 :=
  sampleHeader ++ [0x01, 0, 0, 0, 0, 0, 0, 0, 5, 0, 0, 0, 7, 65] ++ [0x2c, 0, 0, 0, 0, 0, 0, 0, 0]

theorem slices_safe_iff_sample :
    sampleDump.length < 2 ^ 63 ∧
      (parse (fun _ => none) 30 ⟨[], [], [], []⟩ (start sampleDump)).outcome.result = some () ∧
      ∀ s', (parse (fun _ => none) 30 ⟨[], [], [], []⟩ (start sampleDump)).outcome = .done () s' →
        (((∀ e ∈ (parse (fun _ => none) 30 ⟨[], [], [], []⟩ (start sampleDump)).trace,
            e.Safe sampleDump.length) ∧ s'.heap.SlicesInside sampleDump.length) ↔
          ∀ e ∈ (parse (fun _ => none) 30 ⟨[], [], [], []⟩ (start sampleDump)).trace,
            e.LongEnough s'.heap.idSize) :=
  ⟨by decide +kernel, by decide +kernel, fun s' h =>
    slices_safe_iff (fun _ => none) 30 ⟨[], [], [], []⟩ sampleDump (by decide +kernel) s' h⟩

/-- A dump with a string record of length 0. The four bytes of its identifier are read twice: the record
loop takes them for the next header. -/
def shortStringDump : List UInt8 :=
  sampleHeader ++ [0x01, 0, 0, 0, 0, 0, 0, 0, 0] ++ [0x2c, 0, 0, 0, 0, 0, 0, 0, 0]

/-- The dump is parsed to its end, the cursor goes back by four bytes, and a slice of almost `2 ^ 64` bytes
is stored. -/
theorem shortString_unsafe :
    (parse (fun _ => none) 30 ⟨[], [], [], []⟩ (start shortStringDump)).outcome.result = some () ∧
      ((parse (fun _ => none) 30 ⟨[], [], [], []⟩ (start shortStringDump)).outcome.state.bind
        fun s => s.heap.stringSlices[0x2c000000]?) = some ⟨42, 2 ^ 64 - 4⟩ ∧
      ¬ (⟨42, 2 ^ 64 - 4⟩ : Slice).Inside shortStringDump.length := by
  decide +kernel

end Parser

end TraceHarbor.Hprof
