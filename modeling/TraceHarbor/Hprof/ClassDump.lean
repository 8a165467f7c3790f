import TraceHarbor.Hprof.Engine
import TraceHarbor.Hprof.HeapLookup

/-!
# The Content of a Class Dump

Reading a class dump and updating the heap are interleaved in the parser. `decodeClassDump` reads the
content of a sub-record, `ClassDump.apply` does what the parser does with it, and the parser is the one
after the other. With `LocalRead`, parsing a sequence of sub-records is applying their contents one by
one.
-/

namespace TraceHarbor.Hprof

open TraceHarbor.Lib List

/-- What the parser uses of a class dump. A static field is its name and, for an object field, the
object it refers to. -/
structure ClassDump where
  classId : ObjectId
  superClassId : ObjectId
  staticFields : List (StringId × Option ObjectId)
  instanceFields : List Field
  deriving Repr, DecidableEq

/-- The static fields of a dump, and the bytes they take. -/
def decodeStaticFields (idSize : ℕ) : ℕ → ReadM (List (StringId × Option ObjectId) × ℕ)
  | 0 => pure ([], 0)
  | length + 1 => do
    let fieldNameId ← Reader.read idSize
    let type ← readValueType
    if type = .kObject then
      let referentId ← Reader.read idSize
      let (fields, size) ← decodeStaticFields idSize length
      return ((fieldNameId, some referentId) :: fields, idSize + 1 + idSize + size)
    else
      Reader.skip (getValueTypeSize type)
      let (fields, size) ← decodeStaticFields idSize length
      return ((fieldNameId, none) :: fields, idSize + 1 + getValueTypeSize type + size)

/-- The instance fields of a dump, and the bytes they take. -/
def decodeInstanceFields (idSize : ℕ) : ℕ → ReadM (List Field × ℕ)
  | 0 => pure ([], 0)
  | length + 1 => do
    let fieldNameId ← Reader.read idSize
    let type ← readValueType
    let (fields, size) ← decodeInstanceFields idSize length
    return (⟨fieldNameId, type⟩ :: fields, idSize + 1 + size)

/-- The content of a class dump and its number of bytes. -/
def decodeClassDump (idSize : ℕ) : ReadM (ClassDump × ℕ) := do
  let classId ← Reader.read idSize
  Reader.skipU4
  let superClassId ← Reader.read idSize
  Reader.skip idSize
  Reader.skip idSize
  Reader.skip idSize
  Reader.skip idSize
  Reader.skip idSize
  Reader.skipU4
  let constantPoolLength ← Reader.readU2
  let constantPoolSize ← skipConstantPool idSize constantPoolLength
  let staticFieldsLength ← Reader.readU2
  let (staticFields, staticSize) ← decodeStaticFields idSize staticFieldsLength
  let nonStaticFieldsLength ← Reader.readU2
  let (instanceFields, nonStaticSize) ← decodeInstanceFields idSize nonStaticFieldsLength
  let contentSize := 2 + constantPoolSize + (2 + staticSize) + (2 + nonStaticSize)
  return (⟨classId, superClassId, staticFields, instanceFields⟩,
    idSize + 4 + idSize * 6 + 4 + contentSize)

namespace ClassDump

def fieldExcluded (matchers : List FieldExcludeMatcherFlatten) (fieldNameId : StringId) : Bool :=
  matchers.any fun matcher => matcher.fieldNameId = 0 ∨ matcher.fieldNameId = fieldNameId

/-- The static references of a class under the matchers that hit the class. -/
def statics (matchers : List FieldExcludeMatcherFlatten) (classId : ObjectId)
    (fields : List (StringId × Option ObjectId)) : List StaticReference :=
  fields.filterMap fun (fieldNameId, referent) => referent.map fun referentId =>
    ⟨classId, fieldNameId, referentId, fieldExcluded matchers fieldNameId⟩

/-- The heap with the class and its superclass recorded. -/
def record (d : ClassDump) (h : Heap) : Heap :=
  (h.addInstanceTypeRecord d.classId .kClass).addInheritanceRecord d.classId d.superClassId

/-- What the parser does with the content of a dump. -/
def apply (fuel : ℕ) (staticFields : List FieldExcludeMatcher) (d : ClassDump) (h : Heap) :
    Option (Heap × List StaticReference) :=
  let (flattened, h) := flattenFieldExcludeMatchers staticFields (d.record h)
  (classMatchMatchers fuel h d.classId flattened).map fun matchers =>
    let references := statics matchers d.classId d.staticFields
    let h := references.foldl StaticReference.addTo h
    (d.instanceFields.foldl (fun h field => h.addInstanceFieldRecord d.classId field) h,
      references)

/-- The contents of several dumps, one after the other. -/
def applyAll (fuel : ℕ) (staticFields : List FieldExcludeMatcher) :
    List ClassDump → Heap → Option (Heap × List StaticReference)
  | [], h => some (h, [])
  | d :: dumps, h => do
    let (h, references) ← d.apply fuel staticFields h
    let (h, more) ← applyAll fuel staticFields dumps h
    return (h, references ++ more)

end ClassDump

/-! ## Taking the Parser Apart -/

theorem parseStaticFields_eq (idSize : ℕ) (matchers : List FieldExcludeMatcherFlatten)
    (classId : ObjectId) (length : ℕ) (h : Heap) :
    parseStaticFields idSize matchers classId length h = do
      let (fields, size) ← decodeStaticFields idSize length
      let references := ClassDump.statics matchers classId fields
      return (references.foldl StaticReference.addTo h, references, size) := by
  induction length generalizing h with
  | zero => rfl
  | succ length ih =>
    simp only [parseStaticFields, decodeStaticFields, bind_assoc]
    refine bind_congr fun fieldNameId => bind_congr fun type => ?_
    by_cases htype : type = .kObject
    · simp only [htype, if_true, ih, bind_assoc, pure_bind]
      rfl
    · simp only [htype, if_false, ih, bind_assoc, pure_bind]
      rfl

theorem parseInstanceFields_eq (idSize : ℕ) (classId : ObjectId) (length : ℕ) (h : Heap) :
    parseInstanceFields idSize classId length h = do
      let (fields, size) ← decodeInstanceFields idSize length
      return (fields.foldl (fun h field => h.addInstanceFieldRecord classId field) h, size) := by
  induction length generalizing h with
  | zero => rfl
  | succ length ih =>
    simp only [parseInstanceFields, decodeInstanceFields, bind_assoc, ih, pure_bind]
    rfl

theorem lift_bind_comm {α β γ : Type} (o : Option α) (x : ReadM β) (f : α → β → ReadM γ) :
    (do let a ← StateT.lift o; let b ← x; f a b) = (do let b ← x; let a ← StateT.lift o; f a b) := by
  funext r
  cases o with
  | none =>
    change (none : Option (γ × Reader)) = (x r).bind fun p => none
    cases x r <;> rfl
  | some a => rfl

/-- **The parser reads the content and then applies it.** -/
theorem parseHeapContentClassSubRecord_eq (fuel : ℕ) (staticFields : List FieldExcludeMatcher)
    (h : Heap) :
    parseHeapContentClassSubRecord fuel staticFields h = do
      let idSize ← StateT.lift h.getIdSize
      let (d, size) ← decodeClassDump idSize
      let (h, references) ← StateT.lift (d.apply fuel staticFields h)
      return (h, references, size) := by
  simp only [parseHeapContentClassSubRecord, decodeClassDump, bind_assoc, pure_bind,
    parseStaticFields_eq, parseInstanceFields_eq]
  refine bind_congr fun idSize => bind_congr fun classId => bind_congr fun _ =>
    bind_congr fun superClassId => bind_congr fun _ => bind_congr fun _ => bind_congr fun _ =>
    bind_congr fun _ => bind_congr fun _ => bind_congr fun _ => bind_congr fun _ =>
    bind_congr fun constantPoolSize => bind_congr fun _ => ?_
  rw [lift_bind_comm]
  refine bind_congr fun ⟨fields, staticSize⟩ => ?_
  rw [lift_bind_comm]
  refine bind_congr fun _ => ?_
  rw [lift_bind_comm]
  refine bind_congr fun ⟨instanceFields, nonStaticSize⟩ => ?_
  funext r
  simp only [ClassDump.apply, ClassDump.record]
  cases classMatchMatchers fuel
      (flattenFieldExcludeMatchers staticFields
        ((h.addInstanceTypeRecord classId .kClass).addInheritanceRecord classId superClassId)).2
      classId
      (flattenFieldExcludeMatchers staticFields
        ((h.addInstanceTypeRecord classId .kClass).addInheritanceRecord classId superClassId)).1 <;>
    rfl

/-! ## Sub-records in a Sequence -/

theorem LocalRead.readValueType : LocalRead readValueType :=
  (LocalRead.read 1).bind fun _ => .lift _

theorem LocalRead.skipConstantPool (idSize length : ℕ) :
    LocalRead (skipConstantPool idSize length) := by
  induction length with
  | zero => exact .pure 0
  | succ length ih =>
    exact (LocalRead.skip 2).bind fun _ => LocalRead.readValueType.bind fun _ =>
      (LocalRead.skip _).bind fun _ => ih.bind fun _ => .pure _

theorem LocalRead.decodeStaticFields (idSize length : ℕ) :
    LocalRead (decodeStaticFields idSize length) := by
  induction length with
  | zero => exact .pure _
  | succ length ih =>
    refine (LocalRead.read idSize).bind fun _ => LocalRead.readValueType.bind fun type => ?_
    split_ifs with htype
    · exact (LocalRead.read idSize).bind fun _ => ih.bind fun _ => .pure _
    · exact (LocalRead.skip _).bind fun _ => ih.bind fun _ => .pure _

theorem LocalRead.decodeInstanceFields (idSize length : ℕ) :
    LocalRead (decodeInstanceFields idSize length) := by
  induction length with
  | zero => exact .pure _
  | succ length ih =>
    exact (LocalRead.read idSize).bind fun _ => LocalRead.readValueType.bind fun _ =>
      ih.bind fun _ => .pure _

theorem LocalRead.decodeClassDump (idSize : ℕ) : LocalRead (decodeClassDump idSize) :=
  (LocalRead.read idSize).bind fun _ => (LocalRead.skip 4).bind fun _ =>
  (LocalRead.read idSize).bind fun _ => (LocalRead.skip idSize).bind fun _ =>
  (LocalRead.skip idSize).bind fun _ => (LocalRead.skip idSize).bind fun _ =>
  (LocalRead.skip idSize).bind fun _ => (LocalRead.skip idSize).bind fun _ =>
  (LocalRead.skip 4).bind fun _ => (LocalRead.read 2).bind fun _ =>
  (LocalRead.skipConstantPool idSize _).bind fun _ => (LocalRead.read 2).bind fun _ =>
  (LocalRead.decodeStaticFields idSize _).bind fun _ => (LocalRead.read 2).bind fun _ =>
  (LocalRead.decodeInstanceFields idSize _).bind fun _ => .pure _

/-- A class-dump sub-record: bytes that are exactly one class dump. -/
structure ClassSubRecord (idSize : ℕ) where
  bytes : List UInt8
  dump : ClassDump
  size : ℕ
  decodes : decodeClassDump idSize ⟨bytes, 0⟩ = some ((dump, size), ⟨bytes, bytes.length⟩)

theorem ClassSubRecord.decode_within {idSize : ℕ} (record : ClassSubRecord idSize)
    (before after : List UInt8) :
    decodeClassDump idSize ⟨before ++ (record.bytes ++ after), before.length⟩ =
      some ((record.dump, record.size),
        ⟨before ++ (record.bytes ++ after), (before ++ record.bytes).length⟩) := by
  have h := LocalRead.decodeClassDump idSize _ _ _ before after record.decodes
  simpa [Reader.within] using h

theorem FieldExcludeMatcher.sameButMemo_findClassId (matcher : FieldExcludeMatcher) (h : Heap) :
    h.SameButMemo (matcher.findClassId h).2 := by
  unfold findClassId
  split
  · exact .refl h
  · exact Heap.sameButMemo_findClassByName h _

theorem FieldExcludeMatcher.sameButMemo_findFieldNameId (matcher : FieldExcludeMatcher)
    (h : Heap) : h.SameButMemo (matcher.findFieldNameId h).2 := by
  unfold findFieldNameId
  split
  · exact .refl h
  · exact Heap.sameButMemo_findStringId h _

theorem sameButMemo_flattenFieldExcludeMatchers (matchers : List FieldExcludeMatcher) (h : Heap) :
    h.SameButMemo (flattenFieldExcludeMatchers matchers h).2 := by
  induction matchers generalizing h with
  | nil => exact .refl h
  | cons matcher matchers ih =>
    have hclass := matcher.sameButMemo_findClassId h
    rw [flattenFieldExcludeMatchers]
    rcases hc : matcher.findClassId h with ⟨_ | classId, h₁⟩
    · rw [hc] at hclass
      exact hclass.trans (ih h₁)
    · rw [hc] at hclass
      have hfld := matcher.sameButMemo_findFieldNameId h₁
      simp only
      rcases hf : matcher.findFieldNameId h₁ with ⟨_ | fieldNameId, h₂⟩ <;> rw [hf] at hfld
      · exact (hclass.trans hfld).trans (ih h₂)
      · exact (hclass.trans hfld).trans (ih h₂)

/-- The part of the heap that reading and matching depend on. -/
structure Heap.Naming where
  idSize : ℕ
  strings : OrdMap StringId Text
  classNames : OrdMap ObjectId StringId
  inheritance : OrdMap ObjectId ObjectId
  findStringIdMemorized : OrdMap Text StringId
  findClassByNameMemorized : OrdMap Text ObjectId

@[inherit_doc Heap.Naming]
def Heap.naming (h : Heap) : Heap.Naming :=
  ⟨h.idSize, h.strings, h.classNames, h.inheritance, h.findStringIdMemorized,
    h.findClassByNameMemorized⟩

theorem naming_addStatics (references : List StaticReference) (h : Heap) :
    (references.foldl StaticReference.addTo h).naming = h.naming := by
  induction references generalizing h with
  | nil => rfl
  | cons s references ih =>
    rw [foldl_cons, ih, StaticReference.addTo]
    split <;> rfl

theorem naming_addInstanceFields (classId : ObjectId) (fields : List Field) (h : Heap) :
    (fields.foldl (fun h field => h.addInstanceFieldRecord classId field) h).naming =
      h.naming := by
  induction fields generalizing h with
  | nil => rfl
  | cons field fields ih =>
    rw [foldl_cons, ih]
    rfl

variable {staticFields : List FieldExcludeMatcher} {references : List StaticReference}

/-- Applying a dump changes names, superclasses and memo tables as `record` and the flattening of
the matchers do. -/
theorem ClassDump.naming_apply {fuel : ℕ} {d : ClassDump}
    {h h' : Heap}
    (happ : d.apply fuel staticFields h = some (h', references)) :
    h'.naming = (flattenFieldExcludeMatchers staticFields (d.record h)).2.naming := by
  obtain ⟨matchers, _, hres⟩ := Option.map_eq_some_iff.mp happ
  cases hres
  rw [naming_addInstanceFields, naming_addStatics]

theorem ClassDump.idSize_apply {fuel : ℕ} {d : ClassDump}
    {h h' : Heap}
    (happ : d.apply fuel staticFields h = some (h', references)) : h'.idSize = h.idSize := by
  obtain ⟨_, _, hsame⟩ := sameButMemo_flattenFieldExcludeMatchers staticFields (d.record h)
  have hnam := congrArg Heap.Naming.idSize (naming_apply happ)
  rw [hsame] at hnam
  exact hnam

/-- **Parsing a sequence of sub-records** applies their contents one by one. -/
theorem parseClassSubRecords_eq {idSize : ℕ} (hpos : 0 < idSize) (fuel : ℕ)
    (staticFields : List FieldExcludeMatcher) (records : List (ClassSubRecord idSize)) (h : Heap)
    (hid : h.idSize = idSize) (before : List UInt8) :
    parseClassSubRecords fuel staticFields records.length h
        ⟨before ++ (records.map ClassSubRecord.bytes).flatten, before.length⟩ =
      (ClassDump.applyAll fuel staticFields (records.map ClassSubRecord.dump) h).map fun result =>
        (result, ⟨before ++ (records.map ClassSubRecord.bytes).flatten,
          (before ++ (records.map ClassSubRecord.bytes).flatten).length⟩) := by
  induction records generalizing h before with
  | nil => simp [parseClassSubRecords, ClassDump.applyAll, pure, StateT.pure]
  | cons record records ih =>
    have hsize : h.getIdSize = some idSize := by
      rw [Heap.getIdSize, hid, if_neg hpos.ne']
    have hone : parseHeapContentClassSubRecord fuel staticFields h
          ⟨before ++ (record.bytes ++ (records.map ClassSubRecord.bytes).flatten), before.length⟩ =
        (record.dump.apply fuel staticFields h).map fun result =>
          ((result.1, result.2, record.size),
            ⟨before ++ (record.bytes ++ (records.map ClassSubRecord.bytes).flatten),
              (before ++ record.bytes).length⟩) := by
      rw [parseHeapContentClassSubRecord_eq, hsize]
      change (decodeClassDump idSize _).bind _ = _
      rw [record.decode_within]
      change Option.bind (StateT.lift (record.dump.apply fuel staticFields h) _) _ = _
      cases record.dump.apply fuel staticFields h <;> rfl
    simp only [map_cons, flatten_cons, length_cons, parseClassSubRecords,
      ClassDump.applyAll]
    change Option.bind (parseHeapContentClassSubRecord fuel staticFields h _) _ = _
    rw [hone]
    cases happ : record.dump.apply fuel staticFields h with
    | none => rfl
    | some result =>
      obtain ⟨h', references⟩ := result
      have hrest := ih h' ((ClassDump.idSize_apply happ).trans hid) (before ++ record.bytes)
      rw [append_assoc] at hrest
      change Option.bind (parseClassSubRecords fuel staticFields records.length h' _) _ = _
      rw [hrest, Option.bind_eq_bind, Option.bind_some]
      cases ClassDump.applyAll fuel staticFields (records.map ClassSubRecord.dump) h' <;> rfl

end TraceHarbor.Hprof
