import TraceHarbor.HprofLib.HprofBufferShrinker
import TraceHarbor.Lib.Merge

/-!
# The Heap after Shrinking

What shrinking is for, said of the dump alone. The visits that the writer gets are those of the dump,
except that a primitive array is left out unless it belongs to a text or represents several equal
buffers, and that a bitmap names the representative of its buffer.
-/

namespace TraceHarbor.HprofLib

open Lib Lib.Parser List Option

/-! ## What a dump says -/

def stringIdOf (text : Text) : Visit → Option ID
  | .stringRecord id t _ _ => if t = text then some id else none
  | _ => none

def stringId (d : List Visit) (text : Text) : Option ID := d.findSome? (stringIdOf text)

def loadedAs (name : ID) : Visit → Option ID
  | .loadClassRecord _ classObjectId _ classNameStringId _ _ =>
    if classNameStringId = name then some classObjectId else none
  | _ => none

def classId (d : List Visit) (text : Text) : Option ID :=
  (stringId d text).bind fun name => d.findSome? (loadedAs name)

def fieldsOf (c : ID) : Visit → Option (List Field)
  | .heap (.classDump id _ _ _ _ _ instanceFields) => if id = c then some instanceFields else none
  | _ => none

def instanceFields (d : List Visit) (c : ID) : List Field := (d.findSome? (fieldsOf c)).getD []

def sizeOfHeader : Visit → Option ℕ
  | .header _ idSize _ => some idSize
  | _ => none

def idSize (d : List Visit) : ℕ := (d.findSome? sizeOfHeader).getD 0

def Field.type (f : Field) : Option FieldType := f.typeId.bind FieldType.getType

/-- The bytes of a field in the data of an object. -/
def Field.width (k : ℕ) (f : Field) : ℕ := (f.type.map (FieldType.getSize k)).getD 0

/-- The place of a field in the data of an object. -/
def fieldOffset (k : ℕ) (name : ID) : List Field → Option ℕ
  | [] => none
  | f :: fields =>
    if f.nameId = name then some 0 else (fieldOffset k name fields).map (f.width k + ·)

/-- The place of a field with a text for its name. -/
def offsetOf (d : List Visit) (c : ID) (text : Text) : Option ℕ :=
  (stringId d text).bind fun name => fieldOffset (idSize d) name (instanceFields d c)

def objectField (d : List Visit) (c : ID) (text : Text) (data : List UInt8) : Option ID :=
  (offsetOf d c text).map fun off => (data.drop off).take (idSize d)

/-- The truth value that a field of an object has. -/
def booleanField (d : List Visit) (c : ID) (text : Text) (data : List UInt8) : Option Bool :=
  (offsetOf d c text).map fun off => (data.drop off).head? ≠ some 0

def nullId (d : List Visit) : ID := List.replicate (idSize d) 0

def liveBuffer (d : List Visit) : Visit → Option ID
  | .heap (.instanceDump _ _ c data) =>
    if classId d bitmapClassName = some c ∧
        booleanField d c mRecycledFieldName data ≠ some true then
      (objectField d c mBufferFieldName data).filter (· ≠ nullId d)
    else none
  | _ => none

def stringValue (d : List Visit) : Visit → Option ID
  | .heap (.instanceDump _ _ c data) =>
    if classId d stringClassName = some c then
      (objectField d c valueFieldName data).filter (· ≠ nullId d)
    else none
  | _ => none

def arrayOf : Visit → Option (ID × List UInt8)
  | .heap (.primitiveArray _ id _ _ _ elements) => some (id, elements)
  | _ => none

def BufferArray (d : List Visit) (x : ID) (content : List UInt8) : Prop :=
  x ∈ d.filterMap (liveBuffer d) ∧ (x, content) ∈ d.filterMap arrayOf

/-- A buffer that has the same content as another one. -/
def SharedBuffer (d : List Visit) (x : ID) : Prop :=
  ∃ content, BufferArray d x content ∧ ∃ y ≠ x, BufferArray d y content

/-- The arrays that are kept, for a choice of the representatives. -/
def KeptArray (d : List Visit) (rep : ID → ID) (x : ID) : Prop :=
  x ∈ d.filterMap (stringValue d) ∨ SharedBuffer d x ∧ rep x = x

/-- One representative is chosen for all buffers with the same content, and it is one of them. -/
structure Represents (d : List Visit) (rep : ID → ID) : Prop where
  content : ∀ x content, BufferArray d x content → BufferArray d (rep x) content
  same : ∀ x y content, BufferArray d x content → BufferArray d y content → rep x = rep y
  kept : ∀ x content, BufferArray d x content → rep x ≠ x → KeptArray d rep (rep x)

open Classical in
/-- The data of a bitmap that names the representative of its buffer. -/
noncomputable def renamed (d : List Visit) (rep : ID → ID) (c : ID) (data : List UInt8) :
    List UInt8 :=
  match offsetOf d c mBufferFieldName with
  | none => data
  | some off =>
    if ∃ content, BufferArray d ((data.drop off).take (idSize d)) content then
      data.take off ++ rep ((data.drop off).take (idSize d)) ++ data.drop (off + idSize d)
    else data

open Classical in
noncomputable def shrunk (d : List Visit) (rep : ID → ID) : Visit → List Visit
  | .heap (.instanceDump id stackId c data) =>
    if classId d bitmapClassName = some c then
      [.heap (.instanceDump id stackId c (renamed d rep c data))]
    else [.heap (.instanceDump id stackId c data)]
  | .heap (.primitiveArray tag id stackId numElements typeId elements) =>
    if KeptArray d rep id then
      [.heap (.primitiveArray tag id stackId numElements typeId elements)]
    else []
  | v => [v]

/-! ## Dumps that can be shrunk -/

def Visit.isString : Visit → Bool
  | .stringRecord .. => true
  | _ => false

def Visit.isLoadClass : Visit → Bool
  | .loadClassRecord .. => true
  | _ => false

def Visit.isHeap : Visit → Bool
  | .heap _ => true
  | _ => false

/-- Records of a dump, other than its header and its end. -/
def Visit.isRecord : Visit → Bool
  | .header .. | .visitEnd => false
  | _ => true

/-- A text is not met after a class, and neither after the heap. -/
def InOrder (u v : Visit) : Prop :=
  (v.isString → ¬ u.isLoadClass ∧ ¬ u.isHeap) ∧ (v.isLoadClass → ¬ u.isHeap)

instance : DecidableRel InOrder := fun u v =>
  inferInstanceAs (Decidable ((v.isString → ¬ u.isLoadClass ∧ ¬ u.isHeap) ∧
    (v.isLoadClass → ¬ u.isHeap)))

def lookedUp : List Text :=
  [bitmapClassName, mBufferFieldName, mRecycledFieldName, stringClassName, valueFieldName]

/-- The fields of a class are as the class file says, and its objects have them all. -/
structure ClassOk (d : List Visit) (c : ID) (types : Text → Option FieldType) : Prop where
  names : ((instanceFields d c).map Field.nameId).Nodup
  known : ∀ f ∈ instanceFields d c, f.type ≠ none
  typed : ∀ f ∈ instanceFields d c, ∀ text t, types text = some t →
    stringId d text = some f.nameId → f.type = some t
  complete : ∀ id stackId data, .heap (.instanceDump id stackId c data) ∈ d →
    ((instanceFields d c).map (Field.width (idSize d))).sum ≤ data.length

/-- A dump in which the texts come before the classes and these before the heap. -/
structure Shrinkable (d : List Visit) : Prop where
  shape : ∃ text k timestamp body, d = .header text k timestamp :: (body ++ [.visitEnd]) ∧
    ∀ v ∈ body, v.isRecord
  ordered : d.Pairwise InOrder
  textIds : ∀ t ∈ lookedUp, ∀ t' ∈ lookedUp, ∀ i, stringId d t = some i → stringId d t' = some i →
    t = t'
  classIds : ∀ c, classId d bitmapClassName = some c → classId d stringClassName ≠ some c
  arrayIds : ((d.filterMap arrayOf).map Prod.fst).Nodup
  arrayIdSize : ∀ e ∈ d.filterMap arrayOf, e.1.length = idSize d
  bitmaps : ∀ c, classId d bitmapClassName = some c → ClassOk d c fun text =>
    if text = mBufferFieldName then some .object
    else if text = mRecycledFieldName then some .boolean
    else none
  strings : ∀ c, classId d stringClassName = some c → ClassOk d c fun text =>
    if text = valueFieldName then some .object else none

/-! ## The first pass finds what the dump says -/

/-- A field of a state that keeps the first value it gets has the value of the first visit that
gives one. -/
theorem foldl_first {σ ν α : Type} {step : σ → ν → σ} {field : σ → Option α} {value : ν → Option α}
    {s : σ} (hs : field s = none) {l : List ν}
    (hstep : ∀ l₁ v l₂, l = l₁ ++ v :: l₂ →
      field (step (l₁.foldl step s) v) = (field (l₁.foldl step s)).or (value v)) :
    field (l.foldl step s) = l.findSome? value := by
  induction l using reverseRecOn with
  | nil => exact hs
  | append_singleton l v ih =>
    have hl := ih fun l₁ u l₂ h => hstep l₁ u (l₂ ++ [v]) (by rw [h]; simp)
    have hv := hstep l v [] rfl
    rw [foldl_append, foldl_cons, foldl_nil, hv, hl]
    simp

section Info

variable {d : List Visit}

theorem visit_names (s : Info) (v : Visit) :
    (s.visit v).bitmapClassNameStringId =
        s.bitmapClassNameStringId.or (stringIdOf bitmapClassName v) ∧
      (s.visit v).mBufferFieldNameStringId =
        s.mBufferFieldNameStringId.or (stringIdOf mBufferFieldName v) ∧
      (s.visit v).mRecycledFieldNameStringId =
        s.mRecycledFieldNameStringId.or (stringIdOf mRecycledFieldName v) ∧
      (s.visit v).stringClassNameStringId =
        s.stringClassNameStringId.or (stringIdOf stringClassName v) ∧
      (s.visit v).valueFieldNameStringId =
        s.valueFieldNameStringId.or (stringIdOf valueFieldName v) := by
  cases v with
  | stringRecord id text timestamp length =>
    by_cases h : text ∈ lookedUp
    · simp only [lookedUp, mem_cons, not_mem_nil, or_false] at h
      rcases h with rfl | rfl | rfl | rfl | rfl
      all_goals simp +decide [Info.visit, stringIdOf, and_false]
      · cases h : s.bitmapClassNameStringId <;> simp [h]
      · cases h : s.mBufferFieldNameStringId <;> simp [h]
      · cases h : s.mRecycledFieldNameStringId <;> simp [h]
      · cases h : s.stringClassNameStringId <;> simp [h]
      · cases h : s.valueFieldNameStringId <;> simp [h]
    · simp only [lookedUp, mem_cons, not_mem_nil, or_false, not_or] at h
      simp [Info.visit, stringIdOf, h]
  | loadClassRecord =>
    simp only [Info.visit, stringIdOf, or_none]
    split_ifs <;> exact ⟨rfl, rfl, rfl, rfl, rfl⟩
  | heap v =>
    cases v with
    | classDump =>
      simp only [Info.visit, stringIdOf, or_none]
      split_ifs <;> exact ⟨rfl, rfl, rfl, rfl, rfl⟩
    | _ => simp [Info.visit, stringIdOf]
  | _ => simp [Info.visit, stringIdOf]

theorem names_collectInfo (l : List Visit) :
    (collectInfo l).bitmapClassNameStringId = stringId l bitmapClassName ∧
      (collectInfo l).mBufferFieldNameStringId = stringId l mBufferFieldName ∧
      (collectInfo l).mRecycledFieldNameStringId = stringId l mRecycledFieldName ∧
      (collectInfo l).stringClassNameStringId = stringId l stringClassName ∧
      (collectInfo l).valueFieldNameStringId = stringId l valueFieldName :=
  ⟨@foldl_first _ _ _ _ Info.bitmapClassNameStringId _ _ rfl _
      fun _ _ _ _ => (visit_names _ _).1,
    @foldl_first _ _ _ _ Info.mBufferFieldNameStringId _ _ rfl _
      fun _ _ _ _ => (visit_names _ _).2.1,
    @foldl_first _ _ _ _ Info.mRecycledFieldNameStringId _ _ rfl _
      fun _ _ _ _ => (visit_names _ _).2.2.1,
    @foldl_first _ _ _ _ Info.stringClassNameStringId _ _ rfl _
      fun _ _ _ _ => (visit_names _ _).2.2.2.1,
    @foldl_first _ _ _ _ Info.valueFieldNameStringId _ _ rfl _
      fun _ _ _ _ => (visit_names _ _).2.2.2.2⟩

theorem findSome?_before {α : Type} {said : Visit → Option α} (hd : d.Pairwise InOrder)
    {l₁ l₂ : List Visit} {v : Visit} (h : d = l₁ ++ v :: l₂)
    (hlate : ∀ u, u = v ∨ InOrder v u → said u = none) : l₁.findSome? said = d.findSome? said := by
  have hnone : (v :: l₂).findSome? said = none := by
    rw [h, pairwise_append, pairwise_cons] at hd
    rw [findSome?_eq_none_iff, forall_mem_cons]
    exact ⟨hlate v (.inl rfl), fun u hu => hlate u (.inr (hd.2.1.1 u hu))⟩
  rw [h, findSome?_append, hnone, or_none]

theorem findSome?_bind {α β γ : Type} (o : Option α) (f : α → β → Option γ) (l : List β) :
    l.findSome? (fun v => o.bind fun a => f a v) = o.bind fun a => l.findSome? (f a) := by
  cases o with
  | none => exact findSome?_eq_none_iff.mpr fun _ _ => rfl
  | some a => rfl

theorem or_bind_of_not {α : Type} {field : Option α} {wanted : Option ID} {i : ID} {a : α}
    (h : ¬ (field = none ∧ wanted = some i)) :
    field = field.or (wanted.bind fun j => if i = j then some a else none) := by
  cases field with
  | some _ => rfl
  | none =>
    cases wanted with
    | none => rfl
    | some j =>
      have hne : i ≠ j := fun hij => h ⟨rfl, by rw [hij]⟩
      simp [hne]

/-- What one visit does to the classes, their fields and the sizes. -/
structure Visited (s : Info) (v : Visit) (s' : Info) : Prop where
  bmpClassId : s'.bmpClassId =
    s.bmpClassId.or (s.bitmapClassNameStringId.bind fun name => loadedAs name v)
  stringClassId : (∀ i, s.bitmapClassNameStringId = some i → s.stringClassNameStringId ≠ some i) →
    s'.stringClassId =
      s.stringClassId.or (s.stringClassNameStringId.bind fun name => loadedAs name v)
  bmpFields : s'.bmpClassInstanceFields =
    s.bmpClassInstanceFields.or (s.bmpClassId.bind fun c => fieldsOf c v)
  stringFields : (∀ c, s.bmpClassId = some c → s.stringClassId ≠ some c) →
    s'.stringClassInstanceFields =
      s.stringClassInstanceFields.or (s.stringClassId.bind fun c => fieldsOf c v)
  sizes : sizeOfHeader v = none → s'.idSize = s.idSize ∧ s'.nullBufferId = s.nullBufferId

theorem visited (s : Info) (v : Visit) : Visited s v (s.visit v) := by
  cases v with
  | stringRecord =>
    rw [Info.visit]
    split_ifs <;> constructor <;> simp [loadedAs, fieldsOf]
  | loadClassRecord serialNumber c stackTraceSerial name timestamp length =>
    rw [Info.visit]
    split_ifs with hbmp hstr <;> constructor <;> try simp [fieldsOf]
    · simp [hbmp, loadedAs]
    · exact fun hne => or_bind_of_not fun h => hne name hbmp.2 h.2
    · exact or_bind_of_not hbmp
    · simp [hstr, loadedAs]
    · exact or_bind_of_not hbmp
    · exact fun _ => or_bind_of_not hstr
  | heap v =>
    cases v with
    | classDump id =>
      rw [Info.visit]
      split_ifs with hbmp hstr <;> constructor <;> try simp [loadedAs]
      · simp [hbmp, fieldsOf]
      · exact fun hne => or_bind_of_not fun h => hne id hbmp.2 h.2
      · exact or_bind_of_not hbmp
      · simp [hstr, fieldsOf]
      · exact or_bind_of_not hbmp
      · exact fun _ => or_bind_of_not hstr
    | _ => constructor <;> simp [Info.visit, loadedAs, fieldsOf]
  | _ => constructor <;> simp [Info.visit, loadedAs, fieldsOf, sizeOfHeader]

theorem classes_collectInfo (hd : Shrinkable d) {l l' : List Visit} (hl : d = l ++ l') :
    (collectInfo l).bmpClassId =
        (stringId d bitmapClassName).bind (fun name => l.findSome? (loadedAs name)) ∧
      (collectInfo l).stringClassId =
        (stringId d stringClassName).bind fun name => l.findSome? (loadedAs name) := by
  -- at a class, the texts are known; other visits do not matter
  have hknown : ∀ text l₁ v l₂, l = l₁ ++ v :: l₂ →
      ((stringId l₁ text).bind fun name => loadedAs name v) =
        (stringId d text).bind fun name => loadedAs name v := by
    intro text l₁ v l₂ h
    by_cases hload : v.isLoadClass
    · have hbef : stringId l₁ text = stringId d text := by
        refine findSome?_before hd.ordered (by rw [hl, h, append_assoc]; rfl) ?_
        rintro u (rfl | hu) <;> cases u <;>
          simp_all [stringIdOf, InOrder, Visit.isLoadClass, Visit.isString]
      rw [hbef]
    · have hnone : ∀ name, loadedAs name v = none := by
        intro name
        cases v <;> simp_all [loadedAs, Visit.isLoadClass]
      simp [hnone]
  have hne : ∀ l₁, (∃ l₂, l = l₁ ++ l₂) → ∀ i, (collectInfo l₁).bitmapClassNameStringId = some i →
      (collectInfo l₁).stringClassNameStringId ≠ some i := by
    rintro l₁ ⟨l₂, h⟩ i hbitm hstr
    have hfull : ∀ text, stringId l₁ text = some i → stringId d text = some i := by
      intro text htext
      rw [stringId, hl, h, append_assoc, findSome?_append]
      rw [stringId] at htext
      rw [htext]
      rfl
    rw [(names_collectInfo l₁).1] at hbitm
    rw [(names_collectInfo l₁).2.2.2.1] at hstr
    have heq := hd.textIds bitmapClassName (by simp [lookedUp]) stringClassName (by simp [lookedUp])
      i (hfull _ hbitm) (hfull _ hstr)
    exact absurd heq (by decide)
  constructor
  · rw [← findSome?_bind]
    refine @foldl_first _ _ _ _ Info.bmpClassId _ _ rfl _ fun l₁ v l₂ h => ?_
    rw [(visited _ v).bmpClassId, ← hknown _ l₁ v l₂ h, ← (names_collectInfo l₁).1]
    rfl
  · rw [← findSome?_bind]
    refine @foldl_first _ _ _ _ Info.stringClassId _ _ rfl _ fun l₁ v l₂ h => ?_
    refine ((visited _ v).stringClassId (hne l₁ ⟨_, h⟩)).trans ?_
    rw [← hknown _ l₁ v l₂ h, ← (names_collectInfo l₁).2.2.2.1]
    rfl

/-- **The first pass**: it finds the texts, the classes and their fields. -/
theorem collectInfo_classes (hd : Shrinkable d) :
    (collectInfo d).bmpClassId = classId d bitmapClassName ∧
      (collectInfo d).stringClassId = classId d stringClassName :=
  classes_collectInfo hd (append_nil d).symm

theorem collectInfo_fields (hd : Shrinkable d) :
    (∀ c, classId d bitmapClassName = some c →
        (collectInfo d).bmpClassInstanceFields.getD [] = instanceFields d c) ∧
      (∀ c, classId d stringClassName = some c →
        (collectInfo d).stringClassInstanceFields.getD [] = instanceFields d c) := by
  -- in the heap, the classes are known; other visits do not matter
  have hknown : ∀ text l₁ v l₂, d = l₁ ++ v :: l₂ →
      (((stringId d text).bind fun name => l₁.findSome? (loadedAs name)).bind fun c =>
          fieldsOf c v) = (classId d text).bind fun c => fieldsOf c v := by
    intro text l₁ v l₂ h
    by_cases hheap : v.isHeap
    · have hbef : ∀ name, l₁.findSome? (loadedAs name) = d.findSome? (loadedAs name) := by
        refine fun name => findSome?_before hd.ordered h ?_
        rintro u (rfl | hu) <;> cases u <;>
          simp_all [loadedAs, InOrder, Visit.isHeap, Visit.isLoadClass]
      simp only [hbef]
      rfl
    · have hnone : ∀ c, fieldsOf c v = none := by
        intro c
        cases v <;> simp_all [fieldsOf, Visit.isHeap]
      simp only [hnone, bind_fun_none]
  have hpref : ∀ text l₁ l₂ c, d = l₁ ++ l₂ →
      ((stringId d text).bind fun name => l₁.findSome? (loadedAs name)) = some c →
        classId d text = some c := by
    intro text l₁ l₂ c h hc
    obtain ⟨name, hname, hfind⟩ := bind_eq_some_iff.mp hc
    rw [classId, hname, bind_some, h, findSome?_append, hfind]
    rfl
  have hbmp : (collectInfo d).bmpClassInstanceFields =
      (classId d bitmapClassName).bind fun c => d.findSome? (fieldsOf c) := by
    rw [← findSome?_bind]
    refine @foldl_first _ _ _ _ Info.bmpClassInstanceFields _ _ rfl _ fun l₁ v l₂ h => ?_
    rw [(visited _ v).bmpFields, ← hknown _ l₁ v l₂ h, ← (classes_collectInfo hd h).1]
    rfl
  have hstr : (collectInfo d).stringClassInstanceFields =
      (classId d stringClassName).bind fun c => d.findSome? (fieldsOf c) := by
    rw [← findSome?_bind]
    refine @foldl_first _ _ _ _ Info.stringClassInstanceFields _ _ rfl _ fun l₁ v l₂ h => ?_
    have hne : ∀ c, (collectInfo l₁).bmpClassId = some c →
        (collectInfo l₁).stringClassId ≠ some c := by
      intro c hc hc'
      rw [(classes_collectInfo hd h).1] at hc
      rw [(classes_collectInfo hd h).2] at hc'
      exact hd.classIds c (hpref _ l₁ _ c h hc) (hpref _ l₁ _ c h hc')
    refine ((visited _ v).stringFields hne).trans ?_
    rw [← hknown _ l₁ v l₂ h, ← (classes_collectInfo hd h).2]
    rfl
  constructor
  · intro c hc
    rw [hbmp, hc, bind_some, instanceFields]
  · intro c hc
    rw [hstr, hc, bind_some, instanceFields]

theorem collectInfo_idSize (hd : Shrinkable d) :
    (collectInfo d).idSize = idSize d ∧ (collectInfo d).nullBufferId = some (nullId d) := by
  obtain ⟨text, k, timestamp, body, rfl, hbody⟩ := hd.shape
  have hrest : ∀ v ∈ body ++ [.visitEnd], sizeOfHeader v = none := by
    intro v hv
    rcases mem_append.mp hv with hv | hv
    · have hrec := hbody v hv
      cases v <;> simp_all [sizeOfHeader, Visit.isRecord]
    · rw [mem_singleton.mp hv]
      rfl
  refine foldlRecOn
    (motive := fun s : Info => s.idSize = k ∧ s.nullBufferId = some (replicate k 0))
    (body ++ [.visitEnd]) Info.visit ?_ fun s h v hv => ?_
  · exact ⟨rfl, rfl⟩
  · obtain ⟨hsize, hnull⟩ := (visited s v).sizes (hrest v hv)
    exact ⟨hsize.trans h.1, hnull.trans h.2⟩

end Info

/-! ## Fields of an object -/

section Fields

variable {k : ℕ} {data : List UInt8}

def placeOf (k : ℕ) (name : Option ID) (fields : List Field) : Option ℕ :=
  name.bind fun name => fieldOffset k name fields

variable {name : Option ID} {f : Field}

theorem placeOf_cons_self (h : name = some f.nameId) (fields : List Field) :
    placeOf k name (f :: fields) = some 0 := by
  rw [h, placeOf, bind_some, fieldOffset, if_pos rfl]

theorem placeOf_cons_of_ne (h : name ≠ some f.nameId) (fields : List Field) :
    placeOf k name (f :: fields) = (placeOf k name fields).map (f.width k + ·) := by
  cases name with
  | none => rfl
  | some name => rw [placeOf, bind_some, fieldOffset, if_neg fun heq => h (by rw [heq])]; rfl

variable {fields : List Field}

theorem placeOf_eq_none (h : ∀ f ∈ fields, name ≠ some f.nameId) :
    placeOf k name fields = none := by
  induction fields with
  | nil => cases name <;> rfl
  | cons f fields ih =>
    rw [forall_mem_cons] at h
    rw [placeOf_cons_of_ne h.1, ih h.2]
    rfl

def objectAt (k : ℕ) (name : Option ID) (fields : List Field) (data : List UInt8) : Option ID :=
  (placeOf k name fields).map fun off => (data.drop off).take k

def booleanAt (k : ℕ) (name : Option ID) (fields : List Field) (data : List UInt8) : Option Bool :=
  (placeOf k name fields).map fun off => (data.drop off).head? ≠ some 0

theorem objectAt_cons_of_ne (h : name ≠ some f.nameId) (fields : List Field) (data : List UInt8) :
    objectAt k name (f :: fields) data = objectAt k name fields (data.drop (f.width k)) := by
  rw [objectAt, objectAt, placeOf_cons_of_ne h, Option.map_map]
  simp [Function.comp_def]

theorem booleanAt_cons_of_ne (h : name ≠ some f.nameId) (fields : List Field) (data : List UInt8) :
    booleanAt k name (f :: fields) data = booleanAt k name fields (data.drop (f.width k)) := by
  rw [booleanAt, booleanAt, placeOf_cons_of_ne h, Option.map_map]
  simp only [Function.comp_def, drop_drop]

theorem readType_of_type {t : FieldType} (h : f.type = some t) (b : List UInt8) :
    readType f.typeId b = .ok t b := by
  rw [Field.type] at h
  rw [readType, h]
  rfl

theorem readObject_object (h : k ≤ data.length) :
    readObject k .object data = .ok (data.take k) (data.drop k) := by
  have htake : Parser.take k data = .ok (data.take k) (data.drop k) := if_pos h
  have hval : readValue k .object data = .ok (.object (data.take k)) (data.drop k) :=
    bind_of_ok htake
  exact bind_of_ok hval

theorem readBoolean_boolean (h : 1 ≤ data.length) :
    readBoolean k .boolean data = .ok (data.head? ≠ some 0) (data.drop 1) := by
  obtain ⟨x, data, rfl⟩ := exists_cons_of_length_pos h
  rfl

theorem skip_of_le {n : ℕ} (h : n ≤ data.length) : skip n data = .ok () (data.drop n) := if_pos h

theorem width_of_type {t : FieldType} (h : f.type = some t) : f.width k = t.getSize k := by
  rw [Field.width, h]
  rfl

theorem bitmapLoop_spec (info : Info) (bufferId : Option ID) (isRecycled : Option Bool)
    (hnam : (fields.map Field.nameId).Nodup)
    (hne : ∀ i, info.mBufferFieldNameStringId = some i → info.mRecycledFieldNameStringId ≠ some i)
    (hknown : ∀ f ∈ fields, f.type ≠ none)
    (hobj : ∀ f ∈ fields, info.mBufferFieldNameStringId = some f.nameId → f.type = some .object)
    (hbool : ∀ f ∈ fields, info.mRecycledFieldNameStringId = some f.nameId →
      f.type = some .boolean)
    (hbuf : bufferId ≠ none → ∀ f ∈ fields, info.mBufferFieldNameStringId ≠ some f.nameId)
    (hrecy : isRecycled ≠ none → ∀ f ∈ fields, info.mRecycledFieldNameStringId ≠ some f.nameId)
    (hlen : (fields.map (Field.width info.idSize)).sum ≤ data.length) :
    valueOf (bitmapLoop info fields bufferId isRecycled) data =
      some (bufferId.or (objectAt info.idSize info.mBufferFieldNameStringId fields data),
        isRecycled.or (booleanAt info.idSize info.mRecycledFieldNameStringId fields data)) := by
  induction fields generalizing bufferId isRecycled data with
  | nil =>
    have hnone : ∀ name, placeOf info.idSize name [] = none := fun name =>
      placeOf_eq_none nofun
    simp [valueOf, bitmapLoop, Parser.pure_apply, objectAt, booleanAt, hnone]
  | cons f fields ih =>
    rw [map_cons, nodup_cons] at hnam
    rw [forall_mem_cons] at hknown hobj hbool
    simp only [forall_mem_cons] at hbuf hrecy
    rw [map_cons, sum_cons] at hlen
    obtain ⟨t, ht⟩ := ne_none_iff_exists'.mp hknown.1
    -- a name that this field has is not that of a later one
    have hlat : ∀ name, name = some f.nameId → ∀ g ∈ fields, name ≠ some g.nameId := by
      rintro name rfl g hg heq
      exact hnam.1 (some.inj heq ▸ mem_map_of_mem hg)
    have hdrop : (fields.map (Field.width info.idSize)).sum ≤
        (data.drop (f.width info.idSize)).length := by
      rw [length_drop]
      omega
    rw [valueOf, bitmapLoop, bind_of_ok (readType_of_type ht data)]
    by_cases hmBuffer : info.mBufferFieldNameStringId = some f.nameId
    · obtain rfl : t = .object := some.inj (ht.symm.trans (hobj.1 hmBuffer))
      have hwidth : f.width info.idSize = info.idSize := width_of_type ht
      rw [hwidth] at hlen hdrop
      obtain rfl : bufferId = none := by
        by_contra hsome
        exact (hbuf hsome).1 hmBuffer
      rw [if_pos hmBuffer, bind_of_ok (readObject_object (by omega))]
      have htail := ih (some (data.take info.idSize)) isRecycled hnam.2 hknown.2 hobj.2
        hbool.2 (fun _ => hlat _ hmBuffer) (fun h => (hrecy h).2) hdrop
      rw [valueOf] at htail
      rw [htail, booleanAt_cons_of_ne (hne _ hmBuffer), hwidth, objectAt, objectAt,
        placeOf_cons_self hmBuffer]
      simp
    · rw [if_neg hmBuffer]
      by_cases hmRecycled : info.mRecycledFieldNameStringId = some f.nameId
      · obtain rfl : t = .boolean := some.inj (ht.symm.trans (hbool.1 hmRecycled))
        have hwidth : f.width info.idSize = 1 := width_of_type ht
        rw [hwidth] at hlen hdrop
        obtain rfl : isRecycled = none := by
          by_contra hsome
          exact (hrecy hsome).1 hmRecycled
        rw [if_pos hmRecycled, bind_of_ok (readBoolean_boolean (by omega))]
        have htail := ih bufferId (some (data.head? ≠ some 0)) hnam.2 hknown.2 hobj.2
          hbool.2 (fun h => (hbuf h).2) (fun _ => hlat _ hmRecycled) hdrop
        rw [valueOf] at htail
        rw [htail, objectAt_cons_of_ne hmBuffer, hwidth, booleanAt, booleanAt,
          placeOf_cons_self hmRecycled]
        simp [head?_eq_getElem?]
      · rw [if_neg hmRecycled, objectAt_cons_of_ne hmBuffer, booleanAt_cons_of_ne hmRecycled]
        by_cases hboth : bufferId = none ∨ isRecycled = none
        · have hwidth : f.width info.idSize = t.getSize info.idSize := width_of_type ht
          rw [if_pos hboth, bind_of_ok (skip_of_le (by omega)), ← hwidth]
          exact ih bufferId isRecycled hnam.2 hknown.2 hobj.2 hbool.2
            (fun h => (hbuf h).2) (fun h => (hrecy h).2) hdrop
        · -- both are found, so that no later field has one of the names
          obtain ⟨hb, hr⟩ := not_or.mp hboth
          obtain ⟨id, rfl⟩ := ne_none_iff_exists'.mp hb
          obtain ⟨value, rfl⟩ := ne_none_iff_exists'.mp hr
          rfl

theorem stringLoop_eq_bitmapLoop (info : Info) (strValueId : Option ID) :
    valueOf (stringLoop info fields strValueId) data =
      (valueOf (bitmapLoop { info with
        mBufferFieldNameStringId := info.valueFieldNameStringId
        mRecycledFieldNameStringId := none } fields strValueId (some true)) data).map Prod.fst := by
  induction fields generalizing strValueId data with
  | nil => rfl
  | cons f fields ih =>
    rw [valueOf, valueOf, stringLoop, bitmapLoop, Parser.bind_apply, Parser.bind_apply]
    cases readType f.typeId data with
    | ok t rest =>
      dsimp only
      by_cases hname : info.valueFieldNameStringId = some f.nameId
      · rw [if_pos hname, if_pos hname, Parser.bind_apply, Parser.bind_apply]
        cases readObject info.idSize t rest with
        | ok id rest => exact ih _
        | _ => rfl
      · rw [if_neg hname, if_neg hname, if_neg (some_ne_none f.nameId).symm]
        by_cases hfound : strValueId = none
        · rw [if_pos hfound, if_pos (.inl hfound), Parser.bind_apply, Parser.bind_apply]
          cases skip (t.getSize info.idSize) rest with
          | ok _ rest => exact ih _
          | _ => rfl
        · rw [if_neg hfound, if_neg (not_or.mpr ⟨hfound, nofun⟩)]
          rfl
    | _ => rfl

theorem stringLoop_spec (info : Info) (strValueId : Option ID)
    (hnam : (fields.map Field.nameId).Nodup) (hknown : ∀ f ∈ fields, f.type ≠ none)
    (hobj : ∀ f ∈ fields, info.valueFieldNameStringId = some f.nameId → f.type = some .object)
    (hval : strValueId ≠ none → ∀ f ∈ fields, info.valueFieldNameStringId ≠ some f.nameId)
    (hlen : (fields.map (Field.width info.idSize)).sum ≤ data.length) :
    valueOf (stringLoop info fields strValueId) data =
      some (strValueId.or (objectAt info.idSize info.valueFieldNameStringId fields data)) := by
  rw [stringLoop_eq_bitmapLoop, bitmapLoop_spec _ strValueId (some true) hnam]
  exacts [rfl, fun _ _ => nofun, hknown, hobj, fun _ _ => nofun, hval, fun _ _ _ => nofun, hlen]

theorem bufferLoop_spec (info : Info) (bufferIdPos : ℕ) (hknown : ∀ f ∈ fields, f.type ≠ none)
    (hobj : ∀ f ∈ fields, info.mBufferFieldNameStringId = some f.nameId → f.type = some .object)
    (hlen : (fields.map (Field.width info.idSize)).sum ≤ data.length) :
    match placeOf info.idSize info.mBufferFieldNameStringId fields with
    | some off => valueOf (bufferLoop info fields bufferIdPos) data =
        some (some ((data.drop off).take info.idSize), bufferIdPos + off) ∧
          off + info.idSize ≤ data.length
    | none => ∃ pos, valueOf (bufferLoop info fields bufferIdPos) data = some (none, pos) := by
  induction fields generalizing bufferIdPos data with
  | nil =>
    rw [placeOf_eq_none fun f hf => absurd hf not_mem_nil]
    exact ⟨bufferIdPos, rfl⟩
  | cons f fields ih =>
    rw [forall_mem_cons] at hknown hobj
    rw [map_cons, sum_cons] at hlen
    obtain ⟨t, ht⟩ := ne_none_iff_exists'.mp hknown.1
    have hwidth : f.width info.idSize = t.getSize info.idSize := width_of_type ht
    have hdrop : (fields.map (Field.width info.idSize)).sum ≤
        (data.drop (f.width info.idSize)).length := by
      rw [length_drop]
      omega
    simp only [valueOf, bufferLoop, bind_of_ok (readType_of_type ht data)]
    by_cases hname : info.mBufferFieldNameStringId = some f.nameId
    · obtain rfl : t = .object := some.inj (ht.symm.trans (hobj.1 hname))
      have hsize : f.width info.idSize = info.idSize := hwidth
      rw [placeOf_cons_self hname, if_pos hname, bind_of_ok (readObject_object (by omega))]
      refine ⟨rfl, by omega⟩
    · have htail := ih (bufferIdPos + t.getSize info.idSize) hknown.2 hobj.2 hdrop
      rw [placeOf_cons_of_ne hname, if_neg hname, bind_of_ok (skip_of_le (by omega)), ← hwidth]
      rw [← hwidth] at htail
      cases hplace : placeOf info.idSize info.mBufferFieldNameStringId fields with
      | none =>
        rw [hplace] at htail
        exact htail
      | some off =>
        rw [hplace] at htail
        obtain ⟨hval, hoff⟩ := htail
        rw [length_drop] at hoff
        rw [valueOf] at hval
        dsimp only [map_some]
        refine ⟨?_, by omega⟩
        rw [hval, drop_drop, Nat.add_assoc]

end Fields

end TraceHarbor.HprofLib
