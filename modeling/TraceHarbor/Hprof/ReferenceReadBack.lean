import TraceHarbor.Hprof.HeapLookup

/-!
# Reading References Back

The heap keeps one reference per pair of referrer and referent, and the lookups by field name and
by array index scan the references of the referrer. A reference can be read back only if it was
the last one added between its two objects.
-/

namespace TraceHarbor.Hprof

open TraceHarbor.Lib List Option

/-- A call of `AddFieldReference` or `AddArrayReference`. -/
inductive ReferenceCall where
  | field (referrer : ObjectId) (fieldNameId : StringId) (referent : ObjectId)
      (staticReference : Bool)
  | array (referrer : ObjectId) (index : ℕ) (referent : ObjectId)
  deriving Repr, DecidableEq

namespace ReferenceCall

def apply (h : Heap) : ReferenceCall → Heap
  | field referrer fieldNameId referent staticReference =>
    h.addFieldReference referrer fieldNameId referent staticReference
  | array referrer index referent => h.addArrayReference referrer index referent

def referrer : ReferenceCall → ObjectId
  | field referrer _ _ _ => referrer
  | array referrer _ _ => referrer

def referent : ReferenceCall → ObjectId
  | field _ _ referent _ => referent
  | array _ _ referent => referent

def reference : ReferenceCall → Reference
  | field _ fieldNameId _ staticReference => Heap.fieldReference staticReference fieldNameId
  | array _ index _ => ⟨.kArrayElement, index, 0⟩

def slot : ReferenceCall → ObjectId × (StringId ⊕ ℕ)
  | field referrer fieldNameId _ _ => (referrer, .inl fieldNameId)
  | array referrer index _ => (referrer, .inr index)

theorem references_apply (h : Heap) (c : ReferenceCall) :
    (c.apply h).references = h.references.add c.referrer c.reference c.referent := by
  cases c <;> rfl

theorem strings_apply (h : Heap) (c : ReferenceCall) : (c.apply h).strings = h.strings := by
  cases c <;> rfl

end ReferenceCall

/-- A new heap with field names registered and the calls made. -/
def recordReferences (idSize : ℕ) (names : List (StringId × Text)) (calls : List ReferenceCall) :
    Heap :=
  calls.foldl ReferenceCall.apply
    (names.foldl (fun h name => h.addString name.1 name.2) (Heap.new idSize))

def Heap.afterLookups (h : Heap) (lookups : List (ObjectId × Text)) : Heap :=
  lookups.foldl (fun h lookup => (h.getFieldReference lookup.1 lookup.2 false).2) h

def lastCall (calls : List ReferenceCall) (referrer referent : ObjectId) : Option ReferenceCall :=
  calls.reverse.find? fun c => decide (c.referrer = referrer ∧ c.referent = referent)

/-- The sequences of calls considered: names and their ids are registered once, field names are
registered, and each field and each array element is set once. -/
structure WellFormedCalls (names : List (StringId × Text)) (calls : List ReferenceCall) : Prop where
  ids : (names.map Prod.fst).Nodup
  texts : (names.map Prod.snd).Nodup
  registered : ∀ referrer f referent st, .field referrer f referent st ∈ calls →
    ∃ name, (f, name) ∈ names
  slots : (calls.map ReferenceCall.slot).Nodup

/-- Every field and every array element is read back, whatever has been looked up before. -/
def ReadsBack (h : Heap) (names : List (StringId × Text)) (calls : List ReferenceCall) : Prop :=
  ∀ lookups,
    (∀ referrer f referent st name, .field referrer f referent st ∈ calls → (f, name) ∈ names →
      ((h.afterLookups lookups).getFieldReference referrer name false).1 = some referent) ∧
    ∀ referrer i referent, .array referrer i referent ∈ calls →
      (h.afterLookups lookups).getArrayReference referrer i = some referent

/-- When references can be read back. A field has to be the last call between its objects. For an
array element the last call between its objects has to store its index (a field stores index 0), and
for index 0 no field of the array object may lead to a smaller object id. -/
structure ReadBackCondition (calls : List ReferenceCall) : Prop where
  field : ∀ referrer f referent st, .field referrer f referent st ∈ calls →
    f ≠ 0 ∧ lastCall calls referrer referent = some (.field referrer f referent st)
  array : ∀ referrer i referent, .array referrer i referent ∈ calls →
    (∃ c, lastCall calls referrer referent = some c ∧ c.reference.index = i) ∧
    (i = 0 → ∀ f referent' st, .field referrer f referent' st ∈ calls → referent ≤ referent')

/-! ## What the Calls Leave in the Heap -/

theorem lastCall_mem {calls : List ReferenceCall} {a b : ObjectId} {c : ReferenceCall}
    (h : lastCall calls a b = some c) : c ∈ calls ∧ c.referrer = a ∧ c.referent = b := by
  have hmem := mem_reverse.mp (mem_of_find?_eq_some h)
  have hp := find?_some h
  exact ⟨hmem, of_decide_eq_true hp⟩

theorem lastCall_concat (calls : List ReferenceCall) (c : ReferenceCall) (a b : ObjectId) :
    lastCall (calls ++ [c]) a b =
      if c.referrer = a ∧ c.referent = b then some c else lastCall calls a b := by
  rw [lastCall]
  by_cases hc : c.referrer = a ∧ c.referent = b
  · simp [hc]
  · simp [hc, lastCall]

theorem references_get (h : Heap) (hemp : h.references = ∅) (calls : List ReferenceCall)
    (a b : ObjectId) :
    (calls.foldl ReferenceCall.apply h).references.get a b =
      (lastCall calls a b).map ReferenceCall.reference := by
  induction calls using reverseRecOn with
  | nil => simp [hemp, lastCall, ReferenceMap.get]
  | append_singleton calls c ih =>
    rw [foldl_append, foldl_cons, foldl_nil, c.references_apply,
      ReferenceMap.get_add, ih, lastCall_concat]
    simp only [eq_comm]
    split <;> rfl

theorem strings_foldl_apply (h : Heap) (calls : List ReferenceCall) :
    (calls.foldl ReferenceCall.apply h).strings = h.strings := by
  induction calls generalizing h with
  | nil => rfl
  | cons c calls ih => rw [foldl_cons, ih, c.strings_apply]

theorem strings_addStrings {names : List (StringId × Text)} (hids : (names.map Prod.fst).Nodup)
    (h : Heap) (id : StringId) (text : Text) :
    (names.foldl (fun h name => h.addString name.1 name.2) h).strings[id]? = some text ↔
      (id, text) ∈ names ∨ (id ∉ names.map Prod.fst ∧ h.strings[id]? = some text) := by
  induction names generalizing h with
  | nil => simp
  | cons name names ih =>
    obtain ⟨hnew, hrest⟩ := nodup_cons.mp hids
    rw [foldl_cons, ih hrest]
    change _ ∨ (_ ∧ (h.strings.insert name.1 name.2)[id]? = _) ↔ _
    rw [OrdMap.get_insert]
    by_cases hid : id = name.1
    · subst hid
      have hnot : (name.1, text) ∉ names := fun hmem =>
        hnew (mem_map.mpr ⟨_, hmem, rfl⟩)
      simp only [hnot, hnew, not_false_eq_true, if_true, true_and, false_or, some.injEq,
        mem_cons, map_cons, not_true_eq_false, false_and, or_false]
      exact ⟨fun h => Prod.ext rfl h.symm, fun h => (Prod.ext_iff.mp h).2.symm⟩
    · have hne : (id, text) ≠ name := fun h => hid (congrArg Prod.fst h)
      simp [hid, hne]

section Lookups

variable {idSize : ℕ} {names : List (StringId × Text)} {calls : List ReferenceCall}

theorem memoCoherent_recordReferences :
    (recordReferences idSize names calls).MemoCoherent := by
  let Fresh (h : Heap) : Prop := h.findStringIdMemorized = ∅ ∧ h.findClassByNameMemorized = ∅
  obtain ⟨hstr, hclass⟩ : Fresh (recordReferences idSize names calls) := by
    refine foldlRecOn (motive := Fresh) calls _ (foldlRecOn (motive := Fresh) names _ ⟨rfl, rfl⟩
      fun _ h _ _ => h) fun _ h c _ => ?_
    cases c <;> exact h
  exact ⟨fun value id hget => by simp [hstr] at hget, fun name id hget => by simp [hclass] at hget⟩

theorem getFieldReference_spec {h : Heap} (hmemo : h.MemoCoherent) (referrer : ObjectId)
    (name : Text) :
    (h.getFieldReference referrer name false).1 =
        (Heap.nonZero (h.findStringIdInternal name)).bind (Heap.scanField h.references referrer) ∧
      h.SameButMemo (h.getFieldReference referrer name false).2 ∧
      (h.getFieldReference referrer name false).2.MemoCoherent := by
  obtain ⟨hfst, hmemo'⟩ := Heap.findStringId_spec hmemo name
  have hsame := Heap.sameButMemo_findStringId h name
  unfold Heap.getFieldReference
  rw [← hfst]
  rcases hfind : h.findStringId name with ⟨result, h'⟩
  rw [hfind] at hsame hmemo'
  cases result with
  | none => exact ⟨rfl, hsame, hmemo'⟩
  | some fieldNameId =>
    have hrefs : h'.references = h.references := hsame.references
    simp only [hrefs, bind_some]
    cases Heap.scanField h.references referrer fieldNameId with
    | none | some referent => exact ⟨rfl, hsame, hmemo'⟩

theorem afterLookups_spec {h : Heap} (hmemo : h.MemoCoherent) (lookups : List (ObjectId × Text)) :
    h.SameButMemo (h.afterLookups lookups) ∧ (h.afterLookups lookups).MemoCoherent := by
  induction lookups generalizing h with
  | nil => exact ⟨.refl h, hmemo⟩
  | cons lookup lookups ih =>
    obtain ⟨_, hsame, hmemo'⟩ := getFieldReference_spec hmemo lookup.1 lookup.2
    obtain ⟨hsame', hmemo''⟩ := ih hmemo'
    exact ⟨hsame.trans hsame', hmemo''⟩

theorem findStringIdInternal_recordReferences (hwf : WellFormedCalls names calls) {f : StringId}
    {name : Text} (hname : (f, name) ∈ names) :
    (recordReferences idSize names calls).findStringIdInternal name = f := by
  have hstrs : ∀ id text, (recordReferences idSize names calls).strings[id]? = some text ↔
      (id, text) ∈ names := by
    intro id text
    rw [recordReferences, strings_foldl_apply, strings_addStrings hwf.ids]
    simp [Heap.new]
  refine Heap.findStringIdInternal_eq ((hstrs f name).mpr hname) fun id' hid' => ?_
  -- a text is registered once
  have hmem := (hstrs id' name).mp hid'
  have : (id', name) = (f, name) := inj_on_of_nodup_map hwf.texts hmem hname rfl
  exact (congrArg Prod.fst this).ge

/-! ## Scans -/

theorem findFirst_eq_some_iff {m : ReferenceMap} {calls : List ReferenceCall}
    (hget : ∀ a b, m.get a b = (lastCall calls a b).map ReferenceCall.reference)
    (p : Reference → Bool) (a b : ObjectId) :
    (m[a]?.bind fun references =>
        (references.findFirst fun _ reference => p reference).map Prod.fst) = some b ↔
      (∃ c, lastCall calls a b = some c ∧ p c.reference = true) ∧
        ∀ b' c, lastCall calls a b' = some c → p c.reference = true → b ≤ b' := by
  have hent : ∀ references, m[a]? = some references → ∀ b',
      references[b']? = (lastCall calls a b').map ReferenceCall.reference := by
    intro references hm b'
    rw [← hget a b', ReferenceMap.get, hm, bind_some]
  cases hm : m[a]? with
  | none =>
    have hnone : lastCall calls a b = none := by
      simpa [ReferenceMap.get, hm] using (hget a b).symm
    simp [hnone]
  | some references =>
    simp only [bind_some, map_eq_some_iff]
    constructor
    · rintro ⟨⟨b₀, reference⟩, hfst, rfl⟩
      obtain ⟨hb, hp, hmin⟩ := OrdMap.findFirst_eq_some.mp hfst
      rw [hent references hm] at hb
      obtain ⟨c, hc, rfl⟩ := map_eq_some_iff.mp hb
      refine ⟨⟨c, hc, hp⟩, fun b' c' hc' hp' => hmin b' c'.reference ?_ hp'⟩
      rw [hent references hm, hc']
      rfl
    · rintro ⟨⟨c, hc, hp⟩, hmin⟩
      refine ⟨(b, c.reference), OrdMap.findFirst_eq_some.mpr ⟨?_, hp, ?_⟩, rfl⟩
      · rw [hent references hm, hc]
        rfl
      · intro b' reference hb' hp'
        rw [hent references hm] at hb'
        obtain ⟨c', hc', rfl⟩ := map_eq_some_iff.mp hb'
        exact hmin b' c' hc' hp'

theorem scanField_eq_bind (m : ReferenceMap) (referrer : ObjectId) (f : StringId) :
    Heap.scanField m referrer f = m[referrer]?.bind fun references =>
      (references.findFirst fun _ reference => decide (reference.fieldNameId = f)).map
        Prod.fst := by
  unfold Heap.scanField
  cases m[referrer]? <;> rfl

theorem getArrayReference_eq_bind (h : Heap) (referrer : ObjectId) (i : ℕ) :
    h.getArrayReference referrer i = h.references[referrer]?.bind fun references =>
      (references.findFirst fun _ reference => decide (reference.index = i)).map Prod.fst := by
  unfold Heap.getArrayReference
  cases h.references[referrer]? <;> rfl

/-- A field is read back exactly if its name id is not 0 and it is the last call between its
objects. -/
theorem scanField_eq_some_iff {m : ReferenceMap} (hslots : (calls.map ReferenceCall.slot).Nodup)
    (hget : ∀ a b, m.get a b = (lastCall calls a b).map ReferenceCall.reference)
    {referrer f referent : ℕ} {st : Bool} (hcall : .field referrer f referent st ∈ calls)
    (hf : f ≠ 0) :
    Heap.scanField m referrer f = some referent ↔
      lastCall calls referrer referent = some (.field referrer f referent st) := by
  -- a reference with this name comes from this call
  have hun : ∀ b c, lastCall calls referrer b = some c → c.reference.fieldNameId = f →
      c = .field referrer f referent st := by
    intro b c hc hname
    obtain ⟨hmem, hrefr, _⟩ := lastCall_mem hc
    refine inj_on_of_nodup_map hslots hmem hcall ?_
    cases c with
    | field r g e s =>
      obtain rfl : r = referrer := hrefr
      obtain rfl : g = f := hname
      rfl
    | array a i e => exact absurd hname.symm hf
  rw [scanField_eq_bind, findFirst_eq_some_iff hget (fun reference => decide (reference.fieldNameId = f))]
  constructor
  · rintro ⟨⟨c, hc, hp⟩, _⟩
    rw [hc, hun referent c hc (of_decide_eq_true hp)]
  · intro hlast
    refine ⟨⟨_, hlast, decide_eq_true rfl⟩, fun b c hc hp => ?_⟩
    have hb := (lastCall_mem hc).2.2
    rw [hun b c hc (of_decide_eq_true hp)] at hb
    exact (hb : referent = b).le

end Lookups

/-! ## The Condition -/

theorem getArrayReference_eq_some_iff {h : Heap} {calls : List ReferenceCall}
    (hslots : (calls.map ReferenceCall.slot).Nodup)
    (hget : ∀ a b, h.references.get a b = (lastCall calls a b).map ReferenceCall.reference)
    (hflds : ∀ referrer f referent st, .field referrer f referent st ∈ calls →
      lastCall calls referrer referent = some (.field referrer f referent st))
    {referrer i referent : ℕ} (hcall : .array referrer i referent ∈ calls) :
    h.getArrayReference referrer i = some referent ↔
      (∃ c, lastCall calls referrer referent = some c ∧ c.reference.index = i) ∧
      (i = 0 → ∀ f referent' st, .field referrer f referent' st ∈ calls → referent ≤ referent') := by
  rw [getArrayReference_eq_bind,
    findFirst_eq_some_iff hget (fun reference => decide (reference.index = i))]
  simp only [decide_eq_true_eq]
  refine and_congr_right fun _ => ⟨fun hmin hi f referent' st hfld => ?_, fun hmin b c hc hidx => ?_⟩
  · exact hmin referent' _ (hflds _ _ _ _ hfld) hi.symm
  · obtain ⟨hmem, hrefr, hreft⟩ := lastCall_mem hc
    cases c with
    | field r f e st =>
      obtain rfl : r = referrer := hrefr
      obtain rfl : e = b := hreft
      exact hmin hidx.symm f e st hmem
    | array a j e =>
      obtain rfl : a = referrer := hrefr
      obtain rfl : j = i := hidx
      have hsame : ReferenceCall.array a j e = .array a j referent :=
        inj_on_of_nodup_map hslots hmem hcall rfl
      cases hsame
      exact hreft.le

/-- **Reading back, exactly**: all fields and array elements can be read back if and only if the
calls meet `ReadBackCondition`. -/
theorem readsBack_iff (idSize : ℕ) {names : List (StringId × Text)} {calls : List ReferenceCall}
    (hwf : WellFormedCalls names calls) :
    ReadsBack (recordReferences idSize names calls) names calls ↔ ReadBackCondition calls := by
  set h := recordReferences idSize names calls with hh
  have hget : ∀ a b, h.references.get a b = (lastCall calls a b).map ReferenceCall.reference := by
    refine references_get _ ?_ calls
    exact foldlRecOn (motive := fun h : Heap => h.references = ∅) names _ rfl fun _ h _ _ => h
  have hmemo : h.MemoCoherent := memoCoherent_recordReferences
  -- the answer for a field, after any lookups
  have hfld : ∀ lookups referrer f referent st name, .field referrer f referent st ∈ calls →
      (f, name) ∈ names →
      (((h.afterLookups lookups).getFieldReference referrer name false).1 = some referent ↔
        f ≠ 0 ∧ lastCall calls referrer referent = some (.field referrer f referent st)) := by
    intro lookups referrer f referent st name hcall hname
    obtain ⟨hsame, hmemo'⟩ := afterLookups_spec hmemo lookups
    rw [(getFieldReference_spec hmemo' referrer name).1, hsame.findStringIdInternal,
      hsame.references, findStringIdInternal_recordReferences hwf hname]
    by_cases hf : f = 0
    · simp [hf, Heap.nonZero]
    · simp only [Heap.nonZero, hf, if_false, bind_some, ne_eq, not_false_eq_true, true_and]
      exact scanField_eq_some_iff hwf.slots hget hcall hf
  constructor
  · intro hread
    have hflds : ∀ referrer f referent st, .field referrer f referent st ∈ calls →
        f ≠ 0 ∧ lastCall calls referrer referent = some (.field referrer f referent st) := by
      intro referrer f referent st hcall
      obtain ⟨name, hname⟩ := hwf.registered _ _ _ _ hcall
      exact (hfld [] _ _ _ _ _ hcall hname).mp ((hread []).1 _ _ _ _ _ hcall hname)
    refine ⟨hflds, fun referrer i referent hcall => ?_⟩
    exact (getArrayReference_eq_some_iff hwf.slots hget (fun r f e st hc => (hflds r f e st hc).2)
      hcall).mp ((hread []).2 referrer i referent hcall)
  · intro hcond lookups
    obtain ⟨hsame, _⟩ := afterLookups_spec hmemo lookups
    refine ⟨fun referrer f referent st name hcall hname => ?_, fun referrer i referent hcall => ?_⟩
    · exact (hfld lookups _ _ _ _ _ hcall hname).mpr (hcond.field _ _ _ _ hcall)
    · rw [getArrayReference_eq_some_iff hwf.slots (by rw [hsame.references]; exact hget)
        (fun r f e st hc => (hcond.field r f e st hc).2) hcall]
      exact hcond.array referrer i referent hcall

/-- An object with a field and an array element, both read back. -/
theorem readsBack_iff_sample :
    let names : List (StringId × Text) := [(0x101, [97])]
    let calls : List ReferenceCall := [.field 1 0x101 2 false, .array 3 0 4]
    WellFormedCalls names calls ∧ ReadsBack (recordReferences 4 names calls) names calls := by
  intro names calls
  have hwf : WellFormedCalls names calls :=
    { ids := by decide
      texts := by decide
      registered := by
        intro referrer f referent st hcall
        simp only [calls, mem_cons, reduceCtorEq, not_mem_nil, or_false,
          ReferenceCall.field.injEq] at hcall
        exact ⟨[97], by simp [names, hcall.2.1]⟩
      slots := by decide }
  refine ⟨hwf, (readsBack_iff 4 hwf).mpr ⟨?_, ?_⟩⟩
  · intro referrer f referent st hcall
    simp only [calls, mem_cons, reduceCtorEq, not_mem_nil, or_false,
      ReferenceCall.field.injEq] at hcall
    obtain ⟨rfl, rfl, rfl, rfl⟩ := hcall
    decide
  · intro referrer i referent hcall
    simp only [calls, mem_cons, reduceCtorEq, not_mem_nil, or_false, false_or,
      ReferenceCall.array.injEq] at hcall
    obtain ⟨rfl, rfl, rfl⟩ := hcall
    refine ⟨⟨_, rfl, rfl⟩, fun _ f referent' st hfld => ?_⟩
    simp [calls] at hfld

/-- Two fields of an object that refer to the same object: only the last one is read back. -/
theorem readsBack_sameReferent_fails :
    ¬ ReadsBack
        (recordReferences 4 [(0x101, [97]), (0x102, [98])]
          [.field 1 0x101 2 false, .field 1 0x102 2 false])
        [(0x101, [97]), (0x102, [98])] [.field 1 0x101 2 false, .field 1 0x102 2 false] := by
  intro hread
  have hfst := (hread []).1 1 0x101 2 false [97] (by simp) (by simp)
  exact absurd hfst (by decide)

end TraceHarbor.Hprof
