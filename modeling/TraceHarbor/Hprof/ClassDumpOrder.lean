import TraceHarbor.Hprof.ExcludeMatchers

/-!
# Does the Order of Class Dumps Matter?

Whether a static field is excluded is decided when its class dump is parsed, from the superclasses
recorded so far. A matcher that names an indirect superclass is missed when the dump of the class comes
before the dump of the class in between. `orderIndependent_iff` says exactly when every order yields the
same split.
-/

namespace TraceHarbor.Hprof

open TraceHarbor.Lib Relation List Option

/-! ## The Specification -/

/-- A heap with the string and load-class records of a dump parsed. -/
def loadedHeap (idSize : ℕ) (strings : List (StringId × Text))
    (classes : List (ObjectId × StringId)) : Heap :=
  classes.foldl (fun h c => h.addClassNameRecord c.1 c.2)
    (strings.foldl (fun h s => h.addString s.1 s.2) (Heap.new idSize))

/-- Some dump has `b` as the superclass of `a`. -/
def SuperOf (dumps : List ClassDump) (a b : ObjectId) : Prop :=
  b ≠ 0 ∧ ∃ d ∈ dumps, d.classId = a ∧ d.superClassId = b

/-- The matcher names the field (or any) and a class on the superclass chain (or any). -/
def FieldExcludeMatcher.Names (h : Heap) (dumps : List ClassDump) (matcher : FieldExcludeMatcher)
    (classId : ObjectId) (fieldNameId : StringId) : Prop :=
  (matcher.fieldNameFullMatch = true ∨ h.getString fieldNameId = some matcher.fieldName) ∧
    (matcher.classNameFullMatch = true ∨ ∃ a, ReflTransGen (SuperOf dumps) classId a ∧
      h.getClassName a = some matcher.className)

def ShouldExclude (h : Heap) (dumps : List ClassDump) (matchers : List FieldExcludeMatcher)
    (classId : ObjectId) (fieldNameId : StringId) : Prop :=
  ∃ matcher ∈ matchers, matcher.Names h dumps classId fieldNameId

/-- Every order of the sub-records parses, to the same references and excluded references, and
exactly the static fields named by a matcher are excluded. -/
def OrderIndependent {idSize : ℕ} (h : Heap) (matchers : List FieldExcludeMatcher)
    (records : List (ClassSubRecord idSize)) : Prop :=
  ∃ references excludedReferences, ∀ order : List (ClassSubRecord idSize), order.Perm records →
    ∃ fuel₀ h' statics r,
      (∀ fuel ≥ fuel₀, parseClassSubRecords fuel matchers order.length h
        ⟨(order.map ClassSubRecord.bytes).flatten, 0⟩ = some ((h', statics), r)) ∧
      h'.references = references ∧ h'.excludedReferences = excludedReferences ∧
      (∀ record ∈ records, ∀ f e, (f, some e) ∈ record.dump.staticFields →
        ∃ excluded, ⟨record.dump.classId, f, e, excluded⟩ ∈ statics) ∧
      ∀ s ∈ statics, s.excluded = true ↔
        ShouldExclude h (records.map ClassSubRecord.dump) matchers s.classId s.fieldNameId

/-- The superclass walks end, and what should be excluded is hit through the class itself or its
direct superclass already. -/
structure MatchedDirectly {idSize : ℕ} (h : Heap) (matchers : List FieldExcludeMatcher)
    (records : List (ClassSubRecord idSize)) : Prop where
  walks : ∀ record ∈ records, ∀ m ∈ matchers.filterMap h.resolve, m.classId ≠ 0 →
    WalkEnds (SuperOf (records.map ClassSubRecord.dump)) record.dump.classId m.classId
  direct : ∀ record ∈ records, ∀ f e, (f, some e) ∈ record.dump.staticFields →
    ShouldExclude h (records.map ClassSubRecord.dump) matchers record.dump.classId f →
    ∃ m ∈ matchers.filterMap h.resolve, (m.fieldNameId = 0 ∨ m.fieldNameId = f) ∧
      (m.classId = 0 ∨ m.classId = record.dump.classId ∨ m.classId = record.dump.superClassId)

/-! ## Partly Parsed Dumps -/

/-- The heap `h` has the names of `h₀` and the superclasses of `done`. -/
structure Parsed (h₀ : Heap) (done : List ClassDump) (h : Heap) : Prop where
  idSize : h.idSize = h₀.idSize
  strings : h.strings = h₀.strings
  classNames : h.classNames = h₀.classNames
  memo : h.MemoCoherent
  super : ∀ a b, h.SuperStep a b ↔ SuperOf done a b

variable {done : List ClassDump} {d : ClassDump} {b : ObjectId}

theorem superOf_concat {a : ObjectId} :
    SuperOf (done ++ [d]) a b ↔
      SuperOf done a b ∨ (b ≠ 0 ∧ d.classId = a ∧ d.superClassId = b) := by
  simp only [SuperOf, mem_append, mem_singleton, or_and_right, exists_or, and_or_left,
    exists_eq_left]

theorem SuperOf.mono {dumps dumps' : List ClassDump} (hsub : dumps ⊆ dumps') {a : ObjectId}
    (h : SuperOf dumps a b) : SuperOf dumps' a b := by
  obtain ⟨hb, d, hd, heq⟩ := h
  exact ⟨hb, d, hsub hd, heq⟩

theorem SuperOf.unique {dumps : List ClassDump} (hnd : (dumps.map ClassDump.classId).Nodup)
    {a c : ObjectId} (hb : SuperOf dumps a b) (hc : SuperOf dumps a c) : b = c := by
  obtain ⟨_, d, hd, hda, rfl⟩ := hb
  obtain ⟨_, d', hd', hda', rfl⟩ := hc
  rw [inj_on_of_nodup_map hnd hd hd' (hda.trans hda'.symm)]

theorem getSuperClass_insert (h : Heap) (c s a : ObjectId) :
    (h.addInheritanceRecord c s).getSuperClass a =
      if a = c then Heap.nonZero s else h.getSuperClass a := by
  unfold Heap.getSuperClass Heap.addInheritanceRecord
  rw [OrdMap.get_insert]
  by_cases ha : a = c <;> simp [ha]

variable {h : Heap}

theorem superStep_record {h₀ : Heap} (hprs : Parsed h₀ done h)
    (hnew : d.classId ∉ done.map ClassDump.classId) (a b : ObjectId) :
    (d.record h).SuperStep a b ↔ SuperOf (done ++ [d]) a b := by
  have hget : (d.record h).getSuperClass a =
      if a = d.classId then Heap.nonZero d.superClassId else h.getSuperClass a :=
    getSuperClass_insert _ _ _ _
  rw [superOf_concat, Heap.SuperStep, hget]
  by_cases ha : a = d.classId
  · have hnot : ¬ SuperOf done a b := by
      rintro ⟨_, d', hd', rfl, _⟩
      exact hnew (ha ▸ mem_map_of_mem hd')
    rw [if_pos ha, Heap.nonZero]
    by_cases hs : d.superClassId = 0
    · simp only [hs, if_true, reduceCtorEq, hnot, false_or, false_iff, not_and]
      rintro hb - rfl
      exact hb rfl
    · simp only [hs, if_false, some.injEq, hnot, false_or, ha.symm, true_and]
      exact ⟨fun h => ⟨h ▸ hs, h⟩, fun h => h.2⟩
  · rw [if_neg ha]
    have hno : ¬ d.classId = a := fun h => ha h.symm
    simp only [hno, false_and, and_false, or_false]
    exact hprs.super a b

theorem Heap.MemoCoherent.of_naming {h' : Heap} (hmemo : h.MemoCoherent)
    (hstrs : h'.strings = h.strings) (hclas : h'.classNames = h.classNames)
    (hs : h'.findStringIdMemorized = h.findStringIdMemorized)
    (hc : h'.findClassByNameMemorized = h.findClassByNameMemorized) : h'.MemoCoherent := by
  have hfind : ∀ value, h'.findStringIdInternal value = h.findStringIdInternal value := by
    intro value
    unfold Heap.findStringIdInternal Heap.getString
    rw [hstrs]
  have hclass : ∀ name, h'.classIdOf name = h.classIdOf name := by
    intro name
    unfold Heap.classIdOf
    rw [hfind, hclas]
  refine ⟨fun value id hget => ?_, fun name id hget => ?_⟩
  · rw [hfind]
    exact hmemo.strings value id (hs ▸ hget)
  · rw [hclass]
    exact hmemo.classes name id (hc ▸ hget)

theorem Parsed.resolve {h₀ : Heap} (hprs : Parsed h₀ done h) : h.resolve = h₀.resolve := by
  have hfind : ∀ value, h.findStringIdInternal value = h₀.findStringIdInternal value := by
    intro value
    unfold Heap.findStringIdInternal Heap.getString
    rw [hprs.strings]
  funext matcher
  unfold Heap.resolve Heap.resolveClass Heap.resolveField Heap.classIdOf
  simp only [hfind, hprs.classNames]

/-! ## Applying One Dump -/

/-- Adding a static reference to one of the two sides. -/
def StaticReference.addWhen (side : Bool) (m : ReferenceMap) (s : StaticReference) :
    ReferenceMap :=
  if s.excluded = side then
    m.add s.classId (Heap.fieldReference true s.fieldNameId) s.referentId
  else m

theorem references_addStatics (log : List StaticReference) (h : Heap) :
    (log.foldl StaticReference.addTo h).references =
        log.foldl (StaticReference.addWhen false) h.references ∧
      (log.foldl StaticReference.addTo h).excludedReferences =
        log.foldl (StaticReference.addWhen true) h.excludedReferences := by
  induction log generalizing h with
  | nil => exact ⟨rfl, rfl⟩
  | cons s log ih =>
    simp only [foldl_cons]
    obtain ⟨h₁, h₂⟩ := ih (s.addTo h)
    rw [h₁, h₂, StaticReference.addTo]
    cases hs : s.excluded <;> simp [StaticReference.addWhen, hs] <;> exact ⟨rfl, rfl⟩

theorem references_addInstanceFields (classId : ObjectId) (fields : List Field) (h : Heap) :
    let h' := fields.foldl (fun h field => h.addInstanceFieldRecord classId field) h
    h'.references = h.references ∧ h'.excludedReferences = h.excludedReferences := by
  induction fields generalizing h with
  | nil => exact ⟨rfl, rfl⟩
  | cons field fields ih => exact ih _

/-- A field is excluded with the superclasses of `dumps` recorded. -/
def CodeExcludes (h : Heap) (matchers : List FieldExcludeMatcher) (dumps : List ClassDump)
    (classId : ObjectId) (fieldNameId : StringId) : Prop :=
  ∃ m ∈ matchers.filterMap h.resolve, (m.fieldNameId = 0 ∨ m.fieldNameId = fieldNameId) ∧
    (m.classId = 0 ∨ ReflTransGen (SuperOf dumps) classId m.classId)

open Classical in
/-- The static references of a class, the excluded ones given by a predicate. -/
noncomputable def ClassDump.staticsBy (p : StringId → Prop) (d : ClassDump) :
    List StaticReference :=
  d.staticFields.filterMap fun field => field.2.map fun e => ⟨d.classId, field.1, e, decide (p field.1)⟩

theorem ClassDump.mem_staticsBy {p : StringId → Prop} {s : StaticReference} :
    s ∈ d.staticsBy p ↔ s.classId = d.classId ∧
      (s.fieldNameId, some s.referentId) ∈ d.staticFields ∧
      (s.excluded = true ↔ p s.fieldNameId) := by
  simp only [staticsBy, mem_filterMap, map_eq_some_iff]
  constructor
  · rintro ⟨⟨f, _⟩, hmem, e, rfl, rfl⟩
    exact ⟨rfl, hmem, by simp⟩
  · rintro ⟨hclass, hmem, hp⟩
    refine ⟨_, hmem, s.referentId, rfl, ?_⟩
    obtain ⟨c, f, e, b⟩ := s
    cases b <;> simp_all

theorem superStep_sameButMemo {h' : Heap} (hs : h.SameButMemo h') : h'.SuperStep = h.SuperStep := by
  obtain ⟨_, _, rfl⟩ := hs
  rfl

section Apply

variable {h₀ h h' : Heap} {done : List ClassDump} {d : ClassDump}
  {matchers : List FieldExcludeMatcher} {log : List StaticReference} {fuel : ℕ}

private theorem matching_spec (matchers : List FieldExcludeMatcher) (hprs : Parsed h₀ done h)
    (hnew : d.classId ∉ done.map ClassDump.classId) :
    (flattenFieldExcludeMatchers matchers (d.record h)).1 = matchers.filterMap h₀.resolve ∧
      (flattenFieldExcludeMatchers matchers (d.record h)).2.MemoCoherent ∧
      (flattenFieldExcludeMatchers matchers (d.record h)).2.SuperStep = SuperOf (done ++ [d]) := by
  have hmemo : (d.record h).MemoCoherent := hprs.memo.of_naming rfl rfl rfl rfl
  obtain ⟨hlist, hmemo'⟩ := flattenFieldExcludeMatchers_spec hmemo matchers
  refine ⟨?_, hmemo', ?_⟩
  · rw [hlist, ← hprs.resolve]
    rfl
  · rw [superStep_sameButMemo (sameButMemo_flattenFieldExcludeMatchers matchers (d.record h))]
    funext a b
    exact propext (superStep_record hprs hnew a b)

/-- **One dump** that is applied leaves its references, split as matching says, and records its
superclass. -/
theorem ClassDump.apply_sound (hprs : Parsed h₀ done h)
    (hnew : d.classId ∉ done.map ClassDump.classId)
    (happ : d.apply fuel matchers h = some (h', log)) :
    Parsed h₀ (done ++ [d]) h' ∧
      log = d.staticsBy (CodeExcludes h₀ matchers (done ++ [d]) d.classId) ∧
      (∀ m ∈ matchers.filterMap h₀.resolve, m.classId ≠ 0 →
        WalkEnds (SuperOf (done ++ [d])) d.classId m.classId) ∧
      h'.references = log.foldl (StaticReference.addWhen false) h.references ∧
      h'.excludedReferences = log.foldl (StaticReference.addWhen true) h.excludedReferences := by
  obtain ⟨hlist, hmemo, hsup⟩ := matching_spec matchers hprs hnew
  have hnam := naming_apply happ
  obtain ⟨hits, hhits, hres⟩ := map_eq_some_iff.mp happ
  obtain ⟨hmem, hwalks⟩ := classMatchMatchers_sound hhits
  rw [hsup] at hmem hwalks
  obtain ⟨s, c, hsame⟩ := sameButMemo_flattenFieldExcludeMatchers matchers (d.record h)
  rw [hlist] at hmem hwalks
  refine ⟨?_, ?_, hwalks, ?_, ?_⟩
  · have hflds : h'.idSize = h.idSize ∧ h'.strings = h.strings ∧
        h'.classNames = h.classNames := by
      rw [hsame] at hnam
      exact ⟨congrArg Heap.Naming.idSize hnam, congrArg Heap.Naming.strings hnam,
        congrArg Heap.Naming.classNames hnam⟩
    refine ⟨hflds.1.trans hprs.idSize, hflds.2.1.trans hprs.strings,
      hflds.2.2.trans hprs.classNames, ?_, ?_⟩
    · exact hmemo.of_naming (congrArg Heap.Naming.strings hnam)
        (congrArg Heap.Naming.classNames hnam)
        (congrArg Heap.Naming.findStringIdMemorized hnam)
        (congrArg Heap.Naming.findClassByNameMemorized hnam)
    · intro a b
      have hinh := congrArg Heap.Naming.inheritance hnam
      change h'.inheritance = _ at hinh
      rw [← hsup, Heap.SuperStep, Heap.getSuperClass, hinh]
      rfl
  · cases hres
    refine filterMap_congr fun field _ => ?_
    refine congrFun (congrArg Option.map (funext fun e => ?_)) field.2
    have hex : (fieldExcluded hits field.1 = true) ↔
        CodeExcludes h₀ matchers (done ++ [d]) d.classId field.1 := by
      simp only [fieldExcluded, List.any_eq_true, decide_eq_true_eq, CodeExcludes, hmem]
      constructor
      · rintro ⟨m, ⟨hm, hc⟩, hf⟩
        exact ⟨m, hm, hf, hc⟩
      · rintro ⟨m, hm, hf, hc⟩
        exact ⟨m, ⟨hm, hc⟩, hf⟩
    classical
    congr 1
    rw [Bool.eq_iff_iff, hex, decide_eq_true_eq]
  · cases hres
    rw [(references_addInstanceFields _ _ _).1, (references_addStatics _ _).1, hsame]
    rfl
  · cases hres
    rw [(references_addInstanceFields _ _ _).2, (references_addStatics _ _).2, hsame]
    rfl

theorem ClassDump.apply_terminates (hprs : Parsed h₀ done h)
    (hnew : d.classId ∉ done.map ClassDump.classId)
    (hwalks : ∀ m ∈ matchers.filterMap h₀.resolve, m.classId ≠ 0 →
      WalkEnds (SuperOf (done ++ [d])) d.classId m.classId) :
    ∃ fuel₀ h' log, ∀ fuel ≥ fuel₀, d.apply fuel matchers h = some (h', log) := by
  obtain ⟨hlist, _, hsup⟩ := matching_spec matchers hprs hnew
  rw [← hlist, ← hsup] at hwalks
  obtain ⟨fuel₀, hits, hrun⟩ := classMatchMatchers_terminates hwalks
  obtain ⟨⟨h', log⟩, hres⟩ : ∃ result, d.apply fuel₀ matchers h = some result := by
    simp only [apply, hrun fuel₀ le_rfl, map_some]
    exact ⟨_, rfl⟩
  refine ⟨fuel₀, h', log, fun fuel hle => ?_⟩
  simp only [apply, hrun fuel₀ le_rfl] at hres
  simp only [apply, hrun fuel hle, hres]

end Apply

/-! ## Applying All Dumps -/

section ApplyAll

variable {h₀ h h' : Heap} {done dumps : List ClassDump}
  {matchers : List FieldExcludeMatcher} {log : List StaticReference} {fuel : ℕ}

theorem ClassDump.applyAll_append (xs ys : List ClassDump) (h : Heap) :
    applyAll fuel matchers (xs ++ ys) h = do
      let (h, log) ← applyAll fuel matchers xs h
      let (h, more) ← applyAll fuel matchers ys h
      return (h, log ++ more) := by
  induction xs generalizing h with
  | nil => simp [applyAll]
  | cons d xs ih =>
    rw [cons_append, applyAll, applyAll]
    simp only [ih, LawfulMonad.bind_assoc, LawfulMonad.pure_bind, append_assoc]

theorem ClassDump.applyAll_parsed (hprs : Parsed h₀ done h)
    (hnd : ((done ++ dumps).map classId).Nodup)
    (hrun : applyAll fuel matchers dumps h = some (h', log)) : Parsed h₀ (done ++ dumps) h' := by
  induction dumps generalizing done h log with
  | nil =>
    cases hrun
    simpa using hprs
  | cons d dumps ih =>
    obtain ⟨⟨h₁, log₁⟩, happ, hrun⟩ := bind_eq_some_iff.mp hrun
    obtain ⟨⟨h₂, log₂⟩, hrest, hrun⟩ := bind_eq_some_iff.mp hrun
    cases hrun
    have hnew : d.classId ∉ done.map classId := by
      rw [map_append] at hnd
      exact fun hmem => (disjoint_of_nodup_append hnd) hmem (mem_cons_self ..)
    rw [append_cons] at hnd ⊢
    exact ih (apply_sound hprs hnew happ).1 hnd hrest

theorem ClassDump.staticsBy_congr {p q : StringId → Prop}
    (hpq : ∀ f e, (f, some e) ∈ d.staticFields → (p f ↔ q f)) : d.staticsBy p = d.staticsBy q := by
  classical
  refine filterMap_congr fun field hfld => ?_
  obtain ⟨f, _ | e⟩ := field
  · rfl
  · simp [hpq f e hfld]

/-- If every decision agrees with `p`, whatever has been parsed before, the dumps are applied and
leave the split given by `p`. -/
theorem ClassDump.applyAll_of_decisions {all : List ClassDump} (p : ObjectId → StringId → Prop)
    (hwalks : ∀ d ∈ all, ∀ m ∈ matchers.filterMap h₀.resolve, m.classId ≠ 0 →
      WalkEnds (SuperOf all) d.classId m.classId)
    (hall : (all.map classId).Nodup)
    (hdec : ∀ d ∈ all, ∀ done ⊆ all, d ∈ done → ∀ f e, (f, some e) ∈ d.staticFields →
      (CodeExcludes h₀ matchers done d.classId f ↔ p d.classId f))
    (hprs : Parsed h₀ done h) (hnd : ((done ++ dumps).map classId).Nodup)
    (hsub : done ++ dumps ⊆ all) :
    ∃ fuel₀ h', ∀ fuel ≥ fuel₀,
      applyAll fuel matchers dumps h =
        some (h', dumps.flatMap fun d => d.staticsBy (p d.classId)) ∧
      h'.references = (dumps.flatMap fun d => d.staticsBy (p d.classId)).foldl
        (StaticReference.addWhen false) h.references ∧
      h'.excludedReferences = (dumps.flatMap fun d => d.staticsBy (p d.classId)).foldl
        (StaticReference.addWhen true) h.excludedReferences := by
  induction dumps generalizing done h with
  | nil => exact ⟨0, h, fun _ _ => ⟨rfl, rfl, rfl⟩⟩
  | cons d dumps ih =>
    have hnew : d.classId ∉ done.map classId := by
      rw [map_append] at hnd
      exact fun hmem => (disjoint_of_nodup_append hnd) hmem (mem_cons_self ..)
    rw [append_cons] at hnd hsub
    have hsub₁ : done ++ [d] ⊆ all := fun x hx => hsub (mem_append_left _ hx)
    have hd : d ∈ all := hsub₁ (by simp)
    have hends : ∀ m ∈ matchers.filterMap h₀.resolve, m.classId ≠ 0 →
        WalkEnds (SuperOf (done ++ [d])) d.classId m.classId := fun m hm hne =>
      WalkEnds.of_sub (fun _ _ => SuperOf.mono hsub₁) (fun _ _ _ => SuperOf.unique hall)
        (hwalks d hd m hm hne)
    obtain ⟨fuel₁, h₁, log₁, happ⟩ := apply_terminates hprs hnew hends
    obtain ⟨hprs₁, hlog₁, _, href₁, hexc₁⟩ := apply_sound hprs hnew (happ fuel₁ le_rfl)
    have hlog : log₁ = d.staticsBy (p d.classId) :=
      hlog₁.trans (staticsBy_congr (hdec d hd _ hsub₁ (by simp)))
    obtain ⟨fuel₂, h₂, hrest⟩ := ih hprs₁ hnd hsub
    refine ⟨max fuel₁ fuel₂, h₂, fun fuel hle => ?_⟩
    obtain ⟨hrun, href, hexc⟩ := hrest fuel (le_of_max_le_right hle)
    simp only [applyAll, happ fuel (le_of_max_le_left hle), bind_eq_bind,
      bind_some, hrun, flatMap_cons, foldl_append, hlog]
    refine ⟨rfl, ?_, ?_⟩
    · rw [href, href₁, hlog]
    · rw [hexc, hexc₁, hlog]

end ApplyAll

/-! ## The Reference Maps Do Not Depend on the Order -/

theorem getElem_foldl_addWhen (side : Bool) (log : List StaticReference) (m : ReferenceMap)
    (a : ObjectId) :
    (log.foldl (StaticReference.addWhen side) m)[a]? =
      (log.filter fun s => s.classId = a ∧ s.excluded = side).foldl
        (fun inner s => some ((inner.getD ∅).insert s.referentId
          (Heap.fieldReference true s.fieldNameId))) m[a]? := by
  induction log generalizing m with
  | nil => rfl
  | cons s log ih =>
    rw [foldl_cons, ih, StaticReference.addWhen]
    by_cases hside : s.excluded = side
    · rw [if_pos hside, ReferenceMap.add, OrdMap.get_insert]
      by_cases ha : s.classId = a
      · simp [ha, hside]
      · have : ¬ a = s.classId := fun h => ha h.symm
        simp [ha, this]
    · simp [hside]

variable {f : ClassDump → List StaticReference}

theorem filter_flatMap_perm
    (hf : ∀ d, ∀ s ∈ f d, s.classId = d.classId) {xs ys : List ClassDump} (hperm : xs.Perm ys)
    (hnd : (xs.map ClassDump.classId).Nodup) (side : Bool) (a : ObjectId) :
    (xs.flatMap f).filter (fun s => decide (s.classId = a ∧ s.excluded = side)) =
      (ys.flatMap f).filter fun s => decide (s.classId = a ∧ s.excluded = side) := by
  have hoth : ∀ d, d.classId ≠ a →
      (f d).filter (fun s => decide (s.classId = a ∧ s.excluded = side)) = [] := by
    intro d hd
    refine filter_eq_nil_iff.mpr fun s hs => ?_
    simp [hf d s hs, hd]
  induction hperm with
  | nil => rfl
  | cons d _ ih =>
    simp only [flatMap_cons, filter_append, ih (nodup_cons.mp hnd).2]
  | swap d d' l =>
    simp only [flatMap_cons, filter_append]
    have hne : d'.classId ≠ d.classId := by
      simp only [map_cons, nodup_cons, mem_cons, not_or] at hnd
      exact hnd.1.1
    by_cases hd : d.classId = a
    · rw [hoth d' fun h => hne (h.trans hd.symm)]
      simp
    · rw [hoth d hd]
      simp
  | trans hxy _ ih₁ ih₂ =>
    exact (ih₁ hnd).trans (ih₂ ((hxy.map _).nodup_iff.mp hnd))

theorem foldl_addWhen_perm
    (hf : ∀ d, ∀ s ∈ f d, s.classId = d.classId) {xs ys : List ClassDump} (hperm : xs.Perm ys)
    (hnd : (xs.map ClassDump.classId).Nodup) (side : Bool) (m : ReferenceMap) :
    (xs.flatMap f).foldl (StaticReference.addWhen side) m =
      (ys.flatMap f).foldl (StaticReference.addWhen side) m := by
  refine Std.ExtTreeMap.ext_getElem? fun a => ?_
  rw [getElem_foldl_addWhen, getElem_foldl_addWhen, filter_flatMap_perm hf hperm hnd]

/-! ## The Condition -/

theorem CodeExcludes.shouldExclude {matchers : List FieldExcludeMatcher} {all : List ClassDump}
    {c : ObjectId} {f : StringId} (hsub : done ⊆ all) (hcode : CodeExcludes h matchers done c f) :
    ShouldExclude h all matchers c f := by
  obtain ⟨m, hm, hfld, hclass⟩ := hcode
  obtain ⟨matcher, hmatc, hrslv⟩ := mem_filterMap.mp hm
  obtain ⟨classId, hclassId, hmap⟩ := bind_eq_some_iff.mp hrslv
  obtain ⟨fieldNameId, hfieldId, rfl⟩ := map_eq_some_iff.mp hmap
  refine ⟨matcher, hmatc, ?_, ?_⟩
  · unfold Heap.resolveField at hfieldId
    split at hfieldId
    · exact .inl ‹_›
    · have hname := Heap.getString_of_findStringIdInternal hfieldId
      obtain ⟨hne, heq⟩ := Heap.nonZero_eq_some.mp hfieldId
      rcases hfld with hzero | hsame
      · exact absurd (heq.trans hzero) hne
      · exact .inr (hsame ▸ hname)
  · unfold Heap.resolveClass at hclassId
    split at hclassId
    · exact .inl ‹_›
    · have hname := Heap.getClassName_of_classIdOf hclassId
      obtain ⟨hne, heq⟩ := Heap.nonZero_eq_some.mp hclassId
      rcases hclass with hzero | hchain
      · exact absurd (heq.trans hzero) hne
      · exact .inr ⟨classId, hchain.lift id fun _ _ => SuperOf.mono hsub, hname⟩

theorem reflTransGen_superOf_singleton (h : ReflTransGen (SuperOf [d]) d.classId b) :
    b = d.classId ∨ b = d.superClassId := by
  induction h with
  | refl => exact .inl rfl
  | tail _ hstep _ =>
    obtain ⟨_, d', hd', _, rfl⟩ := hstep
    rw [mem_singleton.mp hd']
    exact .inr rfl

section Main

variable {idSize : ℕ} {strings : List (StringId × Text)} {classes : List (ObjectId × StringId)}
  {matchers : List FieldExcludeMatcher} {records : List (ClassSubRecord idSize)}

theorem parsed_loadedHeap :
    Parsed (loadedHeap idSize strings classes) [] (loadedHeap idSize strings classes) ∧
      (loadedHeap idSize strings classes).idSize = idSize := by
  let Fresh (h : Heap) : Prop := h.idSize = idSize ∧ h.inheritance = ∅ ∧
    h.findStringIdMemorized = ∅ ∧ h.findClassByNameMemorized = ∅
  obtain ⟨hid, hinh, hstr, hclass⟩ : Fresh (loadedHeap idSize strings classes) :=
    foldlRecOn (motive := Fresh) classes _ (foldlRecOn (motive := Fresh) strings _
      ⟨rfl, rfl, rfl, rfl⟩ fun _ h _ _ => h) fun _ h _ _ => h
  refine ⟨⟨rfl, rfl, rfl, ⟨fun value id hget => ?_, fun name id hget => ?_⟩, fun a b => ?_⟩, hid⟩
  · simp [hstr] at hget
  · simp [hclass] at hget
  · simp [Heap.SuperStep, Heap.getSuperClass, hinh, SuperOf]

/-- If the order does not matter, the condition holds. -/
theorem OrderIndependent.matchedDirectly (hpos : 0 < idSize)
    (hnodu : (records.map fun record => record.dump.classId).Nodup)
    (hind : OrderIndependent (loadedHeap idSize strings classes) matchers records) :
    MatchedDirectly (loadedHeap idSize strings classes) matchers records := by
  obtain ⟨hprs, hid⟩ := @parsed_loadedHeap idSize strings classes
  set h₀ := loadedHeap idSize strings classes
  obtain ⟨_, _, hind⟩ := hind
  -- what parsing in some order means for the contents
  have hord : ∀ order : List (ClassSubRecord idSize), order.Perm records →
      ∃ fuel h' log, ClassDump.applyAll fuel matchers (order.map ClassSubRecord.dump) h₀ =
          some (h', log) ∧
        (∀ record ∈ records, ∀ f e, (f, some e) ∈ record.dump.staticFields →
          ∃ excluded, ⟨record.dump.classId, f, e, excluded⟩ ∈ log) ∧
        ∀ s ∈ log, s.excluded = true ↔
          ShouldExclude h₀ (records.map ClassSubRecord.dump) matchers s.classId s.fieldNameId := by
    intro order hperm
    obtain ⟨fuel, h', log, r, hparse, _, _, hcomp, hsplit⟩ := hind order hperm
    have hrun := hparse fuel le_rfl
    have heq := parseClassSubRecords_eq hpos fuel matchers order h₀ hid []
    rw [nil_append, length_nil, hrun] at heq
    obtain ⟨result, happ, hres⟩ := map_eq_some_iff.mp heq.symm
    cases hres
    exact ⟨fuel, h', log, happ, hcomp, hsplit⟩
  have hnodu' : ∀ order : List (ClassSubRecord idSize), order.Perm records →
      ((order.map ClassSubRecord.dump).map ClassDump.classId).Nodup := by
    intro order hperm
    rw [List.map_map]
    exact (hperm.map _).nodup_iff.mpr hnodu
  constructor
  · -- parse the record last: all superclasses are known
    intro record hrec m hm hne
    obtain ⟨before, after, hsplit⟩ := append_of_mem hrec
    have hperm : ((before ++ after) ++ [record]).Perm records := by
      rw [hsplit]
      exact (perm_append_singleton _ _).trans perm_middle.symm
    obtain ⟨fuel, h', log, hrun, _, _⟩ := hord _ hperm
    have hnd := hnodu' _ hperm
    rw [map_append] at hrun hnd
    rw [ClassDump.applyAll_append] at hrun
    obtain ⟨⟨h₁, log₁⟩, hfst, hrun⟩ := bind_eq_some_iff.mp hrun
    obtain ⟨⟨h₂, log₂⟩, hlast, _⟩ := bind_eq_some_iff.mp hrun
    obtain ⟨⟨h₃, log₃⟩, happ, _⟩ := bind_eq_some_iff.mp hlast
    have hnd' := hnd
    rw [map_append] at hnd'
    have hprs₁ := ClassDump.applyAll_parsed hprs
      (by exact hnd'.of_append_left) hfst
    have hnew : record.dump.classId ∉
        ((before ++ after).map ClassSubRecord.dump).map ClassDump.classId :=
      fun hmem => (disjoint_of_nodup_append hnd') hmem (mem_singleton_self _)
    obtain ⟨_, _, hwalks, _⟩ := ClassDump.apply_sound hprs₁ hnew happ
    refine WalkEnds.of_sub (fun _ _ => SuperOf.mono ?_) (fun _ _ _ => SuperOf.unique hnd)
      (hwalks m hm hne)
    intro d hd
    have := (hperm.map ClassSubRecord.dump).mem_iff.mpr hd
    rwa [map_append] at this
  · -- parse the record first: only its direct superclass is known
    intro record hrec f e hfld hshou
    obtain ⟨before, after, hsplit⟩ := append_of_mem hrec
    have hperm : (record :: (before ++ after)).Perm records := by
      rw [hsplit]
      exact perm_middle.symm
    obtain ⟨fuel, h', log, hrun, _, hlog⟩ := hord _ hperm
    obtain ⟨⟨h₁, log₁⟩, happ, hrun⟩ := bind_eq_some_iff.mp hrun
    obtain ⟨⟨h₂, log₂⟩, _, hrun⟩ := bind_eq_some_iff.mp hrun
    cases hrun
    obtain ⟨_, hlog₁, _⟩ := ClassDump.apply_sound hprs (by simp) happ
    rw [nil_append] at hlog₁
    classical
    set p := CodeExcludes h₀ matchers [record.dump] record.dump.classId
    have hmem : (⟨record.dump.classId, f, e, decide (p f)⟩ : StaticReference) ∈ log₁ := by
      rw [hlog₁, ClassDump.mem_staticsBy]
      exact ⟨rfl, hfld, by simp⟩
    have hcode : p f := by
      simpa using (hlog _ (mem_append_left _ hmem)).mpr hshou
    obtain ⟨m, hm, hmf, hmc⟩ := hcode
    exact ⟨m, hm, hmf, hmc.imp id reflTransGen_superOf_singleton⟩

/-- **Class-dump order, exactly**: all orders yield the specified split if and only if every superclass
walk ends and every static field to be excluded is matched through any class, its own class or its
direct superclass. -/
theorem orderIndependent_iff (hpos : 0 < idSize)
    (hnodup : (records.map fun record => record.dump.classId).Nodup) :
    OrderIndependent (loadedHeap idSize strings classes) matchers records ↔
      MatchedDirectly (loadedHeap idSize strings classes) matchers records := by
  refine ⟨fun hind => hind.matchedDirectly hpos hnodup, fun hmatc => ?_⟩
  obtain ⟨hprs, hid⟩ := @parsed_loadedHeap idSize strings classes
  set h₀ := loadedHeap idSize strings classes
  set all := records.map ClassSubRecord.dump with hall
  have hnd' : (all.map ClassDump.classId).Nodup := by
    rw [List.map_map]
    exact hnodup
  have hwalks : ∀ d ∈ all, ∀ m ∈ matchers.filterMap h₀.resolve, m.classId ≠ 0 →
      WalkEnds (SuperOf all) d.classId m.classId := by
    intro d hd
    obtain ⟨record, hrec, rfl⟩ := mem_map.mp hd
    exact hmatc.walks record hrec
  -- every decision is the specified one
  have hdec : ∀ d ∈ all, ∀ done ⊆ all, d ∈ done → ∀ f e, (f, some e) ∈ d.staticFields →
      (CodeExcludes h₀ matchers done d.classId f ↔ ShouldExclude h₀ all matchers d.classId f) := by
    intro d hd done hsub hdone f e hfld
    refine ⟨CodeExcludes.shouldExclude hsub, fun hshou => ?_⟩
    obtain ⟨record, hrec, rfl⟩ := mem_map.mp hd
    obtain ⟨m, hm, hmf, hmc⟩ := hmatc.direct record hrec f e hfld hshou
    refine ⟨m, hm, hmf, ?_⟩
    by_cases hzero : m.classId = 0
    · exact .inl hzero
    · right
      rcases hmc.resolve_left hzero with hown | hsup
      · rw [hown]
      · exact .single ⟨hzero, record.dump, hdone, rfl, hsup.symm⟩
  set logOf := fun d : ClassDump => d.staticsBy (ShouldExclude h₀ all matchers d.classId)
  have hlogOf : ∀ d, ∀ s ∈ logOf d, s.classId = d.classId := fun d s hs =>
    (ClassDump.mem_staticsBy.mp hs).1
  refine ⟨(all.flatMap logOf).foldl (StaticReference.addWhen false) h₀.references,
    (all.flatMap logOf).foldl (StaticReference.addWhen true) h₀.excludedReferences,
    fun order hperm => ?_⟩
  have hperm' : (order.map ClassSubRecord.dump).Perm all := hperm.map _
  have hnd : ((order.map ClassSubRecord.dump).map ClassDump.classId).Nodup :=
    (hperm'.map _).nodup_iff.mpr hnd'
  obtain ⟨fuel₀, h', hrun⟩ := ClassDump.applyAll_of_decisions _ hwalks hnd' hdec hprs
    (by rwa [nil_append]) (by exact hperm'.subset)
  refine ⟨fuel₀, h', (order.map ClassSubRecord.dump).flatMap logOf,
    ⟨(order.map ClassSubRecord.bytes).flatten, (order.map ClassSubRecord.bytes).flatten.length⟩,
    fun fuel hle => ?_, ?_, ?_, ?_, ?_⟩
  · have heq := parseClassSubRecords_eq hpos fuel matchers order h₀ hid []
    rw [(hrun fuel hle).1] at heq
    exact heq
  · rw [(hrun fuel₀ le_rfl).2.1, foldl_addWhen_perm hlogOf hperm' hnd]
  · rw [(hrun fuel₀ le_rfl).2.2, foldl_addWhen_perm hlogOf hperm' hnd]
  · classical
    intro record hrec f e hfld
    refine ⟨decide (ShouldExclude h₀ all matchers record.dump.classId f), mem_flatMap.mpr
      ⟨record.dump, hperm'.mem_iff.mpr (mem_map_of_mem hrec), ?_⟩⟩
    exact ClassDump.mem_staticsBy.mpr ⟨rfl, hfld, by simp⟩
  · intro s hs
    obtain ⟨d, _, hsd⟩ := mem_flatMap.mp hs
    obtain ⟨hclass, _, hiff⟩ := ClassDump.mem_staticsBy.mp hsd
    rw [hiff, hclass]

end Main

/-! ## Three Classes -/

/-- The bytes of a class dump with identifiers of four bytes below 256, at most one static object
field and nothing else. -/
def sampleBytes (classId superClassId : UInt8) (staticField : Option (UInt8 × UInt8)) :
    List UInt8 :=
  let id := fun n : UInt8 => [0, 0, 0, n]
  id classId ++ id 0 ++ id superClassId ++ id 0 ++ id 0 ++ id 0 ++ id 0 ++ id 0 ++ id 0 ++ [0, 0] ++
    (match staticField with
      | none => [0, 0]
      | some (name, referent) => [0, 1] ++ id name ++ [2] ++ id referent) ++ [0, 0]

/-- Class `A` (id 16), without a superclass. -/
def sampleA : ClassSubRecord 4 := ⟨sampleBytes 16 0 none, ⟨16, 0, [], []⟩, 42, by decide +kernel⟩

/-- Class `B` (id 32), a direct subclass of `A`. -/
def sampleB : ClassSubRecord 4 := ⟨sampleBytes 32 16 none, ⟨32, 16, [], []⟩, 42, by decide +kernel⟩

/-- Class `C` (id 48), a direct subclass of `B`, with a static field `f` that refers to 99. -/
def sampleC : ClassSubRecord 4 :=
  ⟨sampleBytes 48 32 (some (4, 99)), ⟨48, 32, [(4, some 99)], []⟩, 51, by decide +kernel⟩

/-- The names `A`, `B`, `C` and `f`, and the three classes. -/
abbrev sampleHeap : Heap :=
  loadedHeap 4 [(1, [65]), (2, [66]), (3, [67]), (4, [102])] [(16, 1), (32, 2), (48, 3)]

/-- The field `f` of `C` should be excluded by a matcher for `A.f`, but is not when `C` is parsed
before `B`. -/
theorem orderIndependent_sample_fails :
    ¬ OrderIndependent sampleHeap [.new [65] [102]] [sampleC, sampleB, sampleA] := by
  intro hind
  have hmatc := hind.matchedDirectly (by decide) (by decide)
  have hshou : ShouldExclude sampleHeap
      ([sampleC, sampleB, sampleA].map ClassSubRecord.dump) [.new [65] [102]] 48 4 := by
    refine ⟨_, mem_singleton_self _, .inr (by decide), .inr ⟨16, ?_, by decide⟩⟩
    have hCB : SuperOf ([sampleC, sampleB, sampleA].map ClassSubRecord.dump) 48 32 :=
      ⟨by decide, sampleC.dump, by simp, rfl, rfl⟩
    have hBA : SuperOf ([sampleC, sampleB, sampleA].map ClassSubRecord.dump) 32 16 :=
      ⟨by decide, sampleB.dump, by simp, rfl, rfl⟩
    exact .head hCB (.single hBA)
  obtain ⟨m, hm, _, hclass⟩ := hmatc.direct sampleC (by simp) 4 99 (by decide) hshou
  have hlist : [FieldExcludeMatcher.new [65] [102]].filterMap sampleHeap.resolve = [⟨16, 4⟩] := by
    decide
  rw [hlist, mem_singleton] at hm
  subst hm
  exact absurd hclass (by decide)

/-- A matcher for `B.f` finds the field in every order. -/
theorem orderIndependent_iff_sample :
    0 < 4 ∧ OrderIndependent sampleHeap [.new [66] [102]] [sampleC, sampleB, sampleA] := by
  have hlist : [FieldExcludeMatcher.new [66] [102]].filterMap sampleHeap.resolve = [⟨32, 4⟩] := by
    decide
  have hsup : ∀ a b : ℕ, SuperOf ([sampleC, sampleB, sampleA].map ClassSubRecord.dump) a b ↔
      (a = 48 ∧ b = 32) ∨ (a = 32 ∧ b = 16) := by
    intro a b
    simp only [SuperOf, map_cons, map_nil, sampleA, sampleB, sampleC, mem_cons,
      not_mem_nil, or_false, exists_eq_or_imp, exists_eq_left]
    constructor
    · rintro ⟨hb, ⟨rfl, rfl⟩ | ⟨rfl, rfl⟩ | ⟨rfl, rfl⟩⟩
      · exact .inl ⟨rfl, rfl⟩
      · exact .inr ⟨rfl, rfl⟩
      · exact absurd rfl hb
    · rintro (⟨rfl, rfl⟩ | ⟨rfl, rfl⟩) <;> simp
  refine ⟨by decide, (orderIndependent_iff (by decide) (by decide)).mpr ⟨?_, ?_⟩⟩
  · intro record hrec m hm _
    rw [hlist, mem_singleton] at hm
    subst hm
    simp only [mem_cons, not_mem_nil, or_false] at hrec
    have hend : ∀ y : ℕ, ¬ SuperOf ([sampleC, sampleB, sampleA].map ClassSubRecord.dump) 16 y := by
      intro y hy
      have := (hsup 16 y).mp hy
      omega
    rcases hrec with rfl | rfl | rfl
    · exact ⟨32, .single ((hsup _ _).mpr (.inl ⟨rfl, rfl⟩)), .inl rfl⟩
    · exact ⟨32, .refl, .inl rfl⟩
    · exact ⟨16, .refl, .inr hend⟩
  · intro record hrec f e hfld _
    simp only [mem_cons, not_mem_nil, or_false] at hrec
    rcases hrec with rfl | rfl | rfl
    · obtain ⟨rfl, rfl⟩ : f = 4 ∧ e = 99 := by simpa [sampleC] using hfld
      refine ⟨⟨32, 4⟩, ?_, .inr rfl, .inr (.inr rfl)⟩
      rw [hlist]
      exact mem_singleton_self _
    · simp [sampleB] at hfld
    · simp [sampleA] at hfld

end TraceHarbor.Hprof
