import TraceHarbor.Arsc.RemoveResource

/-!
# Lookups of Resources

`findResPackage` and `findResType` on a table that was read. Package ids are compared as signed
numbers of eight bits and type ids as signed bytes, so the upper half of both ranges is not found.
-/

namespace TraceHarbor.Arsc

open Lib Lib.Input List Option

variable {S : Type}

/-- There are as many offsets as entries. -/
def ResType.Listed (t : ResType S) : Prop :=
  (t.entryOffsets.getD []).length = t.entryCount.toInt.toNat

/-- The entry is not `NO_ENTRY`. -/
def ResType.hasAt (t : ResType S) (entryId : ℕ) : Bool :=
  (t.entryOffsets.getD [])[entryId]?.any (· ≠ noEntryIndex)

/-! ## Tables that were read -/

theorem ResType.listed_of_update {t t' : ResType S}
    (h : t.updateResNameReferenceCount = some t') (hlist : t.Listed) : t'.Listed := by
  rw [updateResNameReferenceCount] at h
  split at h
  · exact some.inj h ▸ hlist
  · split_ifs at h
    exact some.inj h ▸ hlist

section Read

variable [Text S] (file : Bytes) (globalPool : ResStringBlock S) (namePool : Option (ResStringBlock S))

theorem listed_readResType : (readResType file globalPool namePool).Gives ResType.Listed := by
  iterate 7 refine Gives.after fun _ => ?_
  refine Gives.after fun entryCount => ?_
  iterate 3 refine Gives.after fun _ => ?_
  refine (gives_forEach (P := fun _ => True) (fun _ _ _ _ => trivial) _).bind fun offsets hoffs => ?_
  iterate 3 refine Gives.after fun _ => ?_
  rintro pos ⟨t, pos'⟩ h
  obtain ⟨t', ht, ⟨⟩⟩ := map_eq_some_iff.mp h
  refine ResType.listed_of_update ht ?_
  rw [ResType.Listed]
  split_ifs with hpos
  · rw [getD_some, hoffs.1, length_range]
  · exact (Int.toNat_of_nonpos (not_lt.mp hpos)).symm

theorem listed_readChunks [DecidableEq S] (stop : ℤ) (fuel : ℕ) :
    (readChunks file globalPool namePool stop fuel).Gives
      fun chunks => ∀ t, .resType t ∈ chunks → t.Listed := by
  induction fuel with
  | zero => exact nofun
  | succ fuel ih =>
    refine Gives.after fun pos => ?_
    split_ifs
    · refine Gives.after fun chunkType => ?_
      split_ifs
      · exact Gives.after fun _ => Gives.after fun _ => ih.bind fun rest hrest =>
          gives_pure (by simpa using hrest)
      · exact Gives.after fun _ => (listed_readResType file globalPool namePool).bind
          fun t ht => ih.bind fun rest hrest => gives_pure (by simpa [ht] using hrest)
      · exact ih
    · exact gives_pure (by simp)

end Read

theorem listed_of_read [Text S] [DecidableEq S] {file : Bytes} {table : ResTable S}
    (h : readResourceTable file = some table) :
    ∀ p ∈ table.packages.getD [], ∀ t ∈ p.types, t.Listed := by
  have hpkg : ∀ globalPool : ResStringBlock S, (readPackage file globalPool).Gives
      fun p => ∀ t ∈ p.types, t.Listed := by
    intro globalPool
    iterate 13 refine Gives.after fun _ => ?_
    refine Gives.bind (listed_readChunks file globalPool _ _ _) fun chunks hchks => ?_
    refine Gives.after fun _ => ?_
    refine gives_pure ?_
    intro t ht
    obtain ⟨chunk, hchk, hsome⟩ := mem_filterMap.mp ht
    cases chunk with
    | typeSpec spec => cases hsome
    | resType t' =>
      obtain rfl := some.inj hsome
      exact hchks t' hchk
  obtain ⟨r, hr, rfl⟩ := map_eq_some_iff.mp h
  have htbl : (readTable file : Input (ResTable S)).Gives
      fun table => ∀ p ∈ table.packages.getD [], ∀ t ∈ p.types, t.Listed := by
    iterate 6 refine Gives.after fun _ => ?_
    refine Gives.bind (gives_forEach (fun _ => hpkg _) _) fun packages hpkgs => ?_
    refine Gives.after fun _ => ?_
    refine gives_pure ?_
    split_ifs
    · exact hpkgs.2
    · simp
  exact htbl 0 r hr

theorem found_of_listed {t : ResType S} (h : t.Listed) (resourceId : BitVec 32) :
    t.found resourceId = some (decide (t.id.toInt = (getResourceTypeId resourceId).toInt) &&
      t.hasAt (getResourceEntryId resourceId)) := by
  rw [ResType.Listed] at h
  rw [ResType.found, ResType.hasAt]
  by_cases hid : t.id.toInt = (getResourceTypeId resourceId).toInt
  swap
  · simp [hid]
  by_cases hlt : getResourceEntryId resourceId < t.entryCount.toInt
  · cases hoffs : t.entryOffsets with
    | none =>
      rw [hoffs, getD_none, length_nil] at h
      omega
    | some offsets =>
      rw [hoffs, getD_some] at h
      have hlt' : getResourceEntryId resourceId < offsets.length := by omega
      simp [hid, hlt, getElem?_eq_getElem hlt']
  · rw [if_neg hlt, getElem?_eq_none (by omega)]
    simp

theorem findAmong_of_listed {types : List (ResType S)} (h : ∀ t ∈ types, t.Listed)
    (resourceId : BitVec 32) :
    ResPackage.findAmong resourceId types = some (types.filter fun t =>
      decide (t.id.toInt = (getResourceTypeId resourceId).toInt) &&
        t.hasAt (getResourceEntryId resourceId)) := by
  induction types with
  | nil => rfl
  | cons t types ih =>
    obtain ⟨ht, htypes⟩ := forall_mem_cons.mp h
    simp only [ResPackage.findAmong, found_of_listed ht, ih htypes, bind_eq_bind,
      bind_some, filter_cons]
    rfl

/-! ## Resource ids -/

section Lookup

variable (table : ResTable S) (resourceId : BitVec 32)

def packageOf : ℕ := resourceId.toNat / 2 ^ 24

def typeOf : ℕ := resourceId.toNat / 2 ^ 16 % 2 ^ 8

def entryOf : ℕ := resourceId.toNat % 2 ^ 16

/-- The first package with the id is found, and in it exactly the types that have the entry. -/
def LookupComplete : Prop :=
  findResPackage table (getPackageId resourceId) =
      (table.packages.getD []).findIdx? (fun p => p.id.toNat = packageOf resourceId) ∧
    ∀ p, (table.packages.getD []).find? (fun p => p.id.toNat = packageOf resourceId) = some p →
      p.findResType resourceId = some (p.types.filter fun t =>
        t.id.toNat = typeOf resourceId ∧ t.hasAt (entryOf resourceId))

/-- The package id is in the lower half of its range, or no package has it, as it is or with its sign;
so is the type id, or no type of the package with it has the entry. -/
def LowerHalf : Prop :=
  (packageOf resourceId < 0x80 ∨ ∀ p ∈ table.packages.getD [], p.id.toNat ≠ packageOf resourceId ∧
      p.id.toNat ≠ packageOf resourceId + (2 ^ 32 - 2 ^ 8)) ∧
    ∀ p, (table.packages.getD []).find? (fun p => p.id.toNat = packageOf resourceId) = some p →
      typeOf resourceId < 0x80 ∨
        ∀ t ∈ p.types, t.id.toNat = typeOf resourceId → t.hasAt (entryOf resourceId) = false

end Lookup

theorem toNat_getPackageId (resourceId : BitVec 32) : (getPackageId resourceId).toNat =
    if packageOf resourceId < 0x80 then packageOf resourceId
      else packageOf resourceId + (2 ^ 32 - 2 ^ 8) := by
  rw [getPackageId_eq, packageOf]
  cases hmsb : resourceId.msb with
  | false =>
    have hlow := BitVec.msb_eq_false_iff_two_mul_lt.mp hmsb
    rw [BitVec.sshiftRight_eq_of_msb_false hmsb, BitVec.toNat_ushiftRight,
      Nat.shiftRight_eq_div_pow, if_pos (by omega)]
  | true =>
    have hge := BitVec.msb_eq_true_iff_two_mul_ge.mp hmsb
    rw [BitVec.sshiftRight_eq_of_msb_true hmsb, BitVec.toNat_not, BitVec.toNat_ushiftRight,
      BitVec.toNat_not, if_neg (by omega)]
    omega

theorem toInt_eq_getResourceTypeId {id : BitVec 8} {resourceId : BitVec 32} :
    id.toInt = (getResourceTypeId resourceId).toInt ↔
      id.toNat = typeOf resourceId ∧ typeOf resourceId < 0x80 := by
  have htype : (getResourceTypeId resourceId).toNat = typeOf resourceId :=
    toNat_getResourceTypeId resourceId
  have hlt : typeOf resourceId < 2 ^ 8 := Nat.mod_lt _ (by decide)
  rw [BitVec.toInt_eq_toNat_cond, BitVec.toInt_eq_toNat_of_lt (by omega)]
  split <;> omega

/-- **Lookups of resources**: the first package with the id is found, and in it exactly the types that
have the entry, if and only if both ids are in the lower half of their ranges where they are in use. -/
theorem lookup_complete_iff [Text S] [DecidableEq S] (file : Bytes) (table : ResTable S)
    (hread : readResourceTable file = some table) (resourceId : BitVec 32) :
    LookupComplete table resourceId ↔ LowerHalf table resourceId := by
  have hlist := listed_of_read hread
  have hent : getResourceEntryId resourceId = entryOf resourceId := getResourceEntryId_eq resourceId
  have hpkg := toNat_getPackageId resourceId
  refine and_congr ?_ (forall_congr' fun p => forall_congr' fun hp => ?_)
  · split_ifs at hpkg with hlow
    · simp [findResPackage, ← BitVec.toNat_inj, hpkg, hlow]
    · simp only [findResPackage, ← BitVec.toNat_inj, hpkg, hlow, false_or]
      constructor
      · intro heq p hp
        -- no package has both ids, so the searches only agree if both fail
        cases hfind : (table.packages.getD []).findIdx?
            (fun p => decide (p.id.toNat = packageOf resourceId)) with
        | none =>
          rw [hfind, findIdx?_eq_none_iff] at heq
          rw [findIdx?_eq_none_iff] at hfind
          simpa using And.intro (hfind p hp) (heq p hp)
        | some i =>
          rw [hfind] at heq
          obtain ⟨hi, hid, -⟩ := findIdx?_eq_some_iff_getElem.mp heq
          obtain ⟨_, hid', -⟩ := findIdx?_eq_some_iff_getElem.mp hfind
          simp only [decide_eq_true_eq] at hid hid'
          omega
      · intro hnone
        rw [findIdx?_eq_none_iff.mpr fun p hp => by simpa using (hnone p hp).2,
          findIdx?_eq_none_iff.mpr fun p hp => by simpa using (hnone p hp).1]
  · have hmem := mem_of_find?_eq_some hp
    rw [ResPackage.findResType, findAmong_of_listed (hlist p hmem), hent]
    simp only [toInt_eq_getResourceTypeId]
    by_cases hlow : typeOf resourceId < 0x80
    · simp [hlow]
    · simp only [hlow, and_false, decide_false, Bool.false_and, filter_false, false_or]
      simp

/-- A table whose package has the id `0x80`. -/
def highTable : ResTable Ascii :=
  { ResTable.sampleTable with
    packages := ResTable.sampleTable.packages.map (·.map fun p => { p with id := 0x80 }) }

theorem lookup_complete_iff_sample : LookupComplete ResTable.sampleTable.reread 0x7f010000 :=
  (lookup_complete_iff ResTable.sampleTable.contents _ (by
    rw [ResTable.readResourceTable_contents (by decide +kernel), if_pos (by decide +kernel)]) _).mpr
    ⟨.inl (by decide), fun _ _ => .inl (by decide)⟩

/-- The package is not found. -/
theorem package_of_upper_half : (do
    let t : ResTable Ascii ← readResourceTable highTable.contents
    return ((t.packages.getD []).map (·.id), findResPackage t (getPackageId 0x80010000))) =
      some ([0x80], none) := by
  decide +kernel

end TraceHarbor.Arsc
