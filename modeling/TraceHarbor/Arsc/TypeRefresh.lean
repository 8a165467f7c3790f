import TraceHarbor.Arsc.Edit
import TraceHarbor.Arsc.TypeLayout

/-!
# Refreshing Types

`refresh` recomputes the offsets, the counts of names and the size of a type. `Shaped` is what it takes
as given, and `refreshed` is the type that it leaves.
-/

namespace TraceHarbor.Arsc

open Lib List Option

variable {S : Type}

/-! ## Sizes -/

theorem ResEntry.length_contents_mod {e : ResEntry S} (h : e.Laid) : e.contents.length % 4 = 0 := by
  have hpairs : ∀ pairs : List ResMapValue,
      (pairs.flatMap ResMapValue.contents).length = 12 * pairs.length := by
    simp [length_flatMap, ResMapValue.length_contents, mul_comm]
  rw [contents]
  cases hcomp : e.complex with
  | true =>
    simp only [if_true, length_append, length_putShort, length_putInt, hpairs]
    omega
  | false =>
    obtain ⟨value, hval⟩ := isSome_iff_exists.mp (h.simple hcomp).2
    simp [hval]

theorem length_flatMap_contents_mod {entries : List (ResEntry S)} (h : ∀ e ∈ entries, e.Laid) :
    (entries.flatMap ResEntry.contents).length % 4 = 0 := by
  rw [length_flatMap]
  refine Nat.mod_eq_zero_of_dvd (dvd_sum ?_)
  rw [List.forall_mem_map]
  exact fun e he => Nat.dvd_of_mod_eq_zero (ResEntry.length_contents_mod (h e he))

namespace ResType

variable {t : ResType S}

/-! ## Counts -/

theorem contains_countName (counts : OrdMap ℤ ℕ) (e : ResEntry S) (k : ℤ) :
    (countName counts e).contains k = (e.stringPoolIndex.toInt == k || counts.contains k) := by
  rw [countName, Std.ExtTreeMap.contains_insert]
  congr 1
  rw [Bool.eq_iff_iff, beq_iff_eq, beq_iff_eq, Std.compare_eq_iff_eq]

theorem contains_foldl_countName (entries : List (ResEntry S)) (counts : OrdMap ℤ ℕ) (k : ℤ) :
    (entries.foldl countName counts).contains k =
      ((entries.any fun e => e.stringPoolIndex.toInt == k) || counts.contains k) := by
  induction entries generalizing counts with
  | nil => rfl
  | cons e entries ih =>
    rw [foldl_cons, ih, contains_countName, any_cons]
    cases e.stringPoolIndex.toInt == k <;> simp

/-! ## Refresh -/

/-- What `refresh` takes as given: the head, the configuration and the entries, with the offsets saying
which entries are there. -/
structure Shaped (t : ResType S) : Prop where
  config : t.resConfigFlags.Laid
  headSize_eq : t.headSize.toInt = 20 + t.resConfigFlags.size.toInt
  headSize_aligned : t.headSize.toInt % 4 = 0
  headPadding_eq : t.headPadding = 0
  entryTable_isSome : t.entryTable.isSome
  entryOffsets_isSome : t.entryOffsets.isSome
  entryCount_eq : t.entryCount.toInt = (t.entryTable.getD []).length
  holes : (t.entryOffsets.getD []).map (fun offset => decide (offset = noEntryIndex)) =
    (t.entryTable.getD []).map Option.isNone
  entryTableOffset_eq : t.entryTableOffset.toInt = t.headSize.toInt + t.entryCount.toInt * 4
  entries_laid : ∀ e ∈ t.entries, e.Laid
  /-- the type fits into an array -/
  fits : t.headSize.toInt + t.entryCount.toInt * 4 + (t.entries.flatMap ResEntry.contents).length < 2 ^ 31

/-- The type after `refresh`. -/
def refreshed (t : ResType S) : ResType S :=
  let size := t.headSize.toInt + t.entryCount.toInt * 4 +
    (t.entries.flatMap ResEntry.contents).length
  let dropped := t.entries.isEmpty
  { t with
    entryOffsets := some (placedFrom 0 (t.entryTable.getD []))
    resNameStringCountMap := t.entries.foldl countName ∅
    entryCount := if dropped then 0 else t.entryCount
    chunkSize := if dropped then 0 else BitVec.ofInt 32 size
    chunkPadding := 0 }

theorem placeEntries_eq {last : ℕ} {offsets : List (BitVec 32)} {table : List (Option (ResEntry S))}
    (hhol : offsets.map (fun offset => decide (offset = noEntryIndex)) = table.map isNone)
    (hlaid : ∀ e ∈ table.reduceOption, e.Laid) :
    placeEntries last offsets table = some (placedFrom last table) := by
  induction last, table using placedFrom.induct generalizing offsets with
  | case1 last =>
    rw [map_eq_nil_iff.mp hhol]
    rfl
  | case2 last entries ih =>
    obtain ⟨offset, offsets, rfl, hoff, hrest⟩ := map_eq_cons_iff.mp hhol
    rw [placeEntries, if_pos (of_decide_eq_true hoff), ih hrest hlaid]
    rfl
  | case3 last e entries ih =>
    obtain ⟨offset, offsets, rfl, hoff, hrest⟩ := map_eq_cons_iff.mp hhol
    obtain ⟨he, hents⟩ := forall_mem_cons.mp hlaid
    rw [placeEntries, if_neg (of_decide_eq_false hoff)]
    simp only [bind_eq_bind, bind_some, ResEntry.toBytes_of_laid he, ih hrest hents]
    rfl

theorem entryBytes_of_laid (h : ∀ e ∈ t.entries, e.Laid) :
    t.entryBytes = some (t.entries.map ResEntry.contents) :=
  mapM_eq_some_map fun e he => ResEntry.toBytes_of_laid (h e he)

theorem recomputeChunkSize_of_laid (h : ∀ e ∈ t.entries, e.Laid)
    (haln : t.headSize.toInt % 4 = 0) :
    t.recomputeChunkSize =
      some { t with
        entryCount := if t.entries.isEmpty then 0 else t.entryCount
        chunkSize := if t.entries.isEmpty then 0 else
          BitVec.ofInt 32 (t.headSize.toInt + (t.entryOffsets.getD []).length * 4 +
            (t.entries.flatMap ResEntry.contents).length)
        chunkPadding := 0 } := by
  have hmod := length_flatMap_contents_mod h
  have hpadd : padding (t.headSize.toInt + (t.entryOffsets.getD []).length * 4 +
      (t.entries.flatMap ResEntry.contents).length) = 0 :=
    ResStringBlock.padding_of_aligned (by omega)
  have hsum : ((t.entries.map ResEntry.contents).map length).sum =
      (t.entries.flatMap ResEntry.contents).length := by
    rw [flatMap_def, length_flatten]
  rw [recomputeChunkSize, entryBytes_of_laid h]
  simp only [bind_eq_bind, bind_some, hsum, length_map, hpadd, add_zero]
  cases hents : t.entries with
  | nil => rfl
  | cons e entries => rfl

/-- **The type that `refresh` leaves.** -/
theorem refresh_of_shaped (h : t.Shaped) : t.refresh = some t.refreshed := by
  obtain ⟨table, htbl⟩ := isSome_iff_exists.mp h.entryTable_isSome
  obtain ⟨offsets, hoffs⟩ := isSome_iff_exists.mp h.entryOffsets_isSome
  have hcnt := h.entryCount_eq
  have hhol := h.holes
  have haln := h.headSize_aligned
  have hlen := congrArg length hhol
  rw [htbl] at hcnt hhol hlen
  rw [hoffs, getD_some] at hhol hlen
  rw [length_map, length_map] at hlen
  have hents : table.reduceOption = t.entries := by
    rw [entries, htbl, getD_some]
  have hplace : placeEntries 0 (offsets.take t.entryCount.toInt.toNat) table =
      some (placedFrom 0 table) := by
    rw [hcnt, Int.toNat_natCast, ← hlen, take_length]
    exact placeEntries_eq hhol (hents ▸ h.entries_laid)
  have hdrop : offsets.drop t.entryCount.toInt.toNat = [] := by
    rw [hcnt, Int.toNat_natCast, ← hlen, drop_length]
  have hshort : ¬ offsets.length < t.entryCount.toInt.toNat := by omega
  rw [refresh, htbl, hoffs]
  simp only [if_neg hshort, hplace, hdrop, append_nil, bind_eq_bind, bind_some]
  let placed : ResType S :=
    { t with entryOffsets := some (placedFrom 0 table), entryTable := some table }
  have hupd : placed.updateResNameReferenceCount =
      some { placed with resNameStringCountMap := table.reduceOption.foldl countName ∅ } :=
    updateResNameReferenceCount_eq rfl hcnt
  have hrec := recomputeChunkSize_of_laid
    (t := { placed with resNameStringCountMap := table.reduceOption.foldl countName ∅ })
    (hents ▸ h.entries_laid : ∀ e ∈ table.reduceOption, e.Laid) haln
  refine (congrArg (·.bind recomputeChunkSize) hupd).trans (hrec.trans ?_)
  have hplac : ∀ counts, ({ placed with resNameStringCountMap := counts } : ResType S).entries =
      t.entries := fun _ => hents
  simp only [hplac, refreshed, htbl, getD_some, hcnt, hents]
  simp [placed]

@[simp]
theorem entries_refreshed : t.refreshed.entries = t.entries := rfl

/-- **A refreshed type with entries is laid out.** -/
theorem laid_refreshed (h : t.Shaped) (hne : t.entries ≠ []) : t.refreshed.Laid := by
  have hemp : t.entries.isEmpty = false := isEmpty_eq_false_iff.mpr hne
  have hcnt : t.refreshed.entryCount = t.entryCount := by simp [refreshed, hemp]
  have hfits := h.fits
  have hhead := h.headSize_eq
  have hconf := h.config
  have hentCnt := h.entryCount_eq
  rw [ResConfig.Laid] at hconf
  refine
    { __ := h
      entryCount_eq := hcnt ▸ h.entryCount_eq
      entryOffsets_eq := rfl
      entryTableOffset_eq := hcnt ▸ h.entryTableOffset_eq
      chunkPadding_eq := rfl
      chunkSize_eq := ?_
      entries_ne := hne
      entries_laid := h.entries_laid }
  simp only [refreshed, hemp, Bool.false_eq_true, if_false]
  exact toInt_ofInt_of_lt (by omega) hfits

/-! ## Laid types -/

theorem map_placedFrom {last : ℕ} {table : List (Option (ResEntry S))}
    (hlt : last + (table.reduceOption.flatMap ResEntry.contents).length < 2 ^ 31) :
    (placedFrom last table).map (fun offset => decide (offset = noEntryIndex)) =
      table.map isNone := by
  induction last, table using placedFrom.induct with
  | case1 last => rfl
  | case2 last entries ih =>
    rw [placedFrom, map_cons, ih hlt]
    rfl
  | case3 last e entries ih =>
    rw [reduceOption_cons_of_some, flatMap_cons, length_append] at hlt
    rw [placedFrom, map_cons, ih (by omega),
      decide_eq_false (ofNat_ne_noEntryIndex (by omega))]
    rfl

theorem total_lt_of_laid (h : t.Laid) :
    t.headSize.toInt + t.entryCount.toInt * 4 +
      (t.entries.flatMap ResEntry.contents).length < 2 ^ 31 := by
  have hmax := BitVec.toInt_lt (x := t.chunkSize)
  have hsize := h.chunkSize_eq
  omega

theorem entryTable_isSome_of_laid (h : t.Laid) : t.entryTable.isSome := by
  cases htbl : t.entryTable with
  | none =>
    refine absurd ?_ h.entries_ne
    rw [entries, htbl]
    rfl
  | some table => rfl

theorem shaped_of_laid (h : t.Laid) : t.Shaped := by
  have hfits := total_lt_of_laid h
  have hhead := h.headSize_eq
  have hconf := h.config
  have hcnt := h.entryCount_eq
  rw [ResConfig.Laid] at hconf
  refine
    { __ := h
      entryTable_isSome := entryTable_isSome_of_laid h
      entryOffsets_isSome := ?_
      holes := ?_
      fits := hfits }
  · cases hoffs : t.entryOffsets with
    | none =>
      refine absurd ?_ h.entries_ne
      have hplac := congrArg length h.entryOffsets_eq
      rw [hoffs, length_placedFrom] at hplac
      rw [entries, length_eq_zero_iff.mp hplac.symm]
      rfl
    | some offsets => rfl
  · rw [h.entryOffsets_eq]
    exact map_placedFrom (by rw [entries] at hfits; omega)

/-! ## Removal of an entry -/

/-- The type without an entry, before `refresh`. -/
def without (t : ResType S) (entryId : ℕ) : ResType S :=
  { t with
    entryTable := t.entryTable.map fun table => table.set entryId none
    entryOffsets := t.entryOffsets.map fun offsets => offsets.set entryId noEntryIndex }

/-- A type without entries, as `recomputeChunkSize` leaves it. -/
structure Emptied (t : ResType S) : Prop where
  entries_eq : t.entries = []
  entryCount_eq : t.entryCount = 0
  chunkSize_eq : t.chunkSize = 0

/-- Laid out, or without entries and not written. -/
def Sound (t : ResType S) : Prop := t.Laid ∨ t.Emptied

def has (resourceId : BitVec 32) (t : ResType S) : Bool :=
  t.id.toInt = (getResourceTypeId resourceId).toInt ∧ (t.entryAt (getResourceEntryId resourceId)).isSome

/-- The type after `removeResource`. -/
def removed (resourceId : BitVec 32) (t : ResType S) : ResType S :=
  if t.has resourceId then (t.without (getResourceEntryId resourceId)).refreshed else t

variable {k : ℕ} {e : ResEntry S} {resourceId : BitVec 32}

theorem entryAt_eq : t.entryAt k = ((t.entryTable.getD [])[k]?).join := by
  rw [entryAt]
  cases t.entryTable with
  | none => rfl
  | some table =>
    cases table[k]? <;> rfl

theorem mem_entries_of_entryAt (h : t.entryAt k = some e) : e ∈ t.entries := by
  rw [entryAt_eq] at h
  rw [entries, reduceOption_mem_iff]
  exact mem_of_getElem? (join_eq_some_iff.mp h)

theorem lt_of_entryAt (h : (t.entryAt k).isSome) : k < (t.entryTable.getD []).length := by
  rw [entryAt_eq] at h
  by_contra hge
  rw [getElem?_eq_none (not_lt.mp hge)] at h
  cases h

theorem entryAt_without (j : ℕ) : (t.without k).entryAt j = if j = k then none else t.entryAt j := by
  rw [entryAt_eq, entryAt_eq, without]
  cases t.entryTable with
  | none => split <;> rfl
  | some table =>
    simp only [map_some, getD_some, getElem?_set]
    by_cases hjk : k = j
    · rw [if_pos hjk, if_pos hjk.symm]
      split <;> rfl
    · rw [if_neg hjk, if_neg (Ne.symm hjk)]

theorem removeEntry_of_shaped (h : t.Shaped) (hk : k < (t.entryTable.getD []).length) :
    t.removeEntry k = some (t.without k) := by
  obtain ⟨table, htbl⟩ := isSome_iff_exists.mp h.entryTable_isSome
  obtain ⟨offsets, hoffs⟩ := isSome_iff_exists.mp h.entryOffsets_isSome
  have hlen := congrArg length h.holes
  rw [length_map, length_map, htbl, hoffs] at hlen
  rw [htbl] at hk
  rw [removeEntry, htbl, hoffs]
  simp only [bind_eq_bind, bind_some]
  rw [if_pos ⟨hk, hlen ▸ hk⟩, without, htbl, hoffs]
  rfl

theorem reduceOption_set_sublist (table : List (Option (ResEntry S))) (k : ℕ) :
    (table.set k none).reduceOption.Sublist table.reduceOption := by
  induction table generalizing k with
  | nil => exact List.Sublist.refl _
  | cons slot table ih =>
    cases k with
    | zero =>
      cases slot with
      | none => exact List.Sublist.refl _
      | some e =>
        exact sublist_cons_self _ _
    | succ k =>
      cases slot with
      | none => exact ih k
      | some e =>
        exact (ih k).cons_cons e

theorem entries_without_sublist : (t.without k).entries.Sublist t.entries := by
  rw [entries, entries, without]
  cases t.entryTable with
  | none => exact List.Sublist.refl _
  | some table => exact reduceOption_set_sublist table k

theorem length_flatMap_without_le :
    ((t.without k).entries.flatMap ResEntry.contents).length ≤
      (t.entries.flatMap ResEntry.contents).length :=
  (entries_without_sublist.flatMap _).length_le

theorem Shaped.without (h : t.Shaped) (k : ℕ) : (t.without k).Shaped := by
  obtain ⟨table, htbl⟩ := isSome_iff_exists.mp h.entryTable_isSome
  obtain ⟨offsets, hoffs⟩ := isSome_iff_exists.mp h.entryOffsets_isSome
  have hcnt := h.entryCount_eq
  have hhol := h.holes
  have hfits := h.fits
  have hle : ((t.without k).entries.flatMap ResEntry.contents).length ≤
      (t.entries.flatMap ResEntry.contents).length := length_flatMap_without_le
  rw [htbl] at hcnt hhol
  rw [hoffs, getD_some] at hhol
  refine
    { __ := h
      entryTable_isSome := by rw [ResType.without, htbl]; rfl
      entryOffsets_isSome := by rw [ResType.without, hoffs]; rfl
      entryCount_eq := ?_
      holes := ?_
      entries_laid := fun e he => h.entries_laid e (entries_without_sublist.subset he)
      fits := ?_ }
  · simp only [ResType.without, htbl, map_some, getD_some, length_set]
    exact hcnt
  · simp [ResType.without, htbl, hoffs, hhol]
  · change t.headSize.toInt + t.entryCount.toInt * 4 + _ < 2 ^ 31
    omega

theorem emptied_refreshed (h : t.entries = []) : t.refreshed.Emptied where
  entries_eq := h
  entryCount_eq := by simp [refreshed, h]
  chunkSize_eq := by simp [refreshed, h]

theorem sound_refreshed (h : t.Shaped) : t.refreshed.Sound := by
  by_cases hents : t.entries = []
  · exact .inr (emptied_refreshed hents)
  · exact .inl (laid_refreshed h hents)

theorem Sound.laid (h : t.Sound) (hk : (t.entryAt k).isSome) : t.Laid := by
  obtain ⟨e, he⟩ := isSome_iff_exists.mp hk
  refine h.resolve_right fun hemp => ?_
  have hmem := mem_entries_of_entryAt he
  rw [hemp.entries_eq] at hmem
  cases hmem

theorem found_of_sound (h : t.Sound) : t.found resourceId = some (t.has resourceId) := by
  rw [found, has]
  by_cases hid : t.id.toInt = (getResourceTypeId resourceId).toInt
  swap
  · simp [hid]
  simp only [hid, true_and, Bool.decide_eq_true]
  rcases h with hlaid | hemp
  · have hshap := shaped_of_laid hlaid
    obtain ⟨offsets, hoffs⟩ := isSome_iff_exists.mp hshap.entryOffsets_isSome
    have hcnt := hlaid.entryCount_eq
    have hhol := hshap.holes
    rw [hoffs, getD_some] at hhol
    by_cases hk : getResourceEntryId resourceId < t.entryCount.toInt
    · have hlen := congrArg length hhol
      rw [length_map, length_map] at hlen
      have hlt : getResourceEntryId resourceId < offsets.length := by omega
      have hat := congrArg (fun xs : List Bool => xs[getResourceEntryId resourceId]?) hhol
      simp only [getElem?_map, getElem?_eq_getElem hlt, map_some,
        getElem?_eq_getElem (hlen ▸ hlt), some.injEq] at hat
      rw [if_pos hk, hoffs, entryAt_eq, getElem?_eq_getElem (hlen ▸ hlt)]
      simp only [bind_eq_bind, bind_some, getElem?_eq_getElem hlt, decide_not, hat,
        join_some]
      cases (t.entryTable.getD [])[getResourceEntryId resourceId] <;> rfl
    · rw [if_neg hk]
      cases hent : (t.entryAt (getResourceEntryId resourceId)).isSome with
      | false => rfl
      | true =>
        have hlt := lt_of_entryAt hent
        omega
  · have hnone : t.entryAt (getResourceEntryId resourceId) = none := by
      refine eq_none_iff_forall_ne_some.mpr fun e he => ?_
      have hmem := mem_entries_of_entryAt he
      rw [hemp.entries_eq] at hmem
      cases hmem
    rw [hemp.entryCount_eq, hnone]
    simp

def Counted (t : ResType S) : Prop :=
  ∀ i, t.resNameStringCountMap.contains i = t.entries.any fun e => e.stringPoolIndex.toInt == i

theorem counted_refreshed : t.refreshed.Counted := by
  intro i
  change (t.entries.foldl countName ∅).contains i = t.entries.any _
  rw [contains_foldl_countName, Std.ExtTreeMap.contains_empty, Bool.or_false]

theorem remove_of_sound (h : t.Sound) (hhas : t.has resourceId) :
    (t.removeEntry (getResourceEntryId resourceId)).bind refresh = some (t.removed resourceId) := by
  have hent : (t.entryAt (getResourceEntryId resourceId)).isSome := by
    rw [has, decide_eq_true_iff] at hhas
    exact hhas.2
  have hshap := shaped_of_laid (h.laid hent)
  rw [removeEntry_of_shaped hshap (lt_of_entryAt hent), bind_some,
    refresh_of_shaped (hshap.without _), removed, if_pos hhas]

theorem sound_removed (h : t.Sound) : (t.removed resourceId).Sound := by
  rw [removed]
  split
  · rename_i hhas
    rw [has, decide_eq_true_iff] at hhas
    exact sound_refreshed ((shaped_of_laid (h.laid hhas.2)).without _)
  · exact h

theorem counted_removed (h : t.Counted) : (t.removed resourceId).Counted := by
  rw [removed]
  split
  · exact counted_refreshed
  · exact h

theorem ite_removed (t : ResType S) :
    (if t.has resourceId then t.removed resourceId else t) = t.removed resourceId := by
  rw [removed]
  split <;> rfl

/-- **Entries after a removal**: the one that is removed is gone, the others are as before. -/
theorem entryAt_removed (j : ℕ) :
    (t.removed resourceId).entryAt j =
      if t.id.toInt = (getResourceTypeId resourceId).toInt ∧ j = getResourceEntryId resourceId then none
      else t.entryAt j := by
  have hrefr : ∀ u : ResType S, u.refreshed.entryAt j = u.entryAt j := fun _ => rfl
  rw [removed]
  cases hhas : t.has resourceId with
  | true =>
    rw [if_pos rfl, hrefr, entryAt_without]
    rw [has, decide_eq_true_iff] at hhas
    simp [hhas.1]
  | false =>
    rw [has, decide_eq_false_iff_not, not_and] at hhas
    rw [if_neg Bool.false_ne_true]
    split
    · rename_i hj
      rw [hj.2]
      exact not_isSome_iff_eq_none.mp (hhas hj.1)
    · rfl

/-- The offsets say which entries are left. -/
theorem holes_removed (h : t.Laid) (resourceId : BitVec 32) :
    ((t.removed resourceId).entryOffsets.getD []).map (fun offset => decide (offset = noEntryIndex)) =
      ((t.removed resourceId).entryTable.getD []).map isNone := by
  have hshap := shaped_of_laid h
  rw [removed]
  split
  · have haft := hshap.without (getResourceEntryId resourceId)
    have hfits := haft.fits
    have hhead := haft.headSize_eq
    have hconf := haft.config
    have hcnt := haft.entryCount_eq
    rw [ResConfig.Laid] at hconf
    rw [entries] at hfits
    exact map_placedFrom (by omega)
  · exact hshap.holes

theorem entryOffsets_removed (h : t.Laid) {j : ℕ} (hlt : j < (t.entryTable.getD []).length)
    (hnone : (t.removed resourceId).entryAt j = none) :
    ((t.removed resourceId).entryOffsets.getD [])[j]? = some noEntryIndex := by
  have hlen : ((t.removed resourceId).entryTable.getD []).length =
      (t.entryTable.getD []).length := by
    rw [removed]
    split
    · change ((t.entryTable.map _).getD []).length = _
      cases t.entryTable <;> simp
    · rfl
  have hhol := holes_removed h resourceId
  have hoffs := congrArg length hhol
  rw [length_map, length_map, hlen] at hoffs
  have hat := congrArg (fun xs : List Bool => xs[j]?) hhol
  rw [← hlen] at hlt
  rw [entryAt_eq, getElem?_eq_getElem hlt, join_some] at hnone
  simp only [getElem?_map, getElem?_eq_getElem hlt, hnone, map_some,
    getElem?_eq_getElem (hoffs ▸ hlen ▸ hlt : j < _), isNone_none,
    some.injEq, decide_eq_true_eq] at hat
  rw [getElem?_eq_getElem (hoffs ▸ hlen ▸ hlt : j < _), hat]

theorem mem_entries_of_removed {e : ResEntry S} (h : e ∈ (t.removed resourceId).entries) :
    e ∈ t.entries := by
  rw [removed] at h
  split at h
  · exact entries_without_sublist.subset h
  · exact h

end ResType

end TraceHarbor.Arsc
