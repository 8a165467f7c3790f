import TraceHarbor.Arsc.TableLayout
import TraceHarbor.Arsc.TypeRefresh

/-!
# Removing Resources

What `removeResource` does to the package of a resource, for packages whose types and name pool are in
order (`Editable`): the entry is gone in every configuration, and every name that no type counts is
blank.
-/

namespace TraceHarbor.Arsc

open Lib List Option BitVec

variable {S : Type}

/-! ## Blank names -/

variable {index : BitVec 32}

section Blank

variable [Text S]

def blank (S : Type) [Text S] (utf8 : Bool) : Bytes := encodeStringPoolEntry (Text.empty : S) utf8

theorem resolve_blank (utf8 : Bool) :
    resolveStringPoolEntry (blank S utf8) utf8 = some (Text.empty : S) :=
  resolve_encode (.inr (by rw [Text.length_empty]; decide))

theorem resolves_of_resolve {utf8 : Bool} {buffer : Bytes} {s : S}
    (h : resolveStringPoolEntry buffer utf8 = some s) : resolves utf8 buffer = true := by
  rw [resolveStringPoolEntry_eq] at h
  by_contra hnot
  rw [if_neg hnot] at h
  cases h

theorem length_blank (utf8 : Bool) : (blank S utf8).length = minBytes utf8 := by
  cases utf8 <;>
    simp [blank, encodeStringPoolEntry, minBytes, Text.length_empty, Text.utf8_empty,
      Text.utf16le_empty]

namespace ResStringBlock

/-- The pool with the names that are not kept replaced by the empty string. -/
def blanked (keep : ℤ → Bool) (pool : ResStringBlock S) : ResStringBlock S :=
  { pool with strings := pool.strings.map fun strings =>
      strings.mapIdx fun i buffer => if keep i then buffer else blank S pool.utf8 }

variable {pool : ResStringBlock S} {keep : ℤ → Bool}

theorem strings_blanked : (pool.blanked keep).strings.getD [] =
    (pool.strings.getD []).mapIdx fun i buffer => if keep i then buffer else blank S pool.utf8 := by
  rw [blanked]
  cases pool.strings <;> rfl

theorem mem_blanked {buffer : Bytes} (h : buffer ∈ (pool.blanked keep).strings.getD []) :
    buffer ∈ pool.strings.getD [] ∨ buffer = blank S pool.utf8 := by
  rw [strings_blanked, mem_mapIdx] at h
  obtain ⟨i, hi, rfl⟩ := h
  split
  · exact .inl (getElem_mem hi)
  · exact .inr rfl

theorem all_resolves_blanked (h : (pool.strings.getD []).all (resolves pool.utf8) = true) :
    ((pool.blanked keep).strings.getD []).all (resolves pool.utf8) = true := by
  refine all_eq_true.mpr fun buffer hbuf => ?_
  rcases mem_blanked hbuf with hmem | rfl
  · exact all_eq_true.mp h buffer hmem
  · exact resolves_of_resolve (resolve_blank (S := S) _)

theorem Consistent.blanked (h : pool.Consistent) (keep : ℤ → Bool) :
    (pool.blanked keep).Consistent where
  __ := h
  stringCount_eq := by
    rw [strings_blanked, length_mapIdx]
    exact h.stringCount_eq
  minBytes_le := by
    intro buffer hbuf
    rcases mem_blanked hbuf with hmem | rfl
    · exact h.minBytes_le buffer hmem
    · exact (length_blank _).ge
  listed := by
    intro hsome
    refine h.listed ?_
    rwa [ResStringBlock.blanked, isSome_map] at hsome
  unlisted := by
    intro hnone
    rw [ResStringBlock.blanked, map_eq_none_iff] at hnone
    exact h.unlisted hnone

theorem unpadded_blanked_le (h : pool.Consistent) (keep : ℤ → Bool) :
    (pool.blanked keep).unpadded ≤ pool.unpadded := by
  have hle : ∀ (strings : List Bytes) (keep : ℕ → Bool),
      (∀ buffer ∈ strings, minBytes pool.utf8 ≤ buffer.length) →
      (strings.mapIdx fun i buffer => if keep i then buffer else blank S pool.utf8).flatten.length ≤
        strings.flatten.length := by
    intro strings
    induction strings with
    | nil => intro keep _; exact le_rfl
    | cons buffer strings ih =>
      intro keep hmin
      obtain ⟨hbuf, hstrs⟩ := forall_mem_cons.mp hmin
      have hrest := ih (fun i => keep (i + 1)) hstrs
      rw [mapIdx_cons, flatten_cons, length_append, flatten_cons,
        length_append]
      refine Nat.add_le_add ?_ hrest
      split
      · exact le_rfl
      · rw [length_blank]
        exact hbuf
  have hflat := hle (pool.strings.getD []) (fun i => keep i) h.minBytes_le
  rw [unpadded, unpadded, strings_blanked, length_mapIdx]
  change pool.headSize.toInt + _ + (pool.styleOffsets.getD []).length * 4 + _ +
    (pool.styles.getD []).length ≤ _
  omega

/-- **Names after blanking**. -/
theorem lookup_blanked (hin : InPool pool index) :
    lookup (pool.blanked keep) index =
      if keep index.toInt then lookup pool index else some Text.empty := by
  have hlt : index.toInt.toNat < (pool.strings.getD []).length := by
    have := hin.1
    have := hin.2
    omega
  have hcast : ((index.toInt.toNat : ℕ) : ℤ) = index.toInt := Int.toNat_of_nonneg hin.1
  rw [lookup, lookup, elementAt, elementAt, if_pos hin.1, if_pos hin.1, strings_blanked,
    List.getElem?_mapIdx, List.getElem?_eq_getElem hlt, hcast]
  split
  · rfl
  · exact resolve_blank _

theorem inPool_blanked : InPool (pool.blanked keep) index ↔ InPool pool index := by
  rw [InPool, InPool, strings_blanked, length_mapIdx]

variable [DecidableEq S]

@[simp]
theorem lookup_refreshed (index : BitVec 32) : lookup pool.refreshed index = lookup pool index := rfl

theorem Consistent.refreshed (h : pool.Consistent) : pool.refreshed.Consistent where
  __ := h
  listed := by
    intro hsome
    obtain ⟨strings, hstrs⟩ := isSome_iff_exists.mp hsome
    have hstrs' : pool.strings = some strings := hstrs
    simp [ResStringBlock.refreshed, hstrs']
  unlisted := by
    intro hnone
    have hnone' : pool.strings = none := hnone
    simpa [ResStringBlock.refreshed, hnone'] using h.unlisted hnone'

end ResStringBlock

end Blank

/-! ## Chunks -/

namespace ResChunk

/-- Types are laid out, or empty and not written. -/
def Sound : ResChunk S → Prop
  | .typeSpec s => s.Laid
  | .resType t => t.Sound

/-- The counts of a type are those of its entries. -/
def Counted : ResChunk S → Prop
  | .typeSpec _ => True
  | .resType t => t.Counted

def mapType (g : ResType S → ResType S) : ResChunk S → ResChunk S
  | .typeSpec s => .typeSpec s
  | .resType t => .resType (g t)

/-- The chunk after `removeResource`. -/
def removed (resourceId : BitVec 32) : ResChunk S → ResChunk S := mapType (ResType.removed resourceId)

variable {chunk : ResChunk S} {resourceId : BitVec 32}

theorem updateFound_of_sound (h : chunk.Sound) {g : ResType S → ResType S}
    {step : ResType S → Option (ResType S)}
    (hstep : ∀ t, chunk = .resType t → t.has resourceId → step t = some (g t)) :
    chunk.updateFound resourceId step =
      some (chunk.mapType fun t => if t.has resourceId then g t else t) := by
  cases chunk with
  | typeSpec s => rfl
  | resType t =>
    rw [updateFound, ResType.found_of_sound h, mapType]
    cases hhas : t.has resourceId with
    | false => rfl
    | true =>
      simp only [bind_eq_bind, bind_some, if_true, hstep t rfl hhas]
      rfl

theorem sound_removed (h : chunk.Sound) : (chunk.removed resourceId).Sound := by
  cases chunk with
  | typeSpec s => exact h
  | resType t => exact ResType.sound_removed h

theorem counted_removed (h : chunk.Counted) : (chunk.removed resourceId).Counted := by
  cases chunk with
  | typeSpec s => trivial
  | resType t => exact ResType.counted_removed h

end ResChunk

/-! ## Packages -/

variable {pool : ResStringBlock S}

namespace ResPackage

/-- The chunks of a package. -/
def chunks (p : ResPackage S) : List (ResChunk S) := p.resTypeArray.getD []

/-- **A package in order**: its types and its name pool are as the edits need them. -/
structure Editable (p : ResPackage S) : Prop where
  chunks_isSome : p.resTypeArray.isSome
  chunks_sound : ∀ chunk ∈ p.chunks, chunk.Sound
  namePool_isSome : p.resNamePool.isSome
  namePool_consistent : ∀ pool ∈ p.resNamePool, pool.Consistent
  namePool_resolves : ∀ pool ∈ p.resNamePool, (pool.strings.getD []).all (resolves pool.utf8) = true
  names : ∀ pool ∈ p.resNamePool, ∀ chunk ∈ p.chunks, ∀ e ∈ chunk.entries,
    InPool pool e.stringPoolIndex

variable {p : ResPackage S} {resourceId : BitVec 32}

theorem mem_types {t : ResType S} : t ∈ p.types ↔ ResChunk.resType t ∈ p.chunks := by
  rw [types, mem_filterMap]
  constructor
  · rintro ⟨chunk, hchk, heq⟩
    cases chunk with
    | typeSpec s => cases heq
    | resType u =>
      cases heq
      exact hchk
  · intro hmem
    exact ⟨_, hmem, rfl⟩

theorem findAmong_of_sound {types : List (ResType S)} (h : ∀ t ∈ types, t.Sound) :
    findAmong resourceId types = some (types.filter (ResType.has resourceId)) := by
  induction types with
  | nil => rfl
  | cons t types ih =>
    obtain ⟨ht, htypes⟩ := forall_mem_cons.mp h
    rw [findAmong, ResType.found_of_sound ht, ih htypes, filter_cons]
    rfl

theorem findResType_of_sound (h : ∀ chunk ∈ p.chunks, chunk.Sound) :
    p.findResType resourceId = some (p.types.filter (ResType.has resourceId)) :=
  findAmong_of_sound fun _ ht => h _ (mem_types.mp ht)

/-- The package without the resource, before its names are looked at. -/
def withoutResource (p : ResPackage S) (resourceId : BitVec 32) : ResPackage S :=
  { p with resTypeArray := p.resTypeArray.map fun chunks => chunks.map (ResChunk.removed resourceId) }

theorem chunks_withoutResource :
    (p.withoutResource resourceId).chunks = p.chunks.map (ResChunk.removed resourceId) := by
  rw [chunks, chunks, withoutResource]
  cases p.resTypeArray <;> rfl

theorem updateFound_remove (h : p.Editable) (resourceId : BitVec 32) :
    (p.updateFound resourceId fun t => do
      (← t.removeEntry (getResourceEntryId resourceId)).refresh) =
      some (p.withoutResource resourceId) := by
  obtain ⟨chunks, hchks⟩ := isSome_iff_exists.mp h.chunks_isSome
  have hsound := h.chunks_sound
  rw [ResPackage.chunks, hchks] at hsound
  have hmap : chunks.mapM (ResChunk.updateFound resourceId fun t => do
      (← t.removeEntry (getResourceEntryId resourceId)).refresh) =
      some (chunks.map (ResChunk.removed resourceId)) := by
    refine mapM_eq_some_map fun chunk hchk => ?_
    rw [ResChunk.updateFound_of_sound (g := ResType.removed resourceId) (hsound chunk hchk)]
    · simp only [ResType.ite_removed]
      rfl
    · intro t ht hhas
      exact ResType.remove_of_sound (ht ▸ hsound chunk hchk : (ResChunk.resType t).Sound) hhas
  rw [updateFound, hchks, getD_some, hmap, withoutResource, hchks]
  rfl

theorem mapM_entryAt (p : ResPackage S) (resourceId : BitVec 32) :
    ∃ entries, (p.types.filter (ResType.has resourceId)).mapM
        (fun t => t.entryAt (getResourceEntryId resourceId)) = some entries ∧
      ∀ e ∈ entries, ∃ chunk ∈ p.chunks, e ∈ chunk.entries := by
  have hall : ∀ types : List (ResType S), (∀ t ∈ types, t ∈ p.types ∧ t.has resourceId) →
      ∃ entries, types.mapM (fun t => t.entryAt (getResourceEntryId resourceId)) = some entries ∧
        ∀ e ∈ entries, ∃ chunk ∈ p.chunks, e ∈ chunk.entries := by
    intro types
    induction types with
    | nil => exact fun _ => ⟨[], rfl, nofun⟩
    | cons t types ih =>
      intro htypes
      obtain ⟨⟨hmem, hhas⟩, hrest⟩ := forall_mem_cons.mp htypes
      obtain ⟨entries, hents, hin⟩ := ih hrest
      rw [ResType.has, decide_eq_true_iff] at hhas
      obtain ⟨e, he⟩ := isSome_iff_exists.mp hhas.2
      refine ⟨e :: entries, by rw [mapM_cons, he, hents]; rfl, ?_⟩
      exact forall_mem_cons.mpr
        ⟨⟨_, mem_types.mp hmem, ResType.mem_entries_of_entryAt he⟩, hin⟩
  exact hall _ fun t ht => mem_filter.mp ht

theorem counted_iff (h : ∀ chunk ∈ p.chunks, chunk.Counted) (index : ℤ) :
    p.counted index = true ↔
      ∃ chunk ∈ p.chunks, ∃ e ∈ chunk.entries, e.stringPoolIndex.toInt = index := by
  rw [counted, List.any_eq_true]
  refine exists_congr fun chunk => and_congr_right fun hchk => ?_
  cases chunk with
  | typeSpec s => simp [ResChunk.entries]
  | resType t =>
    have hcntd : t.Counted := h _ hchk
    simp [hcntd index, List.any_eq_true, ResChunk.entries]

theorem counted_withoutResource (h : ∀ chunk ∈ p.chunks, chunk.Counted) (resourceId : BitVec 32) :
    ∀ chunk ∈ (p.withoutResource resourceId).chunks, chunk.Counted := by
  rw [chunks_withoutResource]
  exact forall_mem_map.mpr fun chunk hchk => ResChunk.counted_removed (h chunk hchk)

variable [Text S]

theorem removedName_of_editable (h : p.Editable) (resourceId : BitVec 32)
    {entries : List (ResEntry S)}
    (hents : ∀ e ∈ entries, ∃ chunk ∈ p.chunks, e ∈ chunk.entries) :
    ∃ name, (p.withoutResource resourceId).removedName entries = some name := by
  obtain ⟨pool, hpool⟩ := isSome_iff_exists.mp h.namePool_isSome
  have hpool' : (p.withoutResource resourceId).resNamePool = some pool := hpool
  rw [removedName, hpool', bind_some]
  cases hlast : entries.getLast? with
  | none => exact ⟨Text.empty, rfl⟩
  | some e =>
    obtain ⟨chunk, hchk, he⟩ := hents e (mem_of_getLast? hlast)
    have hres : Resolving pool := all_eq_true.mp (h.namePool_resolves pool hpool)
    obtain ⟨name, hname⟩ := lookup_of_inPool hres (h.names pool hpool chunk hchk e he)
    simp only [map_some, getD_some, hname]
    split
    · exact ⟨name, rfl⟩
    · exact ⟨Text.empty, rfl⟩

variable [DecidableEq S]

theorem shrinkResNameStringPool_eq (hpool : p.resNamePool = some pool)
    (hcons : pool.Consistent)
    (hrslvs : (pool.strings.getD []).all (resolves pool.utf8) = true) :
    p.shrinkResNameStringPool = some { p with
      resNamePool := some (pool.blanked p.counted).refreshed
      resProguardPool := p.resProguardPool.map fun _ => (pool.blanked p.counted).refreshed } := by
  have hcnt := hcons.stringCount_eq
  have hlen : ¬ (pool.strings.getD []).length < pool.stringCount.toInt.toNat := by omega
  have hblan : { pool with strings := pool.strings.map fun _ =>
      (pool.strings.getD []).mapIdx fun i buffer =>
        if i < pool.stringCount.toInt.toNat ∧ ¬ p.counted i then
          encodeStringPoolEntry (Text.empty : S) pool.utf8
        else buffer } = pool.blanked p.counted := by
    congr 1
    cases hstrs : pool.strings with
    | none => rfl
    | some strings =>
      rw [hstrs] at hcnt
      refine congrArg some (ext_getElem (by simp) fun i hi _ => ?_)
      rw [getD_some, length_mapIdx] at hi
      simp only [getD_some, getElem_mapIdx, hcnt, Int.toNat_natCast, hi, true_and]
      cases p.counted i <;> rfl
  have hrefr := ResStringBlock.refresh_of_consistent (hcons.blanked p.counted)
    fun _ => ResStringBlock.all_resolves_blanked hrslvs
  rw [shrinkResNameStringPool, hpool]
  simp only [if_neg hlen, hblan, hrefr, bind_eq_bind, bind_some]
  rfl

/-- The name pool after `removeResource`; `refresh` refreshes it again once it is the pool of renamed
entries. -/
def shrunk (p : ResPackage S) (pool : ResStringBlock S) : ResStringBlock S :=
  if p.resProguardPool.isSome then (pool.blanked p.counted).refreshed.refreshed
  else (pool.blanked p.counted).refreshed

/-- **The package that `removeResource` leaves.** -/
theorem removeResource_of_editable (h : p.Editable) (hpool : p.resNamePool = some pool) :
    p.removeResource resourceId =
      let q := p.withoutResource resourceId
      some { q with
        resNamePool := some (q.shrunk pool)
        resProguardPool := q.resProguardPool.map fun _ => q.shrunk pool }.recomputeChunkSize := by
  have hcons := h.namePool_consistent pool hpool
  have hrslvs := h.namePool_resolves pool hpool
  obtain ⟨entries, hents, hin⟩ := mapM_entryAt p resourceId
  obtain ⟨name, hname⟩ := removedName_of_editable h resourceId hin
  have hshri := shrinkResNameStringPool_eq (p := p.withoutResource resourceId) hpool hcons
    hrslvs
  have hupd := updateFound_remove h resourceId
  rw [removeResource, findResType_of_sound h.chunks_sound]
  simp only [bind_eq_bind, bind_some, hents] at hupd ⊢
  simp only [hupd, bind_some, hname, hshri]
  rw [refresh, shrunk]
  cases hprog : (p.withoutResource resourceId).resProguardPool with
  | none => rfl
  | some proguard =>
    have hag := ResStringBlock.refresh_of_consistent
      (hcons.blanked (p.withoutResource resourceId).counted).refreshed
      fun _ => ResStringBlock.all_resolves_blanked hrslvs
    simp only [map_some, hag, bind_eq_bind, bind_some]
    rfl

theorem lookup_shrunk (hin : InPool pool index) :
    lookup (p.shrunk pool) index =
      if p.counted index.toInt then lookup pool index else some Text.empty := by
  rw [shrunk]
  split <;> simp only [ResStringBlock.lookup_refreshed, ResStringBlock.lookup_blanked hin]

theorem inPool_shrunk : InPool (p.shrunk pool) index ↔ InPool pool index := by
  rw [shrunk]
  split
  · exact ResStringBlock.inPool_blanked
  · exact ResStringBlock.inPool_blanked

end ResPackage

/-! ## Packages that were read -/

variable {names : ResStringBlock S} {p : ResPackage S}

section Fresh

theorem ResChunk.sound_of_laid {chunk : ResChunk S} (h : chunk.Laid) : chunk.Sound := by
  cases chunk with
  | typeSpec s => exact h
  | resType t => exact .inl h

variable [Text S]

theorem ResType.counted_reread {t : ResType S} : (t.reread names).Counted := by
  intro i
  change (ResType.entries (t.reread names) |>.foldl countName ∅).contains i = _
  rw [contains_foldl_countName, Std.ExtTreeMap.contains_empty, Bool.or_false]

theorem ResChunk.counted_reread {chunk : ResChunk S} : (chunk.reread names).Counted := by
  cases chunk with
  | typeSpec s => trivial
  | resType t => exact ResType.counted_reread

variable [DecidableEq S]

theorem ResStringBlock.consistent_reread {p : ResStringBlock S} (h : p.Laid) : p.reread.Consistent := by
  have hlaid := h.reread
  refine
    { __ := hlaid
      listed := ?_
      unlisted := ?_ }
  · intro hsome
    by_cases hpos : 0 < p.stringCount.toInt
    · simp [ResStringBlock.reread, hpos]
    · simp [ResStringBlock.reread, hpos] at hsome
  · intro hnone
    refine ⟨?_, hlaid.stringStart_eq⟩
    rw [hlaid.stringOffsets_eq, hnone]
    rfl

namespace ResPackage

/-- **A package that was read**: the chunks are laid out and their names counted. -/
structure Fresh (p : ResPackage S) : Prop where
  laid : p.Laid
  editable : p.Editable
  chunks_laid : ∀ chunk ∈ p.chunks, chunk.Laid
  chunks_counted : ∀ chunk ∈ p.chunks, chunk.Counted
  resProguardPool_eq : p.resProguardPool = none

theorem fresh_reread {globalPool : ResStringBlock S} (h : p.Laid) (hread : p.readable = true)
    (hglob : globalPool.Laid) (href : p.Refers globalPool) : p.reread.Fresh := by
  obtain ⟨names, hnam, hnamesLaid⟩ := h.namePool
  have hchks : p.reread.chunks = p.written.map (ResChunk.reread names.reread) :=
    resTypeArray_reread hnam
  have hpool : p.reread.resNamePool = some names.reread := by
    rw [reread, hnam]
    rfl
  have hnamesReadable : names.readable = true := by
    rw [readable, hnam, Bool.and_eq_true_iff] at hread
    exact hread.2
  have hlaid : ∀ chunk ∈ p.reread.chunks, chunk.Laid := by
    rw [hchks]
    exact forall_mem_map.mpr fun c hc => (laid_of_mem_written h hc).reread
  refine ⟨h.reread, ?_, hlaid, ?_, rfl⟩
  · refine
      { chunks_isSome := by rw [reread, hnam]; rfl
        chunks_sound := fun c hc => ResChunk.sound_of_laid (hlaid c hc)
        namePool_isSome := by rw [hpool]; rfl
        namePool_consistent := ?_
        namePool_resolves := ?_
        names := ?_ }
    · intro pool hmem
      rw [← some.inj (hpool.symm.trans hmem)]
      exact ResStringBlock.consistent_reread hnamesLaid
    · intro pool hmem
      rw [← some.inj (hpool.symm.trans hmem)]
      exact all_eq_true.mpr (ResStringBlock.resolving_reread hnamesLaid hnamesReadable)
    · intro pool hmem chunk hchk e he
      exact (ResTable.refers_reread hglob h href pool hmem chunk hchk e he).name
  · rw [hchks]
    exact forall_mem_map.mpr fun c _ => ResChunk.counted_reread

end ResPackage

end Fresh

/-! ## Sizes -/

namespace ResChunk

variable {chunk : ResChunk S} {resourceId : BitVec 32}

theorem chunkSize_aligned (h : chunk.Laid) : chunk.chunkSize.toInt % 4 = 0 := by
  cases chunk with
  | typeSpec s =>
    have hsize := h.chunkSize_eq
    have hflags := h.configFlags_aligned
    change s.chunkSize.toInt % 4 = 0
    omega
  | resType t =>
    have hsize := h.chunkSize_eq
    have hhead := h.headSize_aligned
    have hmod := length_flatMap_contents_mod h.entries_laid
    change t.chunkSize.toInt % 4 = 0
    omega

theorem laid_or_dropped_of_sound (h : chunk.Sound) : chunk.Laid ∨ chunk.Dropped := by
  cases chunk with
  | typeSpec s => exact .inl h
  | resType t => exact h.imp id fun hemp => ⟨hemp.chunkSize_eq, hemp.entries_eq⟩

theorem chunkSize_nonneg (h : chunk.Laid ∨ chunk.Dropped) : 0 ≤ chunk.chunkSize.toInt := by
  rcases h with hlaid | ⟨hzero, -⟩
  · exact le_trans (by decide) (chunkSize_pos hlaid)
  · rw [hzero]
    decide

theorem chunkSize_removed_le (h : chunk.Sound) :
    (chunk.removed resourceId).chunkSize.toInt ≤ chunk.chunkSize.toInt := by
  cases chunk with
  | typeSpec s => exact le_rfl
  | resType t =>
    change (t.removed resourceId).chunkSize.toInt ≤ t.chunkSize.toInt
    cases hhas : t.has resourceId with
    | false => rw [ResType.removed, hhas, if_neg Bool.false_ne_true]
    | true =>
      have hent := hhas
      rw [ResType.has, decide_eq_true_iff] at hent
      have hlaid := ResType.Sound.laid h hent.2
      have hpos : 0 ≤ t.chunkSize.toInt :=
        @chunkSize_nonneg _ (.resType t) (.inl hlaid)
      rw [ResType.removed, hhas, if_pos rfl]
      rcases ResType.sound_refreshed ((ResType.shaped_of_laid hlaid).without
        (getResourceEntryId resourceId)) with haft | hemp
      · have hle := ResType.length_flatMap_without_le (t := t) (k := getResourceEntryId resourceId)
        have hafterSize := haft.chunkSize_eq
        have hbef := hlaid.chunkSize_eq
        have hcountAfter := haft.entryCount_eq
        have hcnt := hlaid.entryCount_eq
        have htbl : ((t.without (getResourceEntryId resourceId)).refreshed.entryTable.getD []).length =
            (t.entryTable.getD []).length := by
          change ((t.entryTable.map _).getD []).length = _
          cases t.entryTable <;> simp
        have hhead : (t.without (getResourceEntryId resourceId)).refreshed.headSize = t.headSize := rfl
        rw [ResType.entries_refreshed, hhead] at hafterSize
        omega
      · rw [hemp.chunkSize_eq]
        exact hpos

end ResChunk

namespace ResPackage

variable {p : ResPackage S}

theorem sum_written (h : ∀ chunk ∈ p.chunks, chunk.Laid ∨ chunk.Dropped) :
    (p.written.map fun chunk => chunk.chunkSize.toInt).sum =
      (p.chunks.map fun chunk => chunk.chunkSize.toInt).sum := by
  rw [written, ← chunks]
  generalize p.chunks = chunks at h
  induction chunks with
  | nil => rfl
  | cons chunk chunks ih =>
    obtain ⟨hchk, hrest⟩ := forall_mem_cons.mp h
    have hnonn := ResChunk.chunkSize_nonneg hchk
    rw [filter_cons, map_cons, sum_cons, ← ih hrest]
    split
    · rw [map_cons, sum_cons]
    · rename_i hpos
      rw [decide_eq_true_iff] at hpos
      omega

theorem sum_aligned {chunks : List (ResChunk S)} (h : ∀ chunk ∈ chunks, chunk.Laid ∨ chunk.Dropped) :
    (chunks.map fun chunk => chunk.chunkSize.toInt).sum % 4 = 0 := by
  refine Int.emod_eq_zero_of_dvd (dvd_sum ?_)
  rw [List.forall_mem_map]
  intro chunk hchk
  rcases h chunk hchk with hlaid | ⟨hzero, -⟩
  · exact Int.dvd_of_emod_eq_zero (ResChunk.chunkSize_aligned hlaid)
  · rw [hzero]
    decide

/-- The package with another name pool and other chunks. -/
def edited (p : ResPackage S) (names : ResStringBlock S) (array : Option (List (ResChunk S)))
    (proguard : Option (ResStringBlock S)) : ResPackage S :=
  { p with resNamePool := some names, resTypeArray := array, resProguardPool := proguard }

/-- **The sizes of a package after an edit**: with a name pool and chunks that do not grow, it is laid
out again and does not grow either. -/
theorem laid_edited (h : p.Laid) {names' : ResStringBlock S} {array : Option (List (ResChunk S))}
    (proguard : Option (ResStringBlock S)) (hnam : p.resNamePool = some names)
    (hnam' : names'.Laid) (hgrow : names'.chunkSize.toInt ≤ names.chunkSize.toInt)
    (hchks : ∀ chunk ∈ array.getD [], chunk.Laid ∨ chunk.Dropped)
    (hsum : ((array.getD []).map fun chunk => chunk.chunkSize.toInt).sum ≤
      (p.chunks.map fun chunk => chunk.chunkSize.toInt).sum) :
    (p.edited names' array proguard).recomputeChunkSize.Laid ∧
      (p.edited names' array proguard).recomputeChunkSize.chunkSize.toInt ≤ p.chunkSize.toInt := by
  obtain ⟨types, htypes, htypesLaid⟩ := h.typePool
  have hsize := h.chunkSize_eq
  have hmax := toInt_lt (x := p.chunkSize)
  have hhead := h.headSize_eq
  have hpad := h.headPadding_nonneg
  have haln := h.headSize_aligned
  have htypesAligned := ResStringBlock.chunkSize_aligned htypesLaid
  have hnamesAligned := ResStringBlock.chunkSize_aligned hnam'
  have hsumAligned := sum_aligned hchks
  have htypesLength := ResStringBlock.length_contents htypesLaid
  have hnamesLength := ResStringBlock.length_contents hnam'
  have hsumNonneg : 0 ≤ ((array.getD []).map fun chunk => chunk.chunkSize.toInt).sum :=
    sum_nonneg (forall_mem_map.mpr fun c hc => ResChunk.chunkSize_nonneg (hchks c hc))
  rw [sum_written h.chunks, htypes, hnam, elim_some, elim_some] at hsize
  have hwrit : ((p.edited names' array proguard).written.map fun c => c.chunkSize.toInt).sum =
      ((array.getD []).map fun chunk => chunk.chunkSize.toInt).sum :=
    sum_written (p := p.edited names' array proguard) hchks
  have hpadd : padding (p.headSize.toInt + types.chunkSize.toInt + names'.chunkSize.toInt +
      ((array.getD []).map fun chunk => chunk.chunkSize.toInt).sum) = 0 :=
    ResStringBlock.padding_of_aligned (by omega)
  have htypes' : (p.edited names' array proguard).resTypePool = some types := htypes
  have hrec : (p.edited names' array proguard).recomputeChunkSize =
      { p.edited names' array proguard with
        chunkSize := BitVec.ofInt 32 (p.headSize.toInt + types.chunkSize.toInt +
          names'.chunkSize.toInt + ((array.getD []).map fun chunk => chunk.chunkSize.toInt).sum)
        chunkPadding := 0 } := by
    rw [recomputeChunkSize, hwrit, htypes']
    simp [edited, htypes, hpadd]
  have hint : (p.edited names' array proguard).recomputeChunkSize.chunkSize.toInt =
      p.headSize.toInt + types.chunkSize.toInt + names'.chunkSize.toInt +
        ((array.getD []).map fun chunk => chunk.chunkSize.toInt).sum := by
    rw [hrec]
    exact toInt_ofInt_of_lt (by omega) (by omega)
  refine ⟨?_, by omega⟩
  refine
    { __ := h
      namePool_isSome := rfl
      namePool_laid := fun pool hpool => some.inj hpool ▸ hnam'
      chunks := hchks
      chunkPadding_eq := by rw [hrec]
      chunkSize_eq := ?_ }
  rw [hint]
  have hwrit' : (p.edited names' array proguard).recomputeChunkSize.written =
      (p.edited names' array proguard).written := rfl
  have htypes'' : (p.edited names' array proguard).recomputeChunkSize.resTypePool = some types := htypes
  rw [hwrit', hwrit, htypes'']
  rfl

section Remove

variable [Text S] [DecidableEq S]

theorem laid_blanked (h : names.Laid) (hcons : names.Consistent) (keep : ℤ → Bool) :
    (names.blanked keep).refreshed.Laid ∧
      (names.blanked keep).refreshed.chunkSize.toInt ≤ names.chunkSize.toInt := by
  have hle := ResStringBlock.unpadded_blanked_le hcons keep
  have hsize := h.chunkSize_eq
  have hmax := toInt_lt (x := names.chunkSize)
  have hgrow : (names.blanked keep).unpadded + padding (names.blanked keep).unpadded ≤
      names.unpadded + padding names.unpadded := by
    rw [padding, padding]
    split <;> split <;> omega
  rw [h.chunkPadding_eq] at hsize
  have hlaid := ResStringBlock.laid_refreshed (hcons.blanked keep)
    (fun hstyle => (h.styled hstyle).1) (by omega)
  refine ⟨hlaid, ?_⟩
  rw [hlaid.chunkSize_eq, hsize]
  exact hgrow

/-- **Removal in a package that was read.** -/
theorem removeResource_of_fresh (h : p.Fresh) (resourceId : BitVec 32)
    (hnam : p.resNamePool = some names) :
    ∃ p', p.removeResource resourceId = some p' ∧ p'.Laid ∧
      p'.chunkSize.toInt ≤ p.chunkSize.toInt ∧ p'.id = p.id ∧
      p'.chunks = p.chunks.map (ResChunk.removed resourceId) ∧
      p'.resNamePool = some ((p.withoutResource resourceId).shrunk names) := by
  have hsound := h.editable.chunks_sound
  have hshru : (p.withoutResource resourceId).shrunk names =
      (names.blanked (p.withoutResource resourceId).counted).refreshed := by
    rw [shrunk, show (p.withoutResource resourceId).resProguardPool = none from h.resProguardPool_eq]
    rfl
  obtain ⟨hnamesLaid, hgrow⟩ := laid_blanked (h.laid.namePool_laid names hnam)
    (h.editable.namePool_consistent names hnam) (p.withoutResource resourceId).counted
  rw [← hshru] at hnamesLaid hgrow
  have haft : ∀ chunk ∈ (p.withoutResource resourceId).resTypeArray.getD [],
      chunk.Laid ∨ chunk.Dropped := by
    rw [← ResPackage.chunks, chunks_withoutResource]
    exact forall_mem_map.mpr fun c hc =>
      ResChunk.laid_or_dropped_of_sound (ResChunk.sound_removed (hsound c hc))
  have hsum : (((p.withoutResource resourceId).resTypeArray.getD []).map
      fun chunk => chunk.chunkSize.toInt).sum ≤
      (p.chunks.map fun chunk => chunk.chunkSize.toInt).sum := by
    rw [← ResPackage.chunks, chunks_withoutResource, List.map_map]
    exact sum_le_sum fun c hc => ResChunk.chunkSize_removed_le (hsound c hc)
  obtain ⟨hlaid, hle⟩ := laid_edited h.laid
    ((p.withoutResource resourceId).resProguardPool.map fun _ =>
      (p.withoutResource resourceId).shrunk names) hnam hnamesLaid hgrow haft hsum
  exact ⟨_, removeResource_of_editable h.editable hnam, hlaid, hle, rfl, chunks_withoutResource, rfl⟩

end Remove

end ResPackage

/-! ## Resource ids -/

theorem getResourceEntryId_eq (resourceId : BitVec 32) :
    getResourceEntryId resourceId = resourceId.toNat % 2 ^ 16 := by
  exact Nat.and_two_pow_sub_one_eq_mod resourceId.toNat 16

theorem toNat_getResourceTypeId (resourceId : BitVec 32) :
    (getResourceTypeId resourceId).toNat = resourceId.toNat / 2 ^ 16 % 2 ^ 8 := by
  have hmsb : (resourceId &&& 0x00ff0000).msb = false := by
    rw [msb_and, show (0x00ff0000 : BitVec 32).msb = false by decide, Bool.and_false]
  rw [getResourceTypeId, sshiftRight_eq_of_msb_false hmsb, toNat_ushiftRight,
    toNat_and, Nat.shiftRight_and_distrib, Nat.shiftRight_eq_div_pow]
  exact Nat.and_two_pow_sub_one_eq_mod _ 8

theorem getPackageId_eq (resourceId : BitVec 32) :
    getPackageId resourceId = resourceId.sshiftRight 24 := by
  have hmask : ∀ i : Fin 32, 24 ≤ i.val → (0xff000000 : BitVec 32).getLsbD i = true := by decide
  refine eq_of_getLsbD_eq fun i hi => ?_
  rw [getPackageId, getLsbD_sshiftRight, getLsbD_sshiftRight, msb_and,
    show (0xff000000 : BitVec 32).msb = true by decide, Bool.and_true]
  split
  · rename_i hlt
    rw [getLsbD_and, hmask ⟨24 + i, hlt⟩ (Nat.le_add_right _ _), Bool.and_true]
  · rfl

variable {resourceId : BitVec 32}

theorem eq_getPackageId_iff {id : BitVec 32} (hid : id.toNat < 0x80) :
    id = getPackageId resourceId ↔ id.toNat = resourceId.toNat / 2 ^ 24 := by
  rw [getPackageId_eq, ← toNat_inj]
  cases hmsb : resourceId.msb with
  | false =>
    rw [sshiftRight_eq_of_msb_false hmsb, toNat_ushiftRight,
      Nat.shiftRight_eq_div_pow]
  | true =>
    have hge := msb_eq_true_iff_two_mul_ge.mp hmsb
    rw [sshiftRight_eq_of_msb_true hmsb, toNat_not, toNat_ushiftRight]
    omega

theorem toInt_eq_getResourceTypeId_iff {id : BitVec 8} (resourceId : BitVec 32)
    (hid : id.toNat < 0x80) :
    id.toInt = (getResourceTypeId resourceId).toInt ↔
      id.toNat = resourceId.toNat / 2 ^ 16 % 2 ^ 8 := by
  have htype := toNat_getResourceTypeId resourceId
  rw [toInt_eq_toNat_of_lt (by omega), toInt_eq_toNat_of_lt (by omega), htype]
  exact Nat.cast_inj

/-! ## Tables -/

theorem ResChunk.mem_entries_of_removed {chunk : ResChunk S} {e : ResEntry S}
    (h : e ∈ (chunk.removed resourceId).entries) : e ∈ chunk.entries := by
  cases chunk with
  | typeSpec s => exact h
  | resType t => exact ResType.mem_entries_of_removed h

theorem ResPackage.chunkSize_aligned (h : p.Laid) : p.chunkSize.toInt % 4 = 0 := by
  obtain ⟨types, htypes, htypesLaid⟩ := h.typePool
  obtain ⟨names, hnam, hnamesLaid⟩ := h.namePool
  have hsize := h.chunkSize_eq
  have hhead := h.headSize_aligned
  have htypesAligned := ResStringBlock.chunkSize_aligned htypesLaid
  have hnamesAligned := ResStringBlock.chunkSize_aligned hnamesLaid
  have hsum := sum_aligned h.chunks
  rw [← ResPackage.chunks, ← sum_written h.chunks] at hsum
  rw [htypes, hnam, elim_some, elim_some] at hsize
  omega

namespace ResTable

variable {t : ResTable S}

theorem canonical_refresh (h : t.Canonical) {packages : List (ResPackage S)}
    (hlen : packages.length = (t.packages.getD []).length) (hlaid : ∀ p ∈ packages, p.Laid)
    (href : ∀ pool ∈ t.globalStringPool, ∀ p ∈ packages, p.Refers pool)
    (hsum : (packages.map fun p => p.chunkSize.toInt).sum ≤
      ((t.packages.getD []).map fun p => p.chunkSize.toInt).sum) :
    { t with packages := some packages }.refresh.Canonical := by
  obtain ⟨pool, hpool, hpoolLaid⟩ := h.globalPool
  have hsize := h.chunkSize_eq
  have hhead := h.headSize_eq
  have hmax := toInt_lt (x := t.chunkSize)
  have hpoolAligned := ResStringBlock.chunkSize_aligned hpoolLaid
  have hpoolLength := ResStringBlock.length_contents hpoolLaid
  have hsumAligned : (packages.map fun p => p.chunkSize.toInt).sum % 4 = 0 :=
    Int.emod_eq_zero_of_dvd (dvd_sum (forall_mem_map.mpr fun p hp =>
      Int.dvd_of_emod_eq_zero (ResPackage.chunkSize_aligned (hlaid p hp))))
  have hsumLength := length_flatMap_contents hlaid
  rw [hpool, elim_some] at hsize
  have hpadd : padding (t.headSize.toInt + pool.chunkSize.toInt +
      (packages.map fun p => p.chunkSize.toInt).sum) = 0 :=
    ResStringBlock.padding_of_aligned (by omega)
  have hrefr : { t with packages := some packages }.refresh = { t with
      packages := some packages
      chunkSize := BitVec.ofInt 32 (t.headSize.toInt + pool.chunkSize.toInt +
        (packages.map fun p => p.chunkSize.toInt).sum)
      chunkPadding := 0 } := by
    rw [refresh]
    simp [hpool, hpadd]
  rw [hrefr]
  refine
    { __ := h
      packageCount_eq := h.packageCount_eq.trans (congrArg Nat.cast hlen.symm)
      packages_laid := hlaid
      refers := href
      chunkPadding_eq := rfl
      chunkSize_eq := ?_ }
  rw [hpool, toInt_ofInt_of_lt (by omega) (by omega)]
  rfl

end ResTable

/-- The entry is gone in every configuration, other entries are as before, and every name that no
entry refers to is empty. -/
structure RemovedFrom [Text S] (p p' : ResPackage S) (typeId entryId : ℕ) : Prop where
  length_eq : p'.chunks.length = p.chunks.length
  specs : ∀ (j : ℕ) (s : ResTypeSpec),
    p.chunks[j]? = some (.typeSpec s) → p'.chunks[j]? = some (.typeSpec s)
  types : ∀ (j : ℕ) (t : ResType S), p.chunks[j]? = some (.resType t) →
    ∃ t', p'.chunks[j]? = some (.resType t') ∧ t'.id = t.id ∧
      (∀ k, t'.entryAt k = if t.id.toNat = typeId ∧ k = entryId then none else t.entryAt k) ∧
      (t.id.toNat = typeId → entryId < (t.entryTable.getD []).length →
        (t'.entryOffsets.getD [])[entryId]? = some noEntryIndex)
  names : ∀ names ∈ p.resNamePool, ∃ names', p'.resNamePool = some names' ∧
    ∀ index, (InPool names' index ↔ InPool names index) ∧ (InPool names index →
      ((∃ chunk ∈ p'.chunks, ∃ e ∈ chunk.entries, e.stringPoolIndex = index) →
        lookup names' index = lookup names index) ∧
      ((¬ ∃ chunk ∈ p'.chunks, ∃ e ∈ chunk.entries, e.stringPoolIndex = index) →
        lookup names' index = some Text.empty))

section Frame

variable [Text S] [DecidableEq S]

theorem removedFrom_of_fresh {p' : ResPackage S} (h : p.Fresh)
    (hids : ∀ t ∈ p.types, t.id.toNat < 0x80)
    (hchks : p'.chunks = p.chunks.map (ResChunk.removed resourceId))
    (hnam : ∀ names ∈ p.resNamePool,
      p'.resNamePool = some ((p.withoutResource resourceId).shrunk names)) :
    RemovedFrom p p' (resourceId.toNat / 2 ^ 16 % 2 ^ 8) (resourceId.toNat % 2 ^ 16) where
  length_eq := by rw [hchks, length_map]
  specs := by
    intro j s hs
    rw [hchks, getElem?_map, hs]
    rfl
  types := by
    intro j t ht
    have hmem := mem_of_getElem? ht
    have hlaid : t.Laid := h.chunks_laid _ hmem
    have hid := toInt_eq_getResourceTypeId_iff resourceId
      (hids t (ResPackage.mem_types.mpr hmem))
    have hent := getResourceEntryId_eq resourceId
    have hat : ∀ k, (t.removed resourceId).entryAt k =
        if t.id.toNat = resourceId.toNat / 2 ^ 16 % 2 ^ 8 ∧ k = resourceId.toNat % 2 ^ 16 then none
        else t.entryAt k := by
      intro k
      rw [ResType.entryAt_removed, hent]
      simp only [hid]
    refine ⟨t.removed resourceId, by rw [hchks, getElem?_map, ht]; rfl, ?_, hat, ?_⟩
    · rw [ResType.removed]
      split <;> rfl
    · intro htype hlt
      refine ResType.entryOffsets_removed hlaid hlt ?_
      rw [hat, if_pos ⟨htype, rfl⟩]
  names := by
    intro names hmem
    refine ⟨_, hnam names hmem, fun index => ⟨ResPackage.inPool_shrunk, fun hin => ?_⟩⟩
    have hcntd := ResPackage.counted_iff
      (ResPackage.counted_withoutResource h.chunks_counted resourceId) index.toInt
    rw [ResPackage.chunks_withoutResource, ← hchks] at hcntd
    simp only [toInt_inj] at hcntd
    rw [ResPackage.lookup_shrunk hin]
    exact ⟨fun hused => if_pos (hcntd.mpr hused),
      fun hun => if_neg fun hcnt => hun (hcntd.mp hcnt)⟩

theorem fresh_of_read {t₀ t : ResTable S} {bytes : Bytes} (h₀ : t₀.Canonical)
    (hbs : t₀.toBytes = some bytes) (hread : readResourceTable bytes = some t) :
    t.Canonical ∧ ∀ p ∈ t.packages.getD [], p.Fresh := by
  obtain ⟨pool, hpool, hlaid⟩ := h₀.globalPool
  rw [ResTable.toBytes_of_canonical h₀] at hbs
  rw [← some.inj hbs, ResTable.readResourceTable_contents h₀] at hread
  by_cases hreada : t₀.readable = true
  swap
  · rw [if_neg hreada] at hread
    cases hread
  rw [if_pos hreada] at hread
  rw [← some.inj hread]
  refine ⟨h₀.reread, ?_⟩
  rw [ResTable.packages_reread h₀]
  rw [ResTable.readable, Bool.and_eq_true_iff, List.all_eq_true] at hreada
  exact forall_mem_map.mpr fun p hp => ResPackage.fresh_reread (h₀.packages_laid p hp)
    (hreada.2 p hp) hlaid (h₀.refers pool hpool p hp)

theorem refers_removed {p' : ResPackage S} (h : p.Refers pool) (hnam : p.resNamePool = some names)
    (hchks : p'.chunks = p.chunks.map (ResChunk.removed resourceId))
    (hnam' : p'.resNamePool = some ((p.withoutResource resourceId).shrunk names)) :
    p'.Refers pool := by
  intro names' hmem chunk hchk e he
  rw [← ResPackage.chunks, hchks] at hchk
  obtain ⟨before, hbef, rfl⟩ := mem_map.mp hchk
  have href := h names hnam before hbef e (ResChunk.mem_entries_of_removed he)
  rw [← some.inj (hnam'.symm.trans hmem)]
  exact ⟨href.values, ResPackage.inPool_shrunk.mpr href.name⟩

/-- **Frame of a removal**: on a table that was read, the entry is gone from the first package with its
id, every other entry keeps its values and its name, names that are not referred to are empty, and
all sizes and offsets are right again. -/
theorem removeResource_frame (t₀ t : ResTable S) (bytes : Bytes) (h₀ : t₀.Canonical)
    (hbytes : t₀.toBytes = some bytes) (hread : readResourceTable bytes = some t)
    (hids : ∀ p ∈ t.packages.getD [], p.id.toNat < 0x80 ∧ ∀ ty ∈ p.types, ty.id.toNat < 0x80)
    (resourceId : BitVec 32) (i : ℕ) (p : ResPackage S)
    (hp : (t.packages.getD [])[i]? = some p) (hid : p.id.toNat = resourceId.toNat / 2 ^ 24)
    (hfirst : ∀ q ∈ (t.packages.getD []).take i, q.id.toNat ≠ resourceId.toNat / 2 ^ 24) :
    ∃ t' p', removeResource t resourceId = some t' ∧ t'.Canonical ∧
      (∀ a, a ≠ i → (t'.packages.getD [])[a]? = (t.packages.getD [])[a]?) ∧
      (t'.packages.getD [])[i]? = some p' ∧
      RemovedFrom p p' (resourceId.toNat / 2 ^ 16 % 2 ^ 8) (resourceId.toNat % 2 ^ 16) := by
  obtain ⟨hcan, hfresh⟩ := fresh_of_read h₀ hbytes hread
  have hmem := mem_of_getElem? hp
  obtain ⟨names, hnam, -⟩ := (hfresh p hmem).laid.namePool
  obtain ⟨p', hrm, hlaid, hle, -, hchks, hnam'⟩ :=
    ResPackage.removeResource_of_fresh (hfresh p hmem) resourceId hnam
  obtain ⟨packages, hpkgs⟩ : ∃ packages, t.packages = some packages := by
    cases hnone : t.packages with
    | none =>
      rw [hnone] at hp
      cases hp
    | some packages => exact ⟨packages, rfl⟩
  rw [hpkgs, getD_some] at hp hids hfirst hmem hfresh
  have hlt : i < packages.length := by
    by_contra hge
    rw [List.getElem?_eq_none (not_lt.mp hge)] at hp
    cases hp
  -- the package is the first one with the id
  have hfind : findResPackage t (getPackageId resourceId) = some i := by
    rw [findResPackage, hpkgs, getD_some, findIdx?_eq_some_iff_getElem]
    refine ⟨hlt, ?_, fun a ha => ?_⟩
    · rw [List.getElem?_eq_getElem hlt] at hp
      rw [some.inj hp]
      exact decide_eq_true ((eq_getPackageId_iff (hids p hmem).1).mpr hid)
    · have hbef : packages[a] ∈ packages.take i :=
        mem_take_iff_getElem.mpr ⟨a, by omega, rfl⟩
      have hsmall := (hids packages[a] (getElem_mem _)).1
      rw [decide_eq_true_iff, eq_getPackageId_iff hsmall]
      exact hfirst _ hbef
  refine ⟨{ t with packages := some (packages.set i p') }.refresh, p', ?_, ?_, ?_, ?_, ?_⟩
  · rw [removeResource, hfind]
    simp only [ResTable.updatePackage, hpkgs, bind_eq_bind, bind_some, hp, hrm]
    rfl
  · refine ResTable.canonical_refresh hcan (by rw [hpkgs]; simp) ?_ ?_ ?_
    · intro q hq
      rcases mem_or_eq_of_mem_set hq with hq | rfl
      · exact (hfresh q hq).laid
      · exact hlaid
    · intro pool hpool q hq
      have href := hcan.refers pool hpool
      rw [hpkgs] at href
      rcases mem_or_eq_of_mem_set hq with hq | rfl
      · exact href q hq
      · exact refers_removed (href p hmem) hnam hchks hnam'
    · have hlt' : i < (packages.map fun q => q.chunkSize.toInt).length := by rwa [length_map]
      rw [List.getElem?_eq_getElem hlt] at hp
      rw [hpkgs, getD_some, map_set, sum_set', dif_pos hlt', getElem_map,
        some.inj hp]
      omega
  · intro a ha
    change (packages.set i p')[a]? = _
    rw [hpkgs, getD_some, getElem?_set_ne (Ne.symm ha)]
  · change (packages.set i p')[i]? = _
    rw [getElem?_set_self hlt]
  · refine removedFrom_of_fresh (hfresh p hmem) (hids p hmem).2 hchks ?_
    intro other hoth
    rw [← some.inj (hnam.symm.trans hoth)]
    exact hnam'

theorem removeResource_frame_sample :
    ∃ p t' p', (ResTable.sampleTable.reread.packages.getD [])[0]? = some p ∧
      removeResource ResTable.sampleTable.reread 0x7f010000 = some t' ∧ t'.Canonical ∧
      (∀ a, a ≠ 0 → (t'.packages.getD [])[a]? = (ResTable.sampleTable.reread.packages.getD [])[a]?) ∧
      (t'.packages.getD [])[0]? = some p' ∧ RemovedFrom p p' 1 0 := by
  have hcan : ResTable.sampleTable.Canonical := by decide +kernel
  have hread : readResourceTable ResTable.sampleTable.contents = some ResTable.sampleTable.reread := by
    rw [ResTable.readResourceTable_contents hcan, if_pos (by decide +kernel)]
  have hfst : ((ResTable.sampleTable.reread.packages.getD [])[0]?.map fun p => p.id.toNat) =
      some 0x7f := by decide +kernel
  obtain ⟨p, hp, hid⟩ := map_eq_some_iff.mp hfst
  obtain ⟨t', p', hfr⟩ := removeResource_frame ResTable.sampleTable ResTable.sampleTable.reread _
    hcan (ResTable.toBytes_of_canonical hcan) hread (by decide +kernel) 0x7f010000 0 p
    hp hid (by simp)
  exact ⟨p, t', p', hp, hfr⟩

/-- The name of the removed entry stays in the pool, as the empty string. -/
theorem removeResource_keeps_index :
    (do
      let t ← readResourceTable ResTable.sampleTable.contents
      let t ← removeResource t 0x7f010000
      let p ← (t.packages.getD []).head?
      let names ← p.resNamePool
      return ((names.strings.getD []).length, lookup names 0, lookup names 1,
        p.chunks.flatMap fun chunk => chunk.entries.map fun e => e.stringPoolIndex)) =
      some (2, some ([] : Ascii), some [102], [1]) := by
  decide +kernel

end Frame

end TraceHarbor.Arsc
