import TraceHarbor.Arsc.PoolLayout

/-!
# The Layout of Types

The layout of values, entries and types, with what is read from their contents. The pools that the
reader looks strings up in are the ones that were read before; `Resolving` says that each of their
strings can be resolved.
-/

namespace TraceHarbor.Arsc

open Lib Lib.Input List Option

variable {S : Type} {file : Bytes} {pos : ℕ}

/-! ## References into pools -/

def Resolving (pool : ResStringBlock S) : Prop :=
  ∀ buffer ∈ pool.strings.getD [], resolves pool.utf8 buffer

/-- An index of a string of the pool. -/
def InPool (pool : ResStringBlock S) (index : BitVec 32) : Prop :=
  0 ≤ index.toInt ∧ index.toInt < (pool.strings.getD []).length

instance (pool : ResStringBlock S) (index : BitVec 32) : Decidable (InPool pool index) :=
  inferInstanceAs (Decidable (_ ∧ _))

theorem lookup_of_inPool [Text S] {pool : ResStringBlock S} {index : BitVec 32} (h : Resolving pool)
    (hin : InPool pool index) : ∃ str, lookup pool index = some str := by
  have hlt : index.toInt.toNat < (pool.strings.getD []).length := by
    have := hin.2
    have := hin.1
    omega
  refine ⟨resolved pool.utf8 (pool.strings.getD [])[index.toInt.toNat], ?_⟩
  rw [lookup, elementAt, if_pos hin.1, getElem?_eq_getElem hlt, bind_some,
    resolveStringPoolEntry_eq, if_pos (h _ (getElem_mem hlt))]

theorem orThrow_some {α : Type} (a : α) : orThrow (some a) pos = some (a, pos) := rfl

theorem mapM_eq_some_map {α β : Type} {f : α → Option β} {g : α → β} {xs : List α}
    (h : ∀ x ∈ xs, f x = some (g x)) : xs.mapM f = some (xs.map g) := by
  rw [mapM_eq_some_iff, List.map_map]
  exact map_congr_left h

/-! ## Values -/

namespace ResValue

def contents (v : ResValue) : Bytes :=
  putShort v.size ++ put v.res0 ++ put v.dataType ++ putInt v.data

@[simp]
theorem length_contents (v : ResValue) : v.contents.length = 8 := by
  simp [contents]

def Laid (v : ResValue) : Prop := v.size.toInt = 8

instance (v : ResValue) : Decidable v.Laid := inferInstanceAs (Decidable (_ = _))

theorem toBytes_of_laid {v : ResValue} (h : v.Laid) : v.toBytes = some v.contents :=
  allocate_eq ((congrArg Nat.cast v.length_contents).trans h.symm)

def Refers (pool : ResStringBlock S) (v : ResValue) : Prop :=
  v.dataType = resValueDataTypeString → InPool pool v.data

instance (pool : ResStringBlock S) (v : ResValue) : Decidable (v.Refers pool) :=
  inferInstanceAs (Decidable (_ → _))

theorem readResValue_of_holds [Text S] {pool : ResStringBlock S} {v : ResValue} (hpool : Resolving pool)
    (href : v.Refers pool) (hfile : Holds file pos v.contents) :
    readResValue file pool pos = some (v, pos + 8) := by
  simp only [contents, append_assoc, holds_append, length_putShort, length_put] at hfile
  obtain ⟨hsize, hres0, hdataType, hdata⟩ := hfile
  rw [readResValue, bind_of_eq (readShort_of_holds hsize), bind_of_eq (readByte_of_holds hres0),
    bind_of_eq (readByte_of_holds hdataType), bind_of_eq (readInt_of_holds hdata)]
  by_cases hstri : v.dataType = resValueDataTypeString
  · obtain ⟨str, hstr⟩ := lookup_of_inPool hpool (href hstri)
    rw [if_pos hstri, hstr]
    rfl
  · rw [if_neg hstri]
    rfl

end ResValue

namespace ResMapValue

def contents (v : ResMapValue) : Bytes := putInt v.name ++ v.resValue.contents

@[simp]
theorem length_contents (v : ResMapValue) : v.contents.length = 12 := by
  simp [contents]

theorem toBytes_of_laid {v : ResMapValue} (h : v.resValue.Laid) : v.toBytes = some v.contents := by
  rw [toBytes, ResValue.toBytes_of_laid h]
  have hsize : (v.contents.length : ℤ) = 4 + v.resValue.size.toInt := by
    rw [h]
    rfl
  exact allocate_eq hsize

theorem readResMapValue_of_holds [Text S] {pool : ResStringBlock S} {v : ResMapValue}
    (hpool : Resolving pool) (href : v.resValue.Refers pool) (hfile : Holds file pos v.contents) :
    readResMapValue file pool pos = some (v, pos + 12) := by
  rw [contents, holds_append, length_putInt] at hfile
  rw [readResMapValue, bind_of_eq (readInt_of_holds hfile.1),
    bind_of_eq (ResValue.readResValue_of_holds hpool href hfile.2)]
  rfl

end ResMapValue

/-! ## Entries -/

namespace ResEntry

def values (e : ResEntry S) : List ResValue :=
  if e.complex then (e.resMapValues.getD []).map ResMapValue.resValue else e.resValue.toList

/-- What `toBytes` puts together. -/
def contents (e : ResEntry S) : Bytes :=
  putShort e.size ++ putShort e.flag ++ putInt e.stringPoolIndex ++
    if e.complex then
      putInt e.parent ++ putInt e.pairCount ++ (e.resMapValues.getD []).flatMap ResMapValue.contents
    else e.resValue.elim [] ResValue.contents

/-- **Layout of an entry**. -/
@[mk_iff]
structure Laid (e : ResEntry S) : Prop where
  complex : e.complex = true → e.size.toInt = 16 ∧ e.pairCount.toInt = (e.resMapValues.getD []).length
  simple : e.complex = false → e.size.toInt = 8 ∧ e.resValue.isSome
  values : ∀ v ∈ e.values, v.Laid

instance (e : ResEntry S) : Decidable e.Laid := decidable_of_iff _ (laid_iff e).symm

theorem toBytes_of_laid {e : ResEntry S} (h : e.Laid) : e.toBytes = some e.contents := by
  rw [toBytes, contents]
  cases hcomp : e.complex with
  | true =>
    obtain ⟨hsize, hcnt⟩ := h.complex hcomp
    have hvals : ∀ v ∈ e.resMapValues.getD [], v.toBytes = some v.contents := by
      intro v hv
      refine ResMapValue.toBytes_of_laid (h.values _ ?_)
      rw [values, hcomp]
      exact mem_map_of_mem hv
    have hpairs : (if 0 < e.pairCount.toInt then e.resMapValues.getD [] else []) =
        e.resMapValues.getD [] := by
      by_cases hpos : 0 < e.pairCount.toInt
      · rw [if_pos hpos]
      · rw [if_neg hpos, length_eq_zero_iff.mp (show (e.resMapValues.getD []).length = 0 by omega)]
    rw [allocate_eq (by simp [hsize]), hpairs]
    simp only [bind_eq_bind, bind_some, mapM_eq_some_map hvals, flatMap_def,
      append_assoc]
    rfl
  | false =>
    obtain ⟨hsize, hsome⟩ := h.simple hcomp
    obtain ⟨v, hv⟩ := isSome_iff_exists.mp hsome
    have hlaid : v.Laid := by
      refine h.values v ?_
      rw [values, hcomp, hv]
      exact mem_singleton.mpr rfl
    rw [if_neg Bool.false_ne_true, allocate_eq (by simp [hsize]), hv]
    simp only [bind_eq_bind, bind_some, ResValue.toBytes_of_laid hlaid]
    rfl

/-- The strings that an entry refers to are in the global pool, its name is in the name pool. -/
@[mk_iff]
structure Refers (globalPool namePool : ResStringBlock S) (e : ResEntry S) : Prop where
  values : ∀ v ∈ e.values, v.Refers globalPool
  name : InPool namePool e.stringPoolIndex

instance (globalPool namePool : ResStringBlock S) (e : ResEntry S) :
    Decidable (e.Refers globalPool namePool) := decidable_of_iff _ (refers_iff _ _ e).symm

variable [Text S]

def reread (namePool : ResStringBlock S) (e : ResEntry S) : ResEntry S :=
  if e.complex then
    { e with
      entryName := lookup namePool e.stringPoolIndex
      resValue := none
      resMapValues := if 0 < e.pairCount.toInt then some (e.resMapValues.getD []) else none }
  else
    { e with
      entryName := lookup namePool e.stringPoolIndex
      parent := 0
      pairCount := 0
      resMapValues := none }

/-- **Reading an entry** returns `reread`. -/
theorem readResEntry_of_holds {globalPool namePool : ResStringBlock S} {e : ResEntry S} {start : ℤ}
    (hglob : Resolving globalPool) (hnam : Resolving namePool) (h : e.Laid)
    (href : e.Refers globalPool namePool) (hstart : start = (pos : ℤ))
    (hfile : Holds file pos e.contents) {before : ℕ} :
    readResEntry file globalPool (some namePool) start before =
      some (e.reread namePool, pos + e.contents.length) := by
  obtain ⟨name, hname⟩ := lookup_of_inPool hnam href.name
  have hlen : e.contents.length = 8 + (if e.complex then
      putInt e.parent ++ putInt e.pairCount ++ (e.resMapValues.getD []).flatMap ResMapValue.contents
      else e.resValue.elim [] ResValue.contents).length := by
    rw [contents, length_append]
    rfl
  rw [contents] at hfile
  simp only [append_assoc, holds_append, length_putShort, length_putInt] at hfile
  obtain ⟨hsize, hflag, hidx, hfile⟩ := hfile
  rw [readResEntry, bind_of_eq (seek_eq hstart), bind_of_eq (readShort_of_holds hsize),
    bind_of_eq (readShort_of_holds hflag), bind_of_eq (readInt_of_holds hidx), bind_some,
    hname, bind_of_eq (orThrow_some name), hlen, reread, hname]
  cases hcomp : e.complex with
  | true =>
    have hflag : e.flag &&& 0x0001 ≠ 0 := of_decide_eq_true hcomp
    rw [hcomp, if_pos rfl] at hfile
    simp only [holds_append, length_putInt] at hfile
    obtain ⟨hpar, hcnt, hpairs⟩ := hfile
    have hvals : ∀ v ∈ e.resMapValues.getD [], v.resValue.Refers globalPool := by
      intro v hv
      refine href.values _ ?_
      rw [values, hcomp]
      exact mem_map_of_mem hv
    have hleng := (h.complex hcomp).2
    rw [if_pos hflag, bind_of_eq (readInt_of_holds hpar), bind_of_eq (readInt_of_holds hcnt),
      hleng, Int.toNat_natCast, forEach_const _ (e.resMapValues.getD []) length_range]
    have hread : ∀ v ∈ e.resMapValues.getD [], ∀ pos, Holds file pos v.contents →
        readResMapValue file globalPool pos = some (v, pos + v.contents.length) := by
      intro v hv pos hheld
      rw [ResMapValue.readResMapValue_of_holds hglob (hvals v hv) hheld,
        ResMapValue.length_contents]
    refine (bind_of_eq (forEach_eq_some (g := fun v => v) hread hpairs)).trans ?_
    simp only [List.map_id', List.length_append, length_putInt, ← hleng, if_true]
    exact congrArg (fun pos => some (_, pos)) (by omega)
  | false =>
    have hflag : ¬ e.flag &&& 0x0001 ≠ 0 := of_decide_eq_false hcomp
    obtain ⟨v, hv⟩ := isSome_iff_exists.mp (h.simple hcomp).2
    have hrefe : v.Refers globalPool := by
      refine href.values v ?_
      rw [values, hcomp, hv]
      exact mem_singleton.mpr rfl
    rw [hcomp, hv] at hfile
    rw [if_neg hflag, bind_of_eq (ResValue.readResValue_of_holds hglob hrefe hfile), hv]
    rfl

section Reread

variable {namePool : ResStringBlock S} {e : ResEntry S}

@[simp]
theorem stringPoolIndex_reread : (e.reread namePool).stringPoolIndex = e.stringPoolIndex := by
  rw [reread]
  split <;> rfl

@[simp]
theorem complex_reread : (e.reread namePool).complex = e.complex := by
  rw [reread]
  split <;> rfl

theorem resMapValues_reread (h : e.Laid) (hcomp : e.complex = true) :
    (e.reread namePool).resMapValues.getD [] = e.resMapValues.getD [] := by
  have hcnt := (h.complex hcomp).2
  rw [reread, if_pos hcomp]
  by_cases hpos : 0 < e.pairCount.toInt
  · simp [if_pos hpos]
  · simp [if_neg hpos, length_eq_zero_iff.mp (show (e.resMapValues.getD []).length = 0 by omega)]

theorem contents_reread (h : e.Laid) : (e.reread namePool).contents = e.contents := by
  cases hcomp : e.complex with
  | true =>
    rw [contents, contents, complex_reread, hcomp, if_pos rfl, if_pos rfl,
      resMapValues_reread h hcomp, reread, if_pos hcomp]
  | false =>
    rw [contents, contents, complex_reread, hcomp, if_neg Bool.false_ne_true,
      if_neg Bool.false_ne_true, reread, if_neg (Bool.eq_false_iff.mp hcomp)]

theorem values_reread (h : e.Laid) : (e.reread namePool).values = e.values := by
  cases hcomp : e.complex with
  | true =>
    rw [values, values, complex_reread, hcomp, if_pos rfl, if_pos rfl,
      resMapValues_reread h hcomp]
  | false =>
    rw [values, values, complex_reread, hcomp, if_neg Bool.false_ne_true,
      if_neg Bool.false_ne_true, reread, if_neg (Bool.eq_false_iff.mp hcomp)]

theorem Laid.reread (h : e.Laid) : (e.reread namePool).Laid where
  complex := by
    rw [complex_reread]
    intro hcomp
    rw [resMapValues_reread h hcomp, ResEntry.reread, if_pos hcomp]
    exact h.complex hcomp
  simple := by
    rw [complex_reread]
    intro hcomp
    rw [ResEntry.reread, if_neg (Bool.eq_false_iff.mp hcomp)]
    exact h.simple hcomp
  values := by
    rw [values_reread h]
    exact h.values

theorem Refers.reread {globalPool names : ResStringBlock S} (h : e.Laid)
    (href : e.Refers globalPool names) : (e.reread namePool).Refers globalPool names where
  values := by
    rw [values_reread h]
    exact href.values
  name := by
    rw [stringPoolIndex_reread]
    exact href.name

end Reread

end ResEntry

/-! ## Types -/

namespace ResConfig

def contents (c : ResConfig) : Bytes := putInt c.size ++ c.content.getD []

def Laid (c : ResConfig) : Prop := c.size.toInt = 4 + (c.content.getD []).length

instance (c : ResConfig) : Decidable c.Laid := inferInstanceAs (Decidable (_ = _))

def reread (c : ResConfig) : ResConfig :=
  ⟨c.size, if 4 < c.size.toInt then c.content.getD [] else none⟩

variable {c : ResConfig}

theorem length_contents (h : c.Laid) : (c.contents.length : ℤ) = c.size.toInt := by
  rw [contents, length_append, h]
  rfl

theorem toBytes_of_laid (h : c.Laid) : c.toBytes = some c.contents := allocate_eq (length_contents h)

theorem contents_reread (h : c.Laid) : c.reread.contents = c.contents := by
  rw [Laid] at h
  rw [contents, contents, reread]
  split_ifs with hcont
  · rw [getD_some]
  · rw [length_eq_zero_iff.mp (show (c.content.getD []).length = 0 by omega)]
    rfl

theorem Laid.reread (h : c.Laid) : c.reread.Laid := by
  have hlen := congrArg length (contents_reread h)
  rw [contents, contents, length_append, length_append, length_putInt, length_putInt,
    Nat.add_left_cancel_iff] at hlen
  rw [Laid, hlen]
  exact h

theorem readResConfig_of_holds (h : c.Laid) (hfile : Holds file pos c.contents) :
    readResConfig file pos = some (c.reread, pos + c.contents.length) := by
  rw [Laid] at h
  rw [readResConfig, bind_of_eq (readInt_of_holds hfile.left), contents, reread]
  by_cases hcont : 4 < c.size.toInt
  · have hread := readBuffer_of_holds (show c.size.toInt - 4 = _ by omega) hfile.right
    rw [length_putInt] at hread
    rw [if_pos hcont, if_pos hcont, bind_of_eq hread, length_append, Nat.add_assoc]
    rfl
  · rw [if_neg hcont, if_neg hcont,
      length_eq_zero_iff.mp (show (c.content.getD []).length = 0 by omega)]
    rfl

end ResConfig

namespace ResType

/-- The offsets of entries that follow one another. -/
def placedFrom : ℕ → List (Option (ResEntry S)) → List (BitVec 32)
  | _, [] => []
  | last, none :: entries => noEntryIndex :: placedFrom last entries
  | last, some e :: entries =>
    BitVec.ofNat 32 last :: placedFrom (last + e.contents.length) entries

def entries (t : ResType S) : List (ResEntry S) := (t.entryTable.getD []).reduceOption

/-- What `toBytes` puts into its buffer. -/
def contents (t : ResType S) : Bytes :=
  putShort chunkType ++ putShort t.headSize ++ putInt t.chunkSize ++ put t.id ++ put t.reserved0 ++
    putShort t.reserved1 ++ putInt t.entryCount ++ putInt t.entryTableOffset ++
    t.resConfigFlags.contents ++ zeros t.headPadding ++ (t.entryOffsets.getD []).flatMap putInt ++
    t.entries.flatMap ResEntry.contents ++ zeros t.chunkPadding

/-- **Layout of a type**: the head is its fields and the configuration, the entries follow the
offsets. -/
@[mk_iff]
structure Laid (t : ResType S) : Prop where
  config : t.resConfigFlags.Laid
  headSize_eq : t.headSize.toInt = 20 + t.resConfigFlags.size.toInt
  headSize_aligned : t.headSize.toInt % 4 = 0
  headPadding_eq : t.headPadding = 0
  entryCount_eq : t.entryCount.toInt = (t.entryTable.getD []).length
  entryOffsets_eq : t.entryOffsets.getD [] = placedFrom 0 (t.entryTable.getD [])
  entryTableOffset_eq : t.entryTableOffset.toInt = t.headSize.toInt + t.entryCount.toInt * 4
  chunkPadding_eq : t.chunkPadding = 0
  chunkSize_eq : t.chunkSize.toInt = t.headSize.toInt + t.entryCount.toInt * 4 +
    (t.entries.flatMap ResEntry.contents).length
  entries_ne : t.entries ≠ []
  entries_laid : ∀ e ∈ t.entries, e.Laid

instance (t : ResType S) : Decidable t.Laid :=
  have : Decidable (t.entries ≠ []) := decidable_of_iff _ isEmpty_eq_false_iff
  decidable_of_iff _ (laid_iff t).symm

@[simp]
theorem length_placedFrom (last : ℕ) (table : List (Option (ResEntry S))) :
    (placedFrom last table).length = table.length := by
  induction last, table using placedFrom.induct with
  | case1 last => rfl
  | case2 last entries ih | case3 last e entries ih => rw [placedFrom, length_cons, ih, length_cons]

variable {t : ResType S}

theorem length_contents (h : t.Laid) : (t.contents.length : ℤ) = t.chunkSize.toInt := by
  have hconf := ResConfig.length_contents h.config
  have hhead := h.headSize_eq
  have hcnt := h.entryCount_eq
  rw [h.chunkSize_eq]
  simp only [contents, h.entryOffsets_eq, h.headPadding_eq, h.chunkPadding_eq, length_append,
    length_putShort, length_putInt, length_put, length_zeros, length_flatMap_putInt,
    length_placedFrom, Int.toNat_zero]
  omega

theorem toBytes_of_laid (h : t.Laid) : t.toBytes = some t.contents := by
  have hents : t.entryBytes = some (t.entries.map ResEntry.contents) :=
    mapM_eq_some_map fun e he => ResEntry.toBytes_of_laid (h.entries_laid e he)
  rw [toBytes, ResConfig.toBytes_of_laid h.config, hents]
  exact allocate_eq (length_contents h)

variable [Text S]

omit [Text S] in
theorem updateResNameReferenceCount_eq {table : List (Option (ResEntry S))}
    (htbl : t.entryTable = some table) (hcnt : t.entryCount.toInt = table.length) :
    t.updateResNameReferenceCount =
      some { t with resNameStringCountMap := table.reduceOption.foldl countName ∅ } := by
  rw [updateResNameReferenceCount, htbl]
  simp only [hcnt, lt_irrefl, if_false, Int.toNat_natCast, take_length]

def reread (namePool : ResStringBlock S) (t : ResType S) : ResType S :=
  let table := (t.entryTable.getD []).map (Option.map (ResEntry.reread namePool))
  { t with
    resConfigFlags := t.resConfigFlags.reread
    entryOffsets := t.entryOffsets.getD []
    entryTable := some table
    resNameStringCountMap := table.reduceOption.foldl countName ∅ }

theorem toInt_noEntryIndex : noEntryIndex.toInt = -1 := by decide

theorem ofNat_ne_noEntryIndex {n : ℕ} (h : n < 2 ^ 31) : BitVec.ofNat 32 n ≠ noEntryIndex := by
  intro heq
  have hint := congrArg BitVec.toInt heq
  rw [toInt_ofNat_of_lt h, toInt_noEntryIndex] at hint
  omega

/-- Reading the entries at their offsets. The position moves along, so each seek stays there. -/
theorem readEntries_of_holds {globalPool namePool : ResStringBlock S} {base : ℤ} {last : ℕ}
    {table : List (Option (ResEntry S))} (hglob : Resolving globalPool)
    (hnam : Resolving namePool) (hlaid : ∀ e ∈ table.reduceOption, e.Laid)
    (href : ∀ e ∈ table.reduceOption, e.Refers globalPool namePool)
    (hpos : base + last = pos)
    (hlt : last + (table.reduceOption.flatMap ResEntry.contents).length < 2 ^ 31)
    (hfile : Holds file pos (table.reduceOption.flatMap ResEntry.contents)) :
    forEach (fun offset : BitVec 32 =>
        if offset = noEntryIndex then pure none
        else some <$> readResEntry file globalPool (some namePool) (base + offset.toInt))
        (placedFrom last table) pos =
      some (table.map (Option.map (ResEntry.reread namePool)),
        pos + (table.reduceOption.flatMap ResEntry.contents).length) := by
  induction last, table using placedFrom.induct generalizing pos with
  | case1 last => rfl
  | case2 last entries ih =>
    have hnone : (pure none : Input (Option (ResEntry S))) pos = some (none, pos) := rfl
    exact (bind_of_eq hnone).trans (bind_of_eq (ih hlaid href hpos hlt hfile))
  | case3 last e entries ih =>
    rw [reduceOption_cons_of_some] at hlaid href hlt hfile ⊢
    obtain ⟨hlaid, hlaids⟩ := forall_mem_cons.mp hlaid
    obtain ⟨href, hrefs⟩ := forall_mem_cons.mp href
    rw [flatMap_cons, length_append] at hlt
    have hoff : BitVec.ofNat 32 last ≠ noEntryIndex := ofNat_ne_noEntryIndex (by omega)
    have hstart : base + (BitVec.ofNat 32 last).toInt = pos := by
      rw [toInt_ofNat_of_lt (by omega), hpos]
    have hread : (some <$> readResEntry file globalPool (some namePool)
        (base + (BitVec.ofNat 32 last).toInt)) pos =
        some (some (e.reread namePool), pos + e.contents.length) := by
      rw [map_eq_pure_bind,
        bind_of_eq (ResEntry.readResEntry_of_holds hglob hnam hlaid href hstart hfile.left)]
      rfl
    have hrest := ih hlaids hrefs (by omega) (by omega) hfile.right
    rw [placedFrom, forEach, if_neg hoff, flatMap_cons, length_append, ← Nat.add_assoc]
    exact (bind_of_eq hread).trans (bind_of_eq hrest)

/-- **Reading a type** returns `reread`. -/
theorem readResType_of_holds {globalPool namePool : ResStringBlock S} (hglob : Resolving globalPool)
    (hnam : Resolving namePool) (h : t.Laid)
    (href : ∀ e ∈ t.entries, e.Refers globalPool namePool) (hfile : Holds file pos t.contents) :
    readResType file globalPool (some namePool) pos =
      some (t.reread namePool, pos + t.contents.length) := by
  have hconfigSize := ResConfig.length_contents h.config
  have hhead := h.headSize_eq
  have hsize := h.chunkSize_eq
  have htblOff := h.entryTableOffset_eq
  have hconts := length_contents h
  have hcnt : t.entryCount.toInt = (t.entryOffsets.getD []).length := by
    rw [h.entryOffsets_eq, length_placedFrom, h.entryCount_eq]
  have hmax := BitVec.toInt_lt (x := t.chunkSize)
  have hlaid := h.entries_laid
  have hpos : 0 < t.entryCount.toInt := by
    have hlt := length_pos_of_ne_nil h.entries_ne
    have hle := reduceOption_length_le (t.entryTable.getD [])
    have := h.entryCount_eq
    rw [entries] at hlt
    omega
  simp only [contents, h.headPadding_eq, append_assoc, holds_append, length_putShort, length_put,
    length_putInt, length_zeros, Int.toNat_zero, Nat.add_zero, length_flatMap_putInt] at hfile
  obtain ⟨htype, hheadSize, hchunkSize, hid, hres0, hres1, hentCnt, hoff, hconf, -,
    hoffs, hents, -⟩ := hfile
  rw [readResType, bind_get,
    bind_of_eq (readShort_of_holds htype), bind_of_eq (readShort_of_holds hheadSize),
    bind_of_eq (readInt_of_holds hchunkSize), bind_of_eq (readByte_of_holds hid),
    bind_of_eq (readByte_of_holds hres0), bind_of_eq (readShort_of_holds hres1),
    bind_of_eq (readInt_of_holds hentCnt), bind_of_eq (readInt_of_holds hoff),
    bind_of_eq (ResConfig.readResConfig_of_holds h.config hconf), bind_get]
  generalize hq : pos + 2 + 2 + 4 + 1 + 1 + 2 + 4 + 4 + t.resConfigFlags.contents.length = q at *
  have hreadOffsets : forEach (fun _ => readInt file) (range t.entryCount.toInt.toNat) q =
      some (t.entryOffsets.getD [], q + 4 * (t.entryOffsets.getD []).length) := by
    rw [hcnt]
    exact readInts_of_holds hoffs
  rw [bind_of_eq hreadOffsets]
  generalize hr : q + 4 * (t.entryOffsets.getD []).length = r at *
  have hseek : (pos : ℤ) + t.entryTableOffset.toInt = (r : ℤ) := by omega
  have hread := readEntries_of_holds hglob hnam hlaid href
    (show (pos : ℤ) + t.entryTableOffset.toInt + (0 : ℕ) = r by simpa using hseek)
    (by rw [entries] at hsize; omega) hents
  rw [← h.entryOffsets_eq] at hread
  rw [bind_of_eq (seek_eq hseek)]
  refine (bind_of_eq hread).trans ?_
  have hheadPadding : t.headSize.toInt + pos - q = t.headPadding := by
    rw [h.headPadding_eq]
    omega
  have hend : r + (t.entries.flatMap ResEntry.contents).length = pos + t.contents.length := by omega
  have hchunkPadding : t.chunkSize.toInt + pos - ((pos + t.contents.length : ℕ) : ℤ) =
      t.chunkPadding := by
    rw [h.chunkPadding_eq]
    omega
  rw [entries] at hend
  rw [bind_get, hend, hheadPadding, hchunkPadding, if_pos hpos]
  rw [updateResNameReferenceCount_eq rfl (by rw [length_map]; exact h.entryCount_eq)]
  rfl

section Reread

variable {namePool : ResStringBlock S}

theorem entries_reread : (t.reread namePool).entries = t.entries.map (ResEntry.reread namePool) :=
  reduceOption_map

theorem flatMap_contents_reread (h : ∀ e ∈ t.entries, e.Laid) :
    (t.reread namePool).entries.flatMap ResEntry.contents =
      t.entries.flatMap ResEntry.contents := by
  rw [entries_reread, flatMap_map]
  exact flatMap_congr fun e he => ResEntry.contents_reread (h e he)

theorem placedFrom_reread {last : ℕ} {table : List (Option (ResEntry S))}
    (h : ∀ e ∈ table.reduceOption, e.Laid) :
    placedFrom last (table.map (Option.map (ResEntry.reread namePool))) = placedFrom last table := by
  induction last, table using placedFrom.induct with
  | case1 last => rfl
  | case2 last entries ih =>
    rw [map_cons, map_none, placedFrom, placedFrom, ih h]
  | case3 last e entries ih =>
    obtain ⟨he, hents⟩ := forall_mem_cons.mp h
    rw [map_cons, map_some, placedFrom, placedFrom, ResEntry.contents_reread he,
      ih hents]

theorem contents_reread (h : t.Laid) : (t.reread namePool).contents = t.contents := by
  rw [contents, contents, flatMap_contents_reread h.entries_laid]
  simp [reread, ResConfig.contents_reread h.config]

/-- **A type that was read is laid out.** -/
theorem Laid.reread (h : t.Laid) : (t.reread namePool).Laid where
  config := h.config.reread
  __ := h
  entryCount_eq := by
    change t.entryCount.toInt = ((t.entryTable.getD []).map _).length
    rw [length_map, h.entryCount_eq]
  entryOffsets_eq := (h.entryOffsets_eq).trans (placedFrom_reread h.entries_laid).symm
  chunkSize_eq := by
    rw [flatMap_contents_reread h.entries_laid]
    exact h.chunkSize_eq
  entries_ne := by
    rw [entries_reread]
    exact fun hnil => h.entries_ne (map_eq_nil_iff.mp hnil)
  entries_laid := by
    rw [entries_reread]
    exact forall_mem_map.mpr fun e he => (h.entries_laid e he).reread

end Reread

end ResType

end TraceHarbor.Arsc
