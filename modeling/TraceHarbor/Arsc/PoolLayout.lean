import TraceHarbor.Arsc.Reader

/-!
# The Layout of String Pools

`ResStringBlock.Laid` says that the sizes and offsets of a pool describe its contents, as `refresh`
leaves them.
-/

namespace TraceHarbor.Arsc

open Lib Lib.Input List Option

/-! ## Buffers -/

section Buffers

variable {file : Bytes} {pos : ℕ}

@[simp]
theorem length_put (v : BitVec 8) : (put v).length = 1 := length_leBytes ..

@[simp]
theorem length_putShort (v : BitVec 16) : (putShort v).length = 2 := length_leBytes ..

@[simp]
theorem length_putInt (v : BitVec 32) : (putInt v).length = 4 := length_leBytes ..

@[simp]
theorem length_zeros (n : ℤ) : (zeros n).length = n.toNat := length_replicate

@[simp]
theorem length_flatMap_putInt (vs : List (BitVec 32)) :
    (vs.flatMap putInt).length = 4 * vs.length := by
  simp [length_flatMap, mul_comm]

theorem allocate_eq {size : ℤ} {contents : Bytes} (h : (contents.length : ℤ) = size) :
    allocate size contents = some contents := by
  rw [allocate, if_pos h.le, ← h, Int.sub_self]
  exact congrArg some (append_nil contents)

theorem readByte_of_holds {v : BitVec 8} (h : Holds file pos (put v)) :
    readByte file pos = some (v, pos + 1) :=
  readWord_of_holds h (by decide) (by decide)

theorem readShort_of_holds {v : BitVec 16} (h : Holds file pos (putShort v)) :
    readShort file pos = some (v, pos + 2) :=
  readWord_of_holds h (by decide) (by decide)

theorem readInt_of_holds {v : BitVec 32} (h : Holds file pos (putInt v)) :
    readInt file pos = some (v, pos + 4) :=
  readWord_of_holds h (by decide) (by decide)

theorem readBuffer_of_holds {bytes : Bytes} {n : ℤ} (hn : n = bytes.length)
    (h : Holds file pos bytes) : readBuffer file n pos = some (bytes, pos + bytes.length) := by
  rw [hn]
  exact readInto_of_holds h

theorem readInts_of_holds {vs : List (BitVec 32)} (h : Holds file pos (vs.flatMap putInt)) :
    forEach (fun _ => readInt file) (List.range vs.length) pos = some (vs, pos + 4 * vs.length) := by
  rw [forEach_const _ vs length_range,
    forEach_eq_some (g := fun v => v) (fun v _ pos hv => readInt_of_holds hv) h, List.map_id',
    length_flatMap_putInt]

theorem readWhen_true {α : Type} {there : Bool} {part : Input α} {a : α} {pos' : ℕ}
    (hthere : there = true) (h : part pos = some (a, pos')) :
    readWhen there part pos = some (some a, pos') := by
  rw [readWhen, if_pos hthere, map_eq_pure_bind, bind_of_eq h]
  rfl

theorem readWhen_none {α : Type} {there : Bool} {part : Input α} (hthere : there = true)
    (h : part pos = none) : readWhen there part pos = none := by
  rw [readWhen, if_pos hthere, map_eq_pure_bind, bind_of_none h]

theorem readWhen_false {α : Type} {there : Bool} {part : Input α} (hthere : there = false) :
    readWhen there part pos = some (none, pos) := by
  rw [hthere]
  rfl

end Buffers

/-! ## Strings in a file -/

section Strings

variable {S : Type} [Text S] {file : Bytes} {pos : ℕ}

def longForm (buffer : Bytes) : Bool := (leValue (buffer.take 2)).testBit 15

/-- The room that the length and the terminator take. -/
def minBytes (utf8 : Bool) : ℕ := if utf8 then 3 else 4

/-- `resolveStringPoolEntry` returns a string. -/
def resolves (utf8 : Bool) (buffer : Bytes) : Bool :=
  minBytes utf8 ≤ buffer.length && (utf8 || !longForm buffer)

def resolved (utf8 : Bool) (buffer : Bytes) : S :=
  (resolveStringPoolEntry buffer utf8).getD Text.empty

theorem resolveStringPoolEntry_eq (utf8 : Bool) (buffer : Bytes) :
    resolveStringPoolEntry buffer utf8 =
      if resolves utf8 buffer then some (resolved utf8 buffer : S) else none := by
  cases utf8 with
  | true =>
    by_cases h : buffer.length < 3
    · simp [resolveStringPoolEntry, resolves, minBytes, h]
    · simp [resolveStringPoolEntry, resolves, resolved, minBytes, h, not_lt.mp h]
  | false =>
    by_cases h : buffer.length < 4
    · simp [resolveStringPoolEntry, resolves, minBytes, h]
    · cases hlong : (leValue (buffer.take 2)).testBit 15 with
      | true => simp [resolveStringPoolEntry, resolves, longForm, hlong]
      | false =>
        simp [resolveStringPoolEntry, resolves, resolved, minBytes, longForm, h, not_lt.mp h, hlong]

variable {utf8 : Bool}

theorem readString_of_holds {buffer : Bytes} (h : Holds file pos buffer) :
    readString file utf8 buffer.length pos =
      if resolves utf8 buffer then some ((buffer, (resolved utf8 buffer : S)), pos + buffer.length)
      else none := by
  rw [readString, bind_of_eq (readBuffer_of_holds rfl h)]
  cases hres : resolves utf8 buffer with
  | true =>
    have hstr : orThrow (resolveStringPoolEntry buffer utf8) (pos + buffer.length) =
        some ((resolved utf8 buffer : S), pos + buffer.length) := by
      rw [resolveStringPoolEntry_eq, hres]
      rfl
    rw [bind_of_eq hstr]
    rfl
  | false =>
    have hstr : orThrow (resolveStringPoolEntry buffer utf8 : Option S) (pos + buffer.length) =
        none := by
      rw [resolveStringPoolEntry_eq, hres]
      rfl
    rw [bind_of_none hstr]
    rfl

/-- The last buffer of a block takes the bytes up to the end of the strings. -/
def absorb (rest : ℤ) : List Bytes → List Bytes
  | [] => []
  | [buffer] => [buffer ++ zeros rest]
  | buffer :: next :: buffers => buffer :: absorb rest (next :: buffers)

@[simp]
theorem length_absorb (rest : ℤ) (buffers : List Bytes) :
    (absorb rest buffers).length = buffers.length := by
  induction buffers using absorb.induct with
  | case1 => rfl
  | case2 buffer => rfl
  | case3 buffer next buffers ih => simp [absorb, ih]

variable {buffers : List Bytes}

theorem flatten_absorb {rest : ℤ} (h : buffers ≠ []) :
    (absorb rest buffers).flatten = buffers.flatten ++ zeros rest := by
  induction buffers using absorb.induct with
  | case1 => exact absurd rfl h
  | case2 buffer => simp [absorb]
  | case3 buffer next buffers ih =>
    simp [absorb, ih]

theorem toInt_ofNat_of_lt {n : ℕ} (h : n < 2 ^ 31) : (BitVec.ofNat 32 n).toInt = n := by
  rw [BitVec.toInt_ofNat', Int.bmod_eq_of_le] <;> omega

theorem toInt_ofInt_of_lt {n : ℤ} (h : 0 ≤ n) (hlt : n < 2 ^ 31) : (BitVec.ofInt 32 n).toInt = n := by
  rw [BitVec.toInt_ofInt, Int.bmod_eq_of_le] <;> omega

theorem stringSizes_offsetsFrom {styleCount styleStart stringStart chunkSize rest : ℤ} {start : ℕ}
    (hrest : 0 ≤ rest) (hlt : start + buffers.flatten.length < 2 ^ 31)
    (hend : (if 0 < styleCount then styleStart else chunkSize) - stringStart =
      start + buffers.flatten.length + rest) :
    stringSizes styleCount styleStart stringStart chunkSize
        (ResStringBlock.offsetsFrom start buffers) =
      (absorb rest buffers).map fun buffer => (buffer.length : ℤ) := by
  induction buffers using absorb.induct generalizing start with
  | case1 => rfl
  | case2 buffer =>
    rw [flatten_singleton] at hlt hend
    have hstart := toInt_ofNat_of_lt (show start < 2 ^ 31 by omega)
    simp only [ResStringBlock.offsetsFrom, stringSizes, absorb, map_cons, map_nil, hstart,
      length_append, length_zeros]
    congr 1
    split at hend <;> rename_i hstyle
    · omega
    · omega
  | case3 buffer next buffers ih =>
    rw [flatten_cons, length_append] at hlt hend
    have hstart := toInt_ofNat_of_lt (show start < 2 ^ 31 by omega)
    have hnext := toInt_ofNat_of_lt (show start + buffer.length < 2 ^ 31 by omega)
    have htail := @ih (start + buffer.length) (by omega) (by omega)
    rw [ResStringBlock.offsetsFrom, ResStringBlock.offsetsFrom, stringSizes, absorb,
      map_cons]
    congr 1
    omega

theorem minBytes_le_append {buffer : Bytes} (h : minBytes utf8 ≤ buffer.length) (rest : Bytes) :
    resolves utf8 (buffer ++ rest) = resolves utf8 buffer := by
  have hlong : longForm (buffer ++ rest) = longForm buffer := by
    have htwo : 2 ≤ buffer.length := by
      cases utf8 <;> simp only [minBytes] at h <;> split at h <;> omega
    rw [longForm, longForm, take_append_of_le_length htwo]
  have happ : minBytes utf8 ≤ (buffer ++ rest).length := by
    rw [length_append]
    omega
  rw [resolves, resolves, hlong, decide_eq_true h, decide_eq_true happ]

theorem all_resolves_absorb (rest : ℤ) (h : ∀ buffer ∈ buffers, minBytes utf8 ≤ buffer.length) :
    (absorb rest buffers).all (resolves utf8) = (utf8 || buffers.all (!longForm ·)) := by
  induction buffers using absorb.induct with
  | case1 => simp [absorb]
  | case2 buffer =>
    have hmin := h buffer (mem_singleton.mpr rfl)
    rw [absorb, all_cons, minBytes_le_append hmin, resolves,
      decide_eq_true hmin]
    simp
  | case3 buffer next buffers ih =>
    obtain ⟨hmin, hrest⟩ := forall_mem_cons.mp h
    rw [absorb, all_cons, ih hrest, resolves, decide_eq_true hmin]
    cases utf8 <;> simp

theorem minBytes_le_of_mem_absorb {rest : ℤ} (h : ∀ buffer ∈ buffers, minBytes utf8 ≤
      buffer.length) :
    ∀ buffer ∈ absorb rest buffers, minBytes utf8 ≤ buffer.length := by
  induction buffers using absorb.induct with
  | case1 => exact h
  | case2 buffer =>
    intro other hoth
    rw [mem_singleton.mp hoth, length_append]
    exact (h buffer (mem_singleton.mpr rfl)).trans (Nat.le_add_right _ _)
  | case3 buffer next buffers ih =>
    obtain ⟨hmin, hrest⟩ := forall_mem_cons.mp h
    exact forall_mem_cons.mpr ⟨hmin, ih hrest⟩

theorem offsetsFrom_absorb (rest : ℤ) (start : ℕ) (buffers : List Bytes) :
    ResStringBlock.offsetsFrom start (absorb rest buffers) =
      ResStringBlock.offsetsFrom start buffers := by
  induction buffers using absorb.induct generalizing start with
  | case1 => rfl
  | case2 buffer => rfl
  | case3 buffer next buffers ih =>
    rw [absorb, ResStringBlock.offsetsFrom, ih, ← ResStringBlock.offsetsFrom]

@[simp]
theorem length_offsetsFrom (start : ℕ) (buffers : List Bytes) :
    (ResStringBlock.offsetsFrom start buffers).length = buffers.length := by
  induction buffers generalizing start with
  | nil => rfl
  | cons buffer buffers ih => rw [ResStringBlock.offsetsFrom, length_cons, ih, length_cons]

end Strings

/-! ## Layout -/

namespace ResStringBlock

variable {S : Type} {file : Bytes} {pos : ℕ} {p : ResStringBlock S}

/-- What `toBytes` puts into its buffer. -/
def contents (p : ResStringBlock S) : Bytes :=
  putShort p.chunkType ++ putShort p.headSize ++ putInt p.chunkSize ++
    putInt p.stringCount ++ putInt p.styleCount ++ putInt p.flag ++ putInt p.stringStart ++
    putInt p.styleStart ++ zeros p.headPadding ++ (p.stringOffsets.getD []).flatMap putInt ++
    (p.styleOffsets.getD []).flatMap putInt ++ (p.strings.getD []).flatten ++ p.styles.getD [] ++
    zeros p.chunkPadding

/-- The size of a pool without the padding at its end. -/
def unpadded (p : ResStringBlock S) : ℤ :=
  p.headSize.toInt + (p.strings.getD []).length * 4 + (p.styleOffsets.getD []).length * 4 +
    (p.strings.getD []).flatten.length + (p.styles.getD []).length

/-- **Layout of a pool**: counts, offsets and sizes describe the contents. -/
@[mk_iff]
structure Laid (p : ResStringBlock S) : Prop where
  headSize_eq : p.headSize.toInt = 28 + p.headPadding
  headPadding_nonneg : 0 ≤ p.headPadding
  headSize_aligned : p.headSize.toInt % 4 = 0
  stringCount_eq : p.stringCount.toInt = (p.strings.getD []).length
  styleCount_eq : p.styleCount.toInt = (p.styleOffsets.getD []).length
  stringOffsets_eq : p.stringOffsets.getD [] = offsetsFrom 0 (p.strings.getD [])
  stringStart_eq : p.stringStart.toInt =
    p.headSize.toInt + p.styleCount.toInt * 4 + p.stringCount.toInt * 4
  /-- styles are styles of strings -/
  styled : 0 < p.styleCount.toInt → 0 < p.stringCount.toInt ∧
    p.styleStart.toInt = p.stringStart.toInt + (p.strings.getD []).flatten.length
  plain : p.styleCount.toInt = 0 → p.styles.getD [] = []
  chunkPadding_eq : p.chunkPadding = padding p.unpadded
  chunkSize_eq : p.chunkSize.toInt = p.unpadded + p.chunkPadding
  /-- every string has a length and a terminator -/
  minBytes_le : ∀ buffer ∈ p.strings.getD [], minBytes p.utf8 ≤ buffer.length

instance (p : ResStringBlock S) : Decidable p.Laid := decidable_of_iff _ (laid_iff p).symm

theorem padding_nonneg (size : ℤ) : 0 ≤ padding size := by
  rw [padding]
  split <;> omega

theorem length_contents (h : p.Laid) : (p.contents.length : ℤ) = p.chunkSize.toInt := by
  have hpad := h.headPadding_nonneg
  have hend := h.chunkPadding_eq ▸ padding_nonneg p.unpadded
  have hhead := h.headSize_eq
  rw [h.chunkSize_eq, unpadded]
  simp only [contents, h.stringOffsets_eq, length_append, length_putShort, length_putInt,
    length_zeros, length_flatMap_putInt, length_offsetsFrom]
  omega

theorem toBytes_of_laid (h : p.Laid) : p.toBytes = some p.contents := allocate_eq (length_contents h)

/-- No string of a UTF-16 pool has a length of two units. -/
def readable (p : ResStringBlock S) : Bool := p.utf8 || (p.strings.getD []).all (!longForm ·)

/-- The strings as they are read: the last one takes the padding, if no styles follow. -/
def fileStrings (p : ResStringBlock S) : List Bytes :=
  absorb (if 0 < p.styleCount.toInt then 0 else p.chunkPadding) (p.strings.getD [])

/-- The index of a string that resolves to the key, the last one if there are several. -/
def indexMap [Text S] [DecidableEq S] (utf8 : Bool) (buffers : List Bytes) : S → Option ℕ :=
  indexFrom (resolved utf8) 0 buffers fun _ => none

def reread [Text S] [DecidableEq S] (p : ResStringBlock S) : ResStringBlock S :=
  { p with
    chunkPadding := 0
    stringOffsets := if 0 < p.stringCount.toInt then p.stringOffsets.getD [] else none
    styleOffsets := if 0 < p.styleCount.toInt then p.styleOffsets.getD [] else none
    strings := if 0 < p.stringCount.toInt then p.fileStrings else none
    styles := if 0 < p.styleCount.toInt then p.styles.getD [] ++ zeros p.chunkPadding else none
    stringIndexMap := if 0 < p.stringCount.toInt then some (indexMap p.utf8 p.fileStrings)
      else none }

/-- The bytes after the strings, as they are read. -/
def fileStyles (p : ResStringBlock S) : Bytes :=
  if 0 < p.styleCount.toInt then p.styles.getD [] ++ zeros p.chunkPadding else []

theorem absorb_zero (buffers : List Bytes) : absorb 0 buffers = buffers := by
  induction buffers using absorb.induct with
  | case1 => rfl
  | case2 buffer => exact congrArg ([·]) (append_nil buffer)
  | case3 buffer next buffers ih => rw [absorb, ih]

theorem Laid.chunkPadding_of_empty (h : p.Laid) (hstrs : p.strings.getD [] = []) :
    p.styleCount.toInt = 0 ∧ p.chunkPadding = 0 := by
  have hcnt := h.stringCount_eq
  rw [hstrs, length_nil] at hcnt
  have hstyle : p.styleCount.toInt = 0 := by
    have hstyl := h.styled
    have hnonn := h.styleCount_eq
    omega
  have haln := h.headSize_aligned
  refine ⟨hstyle, ?_⟩
  rw [h.chunkPadding_eq, padding, unpadded, hstrs, h.plain hstyle]
  simp [haln]

theorem flatten_fileStrings (h : p.Laid) :
    p.fileStrings.flatten ++ p.fileStyles =
      (p.strings.getD []).flatten ++ p.styles.getD [] ++ zeros p.chunkPadding := by
  rw [fileStrings, fileStyles]
  by_cases hstyle : 0 < p.styleCount.toInt
  · rw [if_pos hstyle, if_pos hstyle, absorb_zero, append_assoc]
  · have hplain := h.plain (by have := h.styleCount_eq; omega)
    rw [if_neg hstyle, if_neg hstyle, hplain, append_nil, append_nil]
    rcases eq_or_ne (p.strings.getD []) [] with hstrs | hstrs
    · rw [hstrs, (h.chunkPadding_of_empty hstrs).2]
      rfl
    · exact flatten_absorb hstrs

theorem stringSizes_of_laid (h : p.Laid) :
    stringSizes p.styleCount.toInt p.styleStart.toInt p.stringStart.toInt p.chunkSize.toInt
        (p.stringOffsets.getD []) =
      p.fileStrings.map fun buffer => (buffer.length : ℤ) := by
  have hpad := h.chunkPadding_eq ▸ padding_nonneg p.unpadded
  have hsize := h.chunkSize_eq
  have hstart := h.stringStart_eq
  have hstrs := h.stringCount_eq
  have hstyl := h.styleCount_eq
  have hhead := h.headSize_eq
  have hheadPadding := h.headPadding_nonneg
  have hmax := BitVec.toInt_lt (x := p.chunkSize)
  rw [unpadded] at hsize
  rw [h.stringOffsets_eq, fileStrings, stringSizes_offsetsFrom]
  · split <;> omega
  · omega
  · by_cases hstyle : 0 < p.styleCount.toInt
    · have hstyled := h.styled hstyle
      omega
    · have hplain := congrArg length (h.plain (by omega))
      rw [length_nil] at hplain
      omega

theorem fileStrings_of_empty (hstrs : p.strings.getD [] = []) : p.fileStrings = [] := by
  rw [fileStrings, hstrs]
  rfl

theorem length_fileStrings : p.fileStrings.length = (p.strings.getD []).length := length_absorb ..

theorem padding_of_aligned {size : ℤ} (h : size % 4 = 0) : padding size = 0 := if_pos h

theorem add_padding_aligned (size : ℤ) : (size + padding size) % 4 = 0 := by
  rw [padding]
  split <;> omega

theorem chunkSize_aligned (h : p.Laid) : p.chunkSize.toInt % 4 = 0 := by
  rw [h.chunkSize_eq, h.chunkPadding_eq]
  exact add_padding_aligned _

variable [Text S]

theorem readStrings_of_holds (h : p.Laid) (hfile : Holds file pos p.fileStrings.flatten) :
    forEach (readString file p.utf8) (p.fileStrings.map fun buffer => (buffer.length : ℤ)) pos =
      if p.readable then
        some (p.fileStrings.map fun b => (b, (resolved p.utf8 b : S)),
          pos + p.fileStrings.flatten.length)
      else none := by
  rw [forEach_map, forEach_of_holds (b := fun b => b) (p := resolves p.utf8)
    (g := fun b => (b, (resolved p.utf8 b : S))) (fun b _ pos hb => readString_of_holds hb)
    (by rwa [flatMap_id']), flatMap_id']
  rw [fileStrings, all_resolves_absorb _ h.minBytes_le, readable]

omit [Text S] in
theorem readStyles_of_holds (h : p.Laid) (hfile : Holds file pos p.fileStyles) :
    readWhen (0 < p.styleCount.toInt) (readBuffer file (p.chunkSize.toInt - p.styleStart.toInt)) pos =
      some (if 0 < p.styleCount.toInt then some (p.styles.getD [] ++ zeros p.chunkPadding) else none,
        pos + p.fileStyles.length) := by
  rw [fileStyles] at hfile ⊢
  by_cases hstyle : 0 < p.styleCount.toInt
  · rw [if_pos hstyle] at hfile
    have hstyl := h.styled hstyle
    have hsize := h.chunkSize_eq
    have hstart := h.stringStart_eq
    have hstyles := h.styleCount_eq
    have hstrs := h.stringCount_eq
    have hpad := h.chunkPadding_eq ▸ padding_nonneg p.unpadded
    rw [unpadded] at hsize
    have hlen : p.chunkSize.toInt - p.styleStart.toInt =
        (p.styles.getD [] ++ zeros p.chunkPadding).length := by
      rw [length_append, length_zeros]
      omega
    rw [readWhen_true (decide_eq_true hstyle) (readBuffer_of_holds hlen hfile), if_pos hstyle,
      if_pos hstyle]
  · rw [readWhen_false (decide_eq_false hstyle), if_neg hstyle, if_neg hstyle]
    rfl

variable [DecidableEq S]

/-- **Reading a pool**: where a file holds the contents of a pool, reading returns `reread`, unless
the length of a UTF-16 string takes two units. -/
theorem readStringBlock_of_holds (h : p.Laid) (hfile : Holds file pos p.contents) :
    readStringBlock file pos =
      if p.readable then some (p.reread, pos + p.contents.length) else none := by
  have hpad := h.headPadding_nonneg
  have hhead := h.headSize_eq
  have hstringStart := h.stringStart_eq
  have hconts := length_contents h
  have hstrCnt : p.stringCount.toInt = (p.stringOffsets.getD []).length := by
    rw [h.stringOffsets_eq, length_offsetsFrom, h.stringCount_eq]
  have hstyleCount := h.styleCount_eq
  rw [contents, append_assoc, append_assoc, ← append_assoc (p.strings.getD []).flatten,
    ← flatten_fileStrings h] at hfile hconts
  simp only [append_assoc, holds_append, length_putShort, length_putInt, length_zeros,
    length_flatMap_putInt] at hfile
  obtain ⟨hchunkType, hheadSize, hchunkSize, hstrs, hstyl, hflag, hstart, hstyleStart, -,
    hoffs, hstyleOffsets, hbufs, hrest⟩ := hfile
  rw [readStringBlock, bind_get,
    bind_of_eq (readShort_of_holds hchunkType), bind_of_eq (readShort_of_holds hheadSize),
    bind_of_eq (readInt_of_holds hchunkSize), bind_of_eq (readInt_of_holds hstrs),
    bind_of_eq (readInt_of_holds hstyl), bind_of_eq (readInt_of_holds hflag),
    bind_of_eq (readInt_of_holds hstart), bind_of_eq (readInt_of_holds hstyleStart), bind_get]
  generalize hq : pos + 2 + 2 + 4 + 4 + 4 + 4 + 4 + 4 = q at *
  have hseek : (pos : ℤ) + p.headSize.toInt = ((q + p.headPadding.toNat : ℕ) : ℤ) := by omega
  rw [bind_of_eq (seek_eq hseek), hstrCnt, Int.toNat_natCast,
    bind_of_eq (readInts_of_holds hoffs), hstyleCount, Int.toNat_natCast,
    bind_of_eq (readInts_of_holds hstyleOffsets), ← hstrCnt, ← hstyleCount]
  generalize hr : q + p.headPadding.toNat + 4 * (p.stringOffsets.getD []).length +
    4 * (p.styleOffsets.getD []).length = r at *
  have hseek : (pos : ℤ) + p.stringStart.toInt = (r : ℤ) := by omega
  have hreadStrings := readStrings_of_holds h hbufs
  rw [bind_of_eq (seek_eq hseek), stringSizes_of_laid h]
  cases hread : p.readable with
  | false =>
    rw [hread] at hreadStrings
    exact bind_of_none hreadStrings
  | true =>
    rw [hread] at hreadStrings
    have hstylesRead := readStyles_of_holds h hrest
    have hend : (pos : ℤ) + p.chunkSize.toInt =
        ((r + p.fileStrings.flatten.length + p.fileStyles.length : ℕ) : ℤ) := by
      simp only [length_append, length_putShort, length_putInt, length_zeros,
        length_flatMap_putInt] at hconts
      omega
    have hheadPadding : p.headSize.toInt + pos - q = p.headPadding := by omega
    have hchunkPadding : p.chunkSize.toInt + pos -
        ((r + p.fileStrings.flatten.length + p.fileStyles.length : ℕ) : ℤ) = 0 := by omega
    have hpos : r + p.fileStrings.flatten.length + p.fileStyles.length =
        pos + p.contents.length := by
      have := length_contents h
      omega
    refine (bind_of_eq hreadStrings).trans ((bind_of_eq hstylesRead).trans ?_)
    rw [bind_get, hheadPadding, hchunkPadding, hpos, List.map_map]
    have hfst : Prod.fst ∘ (fun b => (b, (resolved p.utf8 b : S))) = fun b => b := rfl
    rw [hfst, List.map_id', indexFrom_map]
    rfl

/-! ## Pools that were read -/

theorem strings_reread (h : p.Laid) : p.reread.strings.getD [] = p.fileStrings := by
  have hcnt := h.stringCount_eq
  simp only [reread]
  by_cases hpos : 0 < p.stringCount.toInt
  · rw [if_pos hpos, getD_some]
  · have hstrs := length_eq_zero_iff.mp (show (p.strings.getD []).length = 0 by omega)
    rw [if_neg hpos, getD_none, fileStrings_of_empty hstrs]

theorem stringOffsets_reread (h : p.Laid) :
    p.reread.stringOffsets.getD [] = p.stringOffsets.getD [] := by
  have hcnt := h.stringCount_eq
  simp only [reread]
  by_cases hpos : 0 < p.stringCount.toInt
  · rw [if_pos hpos, getD_some]
  · have hstrs := length_eq_zero_iff.mp (show (p.strings.getD []).length = 0 by omega)
    rw [if_neg hpos, h.stringOffsets_eq, hstrs]
    rfl

theorem styleOffsets_reread (h : p.Laid) :
    p.reread.styleOffsets.getD [] = p.styleOffsets.getD [] := by
  have hcnt := h.styleCount_eq
  simp only [reread]
  split_ifs with hpos
  · rw [getD_some]
  · rw [getD_none,
      length_eq_zero_iff.mp (show (p.styleOffsets.getD []).length = 0 by omega)]

theorem styles_reread : p.reread.styles.getD [] = p.fileStyles := by
  simp only [reread, fileStyles]
  split <;> rfl

theorem contents_reread (h : p.Laid) : p.reread.contents = p.contents := by
  have htail := flatten_fileStrings h
  rw [contents, contents, strings_reread h, stringOffsets_reread h, styleOffsets_reread h,
    styles_reread, append_assoc _ p.fileStrings.flatten, htail]
  simp [reread, zeros]

theorem unpadded_reread (h : p.Laid) : p.reread.unpadded = p.chunkSize.toInt := by
  have hpad := h.chunkPadding_eq ▸ padding_nonneg p.unpadded
  have htail := congrArg length (flatten_fileStrings h)
  simp only [length_append, length_zeros] at htail
  rw [h.chunkSize_eq, unpadded, unpadded, strings_reread h, styleOffsets_reread h, styles_reread,
    length_fileStrings]
  simp only [reread]
  omega

/-- **A pool that was read is laid out.** -/
theorem Laid.reread (h : p.Laid) : p.reread.Laid where
  __ := h
  stringCount_eq := by
    rw [strings_reread h, length_fileStrings]
    exact h.stringCount_eq
  styleCount_eq := by
    rw [styleOffsets_reread h]
    exact h.styleCount_eq
  stringOffsets_eq := by
    rw [stringOffsets_reread h, strings_reread h, fileStrings, offsetsFrom_absorb]
    exact h.stringOffsets_eq
  styled := by
    intro (hstyle : 0 < p.styleCount.toInt)
    have hflat : p.fileStrings = p.strings.getD [] := by
      rw [fileStrings, if_pos hstyle, absorb_zero]
    rw [strings_reread h, hflat]
    exact h.styled hstyle
  plain := by
    intro hstyle
    rw [styles_reread, fileStyles, if_neg (by exact hstyle.le.not_gt)]
  chunkPadding_eq := by
    rw [unpadded_reread h, padding_of_aligned (chunkSize_aligned h)]
    rfl
  chunkSize_eq := by
    rw [unpadded_reread h]
    exact (add_zero _).symm
  minBytes_le := by
    rw [strings_reread h]
    exact minBytes_le_of_mem_absorb h.minBytes_le

end ResStringBlock

end TraceHarbor.Arsc
