import TraceHarbor.Arsc.PoolLayout

/-!
# Refreshing String Pools

`refresh` recomputes what a pool says about its strings. `Consistent` is what it takes as given, and
`refreshed` is the pool that it leaves.
-/

namespace TraceHarbor.Arsc

open Lib Lib.Input List Option

namespace ResStringBlock

variable {S : Type} {p : ResStringBlock S}

/-- What `refresh` takes as given: the head, the counts and the strings. -/
structure Consistent (p : ResStringBlock S) : Prop where
  headSize_eq : p.headSize.toInt = 28 + p.headPadding
  headPadding_nonneg : 0 ≤ p.headPadding
  headSize_aligned : p.headSize.toInt % 4 = 0
  stringCount_eq : p.stringCount.toInt = (p.strings.getD []).length
  styleCount_eq : p.styleCount.toInt = (p.styleOffsets.getD []).length
  plain : p.styleCount.toInt = 0 → p.styles.getD [] = []
  minBytes_le : ∀ buffer ∈ p.strings.getD [], minBytes p.utf8 ≤ buffer.length
  listed : p.strings.isSome → p.stringOffsets.isSome
  /-- a pool without strings keeps what it was read with -/
  unlisted : p.strings = none → p.stringOffsets.getD [] = [] ∧ p.stringStart.toInt =
    p.headSize.toInt + p.styleCount.toInt * 4 + p.stringCount.toInt * 4

theorem sum_map_length (buffers : List Bytes) : (buffers.map length).sum = buffers.flatten.length :=
  length_flatten.symm

variable [Text S] [DecidableEq S]

/-- The pool after `refresh`. -/
def refreshed (p : ResStringBlock S) : ResStringBlock S :=
  { p with
    chunkSize := BitVec.ofInt 32 (p.unpadded + padding p.unpadded)
    chunkPadding := padding p.unpadded
    stringStart := if p.strings.isSome then
        BitVec.ofInt 32 (p.headSize.toInt + p.styleCount.toInt * 4 + p.stringCount.toInt * 4)
      else p.stringStart
    styleStart := if 0 < p.styleCount.toInt ∧ 0 < p.stringCount.toInt then
        BitVec.ofInt 32 (p.headSize.toInt + p.styleCount.toInt * 4 + p.stringCount.toInt * 4 +
          (p.strings.getD []).flatten.length)
      else p.styleStart
    stringOffsets := p.strings.elim p.stringOffsets fun strings => some (offsetsFrom 0 strings)
    stringIndexMap := p.strings.elim p.stringIndexMap fun strings =>
      p.stringIndexMap.map fun _ => indexMap p.utf8 strings }

theorem indexStrings_eq (utf8 : Bool) (i : ℕ) (buffers : List Bytes) (map : S → Option ℕ) :
    indexStrings utf8 i buffers map =
      if buffers.all (resolves utf8) then some (indexFrom (resolved utf8) i buffers map) else none := by
  induction buffers generalizing i map with
  | nil => rfl
  | cons buffer buffers ih =>
    rw [indexStrings, resolveStringPoolEntry_eq, all_cons, indexFrom]
    cases hres : resolves utf8 buffer with
    | false => rfl
    | true =>
      rw [Bool.true_and, ← ih]
      rfl

omit [Text S] [DecidableEq S] in
theorem Consistent.unpadded_eq (h : p.Consistent) :
    p.unpadded = p.headSize.toInt + p.stringCount.toInt * 4 + p.styleCount.toInt * 4 +
      (p.strings.getD []).flatten.length + (p.styles.getD []).length := by
  rw [unpadded, h.stringCount_eq, h.styleCount_eq]

theorem refreshStrings_of_consistent (h : p.Consistent) {strings : List Bytes}
    (hstrs : p.strings = some strings)
    (hidx : p.stringIndexMap.isSome → strings.all (resolves p.utf8)) :
    p.refreshStrings strings =
      some ({ p.refreshed with chunkSize := p.chunkSize, chunkPadding := p.chunkPadding },
        (strings.flatten.length : ℤ)) := by
  have hcnt := h.stringCount_eq
  obtain ⟨offsets, hoffs⟩ := isSome_iff_exists.mp (h.listed (by rw [hstrs]; rfl))
  rw [hstrs, getD_some] at hcnt
  have htake : strings.take p.stringCount.toInt.toNat = strings := by
    rw [hcnt, Int.toNat_natCast, take_length]
  have hlen : ¬ strings.length < p.stringCount.toInt.toNat := by omega
  have hmap : p.reindex strings =
      some (p.stringIndexMap.map fun _ => (indexMap p.utf8 strings : S → Option ℕ)) := by
    rw [reindex]
    cases hindexMap : p.stringIndexMap with
    | none => rfl
    | some map =>
      rw [hindexMap] at hidx
      simp only [indexStrings_eq, if_pos (hidx rfl), map_some]
      rfl
  rw [refreshStrings, if_neg hlen]
  simp only [htake, hmap, bind_eq_bind, bind_some, hoffs, sum_map_length]
  by_cases hpos : 0 < p.stringCount.toInt
  · simp [refreshed, hstrs, hpos]
  · have hnil := length_eq_zero_iff.mp (show strings.length = 0 by omega)
    simp only [refreshed, hstrs, elim_some, getD_some,
      isSome_some, if_true, hpos, and_false, if_false, hnil, offsetsFrom]
    rfl

/-- **The pool that `refresh` leaves.** -/
theorem refresh_of_consistent (h : p.Consistent)
    (hidx : p.stringIndexMap.isSome → (p.strings.getD []).all (resolves p.utf8)) :
    p.refresh = some p.refreshed := by
  have hsize := h.unpadded_eq
  cases hstrs : p.strings with
  | none =>
    have hcnt := h.stringCount_eq
    rw [hstrs, getD_none, length_nil] at hcnt
    have hstyle : ¬ (0 < p.styleCount.toInt ∧ 0 < p.stringCount.toInt) := by omega
    simp only [refresh, hstrs, bind_eq_bind, bind_some]
    simp only [refreshed, hsize, hstrs, if_neg hstyle]
    rfl
  | some strings =>
    rw [hstrs] at hsize hidx
    simp only [refresh, hstrs, refreshStrings_of_consistent h hstrs hidx,
      bind_eq_bind, bind_some]
    simp only [refreshed, hsize]
    rfl

/-- **A refreshed pool is laid out**, if it fits into an array. -/
theorem laid_refreshed (h : p.Consistent)
    (hstyl : 0 < p.styleCount.toInt → 0 < p.stringCount.toInt)
    (hfits : p.unpadded + padding p.unpadded < 2 ^ 31) : p.refreshed.Laid := by
  have hnonn := padding_nonneg p.unpadded
  have hsize := h.unpadded_eq
  have hhead := h.headSize_eq
  have hheadPadding := h.headPadding_nonneg
  have hcnt := h.stringCount_eq
  have hstyles := h.styleCount_eq
  have hstart : p.refreshed.stringStart.toInt =
      p.headSize.toInt + p.styleCount.toInt * 4 + p.stringCount.toInt * 4 := by
    cases hstrs : p.strings with
    | none => simpa [refreshed, hstrs] using (h.unlisted hstrs).2
    | some strings =>
      simp only [refreshed, hstrs, isSome_some, if_true]
      exact toInt_ofInt_of_lt (by omega) (by omega)
  refine
    { __ := h
      stringOffsets_eq := ?_
      stringStart_eq := hstart
      styled := ?_
      chunkPadding_eq := rfl
      chunkSize_eq := toInt_ofInt_of_lt (by omega) hfits
      minBytes_le := h.minBytes_le }
  · cases hstrs : p.strings with
    | none => simpa [refreshed, hstrs, offsetsFrom] using (h.unlisted hstrs).1
    | some strings => simp [refreshed, hstrs]
  · intro (hstyle : 0 < p.styleCount.toInt)
    refine ⟨hstyl hstyle, ?_⟩
    rw [hstart]
    simp only [refreshed, if_pos (And.intro hstyle (hstyl hstyle))]
    exact toInt_ofInt_of_lt (by omega) (by omega)

end ResStringBlock

/-! ## Encoded strings -/

section Encoded

variable {S : Type} [Text S]

def charset (utf8 : Bool) : Charset S := if utf8 then Text.utf8 else Text.utf16le

theorem encodeStringPoolEntry_eq (str : S) (utf8 : Bool) :
    ∃ head, encodeStringPoolEntry str utf8 =
      head ++ (charset utf8).encode str ++ zeros (if utf8 then 1 else 2) ∧
      2 ≤ head.length ∧ (utf8 = true ∨ Text.length str ≤ 0xffff → head.length = 2) := by
  cases utf8 with
  | true =>
    refine ⟨_, rfl, ?_⟩
    split <;> simp
  | false =>
    refine ⟨_, rfl, ?_⟩
    split <;> rename_i hlen <;> simp
    omega

theorem minBytes_le_encode (str : S) (utf8 : Bool) :
    minBytes utf8 ≤ (encodeStringPoolEntry str utf8).length := by
  obtain ⟨head, heq, hhead, -⟩ := encodeStringPoolEntry_eq str utf8
  rw [heq]
  cases utf8 <;> simp [minBytes] <;> omega

theorem longForm_encode (str : S) :
    longForm (encodeStringPoolEntry str false) = decide (0x8000 ≤ Text.length str) := by
  have hbit : ∀ n, n < 2 ^ 16 → n.testBit 15 = decide (0x8000 ≤ n) := by
    intro n hn
    rw [Nat.testBit_eq_decide_div_mod_eq]
    exact decide_eq_decide.mpr (by omega)
  rw [longForm, encodeStringPoolEntry]
  by_cases hlong : 0xffff < Text.length str
  · have hhigh : ((Text.length str &&& 0x7fff0000) >>> 16 ||| 0x8000).testBit 15 = true := by
      rw [Nat.testBit_or]
      exact Bool.or_eq_true_iff.mpr (.inr (by decide))
    simp only [hlong, if_true, if_false, Bool.false_eq_true, append_assoc]
    rw [take_append_of_le_length (by simp), take_of_length_le (by simp), leValue_leBytes,
      show 256 ^ 2 = 2 ^ 16 from rfl, Nat.testBit_mod_two_pow, hhigh]
    exact (decide_eq_true (by omega)).symm
  · have hmask : Text.length str &&& 0xffff = Text.length str := by
      rw [show 0xffff = 2 ^ 16 - 1 from rfl, Nat.and_two_pow_sub_one_eq_mod]
      exact Nat.mod_eq_of_lt (by omega)
    simp only [hlong, if_false, Bool.false_eq_true, append_assoc, hmask]
    rw [take_append_of_le_length (by simp), take_of_length_le (by simp), leValue_leBytes,
      Nat.mod_eq_of_lt (by omega)]
    exact hbit _ (by omega)

theorem longForm_append {buffer : Bytes} (h : 2 ≤ buffer.length) (rest : Bytes) :
    longForm (buffer ++ rest) = longForm buffer := by
  rw [longForm, longForm, take_append_of_le_length h]

theorem take_drop_encoded {head : Bytes} (content : Bytes) (hhead : head.length = 2) (terminator n : ℕ) :
    ((head ++ content ++ zeros terminator ++ zeros n).drop 2).take
        ((head ++ content ++ zeros terminator ++ zeros n).length - 2 - terminator) =
      content ++ zeros n := by
  have hzer : zeros terminator ++ zeros n = zeros n ++ zeros terminator := by
    simp [zeros, Nat.add_comm]
  rw [append_assoc, hzer, ← append_assoc, append_assoc head, append_assoc head,
    ← hhead, drop_left, length_append, Nat.add_sub_cancel_left, length_append,
    length_zeros, Int.toNat_natCast, Nat.add_sub_cancel, take_left]

/-- Zeros after an encoded string become part of it. -/
theorem resolve_encode_append {str : S} {utf8 : Bool} (h : utf8 = true ∨ Text.length str < 0x8000)
    (n : ℕ) :
    resolveStringPoolEntry (encodeStringPoolEntry str utf8 ++ zeros n) utf8 =
      some ((charset utf8 : Charset S).decode ((charset utf8).encode str ++ zeros n)) := by
  obtain ⟨head, heq, -, hlen⟩ := encodeStringPoolEntry_eq str utf8
  have hhead : head.length = 2 := hlen (h.imp_right fun hlt => by omega)
  cases utf8 with
  | true =>
    have hbody := take_drop_encoded ((charset true).encode str) hhead 1 n
    have hle : ¬ (encodeStringPoolEntry str true ++ zeros n).length < 3 := by
      rw [heq]
      simp [hhead]
      omega
    rw [heq] at hle ⊢
    rw [resolveStringPoolEntry, if_neg hle]
    exact congrArg (fun bytes => some ((charset true).decode bytes)) hbody
  | false =>
    have hbody := take_drop_encoded ((charset false).encode str) hhead 2 n
    have hle : ¬ (encodeStringPoolEntry str false ++ zeros n).length < 4 := by
      rw [heq]
      simp [hhead]
      omega
    have hlong : longForm (encodeStringPoolEntry str false ++ zeros n) = false := by
      rw [longForm_append (by rw [heq]; simp [hhead]), longForm_encode]
      exact decide_eq_false (by simpa using h)
    rw [heq] at hle hlong ⊢
    rw [resolveStringPoolEntry, if_neg hle]
    rw [longForm] at hlong
    rw [if_neg (Bool.eq_false_iff.mp hlong)]
    exact congrArg (fun bytes => some ((charset false).decode bytes)) hbody

theorem resolve_encode {str : S} {utf8 : Bool} (h : utf8 = true ∨ Text.length str < 0x8000) :
    resolveStringPoolEntry (encodeStringPoolEntry str utf8) utf8 = some str := by
  have happ := resolve_encode_append h 0
  rwa [show zeros ((0 : ℕ) : ℤ) = [] from rfl, append_nil, append_nil,
    Charset.decode_encode] at happ

end Encoded

/-! ## Pools of encoded strings -/

namespace ResStringBlock

variable {S : Type} [Text S] {p : ResStringBlock S} {strs : List S}

/-- A pool without styles whose strings were encoded. -/
@[mk_iff]
structure Encodes (p : ResStringBlock S) (strs : List S) : Prop where
  headSize_eq : p.headSize.toInt = 28 + p.headPadding
  headPadding_nonneg : 0 ≤ p.headPadding
  headSize_aligned : p.headSize.toInt % 4 = 0
  strings_eq : p.strings = some (strs.map (encodeStringPoolEntry · p.utf8))
  stringCount_eq : p.stringCount.toInt = strs.length
  stringOffsets_isSome : p.stringOffsets.isSome
  styleCount_eq : p.styleCount.toInt = 0
  styleOffsets_eq : p.styleOffsets.getD [] = []
  styles_eq : p.styles.getD [] = []
  fits : p.unpadded + padding p.unpadded < 2 ^ 31

instance (p : ResStringBlock S) (strs : List S) : Decidable (p.Encodes strs) :=
  decidable_of_iff _ (encodes_iff p strs).symm

/-- A pool of encoded strings, before `refresh`. -/
def ofStrings (utf8 : Bool) (strs : List S) : ResStringBlock S where
  chunkType := 1
  headSize := 28
  chunkSize := 0
  headPadding := 0
  chunkPadding := 0
  stringCount := BitVec.ofNat 32 strs.length
  styleCount := 0
  flag := if utf8 then 0x100 else 0
  stringStart := 0
  styleStart := 0
  stringOffsets := some []
  styleOffsets := none
  strings := some (strs.map (encodeStringPoolEntry · utf8))
  styles := none
  stringIndexMap := some fun _ => none

@[simp]
theorem utf8_ofStrings (utf8 : Bool) (strs : List S) : (ofStrings utf8 strs).utf8 = utf8 := by
  cases utf8 <;> simp [ResStringBlock.utf8, ofStrings]

theorem unpadded_ofStrings (utf8 : Bool) (strs : List S) :
    (ofStrings utf8 strs).unpadded =
      28 + strs.length * 4 + (strs.map (encodeStringPoolEntry · utf8)).flatten.length := by
  simp [unpadded, ofStrings]

theorem encodes_ofStrings {utf8 : Bool} {strs : List S}
    (hfits : (ofStrings utf8 strs).unpadded + 3 < 2 ^ 31) : (ofStrings utf8 strs).Encodes strs where
  headSize_eq := rfl
  headPadding_nonneg := le_rfl
  headSize_aligned := show (28 : BitVec 16).toInt % 4 = 0 by decide
  strings_eq := by
    rw [utf8_ofStrings]
    rfl
  stringCount_eq := by
    rw [unpadded_ofStrings] at hfits
    exact toInt_ofNat_of_lt (by omega)
  stringOffsets_isSome := rfl
  styleCount_eq := rfl
  styleOffsets_eq := rfl
  styles_eq := rfl
  fits := by
    rw [padding]
    split <;> omega

def resolveAt (p : ResStringBlock S) (i : ℕ) : Option S :=
  (p.strings.getD [])[i]?.bind (resolveStringPoolEntry · p.utf8)

/-- The strings are at their indices, and the string index leads to each of them. -/
def ReadsBack (p : ResStringBlock S) (strs : List S) : Prop :=
  (∀ i s, strs[i]? = some s → p.resolveAt i = some s) ∧
    ∀ s ∈ strs, ∃ map i, p.stringIndexMap = some map ∧ map s = some i ∧ p.resolveAt i = some s

theorem Encodes.consistent (h : p.Encodes strs) : p.Consistent where
  __ := h
  stringCount_eq := by
    rw [h.strings_eq, getD_some, length_map]
    exact h.stringCount_eq
  styleCount_eq := by
    rw [h.styleOffsets_eq]
    exact h.styleCount_eq
  plain := fun _ => h.styles_eq
  minBytes_le := by
    rw [h.strings_eq]
    exact forall_mem_map.mpr fun s _ => minBytes_le_encode s p.utf8
  listed := fun _ => h.stringOffsets_isSome
  unlisted := fun hnone => by
    rw [h.strings_eq] at hnone
    cases hnone

theorem Encodes.laid_refreshed [DecidableEq S] (h : p.Encodes strs) : p.refreshed.Laid :=
  ResStringBlock.laid_refreshed h.consistent (fun hstyle => absurd hstyle h.styleCount_eq.not_gt)
    h.fits

theorem Encodes.padding_eq_zero_iff (h : p.Encodes strs) :
    padding p.unpadded = 0 ↔
      (strs.map fun s => (encodeStringPoolEntry s p.utf8).length).sum % 4 = 0 := by
  have haln := h.headSize_aligned
  have hlen : (strs.map fun s => (encodeStringPoolEntry s p.utf8).length).sum =
      (p.strings.getD []).flatten.length := by
    rw [h.strings_eq, Option.getD_some, List.length_flatten, List.map_map]
    rfl
  rw [unpadded, h.styles_eq, padding]
  simp only [length_nil]
  split <;> omega

theorem absorb_append_singleton (rest : ℤ) (buffers : List Bytes) (last : Bytes) :
    absorb rest (buffers ++ [last]) = buffers ++ [last ++ zeros rest] := by
  induction buffers with
  | nil => rfl
  | cons buffer buffers ih =>
    cases buffers with
    | nil => rfl
    | cons next buffers =>
      rw [cons_append, cons_append, absorb, ← cons_append, ih]
      rfl

section ReadBack

variable [DecidableEq S]

theorem fileStrings_refreshed (h : p.Encodes strs) :
    p.refreshed.fileStrings =
      absorb (padding p.unpadded) (strs.map (encodeStringPoolEntry · p.utf8)) := by
  have hstyle : ¬ 0 < p.refreshed.styleCount.toInt := h.styleCount_eq.not_gt
  have hstrs : p.refreshed.strings.getD [] = strs.map (encodeStringPoolEntry · p.utf8) := by
    change p.strings.getD [] = _
    rw [h.strings_eq, getD_some]
  rw [fileStrings, if_neg hstyle, hstrs]
  rfl

theorem readable_refreshed (h : p.Encodes strs) (hshort : ∀ s ∈ strs, Text.length s < 0x8000) :
    p.refreshed.readable = true := by
  change (p.utf8 || (p.strings.getD []).all (!longForm ·)) = true
  cases hutf8 : p.utf8 with
  | true => rfl
  | false =>
    rw [Bool.false_or, h.strings_eq, Option.getD_some, List.all_map, List.all_eq_true]
    intro s hs
    rw [Function.comp_apply, hutf8, longForm_encode, decide_eq_false (by have := hshort s hs; omega)]
    rfl

theorem stringIndexMap_reread (h : p.Laid) (hne : p.fileStrings ≠ []) :
    p.reread.stringIndexMap = some (indexMap p.utf8 p.fileStrings) := by
  have hcnt := h.stringCount_eq
  have hlen := length_pos_of_ne_nil hne
  rw [length_fileStrings] at hlen
  exact if_pos (by omega)

theorem readsBack_of_padding (h : p.Encodes strs) (hshort : ∀ s ∈ strs, Text.length s < 0x8000)
    (hpadd : padding p.unpadded = 0) : p.refreshed.reread.ReadsBack strs := by
  have hlaid := h.laid_refreshed
  have hfile := fileStrings_refreshed h
  rw [hpadd, absorb_zero] at hfile
  have hrslv : ∀ i s, strs[i]? = some s → p.refreshed.reread.resolveAt i = some s := by
    intro i s hs
    rw [resolveAt, strings_reread hlaid, hfile, getElem?_map, hs]
    exact resolve_encode (.inr (hshort s (mem_of_getElem? hs)))
  refine ⟨hrslv, fun s hs => ?_⟩
  have hres : ∀ s ∈ strs, (resolved p.utf8 (encodeStringPoolEntry s p.utf8) : S) = s := by
    intro s hs
    rw [resolved, resolve_encode (.inr (hshort s hs)), getD_some]
  have hne : p.refreshed.fileStrings ≠ [] := by
    rw [hfile]
    exact fun hnil => ne_nil_of_mem hs (map_eq_nil_iff.mp hnil)
  obtain ⟨i, buffer, hi, hbuf, hkey⟩ := exists_indexFrom (f := (resolved p.utf8 : Bytes → S))
    (mem_map_of_mem (f := (encodeStringPoolEntry · p.utf8)) hs)
  rw [hres s hs] at hi hkey
  rw [getElem?_map, map_eq_some_iff] at hbuf
  obtain ⟨t, ht, rfl⟩ := hbuf
  rw [hres t (mem_of_getElem? ht)] at hkey
  refine ⟨_, i, stringIndexMap_reread hlaid hne, ?_, hrslv i s (hkey ▸ ht)⟩
  rw [hfile]
  exact hi

/-- The last string takes the padding. -/
theorem not_readsBack_of_padding (h : p.Encodes strs) (hshort : ∀ s ∈ strs, Text.length s < 0x8000)
    (hne : strs ≠ []) (hpadd : padding p.unpadded ≠ 0) :
    ¬ p.refreshed.reread.ReadsBack strs := by
  obtain ⟨init, last, rfl⟩ := eq_nil_or_concat strs |>.resolve_left hne
  have hlaid := h.laid_refreshed
  have hpos : 0 < padding p.unpadded := lt_of_le_of_ne (padding_nonneg _) (Ne.symm hpadd)
  obtain ⟨n, hn⟩ := Int.eq_ofNat_of_zero_le hpos.le
  have hfile := fileStrings_refreshed h
  rw [concat_eq_append, map_append, map_singleton, absorb_append_singleton, hn] at hfile
  intro hback
  have hlast := hback.1 init.length last (by simp)
  rw [resolveAt, strings_reread hlaid, hfile, getElem?_append_right (by simp), length_map,
    Nat.sub_self] at hlast
  have hrslv := resolve_encode_append (n := n)
    (.inr (hshort last (by simp)) : p.utf8 = true ∨ Text.length last < 0x8000)
  exact Charset.decode_append_zeros _ last n (by omega)
    (some.inj (hrslv.symm.trans hlast))

/-- **String pool read-back**: encoded strings of a pool without styles are read back, and found in the
string index, exactly if their bytes end on a boundary of four bytes. -/
theorem readBack_iff_aligned (p : ResStringBlock S) (strs : List S) (h : p.Encodes strs)
    (hshort : ∀ s ∈ strs, Text.length s < 128) :
    ∃ q bytes, p.refresh = some q ∧ q.toBytes = some bytes ∧
      ∀ file pos, Holds file pos bytes →
        ∃ r : ResStringBlock S, readStringBlock file pos = some (r, pos + bytes.length) ∧
          (r.ReadsBack strs ↔
            strs = [] ∨ (strs.map fun s => (encodeStringPoolEntry s p.utf8).length).sum % 4 = 0) := by
  have hun : ∀ s ∈ strs, Text.length s < 0x8000 := fun s hs => (hshort s hs).trans (by decide)
  have hlaid := h.laid_refreshed
  have hidx : (p.strings.getD []).all (resolves p.utf8) = true := by
    have hall := all_resolves_absorb 0 h.consistent.minBytes_le
    rw [absorb_zero] at hall
    rw [hall]
    exact readable_refreshed h hun
  refine ⟨p.refreshed, p.refreshed.contents, refresh_of_consistent h.consistent fun _ => hidx,
    toBytes_of_laid hlaid, fun file pos hfile => ⟨p.refreshed.reread, ?_, ?_⟩⟩
  · rw [readStringBlock_of_holds hlaid hfile, if_pos (readable_refreshed h hun)]
  · rw [← h.padding_eq_zero_iff]
    constructor
    · intro hback
      by_contra hnot
      rw [not_or] at hnot
      exact not_readsBack_of_padding h hun hnot.1 hnot.2 hback
    · rintro (rfl | hpadd)
      · exact ⟨fun i s hs => by simp at hs, nofun⟩
      · exact readsBack_of_padding h hun hpadd

theorem readBack_iff_aligned_two :
    ∃ q bytes, (ofStrings true [[97], [98, 99]] : ResStringBlock Ascii).refresh = some q ∧
      q.toBytes = some bytes ∧
      ∀ file pos, Holds file pos bytes →
        ∃ r : ResStringBlock Ascii, readStringBlock file pos = some (r, pos + bytes.length) ∧
          (r.ReadsBack [[97], [98, 99]] ↔ ([[97], [98, 99]] : List Ascii) = [] ∨
            (([[97], [98, 99]] : List Ascii).map fun s => (encodeStringPoolEntry s true).length).sum
              % 4 = 0) :=
  readBack_iff_aligned (ofStrings true [[97], [98, 99]]) _ (by decide +kernel) (by decide +kernel)

/-- The string `ab` is read with the three bytes of padding that follow it. -/
theorem readBack_pads_last :
    (ofStrings true [[97, 98]] : ResStringBlock Ascii).Encodes [[97, 98]] ∧
    (do
      let pool ← (ofStrings true [[97, 98]] : ResStringBlock Ascii).refresh
      let bytes ← pool.toBytes
      let (read, _) ← readStringBlock bytes 0
      let map ← read.stringIndexMap
      return ((read.resolveAt 0 : Option Ascii), map [97, 98])) =
        some (some [97, 98, 0, 0, 0], none) := by
  decide +kernel

end ReadBack

end ResStringBlock

end TraceHarbor.Arsc
