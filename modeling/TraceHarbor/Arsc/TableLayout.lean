import TraceHarbor.Arsc.PoolRefresh
import TraceHarbor.Arsc.TypeLayout

/-!
# The Layout of Tables

The layout of type specifications, packages and whole tables. Everything in a package is a multiple
of four bytes, so that packages and tables need no padding at their end.
-/

namespace TraceHarbor.Arsc

open Lib Lib.Input List Option

variable {S : Type} {file : Bytes} {pos : ℕ}

theorem length_flatMap_eq_sum {α : Type} {f : α → Bytes} {size : α → ℤ} {xs : List α}
    (h : ∀ x ∈ xs, ((f x).length : ℤ) = size x) :
    ((xs.flatMap f).length : ℤ) = (xs.map size).sum := by
  rw [length_flatMap, Nat.cast_list_sum, List.map_map]
  exact congrArg sum (map_congr_left h)

/-! ## Type specifications -/

namespace ResTypeSpec

def contents (s : ResTypeSpec) : Bytes :=
  putShort chunkType ++ putShort s.headSize ++ putInt s.chunkSize ++ put s.id ++ put s.reserved0 ++
    putShort s.reserved1 ++ putInt s.entryCount ++ zeros s.headPadding ++ s.configFlags.getD [] ++
    zeros s.chunkPadding

/-- **Layout of a type specification**. -/
@[mk_iff]
structure Laid (s : ResTypeSpec) : Prop where
  headSize_eq : s.headSize.toInt = 16
  headPadding_eq : s.headPadding = 0
  chunkPadding_eq : s.chunkPadding = 0
  chunkSize_eq : s.chunkSize.toInt = 16 + (s.configFlags.getD []).length
  configFlags_aligned : (s.configFlags.getD []).length % 4 = 0

instance (s : ResTypeSpec) : Decidable s.Laid := decidable_of_iff _ (laid_iff s).symm

/-- The specification that is read from the contents. -/
def reread (s : ResTypeSpec) : ResTypeSpec :=
  { s with configFlags := if 16 < s.chunkSize.toInt then s.configFlags.getD [] else none }

variable {s : ResTypeSpec}

theorem length_contents (h : s.Laid) : (s.contents.length : ℤ) = s.chunkSize.toInt := by
  rw [h.chunkSize_eq]
  simp only [contents, h.headPadding_eq, h.chunkPadding_eq, length_append, length_putShort,
    length_putInt, length_put, length_zeros, Int.toNat_zero]
  omega

theorem toBytes_of_laid (h : s.Laid) : s.toBytes = some s.contents := allocate_eq (length_contents h)

theorem configFlags_reread (h : s.Laid) : s.reread.configFlags.getD [] = s.configFlags.getD [] := by
  have hsize := h.chunkSize_eq
  rw [reread]
  by_cases hflags : 16 < s.chunkSize.toInt
  · simp [if_pos hflags]
  · simp only [if_neg hflags, getD_none,
      length_eq_zero_iff.mp (show (s.configFlags.getD []).length = 0 by omega)]

theorem contents_reread (h : s.Laid) : s.reread.contents = s.contents := by
  rw [contents, configFlags_reread h]
  rfl

theorem Laid.reread (h : s.Laid) : s.reread.Laid where
  __ := h
  chunkSize_eq := by
    rw [configFlags_reread h]
    exact h.chunkSize_eq
  configFlags_aligned := by
    rw [configFlags_reread h]
    exact h.configFlags_aligned

/-- **Reading a type specification** returns `reread`. -/
theorem readResTypeSpec_of_holds (h : s.Laid) (hfile : Holds file pos s.contents) :
    readResTypeSpec file pos = some (s.reread, pos + s.contents.length) := by
  have hsize := h.chunkSize_eq
  have hhead := h.headSize_eq
  have hconts := length_contents h
  simp only [contents, h.headPadding_eq, append_assoc, holds_append, length_putShort, length_put,
    length_putInt, length_zeros, Int.toNat_zero, Nat.add_zero] at hfile
  obtain ⟨htype, hheadSize, hchunkSize, hid, hres0, hres1, hentCnt, -, hflags, -⟩ :=
    hfile
  rw [readResTypeSpec, bind_get,
    bind_of_eq (readShort_of_holds htype), bind_of_eq (readShort_of_holds hheadSize),
    bind_of_eq (readInt_of_holds hchunkSize), bind_of_eq (readByte_of_holds hid),
    bind_of_eq (readByte_of_holds hres0), bind_of_eq (readShort_of_holds hres1),
    bind_of_eq (readInt_of_holds hentCnt), bind_get]
  generalize hq : pos + 2 + 2 + 4 + 1 + 1 + 2 + 4 = q at *
  have hread : readWhen (0 < s.chunkSize.toInt - s.headSize.toInt)
      (readBuffer file (s.chunkSize.toInt - s.headSize.toInt)) q =
      some (if 16 < s.chunkSize.toInt then some (s.configFlags.getD []) else none,
        pos + s.contents.length) := by
    by_cases hpos : 16 < s.chunkSize.toInt
    · have hbuf := readBuffer_of_holds
        (show s.chunkSize.toInt - s.headSize.toInt = (s.configFlags.getD []).length by omega) hflags
      rw [readWhen_true (decide_eq_true (by omega)) hbuf, if_pos hpos,
        show q + (s.configFlags.getD []).length = pos + s.contents.length by omega]
    · rw [readWhen_false (decide_eq_false (by omega)), if_neg hpos,
        show q = pos + s.contents.length by omega]
  have hheadPadding : s.headSize.toInt + pos - q = s.headPadding := by
    rw [h.headPadding_eq]
    omega
  have hchunkPadding : s.chunkSize.toInt + pos - ((pos + s.contents.length : ℕ) : ℤ) =
      s.chunkPadding := by
    rw [h.chunkPadding_eq]
    omega
  rw [bind_of_eq hread, bind_get, hheadPadding, hchunkPadding]
  rfl

end ResTypeSpec

/-! ## Chunks of a package -/

namespace ResChunk

def contents : ResChunk S → Bytes
  | .typeSpec s => s.contents
  | .resType t => t.contents

def entries : ResChunk S → List (ResEntry S)
  | .typeSpec _ => []
  | .resType t => t.entries

def Laid : ResChunk S → Prop
  | .typeSpec s => s.Laid
  | .resType t => t.Laid

instance : (chunk : ResChunk S) → Decidable chunk.Laid
  | .typeSpec s => inferInstanceAs (Decidable s.Laid)
  | .resType t => inferInstanceAs (Decidable t.Laid)

/-- A chunk without entries that is not written, as `recomputeChunkSize` leaves it. -/
def Dropped (chunk : ResChunk S) : Prop := chunk.chunkSize = 0 ∧ chunk.entries = []

instance (chunk : ResChunk S) : Decidable chunk.Dropped :=
  have : Decidable (chunk.entries = []) := decidable_of_iff _ isEmpty_iff
  inferInstanceAs (Decidable (_ ∧ _))

variable {chunk : ResChunk S}

theorem length_contents (h : chunk.Laid) : (chunk.contents.length : ℤ) = chunk.chunkSize.toInt := by
  cases chunk with
  | typeSpec s => exact ResTypeSpec.length_contents h
  | resType t => exact ResType.length_contents h

theorem toBytes_of_laid (h : chunk.Laid) : chunk.toBytes = some chunk.contents := by
  cases chunk with
  | typeSpec s => exact ResTypeSpec.toBytes_of_laid h
  | resType t => exact ResType.toBytes_of_laid h

theorem chunkSize_pos (h : chunk.Laid) : 16 ≤ chunk.chunkSize.toInt := by
  cases chunk with
  | typeSpec s =>
    have := h.chunkSize_eq
    change 16 ≤ s.chunkSize.toInt
    omega
  | resType t =>
    have hsize := h.chunkSize_eq
    have hcnt := h.entryCount_eq
    have hhead := h.headSize_eq
    have hconf := h.config
    rw [ResConfig.Laid] at hconf
    change 16 ≤ t.chunkSize.toInt
    omega

variable [Text S]

def reread (namePool : ResStringBlock S) : ResChunk S → ResChunk S
  | .typeSpec s => .typeSpec s.reread
  | .resType t => .resType (t.reread namePool)

variable {globalPool namePool : ResStringBlock S}

theorem contents_reread (h : chunk.Laid) : (chunk.reread namePool).contents = chunk.contents := by
  cases chunk with
  | typeSpec s => exact ResTypeSpec.contents_reread h
  | resType t => exact ResType.contents_reread h

theorem Laid.reread (h : chunk.Laid) : (chunk.reread namePool).Laid := by
  cases chunk with
  | typeSpec s => exact ResTypeSpec.Laid.reread h
  | resType t => exact ResType.Laid.reread h

@[simp]
theorem chunkSize_reread : (chunk.reread namePool).chunkSize = chunk.chunkSize := by
  cases chunk <;> rfl

/-- **Reading the chunks of a package**: the loop reads one chunk per round, up to the end of the
package. -/
theorem readChunks_of_holds {chunks : List (ResChunk S)} {fuel : ℕ} {stop : ℤ}
    (hglob : Resolving globalPool) (hnam : Resolving namePool) (hlaid : ∀ c ∈ chunks, c.Laid)
    (href : ∀ c ∈ chunks, ∀ e ∈ c.entries, e.Refers globalPool namePool)
    (hfile : Holds file pos (chunks.flatMap contents)) (hfuel : chunks.length < fuel)
    (hstop : stop = ((pos + (chunks.flatMap contents).length : ℕ) : ℤ)) :
    readChunks file globalPool (some namePool) stop fuel pos =
      some (chunks.map (reread namePool), pos + (chunks.flatMap contents).length) := by
  induction chunks generalizing fuel pos with
  | nil =>
    obtain ⟨fuel, rfl⟩ := Nat.exists_eq_succ_of_ne_zero hfuel.ne_zero
    rw [readChunks, bind_get, if_neg (by rw [hstop]; exact lt_irrefl _)]
    rfl
  | cons chunk chunks ih =>
    obtain ⟨fuel, rfl⟩ := Nat.exists_eq_succ_of_ne_zero hfuel.ne_zero
    obtain ⟨hfst, hlaids⟩ := forall_mem_cons.mp hlaid
    obtain ⟨hrefe, hrefs⟩ := forall_mem_cons.mp href
    have hsize := chunkSize_pos hfst
    have hlen := length_contents hfst
    rw [flatMap_cons, length_append] at hstop
    have hrest := ih hlaids hrefs hfile.right (Nat.lt_of_succ_lt_succ hfuel)
      (by rw [hstop]; push_cast; ring)
    rw [readChunks, bind_get, if_pos (by omega), flatMap_cons,
      length_append, ← Nat.add_assoc]
    -- the chunk is read from its start again, once its type is known
    cases chunk with
    | typeSpec s =>
      have hchk := hfile.left
      simp only [contents, ResTypeSpec.contents, append_assoc] at hchk
      rw [bind_of_eq (readShort_of_holds hchk.left), if_pos rfl, bind_of_eq (seek_eq rfl),
        bind_of_eq (ResTypeSpec.readResTypeSpec_of_holds hfst hfile.left)]
      exact bind_of_eq hrest
    | resType t =>
      have hchk := hfile.left
      simp only [contents, ResType.contents, append_assoc] at hchk
      rw [bind_of_eq (readShort_of_holds hchk.left), if_neg (by decide), if_pos rfl,
        bind_of_eq (seek_eq rfl),
        bind_of_eq (ResType.readResType_of_holds hglob hnam hfst hrefe hfile.left)]
      exact bind_of_eq hrest

end ResChunk

/-! ## Packages -/

namespace ResStringBlock

variable {p : ResStringBlock S} [Text S] [DecidableEq S]

theorem resolving_reread (h : p.Laid) (hread : p.readable = true) : Resolving p.reread := by
  intro buffer hbuf
  rw [strings_reread h] at hbuf
  have hall : p.fileStrings.all (resolves p.utf8) = true := by
    rw [fileStrings, all_resolves_absorb _ h.minBytes_le]
    exact hread
  exact all_eq_true.mp hall buffer hbuf

theorem inPool_reread (h : p.Laid) {index : BitVec 32} : InPool p.reread index ↔ InPool p index := by
  rw [InPool, InPool, strings_reread h, length_fileStrings]

end ResStringBlock

theorem ResEntry.Refers.pools [Text S] [DecidableEq S] {globalPool namePool : ResStringBlock S}
    {e : ResEntry S} (hglob : globalPool.Laid) (hnam : namePool.Laid)
    (h : e.Refers globalPool namePool) : e.Refers globalPool.reread namePool.reread where
  values := fun v hv hstr =>
    (ResStringBlock.inPool_reread hglob).mpr (h.values v hv hstr)
  name := (ResStringBlock.inPool_reread hnam).mpr h.name

namespace ResPackage

/-- What `toBytes` puts into its buffer. -/
def contents (p : ResPackage S) : Bytes :=
  putShort p.chunkType ++ putShort p.headSize ++ putInt p.chunkSize ++ putInt p.id ++ p.name ++
    putInt p.resTypePoolOffset ++ putInt p.lastPublicType ++ putInt p.resNamePoolOffset ++
    putInt p.lastPublicName ++ zeros p.headPadding ++
    p.resTypePool.elim [] ResStringBlock.contents ++ p.resNamePool.elim [] ResStringBlock.contents ++
    p.written.flatMap ResChunk.contents ++ zeros p.chunkPadding

/-- **Layout of a package**: the two pools follow the head, the chunks follow the pools. -/
@[mk_iff]
structure Laid (p : ResPackage S) : Prop where
  headSize_eq : p.headSize.toInt = 284 + p.headPadding
  headPadding_nonneg : 0 ≤ p.headPadding
  headSize_aligned : p.headSize.toInt % 4 = 0
  name_length : p.name.length = 256
  typePool_isSome : p.resTypePool.isSome
  typePool_laid : ∀ pool ∈ p.resTypePool, pool.Laid
  namePool_isSome : p.resNamePool.isSome
  namePool_laid : ∀ pool ∈ p.resNamePool, pool.Laid
  resTypePoolOffset_eq : p.resTypePoolOffset.toInt = p.headSize.toInt
  resNamePoolOffset_eq : p.resNamePoolOffset.toInt = p.headSize.toInt +
    p.resTypePool.elim 0 fun pool => pool.chunkSize.toInt
  chunks : ∀ chunk ∈ p.resTypeArray.getD [], chunk.Laid ∨ chunk.Dropped
  chunkPadding_eq : p.chunkPadding = 0
  chunkSize_eq : p.chunkSize.toInt = p.headSize.toInt +
    (p.resTypePool.elim 0 fun pool => pool.chunkSize.toInt) +
    (p.resNamePool.elim 0 fun pool => pool.chunkSize.toInt) +
    (p.written.map fun chunk => chunk.chunkSize.toInt).sum

instance (p : ResPackage S) : Decidable p.Laid := decidable_of_iff _ (laid_iff p).symm

theorem Laid.typePool {p : ResPackage S} (h : p.Laid) :
    ∃ pool, p.resTypePool = some pool ∧ pool.Laid := by
  obtain ⟨pool, hpool⟩ := isSome_iff_exists.mp h.typePool_isSome
  exact ⟨pool, hpool, h.typePool_laid pool hpool⟩

theorem Laid.namePool {p : ResPackage S} (h : p.Laid) :
    ∃ pool, p.resNamePool = some pool ∧ pool.Laid := by
  obtain ⟨pool, hpool⟩ := isSome_iff_exists.mp h.namePool_isSome
  exact ⟨pool, hpool, h.namePool_laid pool hpool⟩

/-- The entries of a package refer to strings of the pools. -/
def Refers (globalPool : ResStringBlock S) (p : ResPackage S) : Prop :=
  ∀ namePool ∈ p.resNamePool, ∀ chunk ∈ p.resTypeArray.getD [], ∀ e ∈ chunk.entries,
    e.Refers globalPool namePool

instance (globalPool : ResStringBlock S) (p : ResPackage S) : Decidable (p.Refers globalPool) :=
  inferInstanceAs (Decidable (∀ namePool ∈ p.resNamePool, ∀ chunk ∈ p.resTypeArray.getD [],
    ∀ e ∈ chunk.entries, e.Refers globalPool namePool))

def readable (p : ResPackage S) : Bool :=
  p.resTypePool.all ResStringBlock.readable && p.resNamePool.all ResStringBlock.readable

variable {p : ResPackage S}

theorem laid_of_mem_written (h : p.Laid) {chunk : ResChunk S} (hchk : chunk ∈ p.written) :
    chunk.Laid := by
  obtain ⟨hmem, hpos⟩ := mem_filter.mp hchk
  rcases h.chunks chunk hmem with hlaid | ⟨hzero, -⟩
  · exact hlaid
  · rw [hzero] at hpos
    exact absurd hpos (by decide)

theorem length_flatMap_contents {chunks : List (ResChunk S)} (h : ∀ c ∈ chunks, c.Laid) :
    ((chunks.flatMap ResChunk.contents).length : ℤ) =
      (chunks.map fun chunk => chunk.chunkSize.toInt).sum :=
  length_flatMap_eq_sum fun c hc => ResChunk.length_contents (h c hc)

theorem length_le_length_flatMap {chunks : List (ResChunk S)} (h : ∀ c ∈ chunks, c.Laid) :
    chunks.length ≤ (chunks.flatMap ResChunk.contents).length := by
  rw [length_flatMap, ← length_map]
  refine length_le_sum_of_one_le _ (forall_mem_map.mpr fun c hc => ?_)
  have hlen := ResChunk.length_contents (h c hc)
  have hsize := ResChunk.chunkSize_pos (h c hc)
  omega

theorem length_contents (h : p.Laid) : (p.contents.length : ℤ) = p.chunkSize.toInt := by
  obtain ⟨typePool, htypePool, htype⟩ := h.typePool
  obtain ⟨namePool, hnamePool, hname⟩ := h.namePool
  have hhead := h.headSize_eq
  have hpad := h.headPadding_nonneg
  have htypeSize := ResStringBlock.length_contents htype
  have hnameSize := ResStringBlock.length_contents hname
  rw [h.chunkSize_eq, ← length_flatMap_contents fun c hc => laid_of_mem_written h hc]
  simp only [contents, htypePool, hnamePool, h.chunkPadding_eq, h.name_length, elim_some,
    length_append, length_putShort, length_putInt, length_zeros, Int.toNat_zero]
  omega

theorem toBytes_of_laid (h : p.Laid) : p.toBytes = some p.contents := by
  obtain ⟨typePool, htypePool, htype⟩ := h.typePool
  obtain ⟨namePool, hnamePool, hname⟩ := h.namePool
  have hsize := length_contents h
  have hchks : p.written.mapM ResChunk.toBytes = some (p.written.map ResChunk.contents) :=
    mapM_eq_some_map fun c hc => ResChunk.toBytes_of_laid (laid_of_mem_written h hc)
  rw [contents, htypePool, hnamePool] at hsize ⊢
  rw [toBytes, htypePool, hnamePool, hchks, mapM_some, mapM_some,
    ResStringBlock.toBytes_of_laid htype, ResStringBlock.toBytes_of_laid hname]
  exact allocate_eq hsize

variable [Text S] [DecidableEq S]

/-- The package that is read from the contents; chunks that are not written are gone. -/
def reread (p : ResPackage S) : ResPackage S :=
  { p with
    resTypePool := p.resTypePool.map ResStringBlock.reread
    resNamePool := p.resNamePool.map ResStringBlock.reread
    resTypeArray := p.resNamePool.map fun names => p.written.map (ResChunk.reread names.reread)
    resProguardPool := none }

theorem readPoolAt_of_holds (before : ℕ) {pool : ResStringBlock S} {headStart : ℕ}
    {offset : BitVec 32} (h : pool.Laid) (hoff : 0 < offset.toInt) (hpos : headStart + offset.toInt = pos)
    (hfile : Holds file pos pool.contents) :
    readPoolAt file headStart offset before =
      if pool.readable then some (some pool.reread, pos + pool.contents.length) else none := by
  have hread := ResStringBlock.readStringBlock_of_holds h hfile
  cases hreada : pool.readable with
  | true =>
    rw [hreada] at hread
    exact readWhen_true (decide_eq_true hoff) ((bind_of_eq (seek_eq hpos)).trans hread)
  | false =>
    rw [hreada, if_neg Bool.false_ne_true] at hread
    exact readWhen_none (decide_eq_true hoff) ((bind_of_eq (seek_eq hpos)).trans hread)

/-- **Reading a package** returns `reread`, unless one of its pools cannot be read. -/
theorem readPackage_of_holds {globalPool : ResStringBlock S} (hglob : globalPool.Laid)
    (hglobalReadable : globalPool.readable = true) (h : p.Laid) (href : p.Refers globalPool)
    (hfile : Holds file pos p.contents) :
    readPackage file globalPool.reread pos =
      if p.readable then some (p.reread, pos + p.contents.length) else none := by
  obtain ⟨typePool, htypePool, htype⟩ := h.typePool
  obtain ⟨namePool, hnamePool, hname⟩ := h.namePool
  have hhead := h.headSize_eq
  have hpad := h.headPadding_nonneg
  have hname256 := h.name_length
  have hconts := length_contents h
  have htypeSize := ResStringBlock.length_contents htype
  have hnameSize := ResStringBlock.length_contents hname
  have hwrit := length_flatMap_contents fun c hc => laid_of_mem_written h hc
  have htypeOffset := h.resTypePoolOffset_eq
  have hnameOffset := h.resNamePoolOffset_eq
  have hchunkSize := h.chunkSize_eq
  simp only [htypePool, hnamePool, elim_some] at hnameOffset hchunkSize
  have hend := hfile.end_le (by omega)
  simp only [contents, htypePool, hnamePool, elim_some, append_assoc, holds_append,
    length_putShort, length_putInt, length_zeros, hname256] at hfile
  obtain ⟨hchunkType, hheadSize, hsize, hid, hpackageName, htypeAt, hlastType, hnameAt, hlastName, -,
    htypeHeld, hnameHeld, hchunksHeld, -⟩ := hfile
  have hreadName : readBuffer file 256 (pos + 2 + 2 + 4 + 4) =
      some (p.name, pos + 2 + 2 + 4 + 4 + 256) := by
    rw [readBuffer_of_holds (by rw [hname256]; rfl) hpackageName, hname256]
  rw [readPackage, bind_get,
    bind_of_eq (readShort_of_holds hchunkType), bind_of_eq (readShort_of_holds hheadSize),
    bind_of_eq (readInt_of_holds hsize), bind_of_eq (readInt_of_holds hid), bind_of_eq hreadName,
    bind_of_eq (readInt_of_holds htypeAt), bind_of_eq (readInt_of_holds hlastType),
    bind_of_eq (readInt_of_holds hnameAt), bind_of_eq (readInt_of_holds hlastName), bind_get]
  generalize hq : pos + 2 + 2 + 4 + 4 + 256 + 4 + 4 + 4 + 4 = q at *
  have hreadType := readPoolAt_of_holds q htype
    (show 0 < p.resTypePoolOffset.toInt by omega)
    (show (pos : ℤ) + p.resTypePoolOffset.toInt = ((q + p.headPadding.toNat : ℕ) : ℤ) by omega)
    htypeHeld
  generalize hr : q + p.headPadding.toNat + typePool.contents.length = r at *
  have hreadNames := readPoolAt_of_holds r hname
    (show 0 < p.resNamePoolOffset.toInt by omega)
    (show (pos : ℤ) + p.resNamePoolOffset.toInt = (r : ℤ) by omega) hnameHeld
  rw [readable, htypePool, hnamePool, all_some, all_some]
  cases htypeReadable : typePool.readable with
  | false =>
    rw [htypeReadable] at hreadType
    exact bind_of_none hreadType
  | true =>
    rw [htypeReadable] at hreadType
    rw [bind_of_eq hreadType]
    cases hnameReadable : namePool.readable with
    | false =>
      rw [hnameReadable] at hreadNames
      exact bind_of_none hreadNames
    | true =>
      rw [hnameReadable] at hreadNames
      rw [bind_of_eq hreadNames]
      have hlaid : ∀ chunk ∈ p.written, chunk.Laid := fun c hc => laid_of_mem_written h hc
      have hrefe : ∀ chunk ∈ p.written, ∀ e ∈ chunk.entries,
          e.Refers globalPool.reread namePool.reread := by
        intro chunk hchk e he
        have hmem := (mem_filter.mp hchk).1
        exact (href namePool hnamePool chunk hmem e he).pools hglob hname
      have hcnt := length_le_length_flatMap hlaid
      have hreadChunks := ResChunk.readChunks_of_holds
        (ResStringBlock.resolving_reread hglob hglobalReadable)
        (ResStringBlock.resolving_reread hname hnameReadable) hlaid hrefe hchunksHeld
        (show p.written.length < file.length + 1 by omega)
        (show (pos : ℤ) + p.chunkSize.toInt = _ by omega)
      have hstop : r + namePool.contents.length + (p.written.flatMap ResChunk.contents).length =
          pos + p.contents.length := by omega
      have hheadPadding : p.headSize.toInt + pos - q = p.headPadding := by omega
      have hchunkPadding : p.chunkSize.toInt + pos - ((pos + p.contents.length : ℕ) : ℤ) =
          p.chunkPadding := by
        rw [h.chunkPadding_eq]
        omega
      rw [bind_of_eq hreadChunks, bind_get, hstop, hheadPadding, hchunkPadding, reread, htypePool,
        hnamePool]
      rfl

theorem resTypeArray_reread {names : ResStringBlock S} (hnam : p.resNamePool = some names) :
    p.reread.resTypeArray.getD [] = p.written.map (ResChunk.reread names.reread) := by
  rw [reread, hnam]
  rfl

theorem written_reread {names : ResStringBlock S} (hnam : p.resNamePool = some names) :
    p.reread.written = p.written.map (ResChunk.reread names.reread) := by
  rw [written, resTypeArray_reread hnam, filter_eq_self]
  refine forall_mem_map.mpr fun chunk hchk => ?_
  rw [ResChunk.chunkSize_reread]
  exact (mem_filter.mp hchk).2

theorem contents_reread (h : p.Laid) : p.reread.contents = p.contents := by
  obtain ⟨typePool, htypePool, htype⟩ := h.typePool
  obtain ⟨namePool, hnamePool, hname⟩ := h.namePool
  have hchks : p.reread.written.flatMap ResChunk.contents =
      p.written.flatMap ResChunk.contents := by
    rw [written_reread hnamePool, flatMap_map]
    exact flatMap_congr fun c hc => ResChunk.contents_reread (laid_of_mem_written h hc)
  rw [contents, contents, hchks]
  simp [reread, htypePool, hnamePool, ResStringBlock.contents_reread htype,
    ResStringBlock.contents_reread hname]

/-- **A package that was read is laid out.** -/
theorem Laid.reread (h : p.Laid) : p.reread.Laid := by
  obtain ⟨typePool, htypePool, htype⟩ := h.typePool
  obtain ⟨namePool, hnamePool, hname⟩ := h.namePool
  have htypeOffset := h.resNamePoolOffset_eq
  have hsize := h.chunkSize_eq
  rw [htypePool] at htypeOffset hsize
  rw [hnamePool] at hsize
  have htypePool' : p.reread.resTypePool = some typePool.reread := by
    rw [ResPackage.reread, htypePool]
    rfl
  have hnamePool' : p.reread.resNamePool = some namePool.reread := by
    rw [ResPackage.reread, hnamePool]
    rfl
  refine
    { __ := h
      typePool_isSome := by rw [htypePool']; rfl
      typePool_laid := by rw [htypePool']; exact fun _ hpool => some.inj hpool ▸ htype.reread
      namePool_isSome := by rw [hnamePool']; rfl
      namePool_laid := by rw [hnamePool']; exact fun _ hpool => some.inj hpool ▸ hname.reread
      resNamePoolOffset_eq := by rw [htypePool']; exact htypeOffset
      chunks := ?_
      chunkSize_eq := ?_ }
  · rw [resTypeArray_reread hnamePool]
    exact forall_mem_map.mpr fun c hc => .inl (laid_of_mem_written h hc).reread
  · rw [written_reread hnamePool, List.map_map, htypePool', hnamePool']
    have hsiz : (fun chunk : ResChunk S => chunk.chunkSize.toInt) ∘
        ResChunk.reread namePool.reread = fun chunk => chunk.chunkSize.toInt := by
      funext chunk
      rw [Function.comp_apply, ResChunk.chunkSize_reread]
    rw [hsiz]
    exact hsize

end ResPackage

/-! ## Tables -/

namespace ResTable

/-- What `toBytes` puts into its buffer. -/
def contents (t : ResTable S) : Bytes :=
  putShort t.chunkType ++ putShort t.headSize ++ putInt t.chunkSize ++ putInt t.packageCount ++
    zeros t.headPadding ++ t.globalStringPool.elim [] ResStringBlock.contents ++
    (t.packages.getD []).flatMap ResPackage.contents ++ zeros t.chunkPadding

/-- **Layout of a table**: the global pool follows the head, the packages follow the pool. -/
@[mk_iff]
structure Canonical (t : ResTable S) : Prop where
  headSize_eq : t.headSize.toInt = 12
  headPadding_eq : t.headPadding = 0
  packageCount_eq : t.packageCount.toInt = (t.packages.getD []).length
  globalPool_isSome : t.globalStringPool.isSome
  globalPool_laid : ∀ pool ∈ t.globalStringPool, pool.Laid
  packages_laid : ∀ p ∈ t.packages.getD [], p.Laid
  /-- indices of strings are inside the pools -/
  refers : ∀ pool ∈ t.globalStringPool, ∀ p ∈ t.packages.getD [], p.Refers pool
  chunkPadding_eq : t.chunkPadding = 0
  chunkSize_eq : t.chunkSize.toInt = t.headSize.toInt +
    (t.globalStringPool.elim 0 fun pool => pool.chunkSize.toInt) +
    ((t.packages.getD []).map fun p => p.chunkSize.toInt).sum

instance (t : ResTable S) : Decidable t.Canonical := decidable_of_iff _ (canonical_iff t).symm

theorem Canonical.globalPool {t : ResTable S} (h : t.Canonical) :
    ∃ pool, t.globalStringPool = some pool ∧ pool.Laid := by
  obtain ⟨pool, hpool⟩ := isSome_iff_exists.mp h.globalPool_isSome
  exact ⟨pool, hpool, h.globalPool_laid pool hpool⟩

/-- All pools of the table can be read: no string of a UTF-16 pool has a length of two units. -/
def readable (t : ResTable S) : Bool :=
  t.globalStringPool.all ResStringBlock.readable && (t.packages.getD []).all ResPackage.readable

variable {t : ResTable S}

theorem length_flatMap_contents {packages : List (ResPackage S)} (h : ∀ p ∈ packages, p.Laid) :
    ((packages.flatMap ResPackage.contents).length : ℤ) =
      (packages.map fun p => p.chunkSize.toInt).sum :=
  length_flatMap_eq_sum fun p hp => ResPackage.length_contents (h p hp)

theorem length_contents (h : t.Canonical) : (t.contents.length : ℤ) = t.chunkSize.toInt := by
  obtain ⟨pool, hpool, hlaid⟩ := h.globalPool
  have hhead := h.headSize_eq
  have hsize := ResStringBlock.length_contents hlaid
  rw [h.chunkSize_eq, ← length_flatMap_contents h.packages_laid]
  simp only [contents, hpool, h.headPadding_eq, h.chunkPadding_eq, elim_some,
    length_append, length_putShort, length_putInt, length_zeros, Int.toNat_zero]
  omega

theorem toBytes_of_canonical (h : t.Canonical) : t.toBytes = some t.contents := by
  obtain ⟨pool, hpool, hlaid⟩ := h.globalPool
  have hsize := length_contents h
  have hpkgs : (t.packages.getD []).mapM ResPackage.toBytes =
      some ((t.packages.getD []).map ResPackage.contents) :=
    mapM_eq_some_map fun p hp => ResPackage.toBytes_of_laid (h.packages_laid p hp)
  rw [contents, hpool] at hsize ⊢
  rw [toBytes, hpool, hpkgs, mapM_some, ResStringBlock.toBytes_of_laid hlaid]
  exact allocate_eq hsize

variable [Text S] [DecidableEq S]

def reread (t : ResTable S) : ResTable S :=
  { t with
    globalStringPool := t.globalStringPool.map ResStringBlock.reread
    packages := if 0 < t.packageCount.toInt then
      some ((t.packages.getD []).map ResPackage.reread) else none }

/-- **Reading a table** returns `reread`, unless a pool cannot be read. -/
theorem readTable_of_canonical (h : t.Canonical) (hfile : Holds file 0 t.contents) :
    readTable file 0 = if t.readable then some (t.reread, t.contents.length) else none := by
  obtain ⟨pool, hpool, hlaid⟩ := h.globalPool
  have hhead := h.headSize_eq
  have hcnt := h.packageCount_eq
  have hconts := length_contents h
  have hsize := h.chunkSize_eq
  have hpackagesSize := length_flatMap_contents h.packages_laid
  have hpoolSize := ResStringBlock.length_contents hlaid
  simp only [hpool, elim_some] at hsize
  simp only [contents, hpool, h.headPadding_eq, elim_some, append_assoc, holds_append,
    length_putShort, length_putInt, length_zeros, Int.toNat_zero, Nat.add_zero] at hfile
  obtain ⟨hchunkType, hheadSize, hchunkSize, hpkgCnt, -, hpoolHeld, hpackagesHeld, -⟩ := hfile
  have hreadPool := ResStringBlock.readStringBlock_of_holds hlaid hpoolHeld
  rw [readTable, bind_of_eq (readShort_of_holds hchunkType), bind_of_eq (readShort_of_holds hheadSize),
    bind_of_eq (readInt_of_holds hchunkSize), bind_of_eq (readInt_of_holds hpkgCnt), bind_get,
    readable, hpool, all_some]
  cases hread : pool.readable with
  | false =>
    rw [hread] at hreadPool
    exact bind_of_none hreadPool
  | true =>
    rw [hread] at hreadPool
    -- the global pool is there, so a package is read unless its own pools cannot be read
    have hreadPackages : forEach (fun _ => readPackage file pool.reread)
        (range t.packageCount.toInt.toNat) (0 + 2 + 2 + 4 + 4 + pool.contents.length) =
        if (t.packages.getD []).all ResPackage.readable then
          some ((t.packages.getD []).map ResPackage.reread, t.contents.length) else none := by
      rw [hcnt, Int.toNat_natCast, forEach_const _ (t.packages.getD []) length_range,
        forEach_of_holds (b := ResPackage.contents)
        (fun p hp pos hheld => ResPackage.readPackage_of_holds hlaid hread
          (h.packages_laid p hp) (h.refers pool hpool p hp) hheld) hpackagesHeld]
      have hend : 0 + 2 + 2 + 4 + 4 + pool.contents.length +
          ((t.packages.getD []).flatMap ResPackage.contents).length = t.contents.length := by omega
      rw [hend]
    rw [bind_of_eq hreadPool]
    cases hall : (t.packages.getD []).all ResPackage.readable with
    | false =>
      rw [hall] at hreadPackages
      exact bind_of_none hreadPackages
    | true =>
      rw [hall] at hreadPackages
      have hheadPadding : t.headSize.toInt - ((0 + 2 + 2 + 4 + 4 : ℕ) : ℤ) = t.headPadding := by
        rw [h.headPadding_eq, hhead]
        rfl
      have hchunkPadding : t.chunkSize.toInt - (t.contents.length : ℤ) = t.chunkPadding := by
        rw [h.chunkPadding_eq]
        omega
      rw [bind_of_eq hreadPackages, bind_get, hheadPadding, hchunkPadding, reread, hpool]
      rfl

theorem readResourceTable_contents (h : t.Canonical) :
    readResourceTable t.contents = if t.readable then some t.reread else none := by
  rw [readResourceTable, readTable_of_canonical h (holds_self _)]
  split <;> rfl

theorem packages_reread (h : t.Canonical) :
    t.reread.packages.getD [] = (t.packages.getD []).map ResPackage.reread := by
  have hcnt := h.packageCount_eq
  simp only [reread]
  split_ifs with hpos
  · rw [getD_some]
  · rw [length_eq_zero_iff.mp (show (t.packages.getD []).length = 0 by omega)]
    rfl

theorem contents_reread (h : t.Canonical) : t.reread.contents = t.contents := by
  obtain ⟨pool, hpool, hlaid⟩ := h.globalPool
  have hpkgs : (t.reread.packages.getD []).flatMap ResPackage.contents =
      (t.packages.getD []).flatMap ResPackage.contents := by
    rw [packages_reread h, flatMap_map]
    exact flatMap_congr fun p hp => ResPackage.contents_reread (h.packages_laid p hp)
  rw [contents, contents, hpkgs]
  simp [reread, hpool, ResStringBlock.contents_reread hlaid]

theorem refers_reread {pool : ResStringBlock S} {p : ResPackage S} (hpool : pool.Laid) (hp : p.Laid)
    (href : p.Refers pool) : p.reread.Refers pool.reread := by
  obtain ⟨names, hnam, hlaid⟩ := hp.namePool
  intro names' hnam' chunk hchk e he
  have heq : names' = names.reread := by
    rw [ResPackage.reread, hnam] at hnam'
    exact (some.inj hnam').symm
  rw [ResPackage.resTypeArray_reread hnam] at hchk
  obtain ⟨chunk, hmem, rfl⟩ := mem_map.mp hchk
  have hmem' := (mem_filter.mp hmem).1
  have hlaids := ResPackage.laid_of_mem_written hp hmem
  cases chunk with
  | typeSpec s => cases he
  | resType t =>
    rw [ResChunk.reread, ResChunk.entries, ResType.entries_reread] at he
    obtain ⟨e, hent, rfl⟩ := mem_map.mp he
    rw [heq]
    exact ((href names hnam _ hmem' e hent).pools hpool hlaid).reread
      (hlaids.entries_laid e hent)

/-- **A table that was read is canonical.** -/
theorem Canonical.reread (h : t.Canonical) : t.reread.Canonical := by
  obtain ⟨pool, hpool, hlaid⟩ := h.globalPool
  have hpool' : t.reread.globalStringPool = some pool.reread := by
    rw [ResTable.reread, hpool]
    rfl
  refine
    { __ := h
      packageCount_eq := ?_
      globalPool_isSome := by rw [hpool']; rfl
      globalPool_laid := by rw [hpool']; exact fun _ hpool => some.inj hpool ▸ hlaid.reread
      packages_laid := ?_
      refers := ?_
      chunkSize_eq := ?_ }
  · rw [packages_reread h, length_map]
    exact h.packageCount_eq
  · rw [packages_reread h]
    exact forall_mem_map.mpr fun p hp => (h.packages_laid p hp).reread
  · intro other hoth
    rw [hpool'] at hoth
    rw [packages_reread h, ← some.inj hoth]
    exact forall_mem_map.mpr fun p hp =>
      refers_reread hlaid (h.packages_laid p hp) (h.refers pool hpool p hp)
  · have hsize := h.chunkSize_eq
    rw [hpool] at hsize
    rw [packages_reread h, List.map_map, hpool']
    exact hsize

/-- **Byte round trip**: a canonical table is serialized, and reading its bytes and serializing again
gives the same bytes, exactly if no string of a UTF-16 pool has a length of two units. -/
theorem roundTrip_iff_readable (t : ResTable S) (h : t.Canonical) :
    ∃ bytes, t.toBytes = some bytes ∧
      ((∃ t' : ResTable S, readResourceTable bytes = some t' ∧ t'.toBytes = some bytes) ↔
        t.readable = true) := by
  refine ⟨t.contents, toBytes_of_canonical h, ?_⟩
  rw [readResourceTable_contents h]
  constructor
  · rintro ⟨t', hread, -⟩
    by_contra hreada
    rw [if_neg hreada] at hread
    cases hread
  · intro hreada
    rw [if_pos hreada]
    refine ⟨t.reread, rfl, ?_⟩
    rw [toBytes_of_canonical h.reread, contents_reread h]

local instance : NeZero 128 := inferInstance

/-- A table with one package: a type with a value, a hole and an entry with two pairs. -/
def sampleTable : ResTable Ascii :=
  let pool := (ResStringBlock.ofStrings true [[97], [98, 99]] : ResStringBlock Ascii).refreshed
  let typePool := (ResStringBlock.ofStrings true [[100]] : ResStringBlock Ascii).refreshed
  let namePool := (ResStringBlock.ofStrings false [[101], [102]] : ResStringBlock Ascii).refreshed
  let simple : ResEntry Ascii := ⟨8, 0, 0, none, some ⟨8, 0, 3, 1⟩, 0, 0, none⟩
  let complex : ResEntry Ascii :=
    ⟨16, 1, 1, none, none, 0, 2, some [⟨7, ⟨8, 0, 3, 0⟩⟩, ⟨8, ⟨8, 0, 16, 5⟩⟩]⟩
  let spec : ResTypeSpec := ⟨16, 28, 0, 0, 1, 0, 0, 3, some (List.replicate 12 0)⟩
  let t : ResType Ascii :=
    ⟨28, 96, 0, 0, 1, 0, 0, 3, 40, ⟨8, some [1, 2, 3, 4]⟩, some [0, noEntryIndex, 16],
      some [some simple, none, some complex], ∅⟩
  let package : ResPackage Ascii :=
    ⟨512, 288, 496, 4, 0, 0x7f, List.replicate 256 0, 288, 0, 324, 0, some typePool, some namePool,
      some [.typeSpec spec, .resType t], none⟩
  ⟨2, 12, 556, 0, 0, 1, some pool, some [package]⟩

theorem roundTrip_iff_readable_sample :
    sampleTable.Canonical ∧ sampleTable.readable = true ∧
    ∃ bytes, sampleTable.toBytes = some bytes ∧
      ((∃ t' : ResTable Ascii, readResourceTable bytes = some t' ∧ t'.toBytes = some bytes) ↔
        sampleTable.readable = true) :=
  ⟨by decide +kernel, by decide +kernel, roundTrip_iff_readable sampleTable (by decide +kernel)⟩

/-- A string of as many units as need a second unit for their number. -/
def longString : Ascii := List.replicate 0x8000 97

theorem length_longString : longString.length = 0x8000 := length_replicate

/-- A table whose global pool has one such string, in UTF-16. -/
def longTable : ResTable Ascii where
  chunkType := 2
  headSize := 12
  chunkSize := 65584
  headPadding := 0
  chunkPadding := 0
  packageCount := 0
  globalStringPool := some (ResStringBlock.ofStrings false [longString]).refreshed
  packages := none

theorem unpadded_longString : (ResStringBlock.ofStrings false [longString]).unpadded = 65572 := by
  obtain ⟨head, heq, -, hhead⟩ := encodeStringPoolEntry_eq longString false
  have hlen : Text.length longString ≤ 0xffff := length_longString.le.trans (by decide)
  have henc : ((charset false).encode longString).length = 2 * longString.length :=
    Ascii.length_encode16 _
  rw [ResStringBlock.unpadded_ofStrings, map_singleton, flatten_singleton, heq,
    length_append, length_append, henc, hhead (.inr hlen), length_longString]
  rfl

theorem laid_longPool : (ResStringBlock.ofStrings false [longString]).refreshed.Laid := by
  have h : (ResStringBlock.ofStrings false [longString]).Encodes [longString] := by
    refine ResStringBlock.encodes_ofStrings ?_
    rw [unpadded_longString]
    decide
  exact h.laid_refreshed

theorem canonical_longTable : longTable.Canonical where
  headSize_eq := by decide
  headPadding_eq := rfl
  packageCount_eq := by decide
  globalPool_isSome := rfl
  globalPool_laid := by
    intro pool hpool
    cases hpool
    exact laid_longPool
  packages_laid := fun p hp => absurd hp not_mem_nil
  refers := fun pool _ p hp => absurd hp not_mem_nil
  chunkPadding_eq := rfl
  chunkSize_eq := by
    have hsize : (longTable.globalStringPool.elim 0 fun pool => pool.chunkSize.toInt) = 65572 := by
      rw [longTable, elim_some, ResStringBlock.refreshed, unpadded_longString]
      decide
    rw [hsize]
    decide

/-- The string is written, but reading it back ends in an exception. -/
theorem longTable_not_read :
    longTable.Canonical ∧ ∃ bytes, longTable.toBytes = some bytes ∧
      (readResourceTable bytes : Option (ResTable Ascii)) = none := by
  have hread : longTable.readable = false := by
    have hlong : longForm (encodeStringPoolEntry longString false) = true := by
      rw [longForm_encode]
      exact decide_eq_true length_longString.ge
    simp only [readable, longTable, all_some, ResStringBlock.readable,
      ResStringBlock.refreshed]
    simp [ResStringBlock.ofStrings, ResStringBlock.utf8, hlong]
  refine ⟨canonical_longTable, _, toBytes_of_canonical canonical_longTable, ?_⟩
  rw [readResourceTable_contents canonical_longTable, hread]
  rfl

end ResTable

end TraceHarbor.Arsc
