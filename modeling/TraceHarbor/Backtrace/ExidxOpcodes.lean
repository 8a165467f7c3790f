import TraceHarbor.Backtrace.EhabiSemantics
import TraceHarbor.Backtrace.ExidxDecoder

/-!
# The Decoder Follows the Opcode Table

`ExidxDecoder::Decode` takes the opcodes apart by nested switches over the bits of a byte. Here it is
shown to read the opcodes that the opcode table gives, and to do for each what `compile` says.
-/

namespace TraceHarbor.Backtrace

open Lib List Option

/-! ## What the decoder does for an opcode -/

/-- The context takes note of a movement or of a load. -/
def Micro.note (c : ExidxContext) : Micro → ExidxContext
  | .move n => c.addUpVSP n
  | .load r => c.transform r

namespace ExidxDecoder

def noteAll (d : ExidxDecoder) (block : List Micro) : ExidxDecoder :=
  { d with context := block.foldl Micro.note d.context }

/-- What `Decode` does for an opcode of the table. -/
def compile (d : ExidxDecoder) : EhabiOp → Result
  | .vspAdd n => some (true, d.noteAll (EhabiOp.vspAdd n).micros)
  | .pop regs =>
    let d := d.noteAll (EhabiOp.pop regs).micros
    if 13 ∈ regs then (d.saveInstructions .nop).map (true, ·) else some (true, d)
  | .setVsp n =>
    if n = 7 then d.setVsp .vspSetByR7
    else if n = 11 then d.setVsp .vspSetByR11
    else some (false, d)
  | .finish => d.fail .finish

/-- A result of `Decode` fits what the table says about the bytes: `compile` for an opcode, and
otherwise the end of the decoding without the status of a `finish`. -/
def Reads (d : ExidxDecoder) (read : Option (EhabiOp × List ℕ)) (result : Result) : Prop :=
  match read with
  | some (op, rest) => result = { d with data := rest }.compile op
  | none =>
    ∃ d', result = some (false, d') ∧ d'.context = d.context ∧
      (d'.status = .finish → d.status = .finish)

section Reads

variable {d : ExidxDecoder}

theorem reads_fail {status : ArmStatus} (h : status ≠ .finish) (data : List ℕ) :
    d.Reads none ({ d with data := data }.fail status) :=
  ⟨_, rfl, rfl, fun hfin => absurd hfin h⟩

theorem reads_stop (data : List ℕ) : d.Reads none (some (false, { d with data := data })) :=
  ⟨_, rfl, rfl, id⟩

theorem reads_withByte {rest : List ℕ} {read : ℕ → Option EhabiOp} {k : ℕ → ExidxDecoder → Result}
    (h : ∀ b rest, b < 256 → d.Reads ((read b).map (·, rest)) (k b { d with data := rest }))
    (hrest : ∀ b ∈ rest, b < 256) :
    d.Reads (withOperand rest read) ({ d with data := rest }.withByte k) := by
  cases rest with
  | nil => exact reads_stop []
  | cons b rest => exact h b rest (hrest b mem_cons_self)

theorem reads_addUp {n : ℤ} {imm : Word .arm32} (h : imm = BitVec.ofInt _ n) (rest : List ℕ) :
    d.Reads (some (.vspAdd n, rest)) ({ d with data := rest }.addUp imm) := by
  subst h
  rfl

theorem reads_addUp_ofNat {n : ℤ} {k : ℕ} (h : (k : ℤ) = n) (rest : List ℕ) :
    d.Reads (some (.vspAdd n, rest)) ({ d with data := rest }.addUp (BitVec.ofNat _ k)) :=
  reads_addUp (by rw [← h, BitVec.ofInt_natCast]) rest

/-! ### Pops -/

theorem pop_eq_note {reg : ℕ} (hreg : 4 ≤ reg ∧ reg ≤ 12) (c : ExidxContext) :
    c.pop reg = (Micro.ofPop reg).foldl Micro.note c := by
  obtain ⟨hlow, hhigh⟩ := hreg
  interval_cases reg <;> rfl

theorem foldl_note_pop (regs : List ℕ) (c : ExidxContext) :
    (EhabiOp.pop regs).micros.foldl Micro.note c =
      regs.foldl (fun c n => (Micro.ofPop n).foldl Micro.note c) c :=
  foldl_flatMap

def noteBit (first mask : ℕ) (c : ExidxContext) (i : ℕ) : ExidxContext :=
  if mask.testBit i then (Micro.ofPop (first + i)).foldl Micro.note c else c

theorem foldl_note_underMask (first width mask : ℕ) (c : ExidxContext) :
    (EhabiOp.pop (underMask first width mask)).micros.foldl Micro.note c =
      (range width).foldl (noteBit first mask) c := by
  rw [foldl_note_pop, underMask, foldl_map, foldl_filter]
  rfl

theorem mem_underMask {first width mask n : ℕ} :
    n ∈ underMask first width mask ↔ ∃ i < width, mask.testBit i = true ∧ first + i = n := by
  simp [underMask, and_assoc]

theorem reads_popMask (mask : ℕ) (rest : List ℕ) :
    d.Reads (some (.pop (underMask 4 12 mask), rest))
      (let registers := mask * 16
      let c := (range' 4 9).foldl
        (fun c reg => if registers.testBit reg then c.pop reg else c) d.context
      let c := if registers.testBit 13 then (c.transform .sp).addUpVSP 4 else c
      let c := if registers.testBit 14 then (c.transform .lr).addUpVSP 4 else c
      let c := if registers.testBit 15 then (c.transform .pc).addUpVSP 4 else c
      let d := { d with data := rest, context := c }
      if registers.testBit 13 then (d.saveInstructions .nop).map (true, ·) else some (true, d)) := by
  have hbit : ∀ i, (mask * 16).testBit (4 + i) = mask.testBit i := by
    intro i
    have h := Nat.testBit_mul_two_pow mask (4 + i) 4
    rwa [Nat.add_sub_cancel_left, decide_eq_true (by omega)] at h
  have hsp : mask.testBit 9 = true ↔ 13 ∈ underMask 4 12 mask := by
    rw [mem_underMask]
    constructor
    · exact fun h => ⟨9, by omega, h, rfl⟩
    · rintro ⟨i, -, h, hi⟩
      rwa [show i = 9 by omega] at h
  -- the loop goes through the first nine bits
  have hloop : (range' 4 9).foldl
      (fun c reg => if (mask * 16).testBit reg then c.pop reg else c) d.context =
      (range 9).foldl (noteBit 4 mask) d.context := by
    rw [range'_eq_map_range, foldl_map]
    apply foldl_ext
    intro c i hi
    have hi : i < 9 := mem_range.mp hi
    rw [hbit, pop_eq_note (by omega)]
    rfl
  have hnote : (EhabiOp.pop (underMask 4 12 mask)).micros.foldl Micro.note d.context =
      [9, 10, 11].foldl (noteBit 4 mask) ((range 9).foldl (noteBit 4 mask) d.context) := by
    rw [foldl_note_underMask]
    rfl
  simp only [Reads, compile, noteAll, hnote, hloop, hbit 9, hbit 10, hbit 11, ← hsp]
  rfl

theorem foldl_pop_range' {n : ℕ} (hn : n < 9) (c : ExidxContext) :
    (range' 4 (n + 1)).foldl ExidxContext.pop c =
      (EhabiOp.pop (range' 4 (n + 1))).micros.foldl Micro.note c := by
  rw [foldl_note_pop]
  apply foldl_ext
  intro c reg hreg
  rw [mem_range'_1] at hreg
  exact pop_eq_note (by omega) c

theorem reads_popRange {n : ℕ} (hn : n < 8) (lr : Prop) [Decidable lr] (rest : List ℕ) :
    d.Reads (some (.pop (range' 4 (n + 1) ++ if lr then [14] else []), rest))
      (some (true, { d with
        data := rest
        context :=
          let c := (range' 4 (n + 1)).foldl ExidxContext.pop d.context
          if lr then (c.transform .lr).addUpVSP 4 else c })) := by
  have hsp : 13 ∉ range' 4 (n + 1) ++ if lr then [14] else [] := by
    split <;> simp <;> omega
  have hnote : (EhabiOp.pop (range' 4 (n + 1) ++ if lr then [14] else [])).micros.foldl
      Micro.note d.context =
      if lr then (((range' 4 (n + 1)).foldl ExidxContext.pop d.context).transform .lr).addUpVSP 4
      else (range' 4 (n + 1)).foldl ExidxContext.pop d.context := by
    rw [foldl_pop_range' (by omega), foldl_note_pop, foldl_note_pop, foldl_append]
    split <;> rfl
  simp only [Reads, compile, noteAll, hnote, if_neg hsp]

theorem reads_popLow (mask : ℕ) (rest : List ℕ) :
    d.Reads (some (.pop (underMask 0 4 mask), rest))
      (some (true, { d with
        data := rest
        context := (range 4).foldl
          (fun c reg => if mask.testBit reg then c.addUpVSP 4 else c) d.context })) := by
  have hsp : 13 ∉ underMask 0 4 mask := by
    rw [mem_underMask]
    rintro ⟨i, hi, -, h⟩
    omega
  have hnote : (range 4).foldl
      (fun c reg => if mask.testBit reg then c.addUpVSP 4 else c) d.context =
      (range 4).foldl (noteBit 0 mask) d.context := rfl
  simp only [Reads, compile, noteAll, hnote, foldl_note_underMask, if_neg hsp]

/-! ### ULEB128 -/

theorem ofNat_add_mul_two_pow {w k low : ℕ} (hlow : low < 2 ^ k) (n : ℕ) :
    BitVec.ofNat w (low + 2 ^ k * n) = BitVec.ofNat w low ||| BitVec.ofNat w n <<< k := by
  apply BitVec.eq_of_getLsbD_eq
  intro i hi
  rw [BitVec.getLsbD_or, BitVec.getLsbD_shiftLeft, BitVec.getLsbD_ofNat, BitVec.getLsbD_ofNat,
    BitVec.getLsbD_ofNat, Nat.add_comm, Nat.testBit_two_pow_mul_add n hlow]
  rcases Nat.lt_or_ge i k with hik | hik
  · simp [hi, hik]
  · have hzero : low.testBit i = false :=
      Nat.testBit_lt_two_pow (hlow.trans_le (Nat.pow_le_pow_right (by decide) hik))
    have hin : i - k < w := by omega
    simp [hi, hin, hzero, Nat.not_lt.mpr hik]

theorem uleb128_eq (data : List ℕ) (hdata : ∀ b ∈ data, b < 256) (result : Word .arm32)
    (shift : ℕ) :
    uleb128 result shift data =
      (ulebNumber data).map fun (n, rest) => (result ||| BitVec.ofNat _ n <<< shift, rest) := by
  induction data generalizing result shift with
  | nil => rfl
  | cons b data ih =>
    have hb := hdata b mem_cons_self
    rw [uleb128, ulebNumber]
    by_cases hlast : b < 128
    · rw [if_neg (by omega), if_pos hlast, Nat.mod_eq_of_lt hlast]
      rfl
    · rw [if_pos (by omega), if_neg hlast,
        ih (fun b hb => hdata b (mem_cons_of_mem _ hb)), Option.map_map]
      congr 1
      funext ⟨n, rest⟩
      -- a group and the groups above it have no bit in common
      have hgroup : BitVec.ofNat (8 * Arch.arm32.wordBytes) (b - 128 + 128 * n) =
          BitVec.ofNat _ (b % 128) ||| BitVec.ofNat _ n <<< 7 := by
        rw [show b - 128 = b % 128 by omega]
        exact ofNat_add_mul_two_pow (k := 7) (Nat.mod_lt b (by decide)) n
      simp [hgroup, BitVec.shiftLeft_or_distrib, BitVec.or_assoc, Nat.add_comm shift 7,
        BitVec.shiftLeft_add]

end Reads

/-! ## One call -/

section Decode

variable {d : ExidxDecoder} {b : ℕ} {rest : List ℕ}

theorem withByte_cons (h : d.data = b :: rest) (k : ℕ → ExidxDecoder → Result) :
    d.withByte k = k b { d with data := rest } := by
  simp only [withByte, h]

theorem decode_cons (h : d.data = b :: rest) :
    d.decode = match b / 64 with
      | 0 => { d with data := rest }.addUp (BitVec.ofNat _ (b % 64 * 4 + 4))
      | 1 => { d with data := rest }.addUp (-BitVec.ofNat _ (b % 64 * 4 + 4))
      | 2 => { d with data := rest }.decodePrefix_10 b
      | _ => { d with data := rest }.decodePrefix_11 b :=
  withByte_cons h _

theorem decodePrefix_10_11_0010_reads (hrest : ∀ b ∈ rest, b < 256) :
    d.Reads ((ulebNumber rest).map fun (n, rest) => (.vspAdd (0x204 + 4 * n), rest))
      { d with data := rest }.decodePrefix_10_11_0010 := by
  simp only [decodePrefix_10_11_0010, uleb128_eq rest hrest]
  cases ulebNumber rest with
  | none => exact reads_stop []
  | some read =>
    refine reads_addUp ?_ read.2
    have hshift : ∀ v : Word .arm32, v <<< 2 = 4 * v := by
      intro v
      rw [BitVec.shiftLeft_eq_mul_twoPow, BitVec.mul_comm]
      rfl
    have hnum : BitVec.ofInt (8 * Arch.arm32.wordBytes) (0x204 + 4 * read.1) =
        BitVec.ofNat _ (0x204 + 4 * read.1) := by
      rfl
    rw [hnum, BitVec.ofNat_add, BitVec.ofNat_mul, hshift, BitVec.shiftLeft_zero]
    exact congrArg (fun v => BitVec.ofNat _ 0x204 + 4 * v) BitVec.zero_or

theorem decodePrefix_10_11_reads (h : 0xb0 ≤ b ∧ b < 0xc0) (hrest : ∀ b ∈ rest, b < 256) :
    d.Reads (ehabiRead (b :: rest)) ({ d with data := rest }.decodePrefix_10 b) := by
  rw [decodePrefix_10, show b / 16 % 4 = 3 by omega]
  rcases (by omega : b = 0xb0 ∨ b = 0xb1 ∨ b = 0xb2 ∨ b = 0xb3 ∨ 0xb4 ≤ b ∧ b < 0xb8 ∨ 0xb8 ≤ b)
    with rfl | rfl | rfl | rfl | hb | hb
  · rfl
  · apply reads_withByte _ hrest
    intro mask rest _
    by_cases hmask : 0 < mask ∧ mask < 16
    · rw [if_pos hmask, if_neg (by omega), if_neg (by omega)]
      exact reads_popLow mask rest
    · rw [if_neg hmask]
      split
      · exact reads_fail (by decide) rest
      · rw [if_pos (by omega)]
        exact reads_fail (by decide) rest
  · exact decodePrefix_10_11_0010_reads hrest
  · apply reads_withByte _ hrest
    intro c rest _
    exact reads_addUp_ofNat (by push_cast; ring) rest
  -- the default of the inner switch
  · obtain ⟨k, hk⟩ : ∃ k, b % 16 = k + 4 := ⟨b % 16 - 4, by omega⟩
    have hread : ehabiRead (b :: rest) = none := by
      rw [ehabiRead]
      repeat rw [if_neg (by omega)]
      rw [if_pos (by omega)]
    simp only [hk, hread, if_neg (show ¬ b / 8 % 2 = 1 by omega)]
    exact reads_fail (by decide) rest
  · obtain ⟨k, hk⟩ : ∃ k, b % 16 = k + 4 := ⟨b % 16 - 4, by omega⟩
    have hread : ehabiRead (b :: rest) = some (.vspAdd (8 * (b - 0xb8) + 12), rest) := by
      rw [ehabiRead]
      repeat rw [if_neg (by omega)]
      rw [if_pos (by omega)]
    simp only [hk, hread, if_pos (show b / 8 % 2 = 1 by omega)]
    exact reads_addUp_ofNat (by omega) rest

theorem decodePrefix_11_reads (h : 0xc0 ≤ b ∧ b < 256) (hrest : ∀ b ∈ rest, b < 256) :
    d.Reads (ehabiRead (b :: rest)) ({ d with data := rest }.decodePrefix_11 b) := by
  rw [ehabiRead]
  repeat rw [if_neg (by omega)]
  rw [decodePrefix_11]
  rcases (by omega : b < 0xc8 ∨ 0xc8 ≤ b ∧ b < 0xd0 ∨ 0xd0 ≤ b ∧ b < 0xd8 ∨ 0xd8 ≤ b) with
    hb | hb | hb | hb
  · rw [show b / 8 % 8 = 0 by omega]
    simp only [decodePrefix_11_000]
    rcases (by omega : b < 0xc6 ∨ b = 0xc6 ∨ b = 0xc7) with hb | rfl | rfl
    · rw [if_pos hb, if_neg (by omega), if_neg (by omega)]
      exact reads_addUp_ofNat (by omega) rest
    · rw [if_pos (show 0xc6 % 8 = 6 from rfl)]
      apply reads_withByte _ hrest
      intro c rest _
      exact reads_addUp_ofNat (by omega) rest
    · rw [if_neg (by omega), if_neg (by omega), if_pos rfl, if_neg (by omega),
        if_pos (show 0xc7 % 8 = 7 from rfl)]
      apply reads_withByte _ hrest
      intro mask rest _
      by_cases hmask : 0 < mask ∧ mask < 16
      · rw [if_pos hmask, if_neg (by omega), if_pos (by omega)]
        refine reads_addUp_ofNat ?_ rest
        obtain ⟨hpos, hlt⟩ := hmask
        interval_cases mask <;> rfl
      · rw [if_neg hmask]
        split
        · exact reads_fail (by decide) rest
        · rw [if_neg (by omega)]
          exact reads_fail (by decide) rest
  · rw [show b / 8 % 8 = 1 by omega]
    simp only [decodePrefix_11_001]
    rw [if_neg (by omega), if_neg (by omega), if_neg (by omega)]
    by_cases hbits : b < 0xca
    · rw [if_pos hbits, if_pos (by omega)]
      apply reads_withByte _ hrest
      intro c rest _
      exact reads_addUp_ofNat (by omega) rest
    · rw [if_neg hbits, if_pos hb.2, if_neg (by omega)]
      exact reads_fail (by decide) rest
  · rw [show b / 8 % 8 = 2 by omega]
    repeat rw [if_neg (by omega)]
    rw [if_pos hb.2]
    exact reads_addUp_ofNat (by omega) rest
  · obtain ⟨k, hk⟩ : ∃ k, b / 8 % 8 = k + 3 := ⟨b / 8 % 8 - 3, by omega⟩
    repeat rw [if_neg (by omega)]
    simp only [hk]
    exact reads_stop rest

theorem decodePrefix_10_reads (h : 0x80 ≤ b ∧ b < 0xc0) (hrest : ∀ b ∈ rest, b < 256) :
    d.Reads (ehabiRead (b :: rest)) ({ d with data := rest }.decodePrefix_10 b) := by
  by_cases hhigh : 0xb0 ≤ b
  · exact decodePrefix_10_11_reads ⟨hhigh, h.2⟩ hrest
  rw [ehabiRead, if_neg (show ¬ b < 0x40 by omega), if_neg (show ¬ b < 0x80 by omega),
    decodePrefix_10]
  rcases (by omega : b < 0x90 ∨ 0x90 ≤ b ∧ b < 0xa0 ∨ 0xa0 ≤ b ∧ b < 0xb0) with hb | hb | hb
  · rw [if_pos hb, show b / 16 % 4 = 0 by omega]
    simp only [decodePrefix_10_00]
    apply reads_withByte _ hrest
    intro low rest _
    rw [show b % 16 = b - 0x80 by omega]
    split
    · exact reads_stop rest
    · exact reads_popMask _ rest
  · rw [if_neg (by omega), if_pos hb.2, show b / 16 % 4 = 1 by omega]
    simp only [decodePrefix_10_01]
    split <;> rename_i hbits
    · rw [if_pos (by omega)]
      exact reads_fail (by decide) rest
    · rw [if_neg (by omega), show b % 16 = b - 0x90 by omega]
      rfl
  · rw [if_neg (by omega), if_neg (by omega), show b / 16 % 4 = 2 by omega]
    simp only [decodePrefix_10_10]
    have h := reads_popRange (d := d) (n := b % 8) (by omega) (b / 8 % 2 = 1) rest
    by_cases hlr : b < 0xa8
    · rw [if_neg (by omega), append_nil, show b % 8 = b - 0xa0 by omega] at h
      rw [if_pos hlr, show b % 8 = b - 0xa0 by omega]
      exact h
    · rw [if_pos (by omega), show b % 8 = b - 0xa8 by omega] at h
      rw [if_neg hlr, if_pos (by omega), show b % 8 = b - 0xa8 by omega]
      exact h

end Decode

/-- **One call**: on any bytes, `Decode` does what the opcode table asks for. -/
theorem decode_reads (d : ExidxDecoder) (hdata : ∀ b ∈ d.data, b < 256) :
    d.Reads (ehabiRead d.data) d.decode := by
  cases hd : d.data with
  | nil =>
    rw [decode, withByte, hd]
    exact ⟨d, rfl, rfl, id⟩
  | cons b rest =>
    rw [hd] at hdata
    have hb := hdata b mem_cons_self
    have hrest : ∀ b ∈ rest, b < 256 := fun b hb => hdata b (mem_cons_of_mem _ hb)
    rw [decode_cons hd]
    rcases (by omega : b < 0x40 ∨ 0x40 ≤ b ∧ b < 0x80 ∨ 0x80 ≤ b ∧ b < 0xc0 ∨ 0xc0 ≤ b) with
      hb' | hb' | hb' | hb'
    · rw [show b / 64 = 0 by omega, ehabiRead, if_pos hb']
      exact reads_addUp_ofNat (by omega) rest
    · rw [show b / 64 = 1 by omega, ehabiRead, if_neg (by omega), if_pos hb'.2]
      refine reads_addUp ?_ rest
      rw [BitVec.ofInt_neg, ← BitVec.ofInt_natCast]
      congr 2
      omega
    · rw [show b / 64 = 2 by omega]
      exact decodePrefix_10_reads hb' hrest
    · rw [show b / 64 = 3 by omega]
      exact decodePrefix_11_reads ⟨hb', hb⟩ hrest

/-! ## All calls -/

section Rest

variable {op : EhabiOp} {rest tail : List ℕ}

theorem ulebNumber_suffix {n : ℕ} (h : ulebNumber tail = some (n, rest)) : rest <:+ tail := by
  induction tail generalizing n with
  | nil => cases h
  | cons b tail ih =>
    rw [ulebNumber] at h
    split at h
    · cases h
      exact suffix_cons b rest
    · obtain ⟨⟨k, rest'⟩, hk, heq⟩ := map_eq_some_iff.mp h
      cases heq
      exact (ih hk).trans (suffix_cons b tail)

/-- Movements of `vsp` are by whole words. -/
def Aligned : EhabiOp → Prop
  | .vspAdd n => 4 ∣ n
  | _ => True

/-- What the table says about bytes behind the first one: the rest is one of them, and `vsp` moves by
whole words. -/
def WellRead (tail : List ℕ) (read : Option (EhabiOp × List ℕ)) : Prop :=
  ∀ op rest, read = some (op, rest) → rest <:+ tail ∧ Aligned op

theorem wellRead_none : WellRead tail none := nofun

theorem wellRead_some (h : Aligned op) : WellRead tail (some (op, tail)) := by
  rintro _ _ ⟨⟩
  exact ⟨suffix_refl tail, h⟩

theorem wellRead_withOperand {k : ℕ → Option EhabiOp} (h : ∀ b, ∀ op ∈ k b, Aligned op) :
    WellRead tail (withOperand tail k) := by
  intro op rest hread
  cases tail with
  | nil => cases hread
  | cons b tail =>
    obtain ⟨op, hop, heq⟩ := map_eq_some_iff.mp hread
    cases heq
    exact ⟨suffix_cons b _, h b op hop⟩

theorem wellRead_uleb {f : ℕ → EhabiOp} (h : ∀ n, Aligned (f n)) :
    WellRead tail ((ulebNumber tail).map fun (n, rest) => (f n, rest)) := by
  intro op rest hread
  obtain ⟨⟨n, rest⟩, hn, heq⟩ := map_eq_some_iff.mp hread
  cases heq
  exact ⟨ulebNumber_suffix hn, h n⟩

theorem wellRead_ite {p : Prop} [Decidable p] {read read' : Option (EhabiOp × List ℕ)}
    (h : WellRead tail read) (h' : WellRead tail read') :
    WellRead tail (if p then read else read') := by
  split
  · exact h
  · exact h'

theorem wellRead_ehabiRead (b : ℕ) (tail : List ℕ) : WellRead tail (ehabiRead (b :: tail)) := by
  have hword : ∀ n : ℤ, 4 ∣ n → Aligned (.vspAdd n) := fun _ h => h
  repeat'
    first
      | exact wellRead_none
      | exact wellRead_some trivial
      | exact wellRead_some (hword _ (by omega))
      | exact wellRead_withOperand (by rintro c _ ⟨⟩; exact hword _ (by omega))
      | exact wellRead_uleb fun n => hword (0x204 + 4 * n) (by omega)
      | apply wellRead_ite
  -- the opcodes with a mask
  all_goals
    refine wellRead_withOperand fun c op hop => ?_
    simp only [mem_def] at hop
    split at hop
  · cases hop
  · cases hop
    trivial
  · cases hop
    trivial
  · cases hop
  · cases hop
    exact hword _ (by omega)
  · cases hop

theorem ehabiRead_shorter {data : List ℕ} (h : ehabiRead data = some (op, rest)) :
    rest <:+ data ∧ rest.length < data.length ∧ Aligned op := by
  cases data with
  | nil => cases h
  | cons b tail =>
    obtain ⟨hrest, hop⟩ := wellRead_ehabiRead b tail op rest h
    exact ⟨hrest.trans (suffix_cons b tail), Nat.lt_succ_of_le hrest.length_le, hop⟩

end Rest

section Compile

variable {d d' : ExidxDecoder}

variable {instruction : QutOp}

theorem eq_of_saveInstructions
    (h : d.saveInstructions instruction = some d') :
    d' = { d with
      context := .reset
      instructions := d.instructions ++ (d.context.flushed ++
        if instruction = .vspSetByR7 ∨ instruction = .vspSetByR11 then [instrWord instruction 0]
        else []) } := by
  obtain ⟨d₁, hflush, rfl⟩ := map_eq_some_iff.mp h
  rw [flushInstructions] at hflush
  split at hflush
  · cases hflush
    split
    · rw [append_assoc]
    · rw [append_nil]
  · cases hflush

theorem saveInstructions_keeps
    (h : d.saveInstructions instruction = some d') : d'.data = d.data ∧ d'.status = d.status := by
  rw [eq_of_saveInstructions h]
  exact ⟨rfl, rfl⟩

theorem setVsp_keeps {goes : Bool}
    (h : d.setVsp instruction = some (goes, d')) :
    goes = true ∧ d'.data = d.data ∧ d'.status = d.status := by
  obtain ⟨d₁, hsave, heq⟩ := map_eq_some_iff.mp h
  cases heq
  obtain ⟨hdata, hstat⟩ := saveInstructions_keeps hsave
  rw [hdata, hstat]
  split <;> exact ⟨rfl, rfl, rfl⟩

/-- What `compile` can do: go on with the next opcode, or stop, with the status of a `finish` only
at a `finish`. -/
theorem compile_cases {op : EhabiOp} {goes : Bool} (h : d.compile op = some (goes, d')) :
    (goes = true ∧ op ≠ .finish ∧ d'.data = d.data ∧ d'.status = d.status) ∨
      (goes = false ∧ op = .finish ∧ d' = { d with status := .finish }) ∨
      (goes = false ∧ op ≠ .finish ∧ d' = d) := by
  cases op with
  | vspAdd n =>
    cases h
    exact .inl ⟨rfl, nofun, rfl, rfl⟩
  | pop regs =>
    simp only [compile] at h
    split at h
    · obtain ⟨d₁, hsave, heq⟩ := map_eq_some_iff.mp h
      cases heq
      obtain ⟨hdata, hstat⟩ := saveInstructions_keeps hsave
      exact .inl ⟨rfl, nofun, hdata, hstat⟩
    · cases h
      exact .inl ⟨rfl, nofun, rfl, rfl⟩
  | setVsp n =>
    simp only [compile] at h
    split at h
    · obtain ⟨hgoes, hkeeps⟩ := setVsp_keeps h
      exact .inl ⟨hgoes, nofun, hkeeps⟩
    · split at h
      · obtain ⟨hgoes, hkeeps⟩ := setVsp_keeps h
        exact .inl ⟨hgoes, nofun, hkeeps⟩
      · cases h
        exact .inr (.inr ⟨rfl, nofun, rfl⟩)
  | finish =>
    cases h
    exact .inr (.inl ⟨rfl, rfl, rfl⟩)

end Compile

/-- The decoder compiles some opcodes one after another. -/
inductive Compiles : List EhabiOp → ExidxDecoder → ExidxDecoder → Prop
  | nil (d : ExidxDecoder) : Compiles [] d d
  | cons {op : EhabiOp} {ops : List EhabiOp} {d d₁ d₂ : ExidxDecoder} {rest : List ℕ}
      (hop : { d with data := rest }.compile op = some (true, d₁)) (hops : Compiles ops d₁ d₂) :
      Compiles (op :: ops) d d₂

theorem loop_compiles {n : ℕ} {d d' : ExidxDecoder} (hn : d.data.length ≤ n)
    (hdata : ∀ b ∈ d.data, b < 256) (hstat : d.status ≠ .finish)
    (hloop : loop decodeRound (n + 1) d = some (some d')) (hfin : d'.status = .finish) :
    ∃ ops d₁, ehabiOpsFuel n d.data = some ops ∧ Compiles ops d d₁ ∧ d'.context = d₁.context ∧
      d'.instructions = d₁.instructions := by
  induction n generalizing d with
  | zero =>
    -- no byte is left
    have hnil : d.data = [] := eq_nil_of_length_eq_zero (Nat.le_zero.mp hn)
    have hround : decodeRound d = .inr (some d) := by
      rw [decodeRound, decode, withByte, hnil]
    rw [loop_succ_of_inr _ hround] at hloop
    cases hloop
    exact absurd hfin hstat
  | succ n ih =>
    have hreads := decode_reads d hdata
    cases hread : ehabiRead d.data with
    | none =>
      rw [hread] at hreads
      obtain ⟨d₁, hd₁, -, hkeeps⟩ := hreads
      have hround : decodeRound d = .inr (some d₁) := by rw [decodeRound, hd₁]
      rw [loop_succ_of_inr _ hround] at hloop
      cases hloop
      exact absurd (hkeeps hfin) hstat
    | some read =>
      obtain ⟨op, rest⟩ := read
      rw [hread] at hreads
      obtain ⟨hsuff, hshor, -⟩ := ehabiRead_shorter hread
      cases hcomp : { d with data := rest }.compile op with
      | none =>
        have hround : decodeRound d = .inr none := by rw [decodeRound, hreads, hcomp]
        rw [loop_succ_of_inr _ hround] at hloop
        cases hloop
      | some result =>
        obtain ⟨goes, d₁⟩ := result
        rcases compile_cases hcomp with ⟨rfl, hop, hrest, hkept⟩ | ⟨rfl, rfl, rfl⟩ |
          ⟨rfl, hop, rfl⟩
        · have hround : decodeRound d = .inl d₁ := by rw [decodeRound, hreads, hcomp]
          rw [loop_succ_of_inl _ hround] at hloop
          obtain ⟨ops, d₂, hops, hcompi, hend⟩ := ih (by simp only [hrest]; omega)
            (fun b hb => hdata b (hsuff.subset (by rwa [hrest] at hb))) (hkept ▸ hstat) hloop
          refine ⟨op :: ops, d₂, ?_, .cons hcomp hcompi, hend⟩
          rw [hrest] at hops
          simp only [ehabiOpsFuel, hread]
          rw [hops]
          cases op with
          | finish => exact absurd rfl hop
          | _ => rfl
        · have hround : decodeRound d = .inr (some { d with data := rest, status := .finish }) := by
            rw [decodeRound, hreads, hcomp]
          rw [loop_succ_of_inr _ hround] at hloop
          cases hloop
          exact ⟨[], d, by rw [ehabiOpsFuel, hread], .nil d, rfl, rfl⟩
        · have hround : decodeRound d = .inr (some { d with data := rest }) := by
            rw [decodeRound, hreads, hcomp]
          rw [loop_succ_of_inr _ hround] at hloop
          cases hloop
          exact absurd hfin hstat

/-- **`Eval` compiles the opcodes**: when it ends at a `finish`, its instructions are those of the
opcodes in front of it and of a last flush. -/
theorem eval_compiles {data : List ℕ} (hdata : ∀ b ∈ data, b < 256) {d' : ExidxDecoder}
    (heval : (ofData data).eval = some (true, d')) :
    ∃ ops d₁, ehabiOps data = some ops ∧ Compiles ops (ofData data) d₁ ∧
      d'.instructions = d₁.instructions ++ d₁.context.flushed := by
  obtain ⟨d₂, hloop, hrest⟩ := bind_eq_some_iff.mp heval
  obtain ⟨d₃, hsave, hend⟩ := bind_eq_some_iff.mp hrest
  obtain ⟨hfin, rfl⟩ : d₃.status = .finish ∧ d₃ = d' := by
    simpa using hend
  rw [(saveInstructions_keeps hsave).2] at hfin
  obtain ⟨ops, d₁, hops, hcomp, hctx, hins⟩ :=
    loop_compiles (le_refl _) hdata (by decide : ArmStatus.none ≠ .finish)
    (join_eq_some_iff.mp hloop) hfin
  refine ⟨ops, d₁, hops, hcomp, ?_⟩
  rw [eq_of_saveInstructions hsave, if_neg (by decide), append_nil, hctx, hins]

/-! ## No check fails -/

structure WholeWords (c : ExidxContext) : Prop where
  vsp : c.vsp.toNat % 4 = 0
  regs : ∀ r, (c.regs r).toNat % 4 = 0

section WholeWords

variable {c : ExidxContext} {d d' : ExidxDecoder}

theorem wholeWords_reset : WholeWords .reset := ⟨rfl, fun _ => rfl⟩

theorem toNat_add_mod_four {v imm : Word .arm32} (hv : v.toNat % 4 = 0) (himm : imm.toNat % 4 = 0) :
    (v + imm).toNat % 4 = 0 := by
  have hadd : (v + imm).toNat = (v.toNat + imm.toNat) % 2 ^ 32 := BitVec.toNat_add v imm
  omega

theorem WholeWords.addUpVSP (h : WholeWords c) {imm : Word .arm32} (himm : imm.toNat % 4 = 0) :
    WholeWords (c.addUpVSP imm) where
  vsp := toNat_add_mod_four h.vsp himm
  regs r := by
    simp only [ExidxContext.addUpVSP]
    split
    · exact toNat_add_mod_four (h.regs r) himm
    · exact h.regs r

theorem WholeWords.transform (h : WholeWords c) (r : Reg) : WholeWords (c.transform r) where
  vsp := h.vsp
  regs s := by
    by_cases hs : s = r
    · subst hs
      simp [ExidxContext.transform]
    · simpa [ExidxContext.transform, hs] using h.regs s

theorem WholeWords.checked (h : WholeWords c) : c.checked = true := by
  simp [ExidxContext.checked, h.vsp, h.regs]

theorem WholeWords.note (h : WholeWords c) {op : EhabiOp} (hop : Aligned op) :
    WholeWords (op.micros.foldl Micro.note c) := by
  have hfour : (4 : Word .arm32).toNat % 4 = 0 := rfl
  cases op with
  | vspAdd n =>
    refine h.addUpVSP ?_
    obtain ⟨k, rfl⟩ := hop
    have hofInt : (BitVec.ofInt (8 * Arch.arm32.wordBytes) (4 * k)).toNat =
        (4 * k % (2 ^ 32 : ℕ)).toNat := BitVec.toNat_ofInt ..
    omega
  | pop regs =>
    rw [foldl_note_pop]
    refine foldlRecOn regs _ h fun c hc n _ => ?_
    rw [Micro.ofPop]
    cases trackedReg n with
    | none => exact hc.addUpVSP hfour
    | some r => exact (hc.transform r).addUpVSP hfour
  | setVsp n => exact h
  | finish => exact h

theorem saveInstructions_isSome (h : WholeWords d.context) (instruction : QutOp) :
    ∃ d', d.saveInstructions instruction = some d' ∧ WholeWords d'.context := by
  obtain ⟨d', hd'⟩ : ∃ d', d.saveInstructions instruction = some d' := by
    rw [saveInstructions, flushInstructions, if_pos h.checked]
    exact ⟨_, rfl⟩
  refine ⟨d', hd', ?_⟩
  rw [eq_of_saveInstructions hd']
  exact wholeWords_reset

theorem setVsp_isSome (h : WholeWords d.context) (instruction : QutOp) :
    ∃ d', d.setVsp instruction = some (true, d') ∧ WholeWords d'.context := by
  have hctx : WholeWords (if Reg.minimal.any d.context.transformed then d
      else { d with context := .reset }).context := by
    split
    · exact h
    · exact wholeWords_reset
  obtain ⟨d', hsave, hd'⟩ := saveInstructions_isSome hctx instruction
  exact ⟨d', by rw [setVsp, hsave, map_some], hd'⟩

theorem compile_isSome (h : WholeWords d.context) {op : EhabiOp} (hop : Aligned op) :
    ∃ goes d', d.compile op = some (goes, d') ∧ WholeWords d'.context := by
  have hnote : WholeWords (d.noteAll op.micros).context := h.note hop
  cases op with
  | vspAdd n => exact ⟨true, _, rfl, hnote⟩
  | pop regs =>
    simp only [compile]
    split
    · obtain ⟨d', hsave, hd'⟩ := saveInstructions_isSome hnote .nop
      exact ⟨true, d', by rw [hsave, map_some], hd'⟩
    · exact ⟨true, _, rfl, hnote⟩
  | setVsp n =>
    simp only [compile]
    split
    · exact ⟨true, setVsp_isSome h _⟩
    · split
      · exact ⟨true, setVsp_isSome h _⟩
      · exact ⟨false, d, rfl, h⟩
  | finish => exact ⟨false, _, rfl, h⟩

/-- What holds before every round of the loop of `Eval`. -/
structure Running (d : ExidxDecoder) : Prop where
  bytes : ∀ b ∈ d.data, b < 256
  words : WholeWords d.context

/-- A round ends the loop, or goes on with fewer bytes. -/
theorem decodeRound_cases (h : Running d) :
    (∃ d', decodeRound d = .inl d' ∧ Running d' ∧ d'.data.length < d.data.length) ∨
      ∃ d', decodeRound d = .inr (some d') ∧ WholeWords d'.context := by
  have hreads := decode_reads d h.bytes
  cases hread : ehabiRead d.data with
  | none =>
    rw [hread] at hreads
    obtain ⟨d', hd', hctx, -⟩ := hreads
    exact .inr ⟨d', by rw [decodeRound, hd'], hctx ▸ h.words⟩
  | some read =>
    obtain ⟨op, rest⟩ := read
    rw [hread] at hreads
    obtain ⟨hsuff, hshor, hop⟩ := ehabiRead_shorter hread
    obtain ⟨goes, d', hcomp, hwords⟩ :=
      compile_isSome (d := { d with data := rest }) h.words hop
    cases goes with
    | false => exact .inr ⟨d', by rw [decodeRound, hreads, hcomp], hwords⟩
    | true =>
      rcases compile_cases hcomp with ⟨-, -, hrest, -⟩ | ⟨hgoes, -⟩ | ⟨hgoes, -⟩
      · refine .inl ⟨d', by rw [decodeRound, hreads, hcomp], ⟨?_, hwords⟩, ?_⟩
        · intro b hb
          rw [hrest] at hb
          exact h.bytes b (hsuff.subset hb)
        · rwa [hrest]
      · cases hgoes
      · cases hgoes

/-- **`Eval` returns**: its loop ends and no check fails. -/
theorem eval_isSome {data : List ℕ} (hdata : ∀ b ∈ data, b < 256) :
    ∃ finished d', (ofData data).eval = some (finished, d') := by
  have hround : ∀ n d, Running d ∧ d.data.length = n →
      (∃ d', decodeRound d = .inl d' ∧ ∃ n' < n, Running d' ∧ d'.data.length = n') ∨
        ∃ r, decodeRound d = .inr r ∧ ∃ d', r = some d' ∧ WholeWords d'.context := by
    rintro n d ⟨hrunn, rfl⟩
    rcases decodeRound_cases hrunn with ⟨d', hd', hrunn', hlt⟩ | ⟨d', hd', hwords⟩
    · exact .inl ⟨d', hd', _, hlt, hrunn', rfl⟩
    · exact .inr ⟨_, hd', d', rfl, hwords⟩
  obtain ⟨_, hloop, d₁, rfl, hwords⟩ :=
    loop_of_variant hround (s := ofData data) ⟨⟨hdata, wholeWords_reset⟩, rfl⟩
  obtain ⟨d₂, hsave, -⟩ := saveInstructions_isSome hwords .nop
  refine ⟨d₂.status = .finish, d₂, ?_⟩
  simp [eval, hloop, hsave]

end WholeWords

end ExidxDecoder

end TraceHarbor.Backtrace
