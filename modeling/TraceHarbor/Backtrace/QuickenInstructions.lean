import TraceHarbor.Lib.Sleb128

/-!
# Quicken Unwind Instructions and Their Encoding

The instructions of the quicken unwind table, and `QuickenInstructionsEncode` for both word sizes. An
instruction is an operation and a signed 32-bit immediate, the two halves of the `uint64_t` of the
source. The two encoders differ in the operations they know, in the checks on their immediates and in
the prologue they contract.
-/

namespace TraceHarbor.Backtrace

open Lib

/-! ## Instructions -/

inductive Arch where
  | arm32
  | arm64
  deriving DecidableEq, Repr

/-- `QUT_TBL_ROW_SIZE`: the bytes of a table row but one. -/
def Arch.rowSize : Arch → ℕ
  | .arm32 => 3
  | .arm64 => 7

def Arch.wordBytes (a : Arch) : ℕ := a.rowSize + 1

/-- `QutInstruction`; `other` is any value that the enumeration does not name. -/
inductive QutOp where
  | r4Offset | r7Offset | r10Offset | r11Offset | spOffset | lrOffset | pcOffset
  | x20Offset | x28Offset | x29Offset
  | vspOffset | vspSetImm
  | vspSetByR7 | vspSetByR11 | vspSetByX29 | vspSetBySp | vspSetByJniSp
  | dexPcSet | dexPcSetForSwitchInterpreter
  | endOfIns | fin | nop
  | other (code : ℕ)
  deriving DecidableEq, Repr

/-- An operation with its `int32_t` immediate. -/
structure QutInstruction where
  op : QutOp
  imm : ℤ
  imm_ge : -2 ^ 31 ≤ imm
  imm_lt : imm < 2 ^ 31
  deriving DecidableEq

/-! ## Bytes -/

/-- `IMM(N)`: the largest immediate of `n` bits, in bytes. -/
def immMax (n : ℕ) : ℤ := (2 ^ n - 1) * 4

/-- `FILL_WITH_IMM`: the low `n` bits of the immediate in words. The shift is arithmetic, so a
negative immediate is taken modulo `2 ^ n`. -/
def fillWithImm (pfx : ℕ) (imm : ℤ) (n : ℕ) : ℕ := pfx + (imm / 4 % 2 ^ n).toNat

/-- `EncodeSLEB128_PUSHBACK`: at most five bytes. -/
def encodeSLEB128 (imm : ℤ) : List ℕ := Sleb128.encode 5 imm

/-- The two forms of a register load: one byte for a small offset, SLEB128 for any other. -/
def encodeOffset (pfx sleb : ℕ) (imm : ℤ) : List ℕ :=
  if 0 ≤ imm ∧ imm ≤ immMax 4 then [fillWithImm pfx imm 4] else sleb :: encodeSLEB128 imm

/-- One pass of the encoding loop for an instruction on its own; `none` is the result `false`. -/
def encodeOne (a : Arch) (i : QutInstruction) : Option (List ℕ) :=
  match a, i.op with
  | _, .vspOffset =>
    if -immMax 6 ≤ i.imm ∧ i.imm ≤ immMax 6 then
      some [fillWithImm (if 0 < i.imm then 0 else 0x40) i.imm 6]
    else some (0xff :: encodeSLEB128 i.imm)
  | .arm32, .vspSetByR7 =>
    if i.imm = 0 then some [0x80]
    else if 0 < i.imm ∧ i.imm ≤ immMax 7 then some [0x85, fillWithImm 0 i.imm 7]
    else none
  | .arm32, .vspSetByR11 =>
    if i.imm = 0 then some [0x82]
    else if 0 < i.imm ∧ i.imm ≤ immMax 7 then some [0x86, fillWithImm 0 i.imm 7]
    else none
  | .arm64, .vspSetByX29 =>
    if i.imm = 0 then some [0x80]
    else if 0 < i.imm ∧ i.imm ≤ immMax 7 then some [0x85, fillWithImm 0 i.imm 7]
    else some (0x86 :: encodeSLEB128 i.imm)
  | .arm32, .vspSetBySp => some [0x84]
  | .arm32, .vspSetByJniSp => some [0x95, fillWithImm 0 i.imm 7]
  | .arm64, .vspSetByJniSp =>
    if i.imm ≤ immMax 7 then some [0x95, fillWithImm 0 i.imm 7] else none
  | _, .vspSetImm => some (0x96 :: encodeSLEB128 i.imm)
  | _, .dexPcSet => some [0x97]
  | _, .endOfIns => some [0x99]
  | _, .fin => some [0x9f]
  | .arm32, .r4Offset =>
    if 0 ≤ i.imm ∧ i.imm ≤ immMax 4 then some [fillWithImm 0xa0 i.imm 4] else none
  | .arm32, .r7Offset | .arm64, .x20Offset => some (encodeOffset 0xb0 0xf9 i.imm)
  | .arm32, .r10Offset | .arm64, .x28Offset => some (encodeOffset 0xc0 0xfa i.imm)
  | .arm32, .r11Offset | .arm64, .x29Offset => some (encodeOffset 0xd0 0xfb i.imm)
  | _, .lrOffset => some (encodeOffset 0xe0 0xfd i.imm)
  | _, .spOffset => some (0xfc :: encodeSLEB128 i.imm)
  | _, .pcOffset => some (0xfe :: encodeSLEB128 i.imm)
  -- no case of the switch: nothing is emitted
  | _, _ => some []

/-! ## Prologues -/

/-- The frame pointer operations that look for a prologue: the load that ends it and the byte of the
contracted form. -/
def prologueForm : Arch → QutOp → Option (QutOp × ℕ)
  | .arm32, .vspSetByR7 => some (.r7Offset, 0x81)
  | .arm32, .vspSetByR11 => some (.r11Offset, 0x83)
  | .arm64, .vspSetByX29 => some (.x29Offset, 0x81)
  | _, _ => none

/-- The three instructions after `vsp = fp` are those of a prologue: `vsp += n`,
`lr = [vsp - (n - word)]`, `fp = [vsp - n]`. -/
def isPrologue (a : Arch) (fpOffset : QutOp) (vsp lr fp : QutInstruction) : Bool :=
  vsp.op = .vspOffset ∧ lr.op = .lrOffset ∧ lr.imm = vsp.imm - a.wordBytes ∧
    fp.op = fpOffset ∧ fp.imm = vsp.imm

/-- The byte of the contracted prologue that starts with `i`, when there is one. -/
def contracted (a : Arch) (i : QutInstruction) : List QutInstruction → Option ℕ
  | vsp :: lr :: fp :: _ =>
    match prologueForm a i.op with
    | some (fpOffset, byte) =>
      if i.imm = 0 ∧ isPrologue a fpOffset vsp lr fp then some byte else none
    | none => none
  | _ => none

/-- `QuickenInstructionsEncode`, for both word sizes; `none` is the result `false`. A contracted
prologue skips three instructions, unchecked. -/
def quickenInstructionsEncode (a : Arch) : List QutInstruction → Option (List ℕ)
  | [] => some []
  | i :: rest =>
    if i.imm % 4 ≠ 0 then none
    else
      match contracted a i rest with
      | some byte =>
        match rest with
        | _ :: _ :: _ :: rest' => (quickenInstructionsEncode a rest').map (byte :: ·)
        | _ => none
      | none => do
        let bytes ← encodeOne a i
        (quickenInstructionsEncode a rest).map (bytes ++ ·)

/-- What a rejected instruction has pushed: in some cases the operation stands before the check of the
immediate. -/
def rejectedBytes : Arch → QutOp → List ℕ
  | .arm32, .vspSetByR7 => [0x85]
  | .arm32, .vspSetByR11 => [0x86]
  | .arm64, .vspSetByJniSp => [0x95]
  | _, _ => []

/-- The bytes that `QuickenInstructionsEncode` has pushed when it returns `false`. -/
def pushed (a : Arch) : List QutInstruction → List ℕ
  | [] => []
  | i :: rest =>
    if i.imm % 4 ≠ 0 then []
    else
      match contracted a i rest with
      | some byte =>
        match rest with
        | _ :: _ :: _ :: rest' => byte :: pushed a rest'
        | _ => []
      | none =>
        match encodeOne a i with
        | some bytes => bytes ++ pushed a rest
        | none => rejectedBytes a i.op

end TraceHarbor.Backtrace
