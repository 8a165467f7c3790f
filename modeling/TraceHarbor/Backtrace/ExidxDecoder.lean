import TraceHarbor.Backtrace.QuickenSemantics

/-!
# Compiling ARM Unwind Opcodes

`ExidxDecoder` compiles the opcode bytes of an ARM exception index entry to quicken instructions.
`ExidxContext` sums up the movements of `vsp` and keeps, for every register that was popped, how far
`vsp` has moved since; `FlushInstructions` turns it into instructions when `vsp` is assigned and at the
end. Checks that repeat the case of the caller's switch are left out, and `native_only` is off.
-/

namespace TraceHarbor.Backtrace

open Lib

/-! ## Instruction words -/

/-- The value of an enumerator of `QutInstruction`. -/
def QutOp.code : QutOp → ℕ
  | .r4Offset => 0
  | .r7Offset => 1
  | .r10Offset => 2
  | .r11Offset => 3
  | .spOffset => 4
  | .lrOffset => 5
  | .pcOffset => 6
  | .x20Offset => 7
  | .x28Offset => 8
  | .x29Offset => 9
  | .vspOffset => 10
  | .vspSetImm => 11
  | .vspSetByR7 => 12
  | .vspSetByR11 => 13
  | .vspSetByX29 => 14
  | .vspSetBySp => 15
  | .vspSetByJniSp => 16
  | .dexPcSet => 17
  | .dexPcSetForSwitchInterpreter => 18
  | .endOfIns => 19
  | .fin => 20
  | .nop => 0xff
  | .other code => code

def QutOp.ofCode : ℕ → QutOp
  | 0 => .r4Offset
  | 1 => .r7Offset
  | 2 => .r10Offset
  | 3 => .r11Offset
  | 4 => .spOffset
  | 5 => .lrOffset
  | 6 => .pcOffset
  | 7 => .x20Offset
  | 8 => .x28Offset
  | 9 => .x29Offset
  | 10 => .vspOffset
  | 11 => .vspSetImm
  | 12 => .vspSetByR7
  | 13 => .vspSetByR11
  | 14 => .vspSetByX29
  | 15 => .vspSetBySp
  | 16 => .vspSetByJniSp
  | 17 => .dexPcSet
  | 18 => .dexPcSetForSwitchInterpreter
  | 19 => .endOfIns
  | 20 => .fin
  | 0xff => .nop
  | code => .other code

/-- `(((uint64_t) op) << 32) | imm`: the `int32_t` is sign-extended to the width of the word before
the two are joined. -/
def instrWord (op : QutOp) (imm : Word .arm32) : BitVec 64 :=
  BitVec.ofNat 64 op.code <<< 32 ||| imm.signExtend 64

/-- The instruction in a word, as the encoder takes it apart. -/
def QutInstruction.ofWord (w : BitVec 64) : QutInstruction where
  op := .ofCode (w >>> 32).toNat
  imm := (w.setWidth (8 * Arch.arm32.wordBytes)).toInt
  imm_ge := BitVec.le_toInt (w.setWidth (8 * Arch.arm32.wordBytes))
  imm_lt := BitVec.toInt_lt

/-! ## The context -/

/-- The registers in the order of their enumerators, `QUT_INSTRUCTION_R4_OFFSET` to
`QUT_INSTRUCTION_PC_OFFSET`. -/
def Reg.minimal : List Reg := [.r4, .r7, .r10, .r11, .sp, .lr, .pc]

def Reg.offsetOp : Reg → QutOp
  | .r4 => .r4Offset
  | .r7 => .r7Offset
  | .r10 => .r10Offset
  | .r11 => .r11Offset
  | .sp => .spOffset
  | .lr => .lrOffset
  | .pc => .pcOffset

/-- `ExidxContext`: the bits of `transformed_bits` as a predicate, the `int32_t`s as words that wrap
around. -/
structure ExidxContext where
  vsp : Word .arm32
  transformed : Reg → Bool
  regs : Reg → Word .arm32

namespace ExidxContext

/-- `reset`, which is also the initial context. -/
def reset : ExidxContext where
  vsp := 0
  transformed _ := false
  regs _ := 0

/-- `AddUpVSP`, with `AddUpTransformed` for every register. -/
def addUpVSP (c : ExidxContext) (imm : Word .arm32) : ExidxContext :=
  { c with
    vsp := c.vsp + imm
    regs := fun r => if c.transformed r then c.regs r + imm else c.regs r }

def transform (c : ExidxContext) (r : Reg) : ExidxContext :=
  { c with
    transformed := Function.update c.transformed r true
    regs := Function.update c.regs r 0 }

/-- The inner loop that sorts the registers by their offset: negative offsets go behind all others.
-/
def insertReg (c : ExidxContext) (r : Reg) : List Reg → List Reg
  | [] => [r]
  | s :: sorted =>
    if 0 ≤ (c.regs r).toInt ∧ ((c.regs r).toInt < (c.regs s).toInt ∨ (c.regs s).toInt < 0) then
      r :: s :: sorted
    else s :: c.insertReg r sorted

def sortedRegs (c : ExidxContext) : List Reg :=
  (Reg.minimal.filter c.transformed).foldl (fun sorted r => c.insertReg r sorted) []

/-- The words that `FlushInstructions` pushes. -/
def flushed (c : ExidxContext) : List (BitVec 64) :=
  (if c.vsp ≠ 0 then [instrWord .vspOffset c.vsp] else []) ++
    c.sortedRegs.map (fun r => instrWord r.offsetOp (c.regs r)) ++
    if c.transformed .sp then [instrWord .vspSetBySp 0] else []

/-- The two `CHECK`s of `FlushInstructions`: what is pushed is a multiple of four. -/
def checked (c : ExidxContext) : Bool :=
  (c.vsp = 0 ∨ c.vsp.toNat % 4 = 0) ∧ c.sortedRegs.all fun r => (c.regs r).toNat % 4 = 0

/-- A pop in one of the loops over the integer registers `r4` to `r12`, of which four are kept. -/
def pop (c : ExidxContext) (reg : ℕ) : ExidxContext :=
  let c :=
    if reg = 4 then c.transform .r4
    else if reg = 7 then c.transform .r7
    else if reg = 10 then c.transform .r10
    else if reg = 11 then c.transform .r11
    else c
  c.addUpVSP 4

end ExidxContext

/-! ## The decoder -/

inductive ArmStatus where
  | none | noUnwind | finish | reserved | spare | truncated | readFailed | malformed
  | invalidAlignment | invalidPersonality
  deriving DecidableEq, Repr

/-- The fields of an `ExidxDecoder` that `Eval` uses. -/
structure ExidxDecoder where
  context : ExidxContext
  data : List ℕ
  instructions : List (BitVec 64)
  status : ArmStatus

namespace ExidxDecoder

/-- The decoder over the opcode bytes of an entry, as `ExtractEntryData` leaves it. -/
def ofData (data : List ℕ) : ExidxDecoder where
  context := .reset
  data := data
  instructions := []
  status := .none

/-- `FlushInstructions`; `none` is a failed `CHECK`. -/
def flushInstructions (d : ExidxDecoder) : Option ExidxDecoder :=
  if d.context.checked then
    some { d with instructions := d.instructions ++ d.context.flushed, context := .reset }
  else none

def saveInstructions (d : ExidxDecoder) (instruction : QutOp) : Option ExidxDecoder :=
  d.flushInstructions.map fun d =>
    if instruction = .vspSetByR7 ∨ instruction = .vspSetByR11 then
      { d with instructions := d.instructions ++ [instrWord instruction 0] }
    else d

/-- What a decoding function returns, with the decoder it leaves; `none` is a failed `CHECK`. -/
abbrev Result := Option (Bool × ExidxDecoder)

/-- `AddUpVSP`, and on with the next opcode. -/
def addUp (d : ExidxDecoder) (imm : Word .arm32) : Result :=
  some (true, { d with context := d.context.addUpVSP imm })

def fail (d : ExidxDecoder) (status : ArmStatus) : Result :=
  some (false, { d with status := status })

/-- `GetByte`, with the return on failure. -/
def withByte (d : ExidxDecoder) (k : ℕ → ExidxDecoder → Result) : Result :=
  match d.data with
  | [] => some (false, d)
  | byte :: data => k byte { d with data := data }

/-- `1000iiii iiiiiiii`. -/
def decodePrefix_10_00 (d : ExidxDecoder) (byte : ℕ) : Result :=
  d.withByte fun low d =>
    let registers := byte % 16 * 256 + low
    -- refuse to unwind
    if registers = 0 then some (false, d)
    else
      let registers := registers * 16
      let c := (List.range' 4 9).foldl
        (fun c reg => if registers.testBit reg then c.pop reg else c) d.context
      let c := if registers.testBit 13 then (c.transform .sp).addUpVSP 4 else c
      let c := if registers.testBit 14 then (c.transform .lr).addUpVSP 4 else c
      let c := if registers.testBit 15 then (c.transform .pc).addUpVSP 4 else c
      let d := { d with context := c }
      -- sp changed: the instructions are saved at once
      if registers.testBit 13 then (d.saveInstructions .nop).map (true, ·) else some (true, d)

/-- `vsp` is set from a frame pointer; movements of `vsp` that no load depends on are dropped. -/
def setVsp (d : ExidxDecoder) (instruction : QutOp) : Result :=
  let d := if Reg.minimal.any d.context.transformed then d else { d with context := .reset }
  (d.saveInstructions instruction).map (true, ·)

/-- `1001nnnn`. -/
def decodePrefix_10_01 (d : ExidxDecoder) (byte : ℕ) : Result :=
  let bits := byte % 16
  if bits = 13 ∨ bits = 15 then d.fail .reserved
  else if bits = 7 then d.setVsp .vspSetByR7
  else if bits = 11 then d.setVsp .vspSetByR11
  else some (false, d)

/-- `10100nnn` and `10101nnn`. -/
def decodePrefix_10_10 (d : ExidxDecoder) (byte : ℕ) : Result :=
  let c := (List.range' 4 (byte % 8 + 1)).foldl ExidxContext.pop d.context
  let c := if byte / 8 % 2 = 1 then (c.transform .lr).addUpVSP 4 else c
  some (true, { d with context := c })

/-- `10110001 0000iiii`. -/
def decodePrefix_10_11_0001 (d : ExidxDecoder) : Result :=
  d.withByte fun byte d =>
    if byte = 0 then d.fail .spare
    else if byte / 16 ≠ 0 then d.fail .spare
    else
      let c := (List.range 4).foldl
        (fun c reg => if byte.testBit reg then c.addUpVSP 4 else c) d.context
      some (true, { d with context := c })

/-- The loop of `DecodePrefix_10_11_0010`: the `uint32_t` of the groups of seven bits, and the bytes
behind them. -/
def uleb128 (result : Word .arm32) (shift : ℕ) : List ℕ → Option (Word .arm32 × List ℕ)
  | [] => none
  | byte :: data =>
    let result := result ||| BitVec.ofNat _ (byte % 128) <<< shift
    if byte / 128 % 2 = 1 then uleb128 result (shift + 7) data else some (result, data)

/-- `10110010 uleb128`. -/
def decodePrefix_10_11_0010 (d : ExidxDecoder) : Result :=
  match uleb128 0 0 d.data with
  | none => some (false, { d with data := [] })
  | some (result, data) => { d with data := data }.addUp (BitVec.ofNat _ 0x204 + result <<< 2)

/-- `10110011 sssscccc`. -/
def decodePrefix_10_11_0011 (d : ExidxDecoder) : Result :=
  d.withByte fun byte d => d.addUp (BitVec.ofNat _ (byte % 16 * 8 + 12))

/-- `11000nnn`. -/
def decodePrefix_11_000 (d : ExidxDecoder) (byte : ℕ) : Result :=
  let bits := byte % 8
  if bits = 6 then
    d.withByte fun byte d => d.addUp (BitVec.ofNat _ (byte % 16 * 8 + 8))
  else if bits = 7 then
    d.withByte fun byte d =>
      if byte = 0 then d.fail .spare
      else if byte / 16 = 0 then
        d.addUp (BitVec.ofNat _ ((List.range 8).countP byte.testBit * 4))
      else d.fail .spare
  else d.addUp (BitVec.ofNat _ (byte % 8 * 8 + 8))

/-- `11001yyy`. -/
def decodePrefix_11_001 (d : ExidxDecoder) (byte : ℕ) : Result :=
  let bits := byte % 8
  if bits = 0 ∨ bits = 1 then
    d.withByte fun byte d => d.addUp (BitVec.ofNat _ (byte % 16 * 8 + 8))
  else d.fail .spare

/-- `10xxxxxx`, with the functions of its one-line cases. -/
def decodePrefix_10 (d : ExidxDecoder) (byte : ℕ) : Result :=
  match byte / 16 % 4 with
  | 0 => d.decodePrefix_10_00 byte
  | 1 => d.decodePrefix_10_01 byte
  | 2 => d.decodePrefix_10_10 byte
  | _ =>
    match byte % 16 with
    -- `DecodePrefix_10_11_0000`
    | 0 => d.fail .finish
    | 1 => d.decodePrefix_10_11_0001
    | 2 => d.decodePrefix_10_11_0010
    | 3 => d.decodePrefix_10_11_0011
    | _ =>
      -- `DecodePrefix_10_11_1nnn`, `DecodePrefix_10_11_01nn`
      if byte / 8 % 2 = 1 then d.addUp (BitVec.ofNat _ (byte % 8 * 8 + 12)) else d.fail .spare

/-- `11xxxxxx`. -/
def decodePrefix_11 (d : ExidxDecoder) (byte : ℕ) : Result :=
  match byte / 8 % 8 with
  | 0 => d.decodePrefix_11_000 byte
  | 1 => d.decodePrefix_11_001 byte
  -- `DecodePrefix_11_010`
  | 2 => d.addUp (BitVec.ofNat _ (byte % 8 * 8 + 8))
  | _ => some (false, d)

def decode (d : ExidxDecoder) : Result :=
  d.withByte fun byte d =>
    match byte / 64 with
    | 0 => d.addUp (BitVec.ofNat _ (byte % 64 * 4 + 4))
    | 1 => d.addUp (-BitVec.ofNat _ (byte % 64 * 4 + 4))
    | 2 => d.decodePrefix_10 byte
    | _ => d.decodePrefix_11 byte

/-- A round of `while (Decode());`. -/
def decodeRound (d : ExidxDecoder) : ExidxDecoder ⊕ Option ExidxDecoder :=
  match d.decode with
  | some (true, d) => .inl d
  | some (false, d) => .inr (some d)
  | none => .inr none

/-- `Eval`. Every round takes a byte at least. -/
def eval (d : ExidxDecoder) : Result := do
  let d ← (loop decodeRound (d.data.length + 1) d).join
  let d ← d.saveInstructions .nop
  return (d.status = .finish, d)

end ExidxDecoder

end TraceHarbor.Backtrace
