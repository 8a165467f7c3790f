import TraceHarbor.Backtrace.QuickenInstructions
import TraceHarbor.Lib.ByteRow
import TraceHarbor.Lib.Loop

/-!
# The Quicken Unwind Table

`PackEntriesToQutSections` packs the encoded instructions of every entry into table rows, and
`QuickenTable::Eval` interprets the bytes of one entry over the minimal register file. `Decode32` and
`Decode64` see the bytes only through `ReadByte`, so the model hands them over as one list.
-/

namespace TraceHarbor.Backtrace

open Lib

/-! ## Machine state -/

/-- `uptr`. -/
abbrev Word (a : Arch) := BitVec (8 * a.wordBytes)

/-- The slots of the minimal register file; `x20`, `x28` and `x29` live in those of `r7`, `r10` and
`r11`. -/
inductive Reg where
  | r4 | r7 | r10 | r11 | sp | pc | lr
  deriving DecidableEq, Repr

namespace Reg

abbrev x20 : Reg := .r7

abbrev x28 : Reg := .r10

abbrev x29 : Reg := .r11

end Reg

/-- The fields of a `QuickenTable` and the registers it updates. -/
@[ext]
structure Machine (a : Arch) where
  cfa : Word a
  regs : Reg → Word a
  dexPc : Word a
  pcSet : Bool

namespace Machine

variable {a : Arch}

def setCfa (m : Machine a) (v : Word a) : Machine a := { m with cfa := v }

def setReg (m : Machine a) (r : Reg) (v : Word a) : Machine a :=
  { m with regs := Function.update m.regs r v }

def setDexPc (m : Machine a) (v : Word a) : Machine a := { m with dexPc := v }

end Machine

/-- The stack that is unwound: its bounds and its contents. -/
structure StepContext (a : Arch) where
  stackTop : Word a
  stackBottom : Word a
  memory : Word a → Word a

/-- `ReadStack`; `none` is the result `false`. -/
def StepContext.readStack {a : Arch} (ctx : StepContext a) (addr : Word a) : Option (Word a) :=
  if ctx.stackTop < addr ∨ addr < ctx.stackBottom then none else some (ctx.memory addr)

/-- The error codes that `Decode32` and `Decode64` return. -/
inductive QutErrorCode where
  | none
  | readStackFailed
  | tableIndexOverflow
  | invalidQutInstr
  deriving DecidableEq, Repr

/-! ## Decoding -/

/-- What one round of the decoding loop leads to; `none` inside when an operand would be read past
the rows. -/
abbrev Round (a : Arch) := (List ℕ × Machine a) ⊕ Option (QutErrorCode × Machine a)

section Decode

variable {a : Arch}

/-- `ReadStack` into a register, with the return on failure. -/
def loadReg (ctx : StepContext a) (addr : Word a) (r : Reg) (bytes : List ℕ) (m : Machine a) :
    Round a :=
  match ctx.readStack addr with
  | none => .inr (some (.readStackFailed, m))
  | some v => .inl (bytes, m.setReg r v)

/-- `ReadByte` of an operand. -/
def withByte (bytes : List ℕ) (k : ℕ → List ℕ → Round a) : Round a :=
  match bytes with
  | [] => .inr none
  | byte :: bytes => k byte bytes

/-- `DecodeSLEB128` of an operand, with the return on overflow. -/
def withSLEB128 (bytes : List ℕ) (m : Machine a) (k : ℤ → List ℕ → Round a) : Round a :=
  match bytes with
  | [] => .inr none
  | _ =>
    match Sleb128.decode 0 0 bytes with
    | none => .inr (some (.tableIndexOverflow, m))
    | some (value, bytes) => k value bytes

/-- `vsp = fp + n, lr = [vsp - n / 2], fp = [vsp - n]`: the contracted prologue. -/
def prologue (ctx : StepContext a) (fp : Reg) (n : ℕ) (bytes : List ℕ) (m : Machine a) : Round a :=
  let m := m.setCfa (m.regs fp + BitVec.ofNat _ n)
  match loadReg ctx (m.cfa - BitVec.ofNat _ (n / 2)) .lr bytes m with
  | .inl (bytes, m) => loadReg ctx (m.cfa - BitVec.ofNat _ n) fp bytes m
  | .inr r => .inr r

/-- Operand `0nnn nnnn`: `vsp = r + (nnnnnnn << 2)`. -/
def setByImm (r : Reg) (bytes : List ℕ) (m : Machine a) : Round a :=
  withByte bytes fun byte bytes => .inl (bytes, m.setCfa (m.regs r + BitVec.ofNat _ (byte % 128 * 4)))

/-- `r = [vsp - (nnnn << 2)]`. -/
def loadNear (ctx : StepContext a) (byte : ℕ) (r : Reg) (bytes : List ℕ) (m : Machine a) : Round a :=
  loadReg ctx (m.cfa - BitVec.ofNat _ (byte % 16 * 4)) r bytes m

/-- `r = [vsp - SLEB128]`. -/
def loadFar (ctx : StepContext a) (r : Reg) (bytes : List ℕ) (m : Machine a) : Round a :=
  withSLEB128 bytes m fun value bytes => loadReg ctx (m.cfa - BitVec.ofInt _ value) r bytes m

/-- `PC(regs_) = 0; LR(regs_) = 0`. -/
def Machine.finish (m : Machine a) : Machine a := (m.setReg .pc 0).setReg .lr 0

end Decode

/-- The bytes `10xx xxxx` of `Decode32`. -/
def decodeCase2of32 (ctx : StepContext .arm32) (byte : ℕ) (bytes : List ℕ) (m : Machine .arm32) :
    Round .arm32 :=
  match byte with
  | 0x80 => .inl (bytes, m.setCfa (m.regs .r7))
  | 0x81 => prologue ctx .r7 8 bytes m
  | 0x82 => .inl (bytes, m.setCfa (m.regs .r11))
  | 0x83 => prologue ctx .r11 8 bytes m
  | 0x84 => .inl (bytes, m.setCfa (m.regs .sp))
  | 0x95 => setByImm .r10 bytes m
  | 0x96 => withSLEB128 bytes m fun value bytes => .inl (bytes, m.setCfa (BitVec.ofInt _ value))
  | 0x85 => setByImm .r7 bytes m
  | 0x86 => setByImm .r11 bytes m
  | 0x97 => .inl (bytes, m.setDexPc (m.regs .r4))
  | 0x99 => .inr (some (.none, m))
  | 0x9f => .inr (some (.none, m.finish))
  | _ =>
    if byte / 16 = 0xa then loadNear ctx byte .r4 bytes m
    else if byte / 16 = 0xb then loadNear ctx byte .r7 bytes m
    else .inl (bytes, m)

/-- The bytes `10xx xxxx` of `Decode64`. The case for `vsp = x29 + SLEB128` has no `break` and runs
into the one for `dex_pc`. -/
def decodeCase2of64 (ctx : StepContext .arm64) (byte : ℕ) (bytes : List ℕ) (m : Machine .arm64) :
    Round .arm64 :=
  match byte with
  | 0x80 => .inl (bytes, m.setCfa (m.regs .x29))
  | 0x81 => prologue ctx .x29 16 bytes m
  | 0x84 => .inl (bytes, m.setCfa (m.regs .sp))
  | 0x95 => setByImm .x28 bytes m
  | 0x96 => withSLEB128 bytes m fun value bytes => .inl (bytes, m.setCfa (BitVec.ofInt _ value))
  | 0x85 => setByImm .x29 bytes m
  | 0x86 =>
    withSLEB128 bytes m fun value bytes =>
      .inl (bytes, (m.setCfa (m.regs .x29 + BitVec.ofInt _ value)).setDexPc (m.regs .x20))
  | 0x97 => .inl (bytes, m.setDexPc (m.regs .x20))
  | 0x99 => .inr (some (.none, m))
  | 0x9f => .inr (some (.none, m.finish))
  | _ => if byte / 16 = 0xb then loadNear ctx byte .x20 bytes m else .inl (bytes, m)

/-- The bytes `10xx xxxx`. -/
def decodeCase2 : (a : Arch) → StepContext a → ℕ → List ℕ → Machine a → Round a
  | .arm32 => decodeCase2of32
  | .arm64 => decodeCase2of64

/-- `x29 = [vsp - SLEB128]` of `Decode64`, which takes a zero frame pointer for the end of the stack
and returns. -/
def loadFarFp : (a : Arch) → StepContext a → List ℕ → Machine a → Round a
  | .arm32, ctx, bytes, m => loadFar ctx .r11 bytes m
  | .arm64, ctx, bytes, m =>
    match loadFar ctx .x29 bytes m with
    | .inl (bytes, m) => if m.regs .x29 = 0 then .inr (some (.none, m)) else .inl (bytes, m)
    | .inr r => .inr r

/-- The bytes `11xx xxxx`, the same cases in `Decode32` and `Decode64`. -/
def decodeDefault (a : Arch) (ctx : StepContext a) (byte : ℕ) (bytes : List ℕ) (m : Machine a) :
    Round a :=
  match byte / 16 with
  | 0xc => loadNear ctx byte .r10 bytes m
  | 0xd => loadNear ctx byte .r11 bytes m
  | 0xe => loadNear ctx byte .lr bytes m
  | _ =>
    match byte with
    | 0xf9 => loadFar ctx .r7 bytes m
    | 0xfa => loadFar ctx .r10 bytes m
    | 0xfb => loadFarFp a ctx bytes m
    | 0xfc => loadFar ctx .sp bytes m
    | 0xfd => loadFar ctx .lr bytes m
    | 0xfe =>
      match loadFar ctx .pc bytes m with
      | .inl (bytes, m) => .inl (bytes, { m with pcSet := true })
      | .inr r => .inr r
    | 0xff =>
      withSLEB128 bytes m fun value bytes => .inl (bytes, m.setCfa (m.cfa + BitVec.ofInt _ value))
    | _ => .inr (some (.invalidQutInstr, m))

/-- One round of the loop of `Decode32` or `Decode64`. -/
def decodeStep (a : Arch) (ctx : StepContext a) : List ℕ × Machine a → Round a
  | ([], m) => .inr (some (.none, m))
  | (byte :: bytes, m) =>
    match byte / 64 with
    | 0 => .inl (bytes, m.setCfa (m.cfa + BitVec.ofNat _ (byte * 4)))
    | 1 => .inl (bytes, m.setCfa (m.cfa - BitVec.ofNat _ (byte * 4 % 256)))
    | 2 => decodeCase2 a ctx byte bytes m
    | _ => decodeDefault a ctx byte bytes m

/-- `Decode` on the bytes of an entry; every round reads at least one. -/
def decode (a : Arch) (ctx : StepContext a) (bytes : List ℕ) (m : Machine a) :
    Option (QutErrorCode × Machine a) :=
  (loop (decodeStep a ctx) (bytes.length + 1) (bytes, m)).join

/-! ## Sections -/

/-- `QUT_END_OF_INS_OP`, which also fills up rows. -/
def endOfInsOp : ℕ := 0x99

/-- The two arrays of `QutSections`. -/
structure QutSections where
  quidx : List ℕ
  qutbl : List ℕ
  deriving DecidableEq

/-- The second index word of an entry and its new table rows, when the table has `tblSize` rows;
`none` when a `CHECK` fails. -/
def packEntry (a : Arch) (tblSize : ℕ) (encoded : List ℕ) : Option (ℕ × List ℕ) :=
  if encoded.length ≤ a.rowSize then
    let padded := encoded ++ List.replicate (a.rowSize - encoded.length) endOfInsOp
    some (packInto (0x80 <<< (a.rowSize * 8)) padded, [])
  else
    let rowCount := (encoded.length + a.rowSize) / (a.rowSize + 1)
    let padded := encoded ++
      List.replicate (rowCount * (a.rowSize + 1) - encoded.length) endOfInsOp
    if rowCount ≤ 0x7f ∧ tblSize ≤ 0xffffff then
      some ((rowCount &&& 0x7f) <<< (a.rowSize * 8) ||| (tblSize &&& 0xffffff),
        rowsOf (a.rowSize + 1) rowCount padded)
    else none

/-- The bytes of an entry. Instructions that cannot be encoded leave what the encoder has pushed. -/
def entryBytes (a : Arch) (is : List QutInstruction) : List ℕ :=
  (quickenInstructionsEncode a is).getD (pushed a is ++ [endOfInsOp])

/-- The loop of `PackEntriesToQutSections` over the entry points with their encoded bytes. -/
def packFrom (a : Arch) : QutSections → List (ℕ × List ℕ) → Option QutSections
  | s, [] => some s
  | s, (entryPoint, encoded) :: entries => do
    let (command, rows) ← packEntry a s.qutbl.length encoded
    packFrom a ⟨s.quidx ++ [entryPoint, command], s.qutbl ++ rows⟩ entries

/-- `PackEntriesToQutSections`, on entry points with their instructions. -/
def packEntriesToQutSections (a : Arch) (entries : List (ℕ × List QutInstruction)) :
    Option QutSections :=
  packFrom a ⟨[], []⟩ (entries.map fun e => (e.1, entryBytes a e.2))

/-- `Eval` of the entry at an index offset; `none` when the `CHECK` on the rows fails. -/
def eval (a : Arch) (s : QutSections) (ctx : StepContext a) (entryOffset : ℕ) (m : Machine a) :
    Option (QutErrorCode × Machine a) := do
  let command ← s.quidx[entryOffset + 1]?
  if command >>> (8 * a.wordBytes - 1) ≠ 0 then
    decode a ctx (rowBytes command a.rowSize) m
  else
    let rowCount := (command >>> ((a.wordBytes - 1) * 8)) &&& 0x7f
    let rowOffset := command &&& 0xffffff
    if rowOffset + rowCount ≤ s.qutbl.length then
      let rows := (s.qutbl.drop rowOffset).take rowCount
      decode a ctx (rows.flatMap (rowBytes · (a.rowSize + 1))) m
    else none

end TraceHarbor.Backtrace
