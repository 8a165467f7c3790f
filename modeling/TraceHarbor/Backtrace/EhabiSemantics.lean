import TraceHarbor.Backtrace.QuickenTable

/-!
# What ARM Unwind Opcodes Mean

The opcode table of the ARM exception handling ABI and the execution of opcodes one by one. A pop loads
the word at `vsp` and moves `vsp` up by four; registers that the quicken machine does not keep are
skipped.
-/

namespace TraceHarbor.Backtrace

/-! ## Opcodes -/

/-- The opcodes that do not end the unwinding in an error. -/
inductive EhabiOp where
  /-- `vsp = vsp + n`; the pops of coprocessor registers are of this kind -/
  | vspAdd (n : ℤ)
  /-- pop the core registers with these numbers -/
  | pop (regs : List ℕ)
  /-- `vsp = r[n]` -/
  | setVsp (n : ℕ)
  | finish
  deriving DecidableEq

/-- The numbers of the registers under a mask of `width` bits for `r[first]` and up. -/
def underMask (first width mask : ℕ) : List ℕ :=
  ((List.range width).filter mask.testBit).map (first + ·)

/-- The number that the ULEB128 bytes in front stand for, and the bytes behind them. -/
def ulebNumber : List ℕ → Option (ℕ × List ℕ)
  | [] => none
  | b :: rest =>
    if b < 128 then some (b, rest)
    else (ulebNumber rest).map fun (n, rest) => (b - 128 + 128 * n, rest)

def withOperand (rest : List ℕ) (k : ℕ → Option EhabiOp) : Option (EhabiOp × List ℕ) :=
  match rest with
  | [] => none
  | b :: rest => (k b).map (·, rest)

/-- The opcode table, by the first byte; `none` for the spare and reserved encodings, for the refusal
to unwind and for an opcode that is cut off. -/
def ehabiRead : List ℕ → Option (EhabiOp × List ℕ)
  | [] => none
  | b :: rest =>
    if b < 0x40 then some (.vspAdd (4 * b + 4), rest)
    else if b < 0x80 then some (.vspAdd (-(4 * (b - 0x40) + 4)), rest)
    else if b < 0x90 then
      withOperand rest fun low =>
        let mask := (b - 0x80) * 256 + low
        if mask = 0 then none else some (.pop (underMask 4 12 mask))
    else if b < 0xa0 then
      if b = 0x9d ∨ b = 0x9f then none else some (.setVsp (b - 0x90), rest)
    else if b < 0xa8 then some (.pop (List.range' 4 (b - 0xa0 + 1)), rest)
    else if b < 0xb0 then some (.pop (List.range' 4 (b - 0xa8 + 1) ++ [14]), rest)
    else if b = 0xb0 then some (.finish, rest)
    else if b = 0xb1 then
      withOperand rest fun mask =>
        if 0 < mask ∧ mask < 16 then some (.pop (underMask 0 4 mask)) else none
    else if b = 0xb2 then
      (ulebNumber rest).map fun (n, rest) => (.vspAdd (0x204 + 4 * n), rest)
    else if b = 0xb3 then withOperand rest fun c => some (.vspAdd (8 * (c % 16) + 12))
    else if b < 0xb8 then none
    else if b < 0xc0 then some (.vspAdd (8 * (b - 0xb8) + 12), rest)
    else if b < 0xc6 then some (.vspAdd (8 * (b - 0xc0) + 8), rest)
    else if b = 0xc6 then withOperand rest fun c => some (.vspAdd (8 * (c % 16) + 8))
    else if b = 0xc7 then
      withOperand rest fun mask =>
        if 0 < mask ∧ mask < 16 then some (.vspAdd (4 * (underMask 0 4 mask).length)) else none
    else if b < 0xca then withOperand rest fun c => some (.vspAdd (8 * (c % 16) + 8))
    else if b < 0xd0 then none
    else if b < 0xd8 then some (.vspAdd (8 * (b - 0xd0) + 8), rest)
    else none

/-- The opcodes in front of the first `finish`; `none` when there is none or an encoding before it
is in error. -/
def ehabiOpsFuel : ℕ → List ℕ → Option (List EhabiOp)
  | 0, _ => none
  | fuel + 1, data =>
    match ehabiRead data with
    | none => none
    | some (.finish, _) => some []
    | some (op, rest) => (ehabiOpsFuel fuel rest).map (op :: ·)

def ehabiOps (data : List ℕ) : Option (List EhabiOp) := ehabiOpsFuel data.length data

/-! ## Meaning -/

/-- The core registers that the quicken machine keeps. -/
def trackedReg : ℕ → Option Reg
  | 4 => some .r4
  | 7 => some .r7
  | 10 => some .r10
  | 11 => some .r11
  | 13 => some .sp
  | 14 => some .lr
  | 15 => some .pc
  | _ => none

/-- What an opcode is made of: movements of `vsp`, and loads of the word at `vsp`. -/
inductive Micro where
  | move (n : Word .arm32)
  | load (r : Reg)
  deriving DecidableEq

def Micro.ofPop (n : ℕ) : List Micro :=
  match trackedReg n with
  | some r => [.load r, .move 4]
  | none => [.move 4]

def EhabiOp.micros : EhabiOp → List Micro
  | .vspAdd n => [.move (BitVec.ofInt _ n)]
  | .pop regs => regs.flatMap Micro.ofPop
  | .setVsp _ => []
  | .finish => []

/-- The register from which an opcode sets `vsp` once its pops are done: a pop that includes `sp`
does so as well. -/
def EhabiOp.base : EhabiOp → Option Reg
  | .pop regs => if 13 ∈ regs then some .sp else none
  | .setVsp n => trackedReg n
  | _ => none

section Meaning

variable (mem : Word .arm32 → Word .arm32)

def Micro.exec (m : Machine .arm32) : Micro → Machine .arm32
  | .move n => m.setCfa (m.cfa + n)
  | .load r => { m.setReg r (mem m.cfa) with pcSet := m.pcSet || r = .pc }

def EhabiOp.exec (m : Machine .arm32) (op : EhabiOp) : Machine .arm32 :=
  let m := op.micros.foldl (Micro.exec mem) m
  match op.base with
  | some r => m.setCfa (m.regs r)
  | none => m

def ehabiRun (ops : List EhabiOp) (m : Machine .arm32) : Machine .arm32 :=
  ops.foldl (EhabiOp.exec mem) m

end Meaning

/-! ## Blocks that rise -/

/-- How far a block moves `vsp`. -/
def net : List Micro → Word .arm32
  | [] => 0
  | .move n :: block => n + net block
  | .load _ :: block => net block

/-- How far a block moves `vsp` after its last load of a register. -/
def sinceLoad (r : Reg) : List Micro → Option (Word .arm32)
  | [] => none
  | .move _ :: block => sinceLoad r block
  | .load s :: block =>
    match sinceLoad r block with
    | some n => some n
    | none => if s = r then some (net block) else none

/-- `vsp` ends no lower than it began or than where any register was last loaded from; distances are
less than `2 ^ 31`. -/
def RisingBlock (block : List Micro) : Prop :=
  (net block).msb = false ∧ ∀ r, ∀ n ∈ sinceLoad r block, n.msb = false

/-- Every block rises. A block ends where `vsp` is set from a register and at the end of the
opcodes. -/
def Rising : List Micro → List EhabiOp → Prop
  | block, [] => RisingBlock block
  | block, op :: ops =>
    match op.base with
    | none => Rising (block ++ op.micros) ops
    | some _ =>
      ((∃ r, Micro.load r ∈ block ++ op.micros) → RisingBlock (block ++ op.micros)) ∧ Rising [] ops

/-- `vsp` is not set from a register: the opcodes are one block. -/
def OneBlock (ops : List EhabiOp) : Prop := ∀ op ∈ ops, op.base = none

/-! ### Deciding -/

instance : Fintype Reg where
  elems := {.r4, .r7, .r10, .r11, .sp, .pc, .lr}
  complete r := by cases r <;> decide

theorem risingBlock_iff (block : List Micro) :
    ((net block).msb = false ∧ ∀ r, (sinceLoad r block).all (fun n => !n.msb)) ↔
      RisingBlock block := by
  refine and_congr_right fun _ => forall_congr' fun r => ?_
  cases sinceLoad r block <;> simp

-- the distances are looked up: there is no search through all words
instance (block : List Micro) : Decidable (RisingBlock block) :=
  decidable_of_iff _ (risingBlock_iff block)

instance decidableRising : (block : List Micro) → (ops : List EhabiOp) →
    Decidable (Rising block ops)
  | block, [] => inferInstanceAs (Decidable (RisingBlock block))
  | block, op :: ops =>
    match h : op.base with
    | none =>
      have := decidableRising (block ++ op.micros) ops
      decidable_of_iff (Rising (block ++ op.micros) ops) (by simp [Rising, h])
    | some r =>
      have := decidableRising [] ops
      decidable_of_iff (((∃ r, Micro.load r ∈ block ++ op.micros) →
        RisingBlock (block ++ op.micros)) ∧ Rising [] ops) (by simp [Rising, h])

end TraceHarbor.Backtrace
