import TraceHarbor.Backtrace.QuickenTable

/-!
# What Quicken Instructions Mean

The meaning of an instruction list, independent of its encoding: the instructions are executed one
after another on the registers, the canonical frame address `vsp` and the stack. This file also says
which instructions survive encoding and decoding.
-/

namespace TraceHarbor.Backtrace

open Lib

/-! ## Meaning -/

/-- The register that an operation loads from the stack. Operations on the registers of the other
word size load nothing. -/
def loadTarget : Arch → QutOp → Option Reg
  | .arm32, .r4Offset => some .r4
  | .arm32, .r7Offset => some .r7
  | .arm32, .r10Offset => some .r10
  | .arm32, .r11Offset => some .r11
  | .arm64, .x20Offset => some .x20
  | .arm64, .x28Offset => some .x28
  | .arm64, .x29Offset => some .x29
  | _, .spOffset => some .sp
  | _, .lrOffset => some .lr
  | _, .pcOffset => some .pc
  | _, _ => none

/-- The register from which an operation sets `vsp`. -/
def vspBase : Arch → QutOp → Option Reg
  | .arm32, .vspSetByR7 => some .r7
  | .arm32, .vspSetByR11 => some .r11
  | .arm64, .vspSetByX29 => some .x29
  | _, .vspSetBySp => some .sp
  | .arm32, .vspSetByJniSp => some .r10
  | .arm64, .vspSetByJniSp => some .x28
  | _, _ => none

def dexPcReg : Arch → Reg
  | .arm32 => .r4
  | .arm64 => .x20

/-- The effect of one instruction: a word that cannot be read, the next machine, or the end. -/
inductive Effect (a : Arch) where
  | unreadable
  | next (m : Machine a)
  | stop (m : Machine a)

variable {a : Arch}

def QutInstruction.exec (i : QutInstruction) (ctx : StepContext a) (m : Machine a) : Effect a :=
  match vspBase a i.op, loadTarget a i.op, i.op with
  | some base, _, _ => .next (m.setCfa (m.regs base + BitVec.ofInt _ i.imm))
  | none, some r, op =>
    match ctx.readStack (m.cfa - BitVec.ofInt _ i.imm) with
    | none => .unreadable
    | some v => .next { m.setReg r v with pcSet := m.pcSet || op = .pcOffset }
  | none, none, .vspOffset => .next (m.setCfa (m.cfa + BitVec.ofInt _ i.imm))
  | none, none, .vspSetImm => .next (m.setCfa (BitVec.ofInt _ i.imm))
  | none, none, .dexPcSet => .next (m.setDexPc (m.regs (dexPcReg a)))
  | none, none, .endOfIns => .stop m
  | none, none, .fin => .stop m.finish
  | none, none, _ => .next m

/-- The instructions one after another; `none` when a word cannot be read. -/
def execAll (ctx : StepContext a) : List QutInstruction → Machine a → Option (Machine a)
  | [], m => some m
  | i :: rest, m =>
    match i.exec ctx m with
    | .unreadable => none
    | .next m' => execAll ctx rest m'
    | .stop m' => some m'

/-! ## What the byte code keeps -/

/-- The immediates that an instruction on its own keeps:
* a short negative `vsp` offset is stored modulo 256 where the decoder expects its absolute value;
* `vsp = x29 + SLEB128` also sets the dex pc, for want of a `break`;
* the seven bits of a `vspSetByJniSp` hold no negative and no larger immediate;
* `vspSetBySp` has no immediate, and is not encoded for 64 bits. -/
def Keeps (a : Arch) (i : QutInstruction) : Prop :=
  match a, i.op with
  | _, .vspOffset => 0 ≤ i.imm ∨ i.imm = -128 ∨ i.imm < -252
  | .arm64, .vspSetByX29 => 0 ≤ i.imm ∧ i.imm ≤ 508
  | _, .vspSetByJniSp => 0 ≤ i.imm ∧ i.imm ≤ 508
  | .arm32, .vspSetBySp => i.imm = 0
  | .arm64, .vspSetBySp => False
  | _, _ => True

/-- A prologue that is contracted has the frame of two words that its one byte stands for. -/
def KeepsPrologue (a : Arch) (i : QutInstruction) (rest : List QutInstruction) : Prop :=
  match contracted a i rest, rest with
  | some _, vsp :: _ => vsp.imm = 2 * a.wordBytes
  | _, _ => True

/-- `Decode64` takes a zero that the long form loads into `x29` for the end of the stack: nothing
may follow it. -/
def KeepsFrame (i : QutInstruction) (ctx : StepContext a) (m : Machine a)
    (rest : List QutInstruction) : Prop :=
  a = .arm64 → i.op = .x29Offset → ¬ (0 ≤ i.imm ∧ i.imm ≤ 60) →
    ctx.readStack (m.cfa - BitVec.ofInt _ i.imm) = some 0 → rest = []

/-- No instruction that is executed falls to one of the slips. -/
def Kept (ctx : StepContext a) : List QutInstruction → Machine a → Prop
  | [], _ => True
  | i :: rest, m => Keeps a i ∧ KeepsPrologue a i rest ∧ KeepsFrame i ctx m rest ∧
    match i.exec ctx m with
    | .next m' => Kept ctx rest m'
    | _ => True

/-! ### Deciding -/

theorem keeps_iff (a : Arch) (i : QutInstruction) :
    ((i.op = .vspOffset → 0 ≤ i.imm ∨ i.imm = -128 ∨ i.imm < -252) ∧
      (a = .arm64 ∧ i.op = .vspSetByX29 ∨ i.op = .vspSetByJniSp → 0 ≤ i.imm ∧ i.imm ≤ 508) ∧
      (i.op = .vspSetBySp → a = .arm32 ∧ i.imm = 0)) ↔ Keeps a i := by
  cases a <;> cases hop : i.op <;> simp [Keeps, hop]

instance (a : Arch) (i : QutInstruction) : Decidable (Keeps a i) :=
  decidable_of_iff _ (keeps_iff a i)

theorem keepsPrologue_iff (a : Arch) (i : QutInstruction) (rest : List QutInstruction) :
    (contracted a i rest ≠ none → ∀ vsp ∈ rest.head?, vsp.imm = 2 * a.wordBytes) ↔
      KeepsPrologue a i rest := by
  cases hcon : contracted a i rest <;> cases rest <;> simp [KeepsPrologue, hcon]

instance (a : Arch) (i : QutInstruction) (rest : List QutInstruction) :
    Decidable (KeepsPrologue a i rest) :=
  decidable_of_iff _ (keepsPrologue_iff a i rest)

instance (i : QutInstruction) (ctx : StepContext a) (m : Machine a) (rest : List QutInstruction) :
    Decidable (KeepsFrame i ctx m rest) :=
  inferInstanceAs (Decidable (_ → _ → _ → _ → _))

instance decidableKept (ctx : StepContext a) : (is : List QutInstruction) → (m : Machine a) →
    Decidable (Kept ctx is m)
  | [], _ => isTrue trivial
  | i :: is, m =>
    have : Decidable (match i.exec ctx m with
        | .next m' => Kept ctx is m'
        | _ => True) :=
      match i.exec ctx m with
      | .next m' => decidableKept ctx is m'
      | .unreadable => isTrue trivial
      | .stop _ => isTrue trivial
    inferInstanceAs (Decidable (Keeps a i ∧ KeepsPrologue a i is ∧ KeepsFrame i ctx m is ∧ _))

end TraceHarbor.Backtrace
