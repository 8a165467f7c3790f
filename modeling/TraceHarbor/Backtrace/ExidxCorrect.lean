import TraceHarbor.Backtrace.ExidxOpcodes

/-!
# Compiled Unwind Opcodes Do What the Opcodes Do

The instruction words that `ExidxDecoder::Eval` emits agree with the opcodes executed one by one, as
long as every block of opcodes rises: a word is joined from an operation and a sign-extended immediate,
so a negative immediate overwrites the operation.
-/

namespace TraceHarbor.Backtrace

open Lib List Option BitVec

/-! ## Words -/

section Words

variable {op : QutOp} {imm : Word .arm32}

theorem toNat_instrWord (hop : op.code < 2 ^ 32) (h : imm.msb = false) :
    (instrWord op imm).toNat = 2 ^ 32 * op.code + imm.toNat := by
  have himm : imm.toNat < 2 ^ 32 := imm.isLt
  rw [instrWord, signExtend_eq_setWidth_of_msb_false h, toNat_or,
    toNat_shiftLeft, toNat_ofNat, toNat_setWidth,
    Nat.mod_eq_of_lt (show op.code < 2 ^ 64 by omega),
    Nat.mod_eq_of_lt (show imm.toNat < 2 ^ 64 by omega), Nat.shiftLeft_eq,
    Nat.mod_eq_of_lt (show op.code * 2 ^ 32 < 2 ^ 64 by omega), Nat.mul_comm]
  exact (Nat.two_pow_add_eq_or_of_lt himm _).symm

theorem ofWord_instrWord (op : QutOp) (imm : Word .arm32) (hop : op.code < 2 ^ 32)
    (hcode : .ofCode op.code = op)
    (h : imm.msb = false) :
    (QutInstruction.ofWord (instrWord op imm)).op = op ∧
      BitVec.ofInt (8 * Arch.arm32.wordBytes) (QutInstruction.ofWord (instrWord op imm)).imm =
        imm := by
  have himm : imm.toNat < 2 ^ 32 := imm.isLt
  have hnat := toNat_instrWord hop h
  constructor
  · have hhigh : (instrWord op imm >>> 32).toNat = op.code := by
      rw [toNat_ushiftRight]
      omega
    rw [QutInstruction.ofWord, hhigh, hcode]
  · rw [QutInstruction.ofWord, ofInt_toInt]
    apply eq_of_toNat_eq
    rw [toNat_setWidth, hnat]
    exact (Nat.mul_add_mod ..).trans (Nat.mod_eq_of_lt himm)

theorem ushiftRight_or_signExtend (high : BitVec 64) {low : BitVec 32} (h : low.msb = true) :
    (high <<< 32 ||| low.signExtend 64) >>> 32 = (BitVec.allOnes 32).setWidth 64 := by
  apply eq_of_getLsbD_eq
  intro i hi
  rw [getLsbD_ushiftRight, getLsbD_or, getLsbD_signExtend,
    getLsbD_setWidth, getLsbD_allOnes, if_neg (by omega), h]
  rcases Nat.lt_or_ge i 32 with hlow | hlow
  · have hin : 32 + i < 64 := by omega
    simp [hi, hlow, hin]
  · have hout : ¬ 32 + i < 64 := by omega
    have hhigh : ¬ i < 32 := by omega
    simp [hout, hhigh]

/-- The sign of a negative immediate overwrites the operation. -/
theorem op_ofWord_instrWord_of_msb (h : imm.msb = true) :
    (QutInstruction.ofWord (instrWord op imm)).op = .other 0xffffffff := by
  have hhigh : instrWord op imm >>> 32 = (BitVec.allOnes 32).setWidth 64 :=
    ushiftRight_or_signExtend _ h
  rw [QutInstruction.ofWord, hhigh]
  rfl

end Words

/-! ## Execution of the emitted words -/

def fullStack (mem : Word .arm32 → Word .arm32) : StepContext .arm32 where
  stackTop := BitVec.allOnes _
  stackBottom := 0
  memory := mem

def execWords (mem : Word .arm32 → Word .arm32) (words : List (BitVec 64)) (m : Machine .arm32) :
    Option (Machine .arm32) :=
  execAll (fullStack mem) (words.map QutInstruction.ofWord) m

variable {op : QutOp} {r : Reg}

section Words

variable {mem : Word .arm32 → Word .arm32}

@[simp]
theorem readStack_fullStack (addr : Word .arm32) :
    (fullStack mem).readStack addr = some (mem addr) := by
  have htop : ¬ BitVec.allOnes _ < addr := not_allOnes_lt
  have hbott : ¬ addr < 0 := not_lt_zero
  exact if_neg (not_or_intro htop hbott)

theorem execWords_cons_of_next {w : BitVec 64} {m m' : Machine .arm32} (words : List (BitVec 64))
    (h : (QutInstruction.ofWord w).exec (fullStack mem) m = .next m') :
    execWords mem (w :: words) m = execWords mem words m' := by
  rw [execWords, map_cons, execAll, h]
  rfl

/-- A word with a negative immediate does nothing. -/
theorem exec_instrWord_of_msb {imm : Word .arm32} (h : imm.msb = true) (m : Machine .arm32) :
    (QutInstruction.ofWord (instrWord op imm)).exec (fullStack mem) m = .next m := by
  simp [QutInstruction.exec, op_ofWord_instrWord_of_msb h, vspBase, loadTarget]

theorem exec_vspOffset (imm : Word .arm32) (m : Machine .arm32) :
    (QutInstruction.ofWord (instrWord .vspOffset imm)).exec (fullStack mem) m =
      .next (m.setCfa (if imm.msb then m.cfa else m.cfa + imm)) := by
  cases h : imm.msb with
  | true => exact exec_instrWord_of_msb h m
  | false =>
    obtain ⟨hop, himm⟩ := ofWord_instrWord .vspOffset imm (by decide) rfl h
    simp [QutInstruction.exec, hop, himm, vspBase, loadTarget]

theorem exec_vspSetBy (hop : op.code < 2 ^ 32) (hcode : .ofCode op.code = op)
    (hbase : vspBase .arm32 op = some r) (m : Machine .arm32) :
    (QutInstruction.ofWord (instrWord op 0)).exec (fullStack mem) m =
      .next (m.setCfa (m.regs r)) := by
  obtain ⟨hop, himm⟩ := ofWord_instrWord op 0 hop hcode rfl
  simp only [QutInstruction.exec, hop, himm, hbase]
  exact congrArg (fun v => Effect.next (m.setCfa v)) (add_zero _)

theorem exec_offsetOp (r : Reg) (imm : Word .arm32) (m : Machine .arm32) :
    (QutInstruction.ofWord (instrWord r.offsetOp imm)).exec (fullStack mem) m =
      .next (if imm.msb then m
        else { m.setReg r (mem (m.cfa - imm)) with pcSet := m.pcSet || r = .pc }) := by
  cases h : imm.msb with
  | true => exact exec_instrWord_of_msb h m
  | false =>
    obtain ⟨hop, himm⟩ :=
      ofWord_instrWord r.offsetOp imm (by cases r <;> decide) (by cases r <;> rfl) h
    have hbase : vspBase .arm32 r.offsetOp = none := by cases r <;> rfl
    have htgt : loadTarget .arm32 r.offsetOp = some r := by cases r <;> rfl
    have hpc : r.offsetOp = .pcOffset ↔ r = .pc := by cases r <;> decide
    simp [QutInstruction.exec, hop, himm, hbase, htgt, hpc]

end Words

/-! ### Flushing -/

namespace ExidxContext

variable (c : ExidxContext)

theorem insertReg_perm (r : Reg) (sorted : List Reg) :
    (c.insertReg r sorted).Perm (r :: sorted) := by
  induction sorted with
  | nil => exact .refl _
  | cons s sorted ih =>
    rw [insertReg]
    split
    · exact .refl _
    · exact (ih.cons s).trans (.swap r s sorted)

theorem foldl_insertReg_perm (rs sorted : List Reg) :
    (rs.foldl (fun sorted r => c.insertReg r sorted) sorted).Perm (rs ++ sorted) := by
  induction rs generalizing sorted with
  | nil => exact .refl _
  | cons r rs ih =>
    exact (ih _).trans (((c.insertReg_perm r sorted).append_left rs).trans perm_middle)

theorem sortedRegs_perm : c.sortedRegs.Perm (Reg.minimal.filter c.transformed) := by
  have h := c.foldl_insertReg_perm (Reg.minimal.filter c.transformed) []
  rwa [append_nil] at h

theorem nodup_sortedRegs : c.sortedRegs.Nodup :=
  c.sortedRegs_perm.nodup_iff.mpr (.filter _ (by decide))

theorem mem_minimal (r : Reg) : r ∈ Reg.minimal := by
  cases r <;> decide

theorem mem_sortedRegs : r ∈ c.sortedRegs ↔ c.transformed r = true := by
  rw [c.sortedRegs_perm.mem_iff, mem_filter]
  exact and_iff_right (mem_minimal r)

section Flush

variable (mem : Word .arm32 → Word .arm32)

/-- The machine after the loads of some registers, each from its own distance below `vsp`. -/
def loaded (rs : List Reg) (m : Machine .arm32) : Machine .arm32 :=
  { m with
    regs := fun r => if r ∈ rs ∧ (c.regs r).msb = false then mem (m.cfa - c.regs r) else m.regs r
    pcSet := m.pcSet || (Reg.pc ∈ rs ∧ (c.regs .pc).msb = false : Bool) }

theorem execWords_loads {rs : List Reg} (hrs : rs.Nodup) (words : List (BitVec 64))
    (m : Machine .arm32) :
    execWords mem (rs.map (fun r => instrWord r.offsetOp (c.regs r)) ++ words) m =
      execWords mem words (c.loaded mem rs m) := by
  induction rs generalizing m with
  | nil => simp [loaded]
  | cons r rs ih =>
    obtain ⟨hr, hrs⟩ := nodup_cons.mp hrs
    rw [List.map_cons, List.cons_append, execWords_cons_of_next _ (exec_offsetOp r _ m), ih hrs]
    congr 1
    cases hmsb : (c.regs r).msb with
    | true =>
      refine Machine.ext rfl (funext fun s => ?_) rfl ?_
      · simp only [loaded, if_true, mem_cons]
        by_cases hs : s = r
        · simp [hs, hmsb]
        · simp [hs]
      · simp only [loaded, if_true, mem_cons]
        by_cases hs : Reg.pc = r
        · simp [hs, hmsb]
        · simp [hs]
    | false =>
      refine Machine.ext rfl (funext fun s => ?_) rfl ?_
      · simp only [loaded, Bool.false_eq_true, if_false, mem_cons, Machine.setReg]
        by_cases hs : s = r
        · simp [hs, hmsb, hr]
        · simp [hs]
      · simp only [loaded, Bool.false_eq_true, if_false, mem_cons]
        by_cases hs : Reg.pc = r
        · simp [← hs, hs ▸ hmsb]
        · simp [hs, Ne.symm hs]

/-- The machine after the words of a flush. Words with a negative immediate have no effect. -/
def settle (m : Machine .arm32) : Machine .arm32 :=
  let m := c.loaded mem c.sortedRegs (m.setCfa (if c.vsp.msb then m.cfa else m.cfa + c.vsp))
  if c.transformed .sp then m.setCfa (m.regs .sp) else m

theorem execWords_flushed (words : List (BitVec 64)) (m : Machine .arm32) :
    execWords mem (c.flushed ++ words) m = execWords mem words (c.settle mem m) := by
  have hvsp : ∀ words, execWords mem
      ((if c.vsp ≠ 0 then [instrWord .vspOffset c.vsp] else []) ++ words) m =
      execWords mem words (m.setCfa (if c.vsp.msb then m.cfa else m.cfa + c.vsp)) := by
    intro words
    by_cases h : c.vsp = 0
    · simp [h, Machine.setCfa]
    · rw [if_pos h]
      exact execWords_cons_of_next _ (exec_vspOffset _ m)
  rw [flushed, List.append_assoc, List.append_assoc, hvsp, execWords_loads c mem c.nodup_sortedRegs,
    settle]
  cases c.transformed .sp with
  | false => rfl
  | true =>
    exact execWords_cons_of_next _ (exec_vspSetBy (by decide) rfl rfl _)

end Flush

end ExidxContext

/-! ## Blocks -/

section Blocks

theorem vsp_foldl_note (block : List Micro) (c : ExidxContext) :
    (block.foldl Micro.note c).vsp = c.vsp + net block := by
  induction block generalizing c with
  | nil => exact (add_zero _).symm
  | cons i block ih =>
    rw [foldl_cons, ih]
    cases i with
    | move n => exact add_assoc _ _ _
    | load r => rfl

theorem transformed_foldl_note (block : List Micro) (c : ExidxContext) (r : Reg) :
    (block.foldl Micro.note c).transformed r =
      (c.transformed r || (sinceLoad r block).isSome) := by
  induction block generalizing c with
  | nil => exact (Bool.or_false _).symm
  | cons i block ih =>
    rw [foldl_cons, ih]
    cases i with
    | move n => rfl
    | load s =>
      rw [sinceLoad]
      by_cases hs : s = r
      · subst hs
        cases sinceLoad s block <;> simp [Micro.note, ExidxContext.transform]
      · cases sinceLoad r block <;> simp [Micro.note, ExidxContext.transform, hs, Ne.symm hs]

theorem regs_foldl_note (block : List Micro) (c : ExidxContext) (r : Reg) :
    (block.foldl Micro.note c).regs r = (sinceLoad r block).getD
      (if c.transformed r then c.regs r + net block else c.regs r) := by
  induction block generalizing c with
  | nil => simp [sinceLoad, net]
  | cons i block ih =>
    rw [foldl_cons, ih]
    cases i with
    | move n =>
      cases h : c.transformed r <;>
        simp [Micro.note, ExidxContext.addUpVSP, sinceLoad, net, h, add_assoc]
    | load s =>
      rw [sinceLoad]
      by_cases hs : s = r
      · subst hs
        cases sinceLoad s block <;> simp [Micro.note, ExidxContext.transform]
      · cases sinceLoad r block <;>
          simp [Micro.note, ExidxContext.transform, hs, Ne.symm hs, net]

def ExidxContext.ofBlock (block : List Micro) : ExidxContext := block.foldl Micro.note .reset

variable {block : List Micro} {mem : Word .arm32 → Word .arm32}

@[simp]
theorem vsp_ofBlock : (ExidxContext.ofBlock block).vsp = net block :=
  (vsp_foldl_note block _).trans (zero_add _)

@[simp]
theorem transformed_ofBlock (r : Reg) :
    (ExidxContext.ofBlock block).transformed r = (sinceLoad r block).isSome :=
  (transformed_foldl_note block _ r).trans (Bool.false_or _)

@[simp]
theorem regs_ofBlock (r : Reg) :
    (ExidxContext.ofBlock block).regs r = (sinceLoad r block).getD 0 :=
  regs_foldl_note block _ r

theorem sinceLoad_isSome_iff : (sinceLoad r block).isSome ↔ Micro.load r ∈ block := by
  induction block with
  | nil => simp [sinceLoad]
  | cons i block ih =>
    cases i with
    | move n => simp [sinceLoad, ih]
    | load s =>
      rw [sinceLoad, mem_cons, ← ih]
      cases sinceLoad r block with
      | some n => simp
      | none =>
        by_cases hs : s = r
        · simp [hs]
        · simp [hs, Ne.symm hs]

/-- **The meaning of a block**: every register that is loaded holds the word from which it was last
loaded, seen from where `vsp` ends. -/
theorem foldl_exec_eq (block : List Micro) (m : Machine .arm32) :
    block.foldl (Micro.exec mem) m =
      { m with
        cfa := m.cfa + net block
        regs := fun r =>
          match sinceLoad r block with
          | some n => mem (m.cfa + net block - n)
          | none => m.regs r
        pcSet := m.pcSet || (sinceLoad .pc block).isSome } := by
  induction block generalizing m with
  | nil => simp [sinceLoad, net]
  | cons i block ih =>
    rw [foldl_cons, ih]
    cases i with
    | move n =>
      refine Machine.ext (add_assoc _ _ _) (funext fun r => ?_) rfl rfl
      simp only [Micro.exec, Machine.setCfa, sinceLoad, net, add_assoc]
    | load s =>
      refine Machine.ext rfl (funext fun r => ?_) rfl ?_
      · simp only [Micro.exec, Machine.setReg, sinceLoad, net]
        cases sinceLoad r block with
        | some n => rfl
        | none =>
          by_cases hs : s = r
          · subst hs
            simp
          · simp [hs, Ne.symm hs]
      · simp only [Micro.exec, sinceLoad]
        cases sinceLoad .pc block with
        | some n => simp
        | none =>
          by_cases hs : s = .pc
          · simp [hs]
          · simp [hs]

theorem loaded_ofBlock (h : RisingBlock block) (m : Machine .arm32) :
    (ExidxContext.ofBlock block).loaded mem (ExidxContext.ofBlock block).sortedRegs
      (m.setCfa (if (ExidxContext.ofBlock block).vsp.msb then m.cfa
        else m.cfa + (ExidxContext.ofBlock block).vsp)) = block.foldl (Micro.exec mem) m := by
  obtain ⟨hnet, hloads⟩ := h
  rw [foldl_exec_eq, vsp_ofBlock, hnet]
  refine Machine.ext rfl (funext fun r => ?_) rfl ?_
  · have hr := hloads r
    simp only [ExidxContext.loaded, ExidxContext.mem_sortedRegs, transformed_ofBlock, regs_ofBlock]
    cases hsince : sinceLoad r block with
    | none => simp [Machine.setCfa]
    | some n => simp [Machine.setCfa, hr n hsince]
  · have hpc := hloads .pc
    simp only [ExidxContext.loaded, ExidxContext.mem_sortedRegs, transformed_ofBlock, regs_ofBlock]
    cases hsince : sinceLoad .pc block with
    | none => simp [Machine.setCfa]
    | some n => simp [Machine.setCfa, hpc n hsince]

/-- **One flush**: after a block that rises, the emitted words do what the block does; a pop of `sp`
in it sets `vsp`. -/
theorem settle_ofBlock (h : RisingBlock block) (m : Machine .arm32) :
    (ExidxContext.ofBlock block).settle mem m =
      if Micro.load .sp ∈ block then
        (block.foldl (Micro.exec mem) m).setCfa ((block.foldl (Micro.exec mem) m).regs .sp)
      else block.foldl (Micro.exec mem) m := by
  simp only [ExidxContext.settle, loaded_ofBlock h, transformed_ofBlock, sinceLoad_isSome_iff]

end Blocks

/-! ## The compilation -/

section Compilation

variable {mem : Word .arm32 → Word .arm32}

theorem trackedReg_eq_sp {n : ℕ} : trackedReg n = some .sp ↔ n = 13 := by
  constructor
  · intro h
    unfold trackedReg at h
    split at h <;> first | rfl | cases h
  · rintro rfl
    rfl

theorem load_sp_mem_micros_pop {regs : List ℕ} :
    Micro.load .sp ∈ (EhabiOp.pop regs).micros ↔ 13 ∈ regs := by
  have hpop : ∀ n, Micro.load .sp ∈ Micro.ofPop n ↔ n = 13 := by
    intro n
    rw [← trackedReg_eq_sp, Micro.ofPop]
    cases trackedReg n with
    | none => simp
    | some r => simp [eq_comm]
  simp [EhabiOp.micros, hpop]

theorem load_sp_notMem_micros {op : EhabiOp} (h : op.base = none) :
    Micro.load .sp ∉ op.micros := by
  cases op with
  | pop regs =>
    rw [load_sp_mem_micros_pop]
    intro hsp
    simp [EhabiOp.base, hsp] at h
  | vspAdd n | setVsp n | finish => simp [EhabiOp.micros]

variable {d d₁ : ExidxDecoder} {block : List Micro}

/-- The words do, in front of any others, what an opcode does after a block. -/
def Emits (words : List (BitVec 64)) (block : List Micro) (op : EhabiOp) : Prop :=
  ∀ mem rest m, execWords mem (words ++ rest) m =
    execWords mem rest (op.exec mem (block.foldl (Micro.exec mem) m))

theorem emits_pop {regs : List ℕ} (hregs : 13 ∈ regs)
    (hrise : RisingBlock (block ++ (EhabiOp.pop regs).micros)) :
    Emits (ExidxContext.ofBlock (block ++ (EhabiOp.pop regs).micros)).flushed block (.pop regs) := by
  intro mem rest m
  have hsp : Micro.load .sp ∈ block ++ (EhabiOp.pop regs).micros :=
    mem_append_right _ (load_sp_mem_micros_pop.mpr hregs)
  rw [ExidxContext.execWords_flushed, settle_ofBlock hrise, if_pos hsp, foldl_append,
    EhabiOp.exec, EhabiOp.base, if_pos hregs]

theorem emits_setVsp {n : ℕ} (hop : op.code < 2 ^ 32) (hcode : .ofCode op.code = op)
    (hbase : vspBase .arm32 op = some r) (hreg : trackedReg n = some r) (hrise : RisingBlock block)
    (hsp : Micro.load .sp ∉ block) :
    Emits ((ExidxContext.ofBlock block).flushed ++ [instrWord op 0]) block (.setVsp n) := by
  intro mem rest m
  rw [List.append_assoc, ExidxContext.execWords_flushed, settle_ofBlock hrise, if_neg hsp,
    singleton_append, execWords_cons_of_next _ (exec_vspSetBy hop hcode hbase _), EhabiOp.exec,
    EhabiOp.base, hreg]
  rfl

theorem emits_setVsp_of_no_load {n : ℕ} (hop : op.code < 2 ^ 32) (hcode : .ofCode op.code = op)
    (hbase : vspBase .arm32 op = some r) (hreg : trackedReg n = some r)
    (hloads : ¬ ∃ r, Micro.load r ∈ block) : Emits [instrWord op 0] block (.setVsp n) := by
  intro mem rest m
  have hnone : ∀ r, sinceLoad r block = none := by
    intro r
    rw [← not_isSome_iff_eq_none, sinceLoad_isSome_iff]
    exact fun h => hloads ⟨r, h⟩
  rw [singleton_append, execWords_cons_of_next _ (exec_vspSetBy hop hcode hbase _),
    EhabiOp.exec, EhabiOp.base, hreg, EhabiOp.micros, foldl_nil, foldl_exec_eq]
  simp [hnone, Machine.setCfa]

theorem any_transformed_ofBlock :
    Reg.minimal.any (ExidxContext.ofBlock block).transformed = true ↔
      ∃ r, Micro.load r ∈ block := by
  simp [List.any_eq_true, ExidxContext.mem_minimal, sinceLoad_isSome_iff]

theorem setVsp_emits {n : ℕ} (hop : op = .vspSetByR7 ∨ op = .vspSetByR11)
    (hbase : vspBase .arm32 op = some r) (hreg : trackedReg n = some r)
    (hctx : d.context = .ofBlock block) (hsp : Micro.load .sp ∉ block)
    (hrise : (∃ r, Micro.load r ∈ block) → RisingBlock block) (h : d.setVsp op = some (true, d₁)) :
    d₁.context = .ofBlock [] ∧
      ∃ words, d₁.instructions = d.instructions ++ words ∧ Emits words block (.setVsp n) := by
  have hcode : op.code < 2 ^ 32 ∧ .ofCode op.code = op := by
    rcases hop with rfl | rfl <;> exact ⟨by decide, rfl⟩
  obtain ⟨d₂, hsave, heq⟩ := map_eq_some_iff.mp h
  cases heq
  rw [ExidxDecoder.eq_of_saveInstructions hsave, if_pos hop, hctx]
  refine ⟨rfl, ?_⟩
  by_cases hloads : ∃ r, Micro.load r ∈ block
  · rw [if_pos (any_transformed_ofBlock.mpr hloads), hctx]
    exact ⟨_, rfl, emits_setVsp hcode.1 hcode.2 hbase hreg (hrise hloads) hsp⟩
  · rw [if_neg (any_transformed_ofBlock.not.mpr hloads)]
    exact ⟨_, rfl, emits_setVsp_of_no_load hcode.1 hcode.2 hbase hreg hloads⟩

/-- **One opcode** either joins the open block or ends it; then the block and the opcode are
emitted, rightly if the block rises. -/
theorem compile_emits {op : EhabiOp} {rest : List ℕ} (hctx : d.context = .ofBlock block)
    (hsp : Micro.load .sp ∉ block) (h : { d with data := rest }.compile op = some (true, d₁))
    (hrise : op.base ≠ none → (∃ r, Micro.load r ∈ block ++ op.micros) →
      RisingBlock (block ++ op.micros)) :
    (op.base = none ∧ d₁.context = .ofBlock (block ++ op.micros) ∧
      d₁.instructions = d.instructions) ∨
    (op.base ≠ none ∧ d₁.context = .ofBlock [] ∧
      ∃ words, d₁.instructions = d.instructions ++ words ∧ Emits words block op) := by
  have hnote : ∀ op : EhabiOp, op.micros.foldl Micro.note d.context =
      .ofBlock (block ++ op.micros) := by
    intro op
    rw [hctx, ExidxContext.ofBlock, ExidxContext.ofBlock, foldl_append]
  cases op with
  | vspAdd n =>
    cases h
    exact .inl ⟨rfl, hnote _, rfl⟩
  | pop regs =>
    simp only [ExidxDecoder.compile] at h
    by_cases hregs : 13 ∈ regs
    · have hbase : (EhabiOp.pop regs).base = some .sp := if_pos hregs
      rw [if_pos hregs] at h
      obtain ⟨d₂, hsave, heq⟩ := map_eq_some_iff.mp h
      cases heq
      rw [ExidxDecoder.eq_of_saveInstructions hsave, if_neg (by decide), append_nil]
      refine .inr ⟨by simp [hbase], rfl, _, ?_, emits_pop hregs (hrise (by simp [hbase])
        ⟨.sp, mem_append_right _ (load_sp_mem_micros_pop.mpr hregs)⟩)⟩
      rw [← hnote]
      rfl
    · rw [if_neg hregs] at h
      cases h
      exact .inl ⟨if_neg hregs, hnote _, rfl⟩
  | setVsp n =>
    simp only [EhabiOp.micros, append_nil] at hrise
    simp only [ExidxDecoder.compile] at h
    split at h
    · subst n
      exact .inr ⟨by decide, setVsp_emits (d := { d with data := rest }) (.inl rfl) rfl rfl hctx hsp
        (hrise (by decide)) h⟩
    · split at h
      · subst n
        exact .inr ⟨by decide, setVsp_emits (d := { d with data := rest }) (.inr rfl) rfl rfl hctx
          hsp (hrise (by decide)) h⟩
      · cases h
  | finish => cases h

/-- **All opcodes**: when every block rises, the emitted words do what the opcodes do. -/
theorem execWords_compiles {ops : List EhabiOp} (hcomp : ExidxDecoder.Compiles ops d d₁)
    (block : List Micro) (hctx : d.context = .ofBlock block) (hsp : Micro.load .sp ∉ block)
    (hrise : Rising block ops) :
    ∃ words, d₁.instructions ++ d₁.context.flushed = d.instructions ++ words ∧
      ∀ mem m, execWords mem words m =
        some (ehabiRun mem ops (block.foldl (Micro.exec mem) m)) := by
  induction hcomp generalizing block with
  | nil d =>
    refine ⟨_, rfl, fun mem m => ?_⟩
    have h := d.context.execWords_flushed mem [] m
    rw [append_nil] at h
    rw [h, hctx, settle_ofBlock hrise, if_neg hsp]
    rfl
  | @cons op ops d d₂ d₁ rest hop hops ih =>
    have hends : op.base ≠ none → (∃ r, Micro.load r ∈ block ++ op.micros) →
        RisingBlock (block ++ op.micros) := by
      intro hbase
      obtain ⟨r, hr⟩ := ne_none_iff_exists'.mp hbase
      rw [Rising, hr] at hrise
      exact hrise.1
    rcases compile_emits hctx hsp hop hends with ⟨hbase, hctx₂, hins⟩ |
      ⟨hbase, hctx₂, words, hins, hem⟩
    · -- the opcode joins the block
      have hsp₂ : Micro.load .sp ∉ block ++ op.micros := by
        rw [mem_append]
        exact not_or_intro hsp (load_sp_notMem_micros hbase)
      rw [Rising, hbase] at hrise
      obtain ⟨words, hwords, hrun⟩ := ih _ hctx₂ hsp₂ hrise
      refine ⟨words, hins ▸ hwords, fun mem m => ?_⟩
      rw [hrun, foldl_append, ehabiRun, ehabiRun, foldl_cons, EhabiOp.exec, hbase]
    · -- the opcode ends the block
      obtain ⟨r, hr⟩ := ne_none_iff_exists'.mp hbase
      rw [Rising, hr] at hrise
      obtain ⟨words₂, hwords, hrun⟩ := ih [] hctx₂ not_mem_nil hrise.2
      refine ⟨words ++ words₂, ?_, fun mem m => ?_⟩
      · rw [hwords, hins, List.append_assoc]
      · rw [hem, hrun]
        rfl

/-! ### One block -/

/-- `vsp` and the registers that the unwinding needs are the same on both sides, on every stack. -/
def Agrees (words : List (BitVec 64)) (ops : List EhabiOp) : Prop :=
  ∀ mem m, ∃ m', execWords mem words m = some m' ∧ m'.cfa = (ehabiRun mem ops m).cfa ∧
    ∀ r, r ≠ .sp → m'.regs r = (ehabiRun mem ops m).regs r

theorem compiles_oneBlock {ops : List EhabiOp} (hcomp : ExidxDecoder.Compiles ops d d₁)
    (hone : OneBlock ops) (block : List Micro) (hctx : d.context = .ofBlock block)
    (hsp : Micro.load .sp ∉ block) :
    ∃ block', d₁.context = .ofBlock block' ∧ d₁.instructions = d.instructions ∧
      Micro.load .sp ∉ block' ∧ (Rising block ops ↔ RisingBlock block') ∧
      ∀ mem m, ehabiRun mem ops (block.foldl (Micro.exec mem) m) =
        block'.foldl (Micro.exec mem) m := by
  induction hcomp generalizing block with
  | nil d => exact ⟨block, hctx, rfl, hsp, .rfl, fun _ _ => rfl⟩
  | @cons op ops d d₂ d₁ rest hop hops ih =>
    obtain ⟨hbase, hone⟩ := forall_mem_cons.mp hone
    rcases compile_emits hctx hsp hop (absurd hbase) with ⟨-, hctx₂, hins⟩ | ⟨hends, -⟩
    · have hsp₂ : Micro.load .sp ∉ block ++ op.micros := by
        rw [mem_append]
        exact not_or_intro hsp (load_sp_notMem_micros hbase)
      obtain ⟨block', hblk', hins', hsp', hrise, hrun⟩ := ih hone _ hctx₂ hsp₂
      refine ⟨block', hblk', hins'.trans hins, hsp', ?_, fun mem m => ?_⟩
      · rw [Rising, hbase]
        exact hrise
      · rw [← hrun, foldl_append, ehabiRun, ehabiRun, foldl_cons, EhabiOp.exec, hbase]
    · exact absurd hbase hends

/-- A block that does not rise is not flushed rightly: the word for `vsp` or for a register does
nothing. -/
theorem risingBlock_of_settle (hsp : Micro.load .sp ∉ block)
    (h : ∀ mem m, ((ExidxContext.ofBlock block).settle mem m).cfa =
        (block.foldl (Micro.exec mem) m).cfa ∧
      ∀ r, r ≠ .sp → ((ExidxContext.ofBlock block).settle mem m).regs r =
        (block.foldl (Micro.exec mem) m).regs r) : RisingBlock block := by
  have hnosp : (sinceLoad .sp block).isSome = false := by
    rw [← Bool.not_eq_true, sinceLoad_isSome_iff]
    exact hsp
  constructor
  · by_contra hmsb
    rw [Bool.not_eq_false] at hmsb
    have hcfa := (h (fun _ => 0) ⟨0, fun _ => 0, 0, false⟩).1
    simp only [ExidxContext.settle, transformed_ofBlock, hnosp, Bool.false_eq_true, if_false,
      ExidxContext.loaded, vsp_ofBlock, foldl_exec_eq, hmsb, if_true, Machine.setCfa] at hcfa
    have hzero : net block = 0 := by simpa using hcfa.symm
    rw [hzero] at hmsb
    cases hmsb
  · intro r n hn
    by_contra hmsb
    -- the register keeps its value, whatever the word on the stack
    have hr : r ≠ .sp := by
      rintro rfl
      rw [mem_def.mp hn] at hnosp
      cases hnosp
    have hregs := (h (fun _ => 1) ⟨0, fun _ => 0, 0, false⟩).2 r hr
    simp only [ExidxContext.settle, transformed_ofBlock, hnosp, Bool.false_eq_true, if_false,
      ExidxContext.loaded, regs_ofBlock, mem_def.mp hn, foldl_exec_eq, getD_some, hmsb,
      and_false, Machine.setCfa] at hregs
    exact absurd hregs (by decide)

/-- **Compiled opcodes**: `Eval` returns on any bytes; when it ends at a `finish`, its instructions
do what the opcodes in front of it do if every block of these rises, and for opcodes of one block
only then. -/
theorem eval_agrees (data : List ℕ) (hdata : ∀ b ∈ data, b < 256) :
    ∃ finished d', (ExidxDecoder.ofData data).eval = some (finished, d') ∧
      (finished = true → ∃ ops, ehabiOps data = some ops ∧
        (Rising [] ops → Agrees d'.instructions ops) ∧
        (OneBlock ops → Agrees d'.instructions ops → Rising [] ops)) := by
  obtain ⟨finished, d', heval⟩ := ExidxDecoder.eval_isSome hdata
  refine ⟨finished, d', heval, ?_⟩
  rintro rfl
  obtain ⟨ops, d₁, hops, hcomp, hins⟩ := ExidxDecoder.eval_compiles hdata heval
  refine ⟨ops, hops, fun hrise => ?_, fun hone hagr => ?_⟩
  · obtain ⟨words, hwords, hrun⟩ := execWords_compiles hcomp [] rfl not_mem_nil hrise
    have hd' : d'.instructions = words := hins.trans hwords
    exact fun mem m => ⟨_, hd' ▸ hrun mem m, rfl, fun _ _ => rfl⟩
  · obtain ⟨block, hctx, hemp, hsp, hrise, hrun⟩ :=
      compiles_oneBlock hcomp hone [] rfl not_mem_nil
    rw [hrise]
    refine risingBlock_of_settle hsp fun mem m => ?_
    obtain ⟨m', hm', hsame⟩ := hagr mem m
    have hflush := (ExidxContext.ofBlock block).execWords_flushed mem [] m
    have hd' : d'.instructions = (ExidxContext.ofBlock block).flushed := by
      rw [hins, hemp, hctx]
      rfl
    rw [append_nil, ← hd', hm'] at hflush
    cases hflush
    rw [← hrun]
    exact hsame

/-- `vsp = r11; vsp -= 4; pop {r11, lr}`: a frame that is left through its frame pointer. -/
theorem eval_agrees_framePointer :
    ∃ d', (ExidxDecoder.ofData [0x9b, 0x40, 0x84, 0x80, 0xb0]).eval = some (true, d') ∧
      Rising [] [.setVsp 11, .vspAdd (-4), .pop [11, 14]] ∧
      Agrees d'.instructions [.setVsp 11, .vspAdd (-4), .pop [11, 14]] := by
  obtain ⟨finished, d', heval, hagr⟩ :=
    eval_agrees [0x9b, 0x40, 0x84, 0x80, 0xb0] (by decide)
  have hfin : (ExidxDecoder.ofData [0x9b, 0x40, 0x84, 0x80, 0xb0]).eval.map (·.1) =
      some true := by decide +kernel
  rw [heval] at hfin
  cases hfin
  obtain ⟨ops, hops, hris, -⟩ := hagr rfl
  have hread : ehabiOps [0x9b, 0x40, 0x84, 0x80, 0xb0] =
      some [.setVsp 11, .vspAdd (-4), .pop [11, 14]] := by decide +kernel
  cases hread.symm.trans hops
  have hrise : Rising [] [.setVsp 11, .vspAdd (-4), .pop [11, 14]] := by decide +kernel
  exact ⟨d', heval, hrise, hris hrise⟩

/-- `pop {r4, lr}; vsp -= 8`: the distance of `vsp` to the word of `lr` is negative, and `lr` is not
loaded. -/
theorem eval_loses_lr :
    ((ExidxDecoder.ofData [0xa8, 0x41, 0xb0]).eval.map fun (finished, d') =>
      (finished, (execWords (fun _ => 1) d'.instructions ⟨0x100, fun _ => 0, 0, false⟩).map
        fun m => m.regs .lr)) = some (true, some 0) ∧
      (ehabiOps [0xa8, 0x41, 0xb0]).map (fun ops =>
        (ehabiRun (fun _ => 1) ops ⟨0x100, fun _ => 0, 0, false⟩).regs .lr) = some 1 := by
  decide +kernel

end Compilation

end TraceHarbor.Backtrace
