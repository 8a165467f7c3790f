import TraceHarbor.Backtrace.QuickenSemantics

/-!
# Instructions and Their Bytes

One round of the decoder on the bytes of one instruction has the effect of the instruction, when the
byte code keeps it.
-/

namespace TraceHarbor.Backtrace

open Lib List Option

/-! ## Operands -/

section Operands

variable {a : Arch}

theorem withSLEB128_encode (i : QutInstruction) (rest : List ℕ) (m : Machine a)
    (k : ℤ → List ℕ → Round a) :
    withSLEB128 (encodeSLEB128 i.imm ++ rest) m k = k i.imm rest := by
  have hlow := i.imm_ge
  have hhigh := i.imm_lt
  have hdec : Sleb128.decode 0 0 (encodeSLEB128 i.imm ++ rest) = some (i.imm, rest) := by
    have h := Sleb128.decode_encode 4 0 (by decide) 0 i.imm (by omega) (by omega) rest
    simpa [encodeSLEB128] using h
  have hne : encodeSLEB128 i.imm ++ rest ≠ [] := fun hnil =>
    Sleb128.encode_ne_nil 4 i.imm (append_eq_nil_iff.mp hnil).1
  simp only [withSLEB128, hdec]

theorem imm_of_fill {imm : ℤ} {n : ℕ} (halign : imm % 4 = 0) (hlow : 0 ≤ imm)
    (hhigh : imm < 4 * 2 ^ n) : (((imm / 4 % 2 ^ n).toNat * 4 : ℕ) : ℤ) = imm := by
  have hmod : imm / 4 % 2 ^ n = imm / 4 := Int.emod_eq_of_lt (by omega) (by omega)
  omega

theorem ofNat_eq_ofInt {w n : ℕ} {imm : ℤ} (h : (n : ℤ) = imm) :
    BitVec.ofNat w n = BitVec.ofInt w imm := by
  rw [← h, BitVec.ofInt_natCast]

end Operands

/-! ## One instruction -/

variable {byte : ℕ} {bytes : List ℕ} {i : QutInstruction} {is : List QutInstruction}

section Step

variable {a : Arch} (ctx : StepContext a)

theorem decodeStep_default (hlow : 192 ≤ byte) (hhigh : byte < 256) (bytes : List ℕ) (m : Machine
      a) :
    decodeStep a ctx (byte :: bytes, m) = decodeDefault a ctx byte bytes m := by
  have hdiv : byte / 64 = 3 := by omega
  simp only [decodeStep, hdiv]

/-- The bytes of one instruction are executed as the instruction is. -/
def Executes (bytes : List ℕ) (i : QutInstruction) (m : Machine a) : Prop :=
  ∀ rest, match i.exec ctx m with
    | .unreadable => True
    | .next m' => (bytes = [] ∧ m' = m) ∨
      (bytes ≠ [] ∧ decodeStep a ctx (bytes ++ rest, m) = .inl (rest, m'))
    | .stop m' => decodeStep a ctx (bytes ++ rest, m) = .inr (some (.none, m'))

variable {ctx}

theorem executes_of_next {m m' : Machine a} (hexec : i.exec ctx m = .next m')
    (hstep : ∀ rest, decodeStep a ctx (byte :: (bytes ++ rest), m) = .inl (rest, m')) :
    Executes ctx (byte :: bytes) i m := by
  intro rest
  rw [hexec]
  exact .inr ⟨cons_ne_nil _ _, hstep rest⟩

theorem executes_vspOffset (hop : i.op = .vspOffset) (halign : i.imm % 4 = 0) (hkeeps : Keeps a i)
    (henc : encodeOne a i = some bytes) (m : Machine a) : Executes ctx bytes i m := by
  have hexec : i.exec ctx m = .next (m.setCfa (m.cfa + BitVec.ofInt _ i.imm)) := by
    cases a <;> simp [QutInstruction.exec, hop, vspBase, loadTarget]
  have hkeeps' : 0 ≤ i.imm ∨ i.imm = -128 ∨ i.imm < -252 := by
    cases a <;> simpa [Keeps, hop] using hkeeps
  have henc' : (if -immMax 6 ≤ i.imm ∧ i.imm ≤ immMax 6 then
      some [fillWithImm (if 0 < i.imm then 0 else 0x40) i.imm 6]
    else some (0xff :: encodeSLEB128 i.imm)) = some bytes := by
    cases a <;> simpa [encodeOne, hop] using henc
  by_cases hshort : -252 ≤ i.imm ∧ i.imm ≤ 252
  · rw [if_pos (by simpa [immMax] using hshort)] at henc'
    cases henc'
    refine executes_of_next hexec fun rest => ?_
    rw [nil_append]
    by_cases hpos : 0 < i.imm
    · -- a positive offset, in six bits
      have himm := imm_of_fill (n := 6) halign hpos.le (by omega)
      have hdiv : fillWithImm 0 i.imm 6 / 64 = 0 := by
        simp only [fillWithImm]
        omega
      rw [if_pos hpos]
      simp only [decodeStep, hdiv]
      rw [ofNat_eq_ofInt (n := fillWithImm 0 i.imm 6 * 4) (by simpa [fillWithImm] using himm)]
    · -- of the others only zero and -128 are their own complement
      rcases (by omega : i.imm = 0 ∨ i.imm = -128) with himm | himm
      · simp [himm, fillWithImm, decodeStep]
      · rw [himm]
        cases a <;> simp [fillWithImm, decodeStep, BitVec.sub_eq_add_neg] <;> rfl
  · rw [if_neg (by simpa [immMax] using hshort)] at henc'
    cases henc'
    refine executes_of_next hexec fun rest => ?_
    exact withSLEB128_encode ..

/-! ### Loads -/

variable {r : Reg}

theorem exec_load (hbase : vspBase a i.op = none) (hload : loadTarget a i.op = some r)
    (hpc : i.op ≠ .pcOffset) (m : Machine a) :
    i.exec ctx m =
      match ctx.readStack (m.cfa - BitVec.ofInt _ i.imm) with
      | none => .unreadable
      | some v => .next (m.setReg r v) := by
  rw [QutInstruction.exec, hbase, hload]
  simp only [hpc, decide_false, Bool.or_false]
  rfl

theorem executes_load (hbase : vspBase a i.op = none) (hload : loadTarget a i.op = some r)
    (hpc : i.op ≠ .pcOffset) {m : Machine a}
    (hstep : ∀ rest, decodeStep a ctx (byte :: (bytes ++ rest), m) =
      loadReg ctx (m.cfa - BitVec.ofInt _ i.imm) r rest m) : Executes ctx (byte :: bytes) i m := by
  intro rest
  rw [exec_load hbase hload hpc, cons_append, hstep, loadReg]
  cases ctx.readStack (m.cfa - BitVec.ofInt _ i.imm) with
  | none => trivial
  | some v => exact .inr ⟨cons_ne_nil _ _, rfl⟩

theorem loadNear_fill {pfx : ℕ} (hpfx : pfx % 16 = 0) {imm : ℤ} (halign : imm % 4 = 0)
    (hlow : 0 ≤ imm) (hhigh : imm ≤ 60) (r : Reg) (rest : List ℕ) (m : Machine a) :
    loadNear ctx (fillWithImm pfx imm 4) r rest m =
      loadReg ctx (m.cfa - BitVec.ofInt _ imm) r rest m := by
  have himm := imm_of_fill (n := 4) halign hlow (by omega)
  have hbits : fillWithImm pfx imm 4 % 16 = (imm / 4 % 2 ^ 4).toNat := by
    simp only [fillWithImm]
    omega
  rw [loadNear, hbits, ofNat_eq_ofInt himm]

theorem loadFar_encode (i : QutInstruction) (r : Reg) (rest : List ℕ) (m : Machine a) :
    loadFar ctx r (encodeSLEB128 i.imm ++ rest) m =
      loadReg ctx (m.cfa - BitVec.ofInt _ i.imm) r rest m := by
  rw [loadFar, withSLEB128_encode]

theorem executes_offset {pfx sleb : ℕ} (hbase : vspBase a i.op = none)
    (hload : loadTarget a i.op = some r) (hpc : i.op ≠ .pcOffset) (hpfx : pfx % 16 = 0)
    (halign : i.imm % 4 = 0) (m : Machine a)
    (hnear : ∀ byte, byte / 16 = pfx / 16 →
      ∀ rest m, decodeStep a ctx (byte :: rest, m) = loadNear ctx byte r rest m)
    (hfar : ¬ (0 ≤ i.imm ∧ i.imm ≤ 60) → ∀ rest,
      decodeStep a ctx (sleb :: (encodeSLEB128 i.imm ++ rest), m) =
        loadReg ctx (m.cfa - BitVec.ofInt _ i.imm) r rest m) :
    Executes ctx (encodeOffset pfx sleb i.imm) i m := by
  by_cases hshort : 0 ≤ i.imm ∧ i.imm ≤ 60
  · rw [encodeOffset, if_pos (by simpa [immMax] using hshort)]
    have hbyte : fillWithImm pfx i.imm 4 / 16 = pfx / 16 := by
      simp only [fillWithImm]
      omega
    refine executes_load hbase hload hpc fun rest => ?_
    rw [hnear _ hbyte, loadNear_fill hpfx halign hshort.1 hshort.2, nil_append]
  · rw [encodeOffset, if_neg (by simpa [immMax] using hshort)]
    exact executes_load hbase hload hpc (hfar hshort)

/-! The bytes of the decoder that load a register. -/

theorem decodeStep_a {ctx : StepContext .arm32} (hbyte : byte / 16 = 0xa) (rest : List ℕ)
    (m : Machine .arm32) :
    decodeStep .arm32 ctx (byte :: rest, m) = loadNear ctx byte .r4 rest m := by
  obtain ⟨k, hk, rfl⟩ : ∃ k < 16, byte = 0xa0 + k := ⟨byte - 0xa0, by omega, by omega⟩
  interval_cases k <;> rfl

theorem decodeStep_b (hbyte : byte / 16 = 0xb) (rest : List ℕ) (m : Machine a) :
    decodeStep a ctx (byte :: rest, m) = loadNear ctx byte .r7 rest m := by
  obtain ⟨k, hk, rfl⟩ : ∃ k < 16, byte = 0xb0 + k := ⟨byte - 0xb0, by omega, by omega⟩
  cases a <;> interval_cases k <;> rfl

theorem decodeStep_near {n : ℕ} (hreg : (n, r) ∈ [(0xc, Reg.r10), (0xd, .r11), (0xe, .lr)])
    (hbyte : byte / 16 = n) (rest : List ℕ) (m : Machine a) :
    decodeStep a ctx (byte :: rest, m) = loadNear ctx byte r rest m := by
  simp only [mem_cons, not_mem_nil, or_false, Prod.mk.injEq] at hreg
  rw [decodeStep_default ctx (by omega) (by omega)]
  unfold decodeDefault
  rcases hreg with ⟨rfl, rfl⟩ | ⟨rfl, rfl⟩ | ⟨rfl, rfl⟩ <;> simp only [hbyte]

theorem decodeStep_farFp {m : Machine a}
    (hzero : a = .arm64 → ctx.readStack (m.cfa - BitVec.ofInt _ i.imm) ≠ some 0) (rest : List ℕ) :
    decodeStep a ctx (0xfb :: (encodeSLEB128 i.imm ++ rest), m) =
      loadReg ctx (m.cfa - BitVec.ofInt _ i.imm) .r11 rest m := by
  cases a with
  | arm32 => exact loadFar_encode ..
  | arm64 =>
    have hstep : decodeStep .arm64 ctx (0xfb :: (encodeSLEB128 i.imm ++ rest), m) =
      loadFarFp .arm64 ctx (encodeSLEB128 i.imm ++ rest) m := rfl
    rw [hstep, loadFarFp, loadFar_encode, loadReg]
    cases hread : ctx.readStack (m.cfa - BitVec.ofInt _ i.imm) with
    | none => rfl
    | some v =>
      have hv : v ≠ 0 := fun hv => hzero rfl (hv ▸ hread)
      simpa [Machine.setReg] using hv

theorem decodeStep_farFp_zero {ctx : StepContext .arm64} {m : Machine .arm64}
    (hzero : ctx.readStack (m.cfa - BitVec.ofInt _ i.imm) = some 0) (rest : List ℕ) :
    decodeStep .arm64 ctx (0xfb :: (encodeSLEB128 i.imm ++ rest), m) =
      .inr (some (.none, m.setReg .x29 0)) := by
  have hstep : decodeStep .arm64 ctx (0xfb :: (encodeSLEB128 i.imm ++ rest), m) =
    loadFarFp .arm64 ctx (encodeSLEB128 i.imm ++ rest) m := rfl
  rw [hstep, loadFarFp, loadFar_encode, loadReg, hzero]
  simp [Machine.setReg]

theorem executes_pcOffset (hop : i.op = .pcOffset) (m : Machine a) :
    Executes ctx (0xfe :: encodeSLEB128 i.imm) i m := by
  have hexec : i.exec ctx m =
      match ctx.readStack (m.cfa - BitVec.ofInt _ i.imm) with
      | none => .unreadable
      | some v => .next { m.setReg .pc v with pcSet := true } := by
    cases a <;> simp [QutInstruction.exec, hop, vspBase, loadTarget] <;> rfl
  intro rest
  have hstep : decodeStep a ctx (0xfe :: (encodeSLEB128 i.imm ++ rest), m) =
      decodeDefault a ctx 0xfe (encodeSLEB128 i.imm ++ rest) m := rfl
  rw [hexec, cons_append, hstep, decodeDefault, loadFar_encode i .pc rest m, loadReg]
  cases ctx.readStack (m.cfa - BitVec.ofInt _ i.imm) with
  | none => trivial
  | some v => exact .inr ⟨cons_ne_nil _ _, rfl⟩

/-! ### Frame addresses from a register -/

theorem exec_vspBase (hbase : vspBase a i.op = some r) (m : Machine a) :
    i.exec ctx m = .next (m.setCfa (m.regs r + BitVec.ofInt _ i.imm)) := by
  rw [QutInstruction.exec, hbase]

theorem executes_setByImm (hbase : vspBase a i.op = some r) (halign : i.imm % 4 = 0)
    (hlow : 0 ≤ i.imm) (hhigh : i.imm ≤ 508) {m : Machine a}
    (hstep : ∀ rest, decodeStep a ctx (byte :: rest, m) = setByImm r rest m) :
    Executes ctx [byte, fillWithImm 0 i.imm 7] i m := by
  refine executes_of_next (exec_vspBase hbase m) fun rest => ?_
  have himm := imm_of_fill (n := 7) halign hlow (by omega)
  have hbits : fillWithImm 0 i.imm 7 % 128 = (i.imm / 4 % 2 ^ 7).toNat := by
    simp only [fillWithImm]
    omega
  rw [hstep, setByImm, singleton_append, withByte, hbits, ofNat_eq_ofInt himm]

theorem executes_setBy {plain : ℕ} {other : Option (List ℕ)} (hbase : vspBase a i.op = some r)
    (halign : i.imm % 4 = 0)
    (henc : (if i.imm = 0 then some [plain]
      else if 0 < i.imm ∧ i.imm ≤ immMax 7 then some [byte, fillWithImm 0 i.imm 7] else other) =
      some bytes) (hoth : other = none ∨ 0 ≤ i.imm ∧ i.imm ≤ 508) {m : Machine a}
    (hplain : ∀ rest, decodeStep a ctx (plain :: rest, m) = .inl (rest, m.setCfa (m.regs r)))
    (hstep : ∀ rest, decodeStep a ctx (byte :: rest, m) = setByImm r rest m) :
    Executes ctx bytes i m := by
  by_cases hzero : i.imm = 0
  · rw [if_pos hzero] at henc
    cases henc
    refine executes_of_next (exec_vspBase hbase m) fun rest => ?_
    simp [hplain, hzero]
  · rw [if_neg hzero] at henc
    by_cases hrng : 0 < i.imm ∧ i.imm ≤ immMax 7
    · rw [if_pos hrng] at henc
      cases henc
      exact executes_setByImm hbase halign hrng.1.le (by simpa [immMax] using hrng.2) hstep
    · rw [if_neg hrng] at henc
      rcases hoth with hnone | hrng'
      · simp [hnone] at henc
      · exact absurd ⟨by omega, by simpa [immMax] using hrng'.2⟩ hrng

/-! ### All instructions -/

/-- An operation that the encoder does not know has no effect. -/
theorem executes_dropped {m : Machine a} (hexec : i.exec ctx m = .next m) :
    Executes ctx [] i m := by
  intro rest
  rw [hexec]
  exact .inl ⟨rfl, rfl⟩

theorem executes_common (halign : i.imm % 4 = 0) (hkeeps : Keeps a i)
    (henc : encodeOne a i = some bytes) (m : Machine a)
    (hop : i.op ∈ [QutOp.vspOffset, .vspSetImm, .dexPcSet, .endOfIns, .fin, .lrOffset, .spOffset,
      .pcOffset]) : Executes ctx bytes i m := by
  simp only [mem_cons, not_mem_nil, or_false] at hop
  rcases hop with hop | hop | hop | hop | hop | hop | hop | hop
  · exact executes_vspOffset hop halign hkeeps henc m
  all_goals
    have hbase : vspBase a i.op = none := by rw [hop]; cases a <;> rfl
    simp only [encodeOne, hop] at henc
  · obtain rfl : 0x96 :: encodeSLEB128 i.imm = bytes := by cases a <;> exact some.inj henc
    have hexec : i.exec ctx m = .next (m.setCfa (BitVec.ofInt _ i.imm)) := by
      cases a <;> simp [QutInstruction.exec, hop, vspBase, loadTarget]
    refine executes_of_next hexec fun rest => ?_
    cases a <;> exact withSLEB128_encode ..
  · obtain rfl : [0x97] = bytes := by cases a <;> exact some.inj henc
    have hexec : i.exec ctx m = .next (m.setDexPc (m.regs (dexPcReg a))) := by
      cases a <;> simp [QutInstruction.exec, hop, vspBase, loadTarget]
    refine executes_of_next hexec fun rest => ?_
    cases a <;> rfl
  · obtain rfl : [0x99] = bytes := by cases a <;> exact some.inj henc
    intro rest
    have hexec : i.exec ctx m = .stop m := by
      cases a <;> simp [QutInstruction.exec, hop, vspBase, loadTarget]
    rw [hexec]
    cases a <;> rfl
  · obtain rfl : [0x9f] = bytes := by cases a <;> exact some.inj henc
    intro rest
    have hexec : i.exec ctx m = .stop m.finish := by
      cases a <;> simp [QutInstruction.exec, hop, vspBase, loadTarget]
    rw [hexec]
    cases a <;> rfl
  · obtain rfl : encodeOffset 0xe0 0xfd i.imm = bytes := by
      cases a <;> exact some.inj henc
    exact executes_offset hbase (by rw [hop]; cases a <;> rfl) (by simp [hop]) (by decide) halign m
      (fun _ => decodeStep_near (by simp)) fun _ rest => loadFar_encode i .lr rest m
  · obtain rfl : 0xfc :: encodeSLEB128 i.imm = bytes := by cases a <;> exact some.inj henc
    exact executes_load (r := .sp) hbase (by rw [hop]; cases a <;> rfl) (by simp [hop])
      fun rest => loadFar_encode i .sp rest m
  · obtain rfl : 0xfe :: encodeSLEB128 i.imm = bytes := by cases a <;> exact some.inj henc
    exact executes_pcOffset hop m

/-- `_QuickenInstructionsEncode32` and `Decode32`. -/
theorem executes_encodeOne32 {ctx : StepContext .arm32} (halign : i.imm % 4 = 0)
    (hkeeps : Keeps .arm32 i) (henc : encodeOne .arm32 i = some bytes) (m : Machine .arm32) :
    Executes ctx bytes i m := by
  have hbs := henc
  obtain ⟨op, imm⟩ := i
  cases op <;> simp only [encodeOne] at henc
  case vspSetByR7 =>
    exact executes_setBy (r := .r7) rfl halign henc (.inl rfl) (fun _ => rfl)
      (fun _ => rfl)
  case vspSetByR11 =>
    exact executes_setBy (r := .r11) rfl halign henc (.inl rfl) (fun _ => rfl)
      (fun _ => rfl)
  case vspSetByJniSp =>
    cases henc
    have hrng : 0 ≤ imm ∧ imm ≤ 508 := by simpa [Keeps] using hkeeps
    exact executes_setByImm (r := .r10) rfl halign hrng.1 hrng.2 (fun _ => rfl)
  case vspSetBySp =>
    cases henc
    have hzero : imm = 0 := by simpa [Keeps] using hkeeps
    refine executes_of_next (exec_vspBase (r := .sp) rfl m) fun rest => ?_
    simp [hzero, decodeStep, decodeCase2, decodeCase2of32]
  case r4Offset =>
    by_cases hshort : 0 ≤ imm ∧ imm ≤ immMax 4
    · rw [if_pos hshort] at henc
      cases henc
      have hhigh : imm ≤ 60 := by simpa [immMax] using hshort.2
      refine executes_load (r := .r4) rfl rfl (by simp)
        fun rest => ?_
      have hbyte : fillWithImm 0xa0 imm 4 / 16 = 0xa := by
        simp only [fillWithImm]
        omega
      rw [decodeStep_a hbyte, loadNear_fill (by decide) halign hshort.1 hhigh, nil_append]
    · simp [hshort] at henc
  case r7Offset =>
    cases henc
    exact executes_offset (r := .r7) rfl rfl (by simp)
      (by decide) halign m (fun _ => decodeStep_b)
      fun _ rest => loadFar_encode _ .r7 rest m
  case r10Offset =>
    cases henc
    exact executes_offset (r := .r10) rfl rfl (by simp)
      (by decide) halign m (fun _ => decodeStep_near (by simp))
      fun _ rest => loadFar_encode _ .r10 rest m
  case r11Offset =>
    cases henc
    exact executes_offset (r := .r11) rfl rfl (by simp)
      (by decide) halign m (fun _ => decodeStep_near (by simp))
      fun _ rest => decodeStep_farFp (a := .arm32) (by simp) rest
  -- the registers of the other word size, and what has no byte
  case x20Offset | x28Offset | x29Offset | vspSetByX29 | dexPcSetForSwitchInterpreter | nop | other =>
    cases henc
    exact executes_dropped (by simp [QutInstruction.exec, vspBase, loadTarget])
  all_goals exact executes_common halign hkeeps hbs m (by simp)

theorem executes_encodeOne64 {ctx : StepContext .arm64} (halign : i.imm % 4 = 0)
    (hkeeps : Keeps .arm64 i) (henc : encodeOne .arm64 i = some bytes) (m : Machine .arm64)
    (hzero : i.op = .x29Offset → ¬ (0 ≤ i.imm ∧ i.imm ≤ 60) →
      ctx.readStack (m.cfa - BitVec.ofInt _ i.imm) ≠ some 0) : Executes ctx bytes i m := by
  have hbs := henc
  obtain ⟨op, imm⟩ := i
  cases op <;> simp only [encodeOne] at henc
  case vspSetByX29 =>
    have hrng : 0 ≤ imm ∧ imm ≤ 508 := by simpa [Keeps] using hkeeps
    exact executes_setBy (r := .x29) rfl halign henc (.inr hrng) (fun _ => rfl)
      (fun _ => rfl)
  case vspSetByJniSp =>
    have hrng : 0 ≤ imm ∧ imm ≤ 508 := by simpa [Keeps] using hkeeps
    rw [if_pos (by simpa [immMax] using hrng.2)] at henc
    cases henc
    exact executes_setByImm (r := .x28) rfl halign hrng.1 hrng.2 (fun _ => rfl)
  case vspSetBySp => exact absurd hkeeps (by simp [Keeps])
  case x20Offset =>
    cases henc
    exact executes_offset (r := .x20) rfl rfl (by simp)
      (by decide) halign m (fun _ => decodeStep_b)
      fun _ rest => loadFar_encode _ .x20 rest m
  case x28Offset =>
    cases henc
    exact executes_offset (r := .x28) rfl rfl (by simp)
      (by decide) halign m (fun _ => decodeStep_near (by simp))
      fun _ rest => loadFar_encode _ .x28 rest m
  case x29Offset =>
    cases henc
    exact executes_offset (r := .x29) rfl rfl (by simp)
      (by decide) halign m (fun _ => decodeStep_near (by simp))
      fun hlong rest => decodeStep_farFp (fun _ => hzero rfl hlong) rest
  case r4Offset | r7Offset | r10Offset | r11Offset | vspSetByR7 | vspSetByR11 |
      dexPcSetForSwitchInterpreter | nop | other =>
    cases henc
    exact executes_dropped (by simp [QutInstruction.exec, vspBase, loadTarget])
  all_goals exact executes_common halign hkeeps hbs m (by simp)

theorem executes_encodeOne (halign : i.imm % 4 = 0) (hkeeps : Keeps a i)
    (henc : encodeOne a i = some bytes) (m : Machine a)
    (hzero : a = .arm64 → i.op = .x29Offset → ¬ (0 ≤ i.imm ∧ i.imm ≤ 60) →
      ctx.readStack (m.cfa - BitVec.ofInt _ i.imm) ≠ some 0) : Executes ctx bytes i m := by
  cases a with
  | arm32 => exact executes_encodeOne32 halign hkeeps henc m
  | arm64 => exact executes_encodeOne64 halign hkeeps henc m (hzero rfl)

/-! ### Prologues -/

theorem prologueForm_cases (ctx : StepContext a) {fpOffset : QutOp}
    (hform : prologueForm a i.op = some (fpOffset, byte)) :
    ∃ fp : Reg, vspBase a i.op = some fp ∧ loadTarget a fpOffset = some fp ∧
      vspBase a fpOffset = none ∧ fpOffset ≠ .pcOffset ∧
      ∀ rest m, decodeStep a ctx (byte :: rest, m) =
        prologue ctx fp (2 * a.wordBytes) rest m := by
  cases a <;> cases hop : i.op <;> simp only [prologueForm, hop, reduceCtorEq] at hform <;>
    cases (some.inj hform) <;>
    exact ⟨_, rfl, rfl, rfl, by decide, fun _ _ => rfl⟩

/-- Instructions that are executed to the end, and that the byte code keeps on the way. -/
def KeptRun (ctx : StepContext a) (is : List QutInstruction) (m m' : Machine a) : Prop :=
  Kept ctx is m ∧ execAll ctx is m = some m'

namespace KeptRun

variable {i : QutInstruction} {is : List QutInstruction} {m m' : Machine a}

theorem next (h : KeptRun ctx (i :: is) m m') {m₁ : Machine a} (hexec : i.exec ctx m = .next m₁) :
    KeptRun ctx is m₁ m' := by
  obtain ⟨⟨-, -, -, hkept⟩, hall⟩ := h
  rw [hexec] at hkept
  rw [execAll, hexec] at hall
  exact ⟨hkept, hall⟩

theorem load (h : KeptRun ctx (i :: is) m m') (hbase : vspBase a i.op = none)
    (hload : loadTarget a i.op = some r) (hpc : i.op ≠ .pcOffset) :
    ∃ v, ctx.readStack (m.cfa - BitVec.ofInt _ i.imm) = some v ∧
      KeptRun ctx is (m.setReg r v) m' := by
  have hexec : i.exec ctx m = _ := exec_load hbase hload hpc m
  cases hread : ctx.readStack (m.cfa - BitVec.ofInt _ i.imm) with
  | none =>
    have hall := h.2
    rw [execAll, hexec, hread] at hall
    cases hall
  | some v =>
    rw [hread] at hexec
    exact ⟨v, rfl, h.next hexec⟩

end KeptRun

theorem contracted_eq_some {vsp lr fp : QutInstruction}
    (h : contracted a i (vsp :: lr :: fp :: is) = some byte) :
    ∃ fpOffset, prologueForm a i.op = some (fpOffset, byte) ∧ i.imm = 0 ∧
      vsp.op = .vspOffset ∧ lr.op = .lrOffset ∧ lr.imm = vsp.imm - a.wordBytes ∧
      fp.op = fpOffset ∧ fp.imm = vsp.imm := by
  rw [contracted] at h
  cases hform : prologueForm a i.op with
  | none => simp [hform] at h
  | some form =>
    obtain ⟨fpOffset, byte'⟩ := form
    simp only [hform, ite_none_right_eq_some, some.injEq] at h
    obtain ⟨⟨hzero, hprol⟩, rfl⟩ := h
    simp only [isPrologue, decide_eq_true_eq] at hprol
    exact ⟨fpOffset, rfl, hzero, hprol⟩

theorem decodeStep_contracted {vsp lr fp : QutInstruction} {m m' : Machine a}
    (hcon : contracted a i (vsp :: lr :: fp :: is) = some byte)
    (hrun : KeptRun ctx (i :: vsp :: lr :: fp :: is) m m') :
    ∃ m₁, (∀ rest, decodeStep a ctx (byte :: rest, m) = .inl (rest, m₁)) ∧
      KeptRun ctx is m₁ m' := by
  have hfr : vsp.imm = 2 * a.wordBytes := by
    simpa only [KeepsPrologue, hcon] using hrun.1.2.1
  obtain ⟨fpOffset, hform, hzero, hvsp, hlr, hlrImm, rfl, hfpImm⟩ := contracted_eq_some hcon
  obtain ⟨r, hbase, hload, hnob, hpc, hbyte⟩ := prologueForm_cases ctx hform
  -- the four instructions, one after another
  have hset := hrun.next (exec_vspBase hbase m)
  rw [hzero] at hset
  have hexecVsp : vsp.exec ctx (m.setCfa (m.regs r + BitVec.ofInt _ 0)) =
      .next (m.setCfa (m.regs r + BitVec.ofInt _ vsp.imm)) := by
    cases a <;> simp [QutInstruction.exec, hvsp, vspBase, loadTarget, Machine.setCfa]
  have hoff := hset.next hexecVsp
  obtain ⟨lrValue, hreadLr, hlrRun⟩ := hoff.load (r := .lr) (by rw [hlr]; cases a <;> rfl)
    (by rw [hlr]; cases a <;> rfl) (by simp [hlr])
  obtain ⟨fpValue, hreadFp, hfpRun⟩ := hlrRun.load hnob hload hpc
  refine ⟨_, fun rest => ?_, hfpRun⟩
  have hvspWord : BitVec.ofInt (8 * a.wordBytes) vsp.imm = BitVec.ofNat _ (2 * a.wordBytes) :=
    (ofNat_eq_ofInt (by omega)).symm
  have hlrWord : BitVec.ofInt (8 * a.wordBytes) lr.imm = BitVec.ofNat _ (2 * a.wordBytes / 2) :=
    (ofNat_eq_ofInt (by omega)).symm
  rw [hfpImm] at hreadFp
  rw [hvspWord] at hreadLr hreadFp ⊢
  rw [hlrWord] at hreadLr
  rw [hbyte, prologue, loadReg, hreadLr]
  dsimp only
  rw [loadReg, hreadFp]

end Step

/-! ## Instruction lists -/

section Runs

variable {a : Arch} (ctx : StepContext a)

/-- The loop of the decoder ends with `r` in no more rounds than `decode` allows. -/
def Runs (bytes : List ℕ) (m : Machine a) (r : QutErrorCode × Machine a) : Prop :=
  ∃ n ≤ bytes.length + 1, loop (decodeStep a ctx) n (bytes, m) = some (some r)

variable {ctx} {bytes : List ℕ} {m m' : Machine a} {r : QutErrorCode × Machine a}

theorem Runs.decode_eq (h : Runs ctx bytes m r) : decode a ctx bytes m = some r := by
  obtain ⟨n, hn, hloop⟩ := h
  rw [decode, loop_eq_some_of_le hloop hn]
  rfl

theorem Runs.stop (hstep : decodeStep a ctx (bytes, m) = .inr (some r)) : Runs ctx bytes m r :=
  ⟨1, by omega, loop_succ_of_inr 0 hstep⟩

theorem Runs.step {rest : List ℕ} (hne : bytes ≠ [])
    (hstep : decodeStep a ctx (bytes ++ rest, m) = .inl (rest, m')) (h : Runs ctx rest m' r) :
    Runs ctx (bytes ++ rest) m r := by
  obtain ⟨n, hn, hloop⟩ := h
  have hlen := length_pos_of_ne_nil hne
  exact ⟨n + 1, by rw [length_append]; omega, (loop_succ_of_inl n hstep).trans hloop⟩

theorem runs_fill (ctx : StepContext a) (k : ℕ) (m : Machine a) :
    Runs ctx (replicate k endOfInsOp) m (.none, m) := by
  apply Runs.stop
  cases k with
  | zero => rfl
  | succ k => cases a <;> rfl

theorem Runs.cons {tail : List ℕ} {k : ℕ} (halign : i.imm % 4 = 0)
    (henc : encodeOne a i = some bytes) (hrun : KeptRun ctx (i :: is) m m')
    (hrest : ∀ m₁, KeptRun ctx is m₁ m' →
      Runs ctx (tail ++ replicate k endOfInsOp) m₁ (.none, m')) :
    Runs ctx (bytes ++ (tail ++ replicate k endOfInsOp)) m (.none, m') := by
  obtain ⟨hkeeps, -, hfr, -⟩ := hrun.1
  by_cases hzero : a = .arm64 ∧ i.op = .x29Offset ∧ ¬ (0 ≤ i.imm ∧ i.imm ≤ 60) ∧
      ctx.readStack (m.cfa - BitVec.ofInt _ i.imm) = some 0
  · -- the decoder returns early, with nothing left to decode
    obtain ⟨rfl, hop, hlong, hread⟩ := hzero
    obtain rfl := hfr rfl hop hlong hread
    obtain ⟨v, hv, hlast⟩ := hrun.load (r := .x29) (by rw [hop]; rfl) (by rw [hop]; rfl) (by simp [hop])
    obtain rfl : 0 = v := some.inj (hread.symm.trans hv)
    obtain rfl : m.setReg .x29 0 = m' := some.inj hlast.2
    simp only [encodeOne, hop, encodeOffset] at henc
    rw [if_neg (by simpa [immMax] using hlong)] at henc
    cases henc
    exact Runs.stop (decodeStep_farFp_zero hread _)
  · have hex : Executes ctx bytes i m := executes_encodeOne halign hkeeps henc m
      fun ha hop hlong hread => hzero ⟨ha, hop, hlong, hread⟩
    replace hex := hex (tail ++ replicate k endOfInsOp)
    have hall := hrun.2
    rw [execAll] at hall
    cases hexec : i.exec ctx m with
    | unreadable => simp [hexec] at hall
    | next m₁ =>
      rw [hexec] at hex
      have hruns := hrest m₁ (hrun.next hexec)
      rcases hex with ⟨rfl, rfl⟩ | ⟨hne, hstep⟩
      · exact hruns
      · exact hruns.step hne hstep
    | stop m₁ =>
      rw [hexec] at hex hall
      cases hall
      exact Runs.stop hex

end Runs

section Encoded

variable {a : Arch}

/-- How the bytes of an accepted list come about: one instruction after another, but for the four
of a contracted prologue. -/
inductive Encoded (a : Arch) : List QutInstruction → List ℕ → Prop
  | nil : Encoded a [] []
  | prologue {i vsp lr fp : QutInstruction} {is : List QutInstruction} {byte : ℕ} {bs : List ℕ}
      (hcon : contracted a i (vsp :: lr :: fp :: is) = some byte) (htail : Encoded a is bs) :
      Encoded a (i :: vsp :: lr :: fp :: is) (byte :: bs)
  | one {i : QutInstruction} {is : List QutInstruction} {bytes bs : List ℕ}
      (halign : i.imm % 4 = 0) (henc : encodeOne a i = some bytes) (htail : Encoded a is bs) :
      Encoded a (i :: is) (bytes ++ bs)

theorem encoded_of_encode {bs : List ℕ} (henc : quickenInstructionsEncode a is = some bs) :
    Encoded a is bs := by
  induction is using quickenInstructionsEncode.induct a generalizing bs with
  | case1 =>
    cases henc
    exact .nil
  | case2 i is hmis => simp [quickenInstructionsEncode, hmis] at henc
  | case3 i halign byte vsp lr fp is hcon ih =>
    rw [quickenInstructionsEncode, if_neg halign, hcon] at henc
    obtain ⟨bs', hbs', rfl⟩ := map_eq_some_iff.mp henc
    exact .prologue hcon (ih hbs')
  | case4 i is halign byte hcon hshort =>
    -- a prologue takes four instructions
    rcases is with _ | ⟨vsp, _ | ⟨lr, _ | ⟨fp, is⟩⟩⟩
    · cases hcon
    · cases hcon
    · cases hcon
    · exact (hshort vsp lr fp is rfl).elim
  | case5 i is halign hcon ih =>
    rw [quickenInstructionsEncode, if_neg halign, hcon] at henc
    obtain ⟨bytes, hbs, hmap⟩ := bind_eq_some_iff.mp henc
    obtain ⟨bs', hbs', rfl⟩ := map_eq_some_iff.mp hmap
    exact .one (not_not.mp halign) hbs (ih hbs')

/-- **Decoding undoes encoding**: the encoded bytes of a list, with any filling behind them, have
the effect of the list. -/
theorem runs_encoded {ctx : StepContext a} {bs : List ℕ} (henc : Encoded a is bs) (k : ℕ)
    {m m' : Machine a} (hrun : KeptRun ctx is m m') :
    Runs ctx (bs ++ replicate k endOfInsOp) m (.none, m') := by
  induction henc generalizing m with
  | nil =>
    obtain rfl := some.inj hrun.2
    exact runs_fill ctx k m
  | prologue hcon _ ih =>
    obtain ⟨m₁, hstep, hrest⟩ := decodeStep_contracted hcon hrun
    exact @Runs.step a ctx [_] m m₁ _ _ (cons_ne_nil _ []) (hstep _) (ih hrest)
  | one halign henc _ ih =>
    rw [append_assoc]
    exact Runs.cons halign henc hrun fun _ hrest => ih hrest

/-! ### Bytes are bytes -/

theorem fillWithImm_lt (pfx : ℕ) (imm : ℤ) (n : ℕ) : fillWithImm pfx imm n < pfx + 2 ^ n := by
  have hlt : imm / 4 % 2 ^ n < 2 ^ n := Int.emod_lt_of_pos _ (by positivity)
  have hpos : 0 ≤ imm / 4 % 2 ^ n := Int.emod_nonneg _ (by positivity)
  rw [fillWithImm, Nat.add_lt_add_iff_left]
  zify
  rwa [Int.toNat_of_nonneg hpos]

theorem opcode_encodeSLEB128_lt {op : ℕ} (hop : op < 256) (imm : ℤ) :
    ∀ b ∈ op :: encodeSLEB128 imm, b < 256 := by
  intro b hb
  rcases mem_cons.mp hb with rfl | hb
  · exact hop
  · exact Sleb128.encode_lt hb

theorem encodeOffset_lt {pfx sleb : ℕ} (hpfx : pfx ≤ 240) (hsleb : sleb < 256) (imm : ℤ) :
    ∀ b ∈ encodeOffset pfx sleb imm, b < 256 := by
  rw [encodeOffset]
  split_ifs with hshort
  · have h := fillWithImm_lt pfx imm 4
    simp only [mem_singleton, forall_eq]
    omega
  · exact opcode_encodeSLEB128_lt hsleb imm

theorem encodeOne_lt (henc : encodeOne a i = some bytes) : ∀ b ∈ bytes, b < 256 := by
  have h4 := fillWithImm_lt 0xa0 i.imm 4
  have h6 := fillWithImm_lt 0 i.imm 6
  have h6' := fillWithImm_lt 0x40 i.imm 6
  have h7 := fillWithImm_lt 0 i.imm 7
  cases a <;> cases hop : i.op <;> simp only [encodeOne, hop] at henc <;>
    (repeat' split_ifs at henc) <;> cases henc <;> first
    | exact encodeOffset_lt (by decide) (by decide) _
    | exact opcode_encodeSLEB128_lt (by decide) _
    | (simp only [mem_cons, not_mem_nil, or_false, forall_eq_or_imp, forall_eq]
       omega)
    | simp

theorem contracted_lt (hcon : contracted a i is = some byte) : byte < 256 := by
  rcases is with _ | ⟨vsp, _ | ⟨lr, _ | ⟨fp, is⟩⟩⟩
  · cases hcon
  · cases hcon
  · cases hcon
  · obtain ⟨fpOffset, hform, -⟩ := contracted_eq_some hcon
    cases a <;> cases hop : i.op <;> simp only [prologueForm, hop, reduceCtorEq] at hform <;>
      cases (some.inj hform) <;> decide

theorem encoded_lt {bs : List ℕ} (henc : Encoded a is bs) : ∀ b ∈ bs, b < 256 := by
  induction henc with
  | nil => simp
  | prologue hcon _ ih => exact forall_mem_cons.mpr ⟨contracted_lt hcon, ih⟩
  | one _ henc _ ih => exact forall_mem_append.mpr ⟨encodeOne_lt henc, ih⟩

end Encoded

end TraceHarbor.Backtrace
