import TraceHarbor.Backtrace.QuickenCorrect
import TraceHarbor.Backtrace.QuickenReader

/-!
# Packed Quicken Tables

`PackEntriesToQutSections` lays the bytes of every entry out in index words and table rows, and `Eval`
finds them again.
-/

namespace TraceHarbor.Backtrace

open Lib List Option

variable {a : Arch}

/-! ## Packing -/

def tableRows (a : Arch) (bytes : List ℕ) : ℕ :=
  if bytes.length ≤ a.rowSize then 0 else (bytes.length + a.rowSize) / (a.rowSize + 1)

def rowsBefore (a : Arch) (entries : List (ℕ × List ℕ)) (e : ℕ) : ℕ :=
  ((entries.take e).map (tableRows a ·.2)).sum

/-- Where an entry ends up: its second index word, and its rows behind the rows `before` it. -/
structure Packed (a : Arch) (s : QutSections) (position : ℕ) (bytes : List ℕ) where
  before : List ℕ
  command : ℕ
  rows : List ℕ
  pack : packEntry a before.length bytes = some (command, rows)
  index : s.quidx[position]? = some command
  table : before ++ rows <+: s.qutbl

variable {entries : List (ℕ × List ℕ)} {s t : QutSections} {bytes : List ℕ}

theorem length_rows {n command : ℕ} {rows : List ℕ} (h : packEntry a n bytes = some (command, rows)) :
    rows.length = tableRows a bytes := by
  rw [packEntry] at h
  dsimp only at h
  rw [tableRows]
  split_ifs at h ⊢
  · cases h
    rfl
  · cases h
    exact length_rowsOf ..

theorem packFrom_extends (h : packFrom a s entries = some t) :
    s.quidx <+: t.quidx ∧ s.qutbl <+: t.qutbl := by
  induction entries generalizing s with
  | nil =>
    cases h
    exact ⟨prefix_rfl, prefix_rfl⟩
  | cons entry entries ih =>
    obtain ⟨⟨command, rows⟩, -, hrest⟩ := bind_eq_some_iff.mp h
    obtain ⟨hidx, htbl⟩ := ih hrest
    exact ⟨(prefix_append ..).trans hidx, (prefix_append ..).trans htbl⟩

theorem packed_of_packFrom (h : packFrom a s entries = some t) {e entryPoint : ℕ}
    (hent : entries[e]? = some (entryPoint, bytes)) :
    ∃ p : Packed a t (s.quidx.length + 2 * e + 1) bytes,
      p.before.length = s.qutbl.length + rowsBefore a entries e := by
  induction entries generalizing s e with
  | nil => cases hent
  | cons entry entries ih =>
    obtain ⟨⟨command, rows⟩, hpack, hrest⟩ := bind_eq_some_iff.mp h
    cases e with
    | zero =>
      cases hent
      obtain ⟨hidx, htbl⟩ := packFrom_extends hrest
      refine ⟨⟨s.qutbl, command, rows, hpack, ?_, htbl⟩, by simp [rowsBefore]⟩
      have hlast : s.quidx.length + 1 < (s.quidx ++ [entryPoint, command]).length := by simp
      have hword := prefix_iff_getElem?.mp hidx _ hlast
      simpa using hword
    | succ e =>
      have hpacked := ih hrest hent
      have hpos : (s.quidx ++ [entry.1, command]).length + 2 * e + 1 =
          s.quidx.length + 2 * (e + 1) + 1 := by
        rw [length_append]
        simp only [length_cons, length_nil]
        omega
      rw [hpos, length_append, length_rows hpack] at hpacked
      simpa [rowsBefore, Nat.add_assoc] using hpacked

/-! ## Finding the bytes again -/

theorem padded_lt {bytes : List ℕ} (hbs : ∀ b ∈ bytes, b < 256) (k : ℕ) :
    ∀ b ∈ bytes ++ replicate k endOfInsOp, b < 256 := by
  refine forall_mem_append.mpr ⟨hbs, fun b hb => ?_⟩
  rw [eq_of_mem_replicate hb]
  decide

variable {offset : ℕ}

theorem indexWord_fields (a : Arch) {rowCount : ℕ} (hcnt : rowCount ≤ 0x7f)
    (hoff : offset ≤ 0xffffff) :
    let command := (rowCount &&& 0x7f) <<< (a.rowSize * 8) ||| (offset &&& 0xffffff)
    command >>> (8 * a.wordBytes - 1) = 0 ∧
      (command >>> ((a.wordBytes - 1) * 8)) &&& 0x7f = rowCount ∧
      command &&& 0xffffff = offset := by
  have hmask7 : ∀ x, x &&& 0x7f = x % 2 ^ 7 := fun x => Nat.and_two_pow_sub_one_eq_mod x 7
  have hmask24 : ∀ x, x &&& 0xffffff = x % 2 ^ 24 := fun x => Nat.and_two_pow_sub_one_eq_mod x 24
  have hlt : offset < 2 ^ (a.rowSize * 8) := by
    cases a <;> simp only [Arch.rowSize] <;> omega
  simp only [hmask7, hmask24, Nat.mod_eq_of_lt (show rowCount < 2 ^ 7 by omega),
    Nat.mod_eq_of_lt (show offset < 2 ^ 24 by omega), ← Nat.shiftLeft_add_eq_or_of_lt hlt]
  cases a <;> simp only [Arch.rowSize, Arch.wordBytes, Nat.shiftLeft_eq, Nat.shiftRight_eq_div_pow] <;>
    omega

theorem evalStart_of_indexWord (hbs : ∀ b ∈ bytes, b < 256)
    (hlen : bytes.length = a.rowSize)
    (hidx : s.quidx[offset + 1]? = some (packInto (0x80 <<< (a.rowSize * 8)) bytes)) :
    ∃ words, evalStart a s offset = some (words, a.rowSize - 1) ∧ words ≠ [] ∧
      bytesFrom a (a.rowSize - 1) words = bytes := by
  have htop : packInto (0x80 <<< (a.rowSize * 8)) bytes >>> (8 * a.wordBytes - 1) ≠ 0 := by
    rw [packInto_shiftRight hbs _ (by rw [hlen]; cases a <;> decide)]
    cases a <;> decide
  refine ⟨[packInto (0x80 <<< (a.rowSize * 8)) bytes], ?_, cons_ne_nil _ _, ?_⟩
  · rw [evalStart, hidx, bind_eq_bind, bind_some, if_pos htop]
  · have h := rowBytes_packInto hbs 0x80
    rw [hlen] at h
    cases a <;> exact (append_nil _).trans h

theorem evalStart_of_rows {rowCount : ℕ} {before : List ℕ}
    (hcnt : rowCount ≤ 0x7f) (hbef : before.length ≤ 0xffffff)
    (hidx : s.quidx[offset + 1]? =
      some ((rowCount &&& 0x7f) <<< (a.rowSize * 8) ||| (before.length &&& 0xffffff)))
    (htbl : before ++ rowsOf (a.rowSize + 1) rowCount bytes <+: s.qutbl) :
    (s.qutbl.drop before.length).take rowCount = rowsOf (a.rowSize + 1) rowCount bytes ∧
      evalStart a s offset = some (rowsOf (a.rowSize + 1) rowCount bytes, a.rowSize) := by
  obtain ⟨htop, hrowCount, hrowOffset⟩ := indexWord_fields a hcnt hbef
  have hlen := length_rowsOf (a.rowSize + 1) rowCount bytes
  have hinTable : before.length + rowCount ≤ s.qutbl.length := by
    have h := htbl.length_le
    rwa [length_append, hlen] at h
  have hrows : (s.qutbl.drop before.length).take rowCount =
      rowsOf (a.rowSize + 1) rowCount bytes := by
    obtain ⟨after, haft⟩ := htbl
    rw [← haft, append_assoc, drop_left, take_left' hlen]
  refine ⟨hrows, ?_⟩
  rw [evalStart, hidx, bind_eq_bind, bind_some, if_neg (not_not.mpr htop)]
  rw [hrowCount, hrowOffset, if_pos hinTable, hrows]

/-- **Where an entry is read**: the bytes from the start that `Eval` chooses are those it was packed
from, with a filling of less than a word behind them. -/
theorem evalStart_packed (p : Packed a s (offset + 1) bytes)
    (hbs : ∀ b ∈ bytes, b < 256) : ∃ words j, ∃ k ≤ a.rowSize,
      evalStart a s offset = some (words, j) ∧ words ≠ [] ∧
      bytesFrom a j words = bytes ++ replicate k endOfInsOp ∧
      (0 < tableRows a bytes → words = (s.qutbl.drop p.before.length).take (tableRows a bytes)) := by
  obtain ⟨before, command, rows, hpack, hidx, htbl⟩ := p
  rw [packEntry] at hpack
  dsimp only at hpack
  rw [tableRows]
  split_ifs at hpack ⊢ with hcomp hfits
  · cases hpack
    obtain ⟨words, hstart, hne, hread⟩ := evalStart_of_indexWord (padded_lt hbs _)
      (by rw [length_append, length_replicate]; omega) hidx
    exact ⟨words, _, _, Nat.sub_le _ _, hstart, hne, hread, nofun⟩
  · cases hpack
    obtain ⟨hrows, hstart⟩ := evalStart_of_rows hfits.1 hfits.2 hidx htbl
    -- the last row is filled up
    have hfill : bytes.length ≤ (bytes.length + a.rowSize) / (a.rowSize + 1) * (a.rowSize + 1) ∧
        (bytes.length + a.rowSize) / (a.rowSize + 1) * (a.rowSize + 1) - bytes.length ≤ a.rowSize ∧
        0 < (bytes.length + a.rowSize) / (a.rowSize + 1) := by
      cases a <;> simp only [Arch.rowSize] at hcomp ⊢ <;> omega
    refine ⟨_, _, _, hfill.2.1, hstart, ?_, ?_, fun _ => hrows.symm⟩
    · refine ne_nil_of_length_pos ?_
      rw [length_rowsOf]
      exact hfill.2.2
    · rw [bytesFrom_rowSize]
      exact flatMap_rowBytes_rowsOf _ (padded_lt hbs _)
        (by rw [length_append, length_replicate, Arch.wordBytes]; omega)

/-- **Evaluating an entry** decodes the bytes it was packed from, with a filling behind them. -/
theorem eval_eq_decode (p : Packed a s (offset + 1) bytes)
    (hbs : ∀ b ∈ bytes, b < 256) : ∃ k, ∀ (ctx : StepContext a) (m : Machine a),
      eval a s ctx offset m = decode a ctx (bytes ++ replicate k endOfInsOp) m := by
  obtain ⟨words, j, k, -, hstart, -, hread, -⟩ := evalStart_packed p hbs
  exact ⟨k, fun ctx m => by rw [eval_eq_decode_bytesFrom hstart, hread]⟩

/-! ## Every entry comes back -/

theorem rowsBefore_cons (entry : ℕ × List ℕ) (e : ℕ) :
    rowsBefore a (entry :: entries) (e + 1) = tableRows a entry.2 + rowsBefore a entries e := by
  simp [rowsBefore]

theorem rowsBefore_add_le {e e' : ℕ} {entry : ℕ × List ℕ} (hent : entries[e]? = some entry)
    (hlt : e < e') : rowsBefore a entries e + tableRows a entry.2 ≤ rowsBefore a entries e' := by
  induction entries generalizing e e' with
  | nil => cases hent
  | cons first entries ih =>
    obtain ⟨e', rfl⟩ := Nat.exists_eq_add_one_of_ne_zero (Nat.ne_zero_of_lt hlt)
    rw [rowsBefore_cons]
    cases e with
    | zero =>
      cases hent
      simp [rowsBefore]
    | succ e =>
      have hrest := ih hent (Nat.lt_of_succ_lt_succ hlt)
      rw [rowsBefore_cons]
      omega

theorem exists_packFrom (hrows : ∀ entry ∈ entries, tableRows a entry.2 ≤ 0x7f)
    (htot : s.qutbl.length + rowsBefore a entries entries.length ≤ 0xffffff) :
    ∃ t, packFrom a s entries = some t := by
  induction entries generalizing s with
  | nil => exact ⟨s, rfl⟩
  | cons entry entries ih =>
    obtain ⟨hfst, hrest⟩ := forall_mem_cons.mp hrows
    rw [length_cons, rowsBefore_cons] at htot
    obtain ⟨⟨command, rows⟩, hpack⟩ : ∃ r, packEntry a s.qutbl.length entry.2 = some r := by
      rw [tableRows] at hfst
      rw [packEntry]
      dsimp only
      split_ifs at hfst ⊢ with hcomp hfits
      · exact ⟨_, rfl⟩
      · exact ⟨_, rfl⟩
      · exact absurd ⟨hfst, by omega⟩ hfits
    have hlen : (s.qutbl ++ rows).length = s.qutbl.length + tableRows a entry.2 := by
      rw [length_append, length_rows hpack]
    obtain ⟨t, ht⟩ := @ih ⟨s.quidx ++ [entry.1, command], s.qutbl ++ rows⟩ hrest
      (by rw [hlen]; omega)
    exact ⟨t, bind_eq_some_iff.mpr ⟨_, hpack, ht⟩⟩

/-- **Packing and reading back**: from where `Eval` starts for an entry, `ReadByte` yields its bytes
and nothing but a filling up to the end of the last word. -/
theorem packFrom_roundTrip (hbytes : ∀ entry ∈ entries, ∀ b ∈ entry.2, b < 256)
    (hrows : ∀ entry ∈ entries, tableRows a entry.2 ≤ 0x7f)
    (htotal : rowsBefore a entries entries.length ≤ 0xffffff) :
    ∃ s, packFrom a ⟨[], []⟩ entries = some s ∧
      (∀ e entryPoint bytes, entries[e]? = some (entryPoint, bytes) →
        ∃ words j, ∃ k ≤ a.rowSize, evalStart a s (2 * e) = some (words, j) ∧
          Reads a words (bytes ++ List.replicate k endOfInsOp) ⟨0, j⟩ ⟨words.length, a.rowSize⟩ ∧
          (∀ ctx m, eval a s ctx (2 * e) m =
            decode a ctx (bytes ++ List.replicate k endOfInsOp) m) ∧
          (0 < tableRows a bytes →
            words = (s.qutbl.drop (rowsBefore a entries e)).take (tableRows a bytes))) ∧
      ∀ e e' entry, e < e' → entries[e]? = some entry →
        rowsBefore a entries e + tableRows a entry.2 ≤ rowsBefore a entries e' := by
  obtain ⟨s, hs⟩ := @exists_packFrom a entries ⟨[], []⟩ hrows (by simpa using htotal)
  refine ⟨s, hs, fun e entryPoint bytes hent => ?_, fun e e' entry hlt hent =>
    rowsBefore_add_le hent hlt⟩
  have hpack := packed_of_packFrom hs hent
  rw [length_nil, Nat.zero_add, Nat.zero_add] at hpack
  obtain ⟨p, hpos⟩ := hpack
  obtain ⟨words, j, k, hk, hstart, hne, hread, htbl⟩ :=
    evalStart_packed p (hbytes _ (mem_of_getElem? hent))
  refine ⟨words, j, k, hk, hstart, hread ▸ reads_bytesFrom hne j, fun ctx m => ?_, ?_⟩
  · rw [eval_eq_decode_bytesFrom hstart, hread]
  · rwa [hpos] at htbl

/-- Three bytes in an index word and five in two rows. -/
theorem packFrom_roundTrip_two :
    (∀ b ∈ [0x44, 0x45, 0x90], b < 256) ∧ ∃ s,
      packFrom .arm32 ⟨[], []⟩ [(8, [0x44, 0x45, 0x90]), (16, [1, 2, 3, 4, 5])] = some s :=
  ⟨by decide, (packFrom_roundTrip (by decide) (by decide) (by decide)).imp fun _ h => h.1⟩

/-! ## End to end -/

/-- Evaluating the entry at an offset has the effect of the instructions, whenever all the words
they read are readable. -/
def Sound (a : Arch) (s : QutSections) (offset : ℕ) (is : List QutInstruction) : Prop :=
  ∀ (ctx : StepContext a) (m m' : Machine a), execAll ctx is m = some m' →
    eval a s ctx offset m = some (.none, m')

theorem eval_entry {entries : List (ℕ × List QutInstruction)}
    (hpack : packEntriesToQutSections a entries = some s) {e entryPoint : ℕ}
    {is : List QutInstruction} (hent : entries[e]? = some (entryPoint, is))
    (hbs : ∀ b ∈ entryBytes a is, b < 256) :
    ∃ k, ∀ (ctx : StepContext a) (m : Machine a),
      eval a s ctx (2 * e) m = decode a ctx (entryBytes a is ++ replicate k endOfInsOp) m := by
  have hent' : (entries.map fun e => (e.1, entryBytes a e.2))[e]? =
      some (entryPoint, entryBytes a is) := by
    rw [getElem?_map, hent]
    rfl
  obtain ⟨p, -⟩ := packed_of_packFrom hpack hent'
  rw [length_nil, Nat.zero_add] at p
  exact eval_eq_decode p hbs

/-! ### Instructions that are not kept -/

theorem ofInt_inj_of_small {x y : ℤ} (hx : -2 ^ 31 ≤ x ∧ x < 2 ^ 31) (hy : -2 ^ 31 ≤ y ∧ y < 2 ^ 31)
    (h : BitVec.ofInt (8 * a.wordBytes) x = BitVec.ofInt _ y) : x = y := by
  have htoInt := congrArg BitVec.toInt h
  rw [BitVec.toInt_ofInt, BitVec.toInt_ofInt] at htoInt
  cases a <;> simp only [Arch.wordBytes, Arch.rowSize] at htoInt <;>
    rwa [Int.bmod_eq_of_le (by omega) (by omega), Int.bmod_eq_of_le (by omega) (by omega)] at htoInt

def Machine.zero (a : Arch) : Machine a := ⟨0, fun _ => 0, 0, false⟩

def StepContext.zero (a : Arch) : StepContext a := ⟨BitVec.allOnes _, 0, fun _ => 0⟩

theorem StepContext.readStack_zero (addr : Word a) : (StepContext.zero a).readStack addr = some 0 :=
  if_neg (by simp [StepContext.zero])

/-- The bytes of a list, with a filling behind them, have its effect from every machine. -/
def SoundBytes (a : Arch) (is : List QutInstruction) (bytes : List ℕ) (k : ℕ) : Prop :=
  ∀ (ctx : StepContext a) (m m' : Machine a), execAll ctx is m = some m' →
    decode a ctx (bytes ++ List.replicate k endOfInsOp) m = some (.none, m')

section NotKept

variable {i : QutInstruction} {bytes : List ℕ} {k : ℕ}

theorem SoundBytes.eq_of_runs {is : List QutInstruction} (hsound : SoundBytes a is bytes k)
    {ctx : StepContext a} {m m₁ m₂ : Machine a} (hexec : execAll ctx is m = some m₁)
    (hruns : Runs ctx (bytes ++ replicate k endOfInsOp) m (.none, m₂)) : m₂ = m₁ := by
  have h := hruns.decode_eq.symm.trans (hsound ctx m m₁ hexec)
  exact (Prod.mk.inj (some.inj h)).2

theorem SoundBytes.eq_of_step (hsound : SoundBytes a [i] bytes k) {ctx : StepContext a}
    {m m₁ m₂ : Machine a} (hexec : i.exec ctx m = .next m₁)
    (hruns : Runs ctx (bytes ++ replicate k endOfInsOp) m (.none, m₂)) : m₂ = m₁ := by
  have hall : execAll ctx [i] m = some m₁ := by
    rw [execAll, hexec]
    rfl
  exact hsound.eq_of_runs hall hruns

/-- A short negative offset is decoded as `-(256 + imm)`. -/
theorem SoundBytes.vspOffset (hsound : SoundBytes a [i] bytes k) (hop : i.op = .vspOffset)
    (haln : i.imm % 4 = 0) (henc : encodeOne a i = some bytes) :
    0 ≤ i.imm ∨ i.imm = -128 ∨ i.imm < -252 := by
  by_contra hnot
  obtain ⟨hneg, hne, hlow⟩ : i.imm < 0 ∧ i.imm ≠ -128 ∧ -252 ≤ i.imm := by omega
  have hbs : [fillWithImm 0x40 i.imm 6] = bytes := by
    have hshort : -immMax 6 ≤ i.imm ∧ i.imm ≤ immMax 6 := by
      simp only [immMax]
      omega
    cases a <;> simpa [encodeOne, hop, hshort, not_lt.mpr hneg.le] using henc
  have hbyte : fillWithImm 0x40 i.imm 6 * 4 % 256 = (256 + i.imm).toNat := by
    simp only [fillWithImm]
    omega
  have hdiv : fillWithImm 0x40 i.imm 6 / 64 = 1 := by
    simp only [fillWithImm]
    omega
  have hexec : i.exec (.zero a) (.zero a) =
      .next ((Machine.zero a).setCfa ((Machine.zero a).cfa + BitVec.ofInt _ i.imm)) := by
    cases a <;> simp [QutInstruction.exec, hop, vspBase, loadTarget]
  have hstep : ∀ rest, decodeStep a (.zero a) ([fillWithImm 0x40 i.imm 6] ++ rest, .zero a) =
      .inl (rest, (Machine.zero a).setCfa
        ((Machine.zero a).cfa - BitVec.ofNat _ (256 + i.imm).toNat)) := by
    intro rest
    simp [decodeStep, hdiv, hbyte]
  subst hbs
  have heq := hsound.eq_of_step hexec
    (Runs.step (cons_ne_nil _ _) (hstep _) (runs_fill _ k _))
  have hcfa := congrArg Machine.cfa heq
  have hword : BitVec.ofInt (8 * a.wordBytes) (-(256 + i.imm)) = BitVec.ofInt _ i.imm := by
    rw [BitVec.ofInt_neg, ← ofNat_eq_ofInt (n := (256 + i.imm).toNat) (by omega)]
    simpa [Machine.setCfa, Machine.zero] using hcfa
  have := ofInt_inj_of_small (by omega) (by omega) hword
  omega

/-- Without a `break` the dex pc follows. -/
theorem SoundBytes.vspSetByX29 {i : QutInstruction} {bytes : List ℕ}
    (hsound : SoundBytes .arm64 [i] bytes k) (hop : i.op = .vspSetByX29)
    (henc : encodeOne .arm64 i = some bytes) : 0 ≤ i.imm ∧ i.imm ≤ 508 := by
  by_contra hnot
  have hbs : 0x86 :: encodeSLEB128 i.imm = bytes := by
    have hzero : i.imm ≠ 0 := by omega
    have hlong : ¬ (0 < i.imm ∧ i.imm ≤ immMax 7) := by
      simp only [immMax]
      omega
    simpa [encodeOne, hop, hzero, hlong] using henc
  subst hbs
  let m : Machine .arm64 := ⟨0, fun _ => 1, 0, false⟩
  have hstep : ∀ rest, decodeStep .arm64 (.zero _) (0x86 :: encodeSLEB128 i.imm ++ rest, m) =
      .inl (rest, (m.setCfa (1 + BitVec.ofInt _ i.imm)).setDexPc 1) := fun rest =>
    withSLEB128_encode i rest m _
  have heq := hsound.eq_of_step (exec_vspBase (r := .x29) (by rw [hop]; rfl) m)
    (Runs.step (cons_ne_nil _ _) (hstep _) (runs_fill _ k _))
  have hdexPc : (1 : Word .arm64) = 0 := congrArg Machine.dexPc heq
  exact absurd hdexPc (by decide)

/-- Seven bits hold no other immediate. -/
theorem SoundBytes.vspSetByJniSp (hsound : SoundBytes a [i] bytes k) (hop : i.op = .vspSetByJniSp)
    (haln : i.imm % 4 = 0) (henc : encodeOne a i = some bytes) : 0 ≤ i.imm ∧ i.imm ≤ 508 := by
  have hlow := i.imm_ge
  have hhigh := i.imm_lt
  have hbs : [0x95, fillWithImm 0 i.imm 7] = bytes := by
    cases a with
    | arm32 => simpa [encodeOne, hop] using henc
    | arm64 =>
      simp only [encodeOne, hop] at henc
      split_ifs at henc
      exact some.inj henc
  subst hbs
  obtain ⟨r, hbase, hstep⟩ : ∃ r, vspBase a i.op = some r ∧
      ∀ rest m, decodeStep a (.zero a) ([0x95, fillWithImm 0 i.imm 7] ++ rest, m) =
        .inl (rest, m.setCfa (m.regs r + BitVec.ofNat _ (fillWithImm 0 i.imm 7 % 128 * 4))) := by
    rw [hop]
    cases a <;> exact ⟨_, rfl, fun _ _ => rfl⟩
  have heq := hsound.eq_of_step (exec_vspBase hbase (.zero a))
    (Runs.step (cons_ne_nil _ _) (hstep _ _) (runs_fill _ k _))
  have hcfa := congrArg Machine.cfa heq
  have hword : BitVec.ofInt (8 * a.wordBytes) ((fillWithImm 0 i.imm 7 % 128 * 4 : ℕ) : ℤ) =
      BitVec.ofInt _ i.imm := by
    rw [← ofNat_eq_ofInt rfl]
    simpa [Machine.setCfa, Machine.zero] using hcfa
  have := ofInt_inj_of_small (by omega) ⟨hlow, hhigh⟩ hword
  omega

theorem SoundBytes.vspSetBySp32 (hsound : SoundBytes .arm32 [i] bytes k) (hop : i.op = .vspSetBySp)
    (henc : encodeOne .arm32 i = some bytes) : i.imm = 0 := by
  obtain rfl : [0x84] = bytes := by simpa [encodeOne, hop] using henc
  have hstep : ∀ rest, decodeStep .arm32 (.zero _) ([0x84] ++ rest, .zero _) =
      .inl (rest, (Machine.zero .arm32).setCfa 0) := fun _ => rfl
  have heq := hsound.eq_of_step (exec_vspBase (r := .sp) (by rw [hop]; rfl) (.zero _))
    (Runs.step (cons_ne_nil _ _) (hstep _) (runs_fill _ k _))
  have hcfa := congrArg Machine.cfa heq
  have hword : BitVec.ofInt (8 * Arch.wordBytes .arm32) 0 = BitVec.ofInt _ i.imm := by
    simpa [Machine.setCfa, Machine.zero] using hcfa
  exact (ofInt_inj_of_small (by omega) ⟨i.imm_ge, i.imm_lt⟩ hword).symm

theorem SoundBytes.vspSetBySp64 (hsound : SoundBytes .arm64 [i] bytes k) (hop : i.op = .vspSetBySp)
    (henc : encodeOne .arm64 i = some bytes) : False := by
  obtain rfl : [] = bytes := by simpa [encodeOne, hop] using henc
  -- a stack pointer that the immediate takes to 1
  let m : Machine .arm64 := ⟨0, fun _ => 1 - BitVec.ofInt _ i.imm, 0, false⟩
  have heq := hsound.eq_of_step (exec_vspBase (r := .sp) (by rw [hop]; rfl) m)
    (runs_fill (.zero _) k m)
  have hcfa : (0 : Word .arm64) = 1 - BitVec.ofInt _ i.imm + BitVec.ofInt _ i.imm :=
    congrArg Machine.cfa heq
  rw [BitVec.sub_add_cancel] at hcfa
  exact absurd hcfa (by decide)

theorem SoundBytes.prologue {vsp lr fp : QutInstruction} {byte : ℕ}
    (hcon : contracted a i [vsp, lr, fp] = some byte)
    (hsound : SoundBytes a [i, vsp, lr, fp] [byte] k) : vsp.imm = 2 * a.wordBytes := by
  obtain ⟨fpOffset, hform, hzero, hvsp, hlr, -, rfl, -⟩ := contracted_eq_some hcon
  obtain ⟨r, hbase, hload, hnob, hpc, hbyte⟩ := prologueForm_cases (.zero a) hform
  have hexecVsp : ∀ m : Machine a,
      vsp.exec (.zero a) m = .next (m.setCfa (m.cfa + BitVec.ofInt _ vsp.imm)) := fun m => by
    cases a <;> simp [QutInstruction.exec, hvsp, vspBase, loadTarget]
  have hexecLr : ∀ m : Machine a, lr.exec (.zero a) m = .next (m.setReg .lr 0) := fun m => by
    rw [exec_load (r := .lr) (by rw [hlr]; cases a <;> rfl) (by rw [hlr]; cases a <;> rfl)
      (by simp [hlr]), StepContext.readStack_zero]
  have hexecFp : ∀ m : Machine a, fp.exec (.zero a) m = .next (m.setReg r 0) := fun m => by
    rw [exec_load hnob hload hpc, StepContext.readStack_zero]
  have hexec : execAll (.zero a) [i, vsp, lr, fp] (.zero a) =
      some ((((((Machine.zero a).setCfa (0 + BitVec.ofInt _ i.imm)).setCfa
        (0 + BitVec.ofInt _ i.imm + BitVec.ofInt _ vsp.imm)).setReg .lr 0)).setReg r 0) := by
    simp only [execAll, exec_vspBase hbase, hexecVsp, hexecLr, hexecFp]
    rfl
  have hstep : ∀ rest, decodeStep a (.zero a) ([byte] ++ rest, .zero a) =
      .inl (rest, (((Machine.zero a).setCfa (0 + BitVec.ofNat _ (2 * a.wordBytes))).setReg
        .lr 0).setReg r 0) := fun rest => by
    rw [singleton_append, hbyte, Backtrace.prologue]
    simp only [loadReg, StepContext.readStack_zero]
    rfl
  have heq := hsound.eq_of_runs hexec (Runs.step (cons_ne_nil _ _) (hstep _) (runs_fill _ k _))
  have hcfa := congrArg Machine.cfa heq
  have hword : BitVec.ofInt (8 * a.wordBytes) ((2 * a.wordBytes : ℕ) : ℤ) =
      BitVec.ofInt _ vsp.imm := by
    rw [← ofNat_eq_ofInt rfl]
    simpa [Machine.setCfa, Machine.setReg, hzero] using hcfa
  have hsize : a.wordBytes ≤ 8 := by cases a <;> decide
  have := ofInt_inj_of_small (by omega) ⟨vsp.imm_ge, vsp.imm_lt⟩ hword
  omega

/-- **Only kept instructions are sound**: an accepted instruction whose bytes have its effect from
every machine is one that `Keeps` names. -/
theorem keeps_of_soundBytes (haln : i.imm % 4 = 0) (henc : encodeOne a i = some bytes)
    (hsound : SoundBytes a [i] bytes k) : Keeps a i := by
  cases a <;> cases hop : i.op <;> simp only [Keeps, hop]
  case arm32.vspOffset => exact hsound.vspOffset hop haln henc
  case arm64.vspOffset => exact hsound.vspOffset hop haln henc
  case arm64.vspSetByX29 => exact hsound.vspSetByX29 hop henc
  case arm32.vspSetByJniSp => exact hsound.vspSetByJniSp hop haln henc
  case arm64.vspSetByJniSp => exact hsound.vspSetByJniSp hop haln henc
  case arm32.vspSetBySp => exact hsound.vspSetBySp32 hop henc
  case arm64.vspSetBySp => exact hsound.vspSetBySp64 hop henc

end NotKept

/-! ### Main result -/

/-- **The quicken table keeps the meaning of its instructions**, from every machine from which they read
readable words and no executed instruction falls to a slip of the byte code. The slips are real: a
single instruction is sound exactly when `Keeps` names it, and a lone prologue only for a frame of
two words. -/
theorem eval_packed {entries : List (ℕ × List QutInstruction)} {s : QutSections}
    (hpack : packEntriesToQutSections a entries = some s) {e entryPoint : ℕ}
    {is : List QutInstruction} (hentry : entries[e]? = some (entryPoint, is))
    (haccepted : quickenInstructionsEncode a is ≠ none) :
    (∀ (ctx : StepContext a) (m m' : Machine a), Kept ctx is m → execAll ctx is m = some m' →
      eval a s ctx (2 * e) m = some (.none, m')) ∧
    (∀ i, is = [i] → (Sound a s (2 * e) is ↔ Keeps a i)) ∧
    (∀ i vsp lr fp, is = [i, vsp, lr, fp] → contracted a i [vsp, lr, fp] ≠ none →
      Sound a s (2 * e) is → vsp.imm = 2 * a.wordBytes) := by
  obtain ⟨bs, henc⟩ := ne_none_iff_exists'.mp haccepted
  have hentBs : entryBytes a is = bs := by rw [entryBytes, henc, getD_some]
  obtain ⟨k, heval⟩ := eval_entry hpack hentry
    (hentBs ▸ encoded_lt (encoded_of_encode henc))
  rw [hentBs] at heval
  have hkept : ∀ (ctx : StepContext a) (m m' : Machine a), Kept ctx is m →
      execAll ctx is m = some m' → eval a s ctx (2 * e) m = some (.none, m') := by
    intro ctx m m' hkept hexec
    rw [heval]
    exact (runs_encoded (encoded_of_encode henc) k ⟨hkept, hexec⟩).decode_eq
  refine ⟨hkept, ?_, ?_⟩
  · rintro i rfl
    constructor
    · intro hsound
      rw [quickenInstructionsEncode] at henc
      split_ifs at henc with haln
      obtain ⟨bytes, hbs, hmap⟩ := bind_eq_some_iff.mp henc
      obtain rfl : bytes ++ [] = bs := some.inj hmap
      refine keeps_of_soundBytes (k := k) (not_not.mp haln) hbs fun ctx m m' hexec => ?_
      rw [← append_nil bytes, ← heval]
      exact hsound ctx m m' hexec
    · intro hkeeps ctx m m' hexec
      refine hkept ctx m m' ⟨hkeeps, trivial, fun _ _ _ _ => rfl, ?_⟩ hexec
      cases i.exec ctx m <;> trivial
  · rintro i vsp lr fp rfl hcon hsound
    obtain ⟨byte, hbyte⟩ := ne_none_iff_exists'.mp hcon
    rw [quickenInstructionsEncode, hbyte] at henc
    split_ifs at henc with haln
    obtain rfl : [byte] = bs := some.inj henc
    refine SoundBytes.prologue (k := k) hbyte fun ctx m m' hexec => ?_
    rw [← heval]
    exact hsound ctx m m' hexec

/-- A frame with a prologue, behind it an offset and loads in their long and short forms. -/
def frameInstructions : List QutInstruction :=
  [⟨.vspSetByX29, 0, by decide, by decide⟩, ⟨.vspOffset, 16, by decide, by decide⟩,
    ⟨.lrOffset, 8, by decide, by decide⟩, ⟨.x29Offset, 16, by decide, by decide⟩,
    ⟨.vspOffset, 320, by decide, by decide⟩, ⟨.x20Offset, 128, by decide, by decide⟩,
    ⟨.dexPcSet, 0, by decide, by decide⟩, ⟨.x28Offset, 24, by decide, by decide⟩]

/-- `vsp -= 4`. -/
def backOffset : QutInstruction := ⟨.vspOffset, -4, by decide, by decide⟩

/-- `vsp = x29 + 512`. -/
def farFrame : QutInstruction := ⟨.vspSetByX29, 512, by decide, by decide⟩

def sampleEntries : List (ℕ × List QutInstruction) :=
  [(0x1000, [backOffset]), (0x2000, frameInstructions), (0x3000, [farFrame])]

def sampleSections : QutSections :=
  ⟨[0x1000, 9259288243883055513, 0x2000, 144115188075855872, 0x3000, 9261230440979208601],
    [9367416868962304407, 14310638175932488089]⟩

def sampleMachine : Machine .arm64 := ⟨0, fun _ => 0x700000, 0, false⟩

/-- A stack in which every word holds the address after its own. -/
def sampleStack : StepContext .arm64 := ⟨BitVec.allOnes _, 0, fun addr => addr + 1⟩

theorem pack_sampleEntries :
    packEntriesToQutSections .arm64 sampleEntries = some sampleSections := by
  decide +kernel

theorem eval_packed_frame :
    ∃ m, execAll sampleStack frameInstructions sampleMachine = some m ∧ m.cfa = 0x700150 ∧
      eval .arm64 sampleSections sampleStack 2 sampleMachine = some (.none, m) :=
  ⟨_, rfl, rfl, (eval_packed pack_sampleEntries (e := 1) rfl (by decide +kernel)).1 sampleStack
    sampleMachine _ (by decide +kernel) rfl⟩

/-- The short offset is subtracted modulo 256, and the far frame also moves the dex pc. -/
theorem eval_backOffset_farFrame_fails :
    packEntriesToQutSections .arm64 sampleEntries = some sampleSections ∧
    quickenInstructionsEncode .arm64 [backOffset] ≠ none ∧
    execAll sampleStack [backOffset] sampleMachine = some (sampleMachine.setCfa (-4)) ∧
    eval .arm64 sampleSections sampleStack 0 sampleMachine =
      some (.none, sampleMachine.setCfa (-252)) ∧
    quickenInstructionsEncode .arm64 [farFrame] ≠ none ∧
    execAll sampleStack [farFrame] sampleMachine = some (sampleMachine.setCfa 0x700200) ∧
    eval .arm64 sampleSections sampleStack 4 sampleMachine =
      some (.none, (sampleMachine.setCfa 0x700200).setDexPc 0x700000) :=
  ⟨pack_sampleEntries, by decide +kernel, rfl, rfl, by decide +kernel, rfl, rfl⟩

end TraceHarbor.Backtrace
