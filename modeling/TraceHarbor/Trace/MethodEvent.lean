import Mathlib

/-!
# Method Events Packed into 64-bit Longs

`AppMethodBeat` records every instrumented method entry and exit as one Kotlin `Long`: bit 63 is 1 for an
entry, bits 62-43 are the method id, and bits 42-0 the time relative to `sDiffTime`. `mergeData` writes
the layout, `TraceDataUtils` reads it back with `isIn`, `getMethodId` and `getTime`.
-/

namespace TraceHarbor.Trace

open BitVec

/-- Kotlin's `Long`. -/
abbrev Long := BitVec 64

/-- `Long.toInt()`: the low 32 bits, read as a signed number. -/
def Long.toInt32 (v : Long) : Int := (v.setWidth 32).toInt

/-- A sum of two Kotlin `Int`s wraps around at 32 bits. -/
def addInt32 (a b : Int) : Int := (a + b).bmod (2 ^ 32)

def methodIdMax : Int := 0xFFFFF

def methodIdDispatch : Int := methodIdMax - 1

/-- The long that `AppMethodBeat.mergeData` stores for a method id at the current
relative time. -/
def mergeData (methodId : Int) (sCurrentDiffTime : Long) (isIn : Bool) : Long :=
  (if isIn then 1#64 <<< 63 else 0#64) ||| (BitVec.ofInt 64 methodId <<< 43) |||
    (sCurrentDiffTime &&& 0x7FFFFFFFFFF#64)

def isIn (trueId : Long) : Bool := (trueId.sshiftRight 63) &&& 1#64 == 1#64

def getTime (trueId : Long) : Long := trueId &&& 0x7FFFFFFFFFF#64

def getMethodId (trueId : Long) : Int := Long.toInt32 ((trueId.sshiftRight 43) &&& 0xFFFFF#64)

/-! ## Reading Back What `mergeData` Wrote -/

private theorem mask43_getLsbD (i : ℕ) : (0x7FFFFFFFFFF#64).getLsbD i = decide (i < 43) := by
  by_cases hi : i < 64
  · have h : ∀ j : Fin 64, (0x7FFFFFFFFFF#64).getLsbD j = decide (j.val < 43) := by decide
    exact h ⟨i, hi⟩
  · rw [getLsbD_of_ge _ _ (by omega)]
    simp only [Bool.false_eq, decide_eq_false_iff_not]
    omega

private theorem mask20_getLsbD (i : ℕ) : (0xFFFFF#64).getLsbD i = decide (i < 20) := by
  by_cases hi : i < 64
  · have h : ∀ j : Fin 64, (0xFFFFF#64).getLsbD j = decide (j.val < 20) := by decide
    exact h ⟨i, hi⟩
  · rw [getLsbD_of_ge _ _ (by omega)]
    simp only [Bool.false_eq, decide_eq_false_iff_not]
    omega

private theorem enterBit_getLsbD (b : Bool) (i : ℕ) :
    (if b then 1#64 <<< 63 else 0#64).getLsbD i = (b && decide (i = 63)) := by
  cases b with
  | false => simp
  | true =>
    by_cases hi : i < 64
    · have h : ∀ j : Fin 64, (1#64 <<< 63).getLsbD j = decide (j.val = 63) := by decide
      simpa using h ⟨i, hi⟩
    · have hne : i ≠ 63 := by omega
      simp [getLsbD_of_ge _ _ (show 64 ≤ i by omega), hne]

private theorem testBit_eq_false {n k i : ℕ} (hn : n < 2 ^ k) (hi : k ≤ i) :
    n.testBit i = false :=
  Nat.testBit_lt_two_pow (lt_of_lt_of_le hn (Nat.pow_le_pow_right (by norm_num) hi))

theorem mergeData_getLsbD (m t : ℕ) (b : Bool) (hm : m < 2 ^ 20) (i : ℕ) (hi : i < 64) :
    (mergeData m (BitVec.ofNat 64 t) b).getLsbD i =
      if i = 63 then b else if 43 ≤ i then m.testBit (i - 43) else t.testBit i := by
  simp only [mergeData, ofInt_natCast, getLsbD_or, enterBit_getLsbD,
    getLsbD_shiftLeft, getLsbD_and, mask43_getLsbD]
  simp only [getLsbD_ofNat]
  by_cases h63 : i = 63
  · subst h63
    have hm20 : m.testBit (63 - 43) = false := testBit_eq_false hm (by norm_num)
    simp [hm20]
  · by_cases h43 : 43 ≤ i
    · simp [h63, h43, hi, show ¬ i < 43 by omega, show i - 43 < 64 by omega]
    · simp [h63, h43, hi, show i < 43 by omega]

theorem isIn_mergeData (m t : ℕ) (b : Bool) (hm : m < 2 ^ 20) :
    isIn (mergeData m (BitVec.ofNat 64 t) b) = b := by
  have hbit : (mergeData m (BitVec.ofNat 64 t) b).sshiftRight 63 &&& 1#64 =
      BitVec.ofNat 64 b.toNat := by
    apply eq_of_getLsbD_eq
    intro i hi
    rw [getLsbD_and, getLsbD_sshiftRight]
    by_cases h0 : i = 0
    · subst h0
      rw [mergeData_getLsbD m t b hm _ (by norm_num)]
      cases b <;> simp
    · have hone : (1#64).getLsbD i = false := by
        have h : ∀ j : Fin 64, j.val ≠ 0 → (1#64).getLsbD j = false := by decide
        exact h ⟨i, hi⟩ h0
      cases b <;> simp [hone]
  rw [isIn, hbit]
  cases b <;> decide

theorem getTime_mergeData (m t : ℕ) (b : Bool) (hm : m < 2 ^ 20) (ht : t < 2 ^ 43) :
    getTime (mergeData m (BitVec.ofNat 64 t) b) = BitVec.ofNat 64 t := by
  apply eq_of_getLsbD_eq
  intro i hi
  rw [getTime, getLsbD_and, mergeData_getLsbD m t b hm i hi, mask43_getLsbD,
    getLsbD_ofNat]
  by_cases h43 : i < 43
  · simp [h43, hi, show i ≠ 63 by omega, show ¬ 43 ≤ i by omega]
  · simp [h43, testBit_eq_false ht (by omega : 43 ≤ i)]

theorem getMethodId_mergeData (m t : ℕ) (b : Bool) (hm : m < 2 ^ 20) :
    getMethodId (mergeData m (BitVec.ofNat 64 t) b) = m := by
  have hfld : (mergeData m (BitVec.ofNat 64 t) b).sshiftRight 43 &&& 0xFFFFF#64 =
      BitVec.ofNat 64 m := by
    apply eq_of_getLsbD_eq
    intro i hi
    rw [getLsbD_and, getLsbD_sshiftRight, mask20_getLsbD, getLsbD_ofNat]
    by_cases h20 : i < 20
    · rw [if_pos (by omega), mergeData_getLsbD m t b hm _ (by omega)]
      simp [h20, hi, show ¬ 64 ≤ i by omega, show 43 + i ≠ 63 by omega]
    · simp [h20, testBit_eq_false hm (by omega : 20 ≤ i)]
  rw [getMethodId, hfld, Long.toInt32, setWidth_ofNat_of_le (by norm_num)]
  rw [toInt_eq_toNat_of_lt] <;> rw [toNat_ofNat] <;> omega

/-- An event of a real method is never the long `0` that marks an unused buffer slot. -/
theorem mergeData_ne_zero (m t : ℕ) (b : Bool) (hm : m < 2 ^ 20) (hpos : 0 < m) :
    mergeData m (BitVec.ofNat 64 t) b ≠ 0#64 := by
  intro hzero
  have hid := getMethodId_mergeData m t b hm
  rw [hzero] at hid
  have h0 : getMethodId 0#64 = 0 := by decide
  omega

/-! ## Durations -/

theorem toInt32_ofNat {n : ℕ} (hn : n < 2 ^ 31) : Long.toInt32 (BitVec.ofNat 64 n) = n := by
  rw [Long.toInt32, setWidth_ofNat_of_le (by norm_num)]
  rw [toInt_eq_toNat_of_lt] <;> rw [toNat_ofNat] <;> omega

end TraceHarbor.Trace
