import Mathlib

/-!
# Bytes Packed into Rows

A row is a word that holds bytes from its highest position down. It is assembled by or-ing every byte
into its place and taken apart by shifting it back.
-/

namespace TraceHarbor.Lib

open List

/-- The row with the bytes or-ed below what it already holds. -/
def packInto (row : ℕ) : List ℕ → ℕ
  | [] => row
  | byte :: bytes => packInto (row ||| byte <<< (8 * bytes.length)) bytes

/-- The lowest `n` bytes of a row, the highest of them first. -/
def rowBytes (row : ℕ) : ℕ → List ℕ
  | 0 => []
  | n + 1 => (row >>> (8 * n)) % 256 :: rowBytes row n

/-- A list of bytes cut into `count` rows of `size` bytes. -/
def rowsOf (size : ℕ) : ℕ → List ℕ → List ℕ
  | 0, _ => []
  | count + 1, bytes => packInto 0 (bytes.take size) :: rowsOf size count (bytes.drop size)

theorem packInto_shiftRight {bytes : List ℕ} (hbs : ∀ b ∈ bytes, b < 256) (row : ℕ) {s : ℕ}
    (hs : 8 * bytes.length ≤ s) : packInto row bytes >>> s = row >>> s := by
  induction bytes generalizing row with
  | nil => rfl
  | cons byte bytes ih =>
    rw [length_cons] at hs
    have hbyte := hbs byte (mem_cons_self ..)
    rw [packInto, ih (fun b hb => hbs b (mem_cons_of_mem _ hb)) _ (by omega),
      Nat.shiftRight_or_distrib]
    have hzero : byte <<< (8 * bytes.length) >>> s = 0 := by
      rw [Nat.shiftLeft_eq, Nat.shiftRight_eq_div_pow]
      apply Nat.div_eq_of_lt
      calc byte * 2 ^ (8 * bytes.length)
          < 2 ^ 8 * 2 ^ (8 * bytes.length) := Nat.mul_lt_mul_of_pos_right hbyte (by positivity)
        _ = 2 ^ (8 * (bytes.length + 1)) := by ring
        _ ≤ 2 ^ s := Nat.pow_le_pow_right (by decide) hs
    rw [hzero, Nat.or_zero]

/-- **The bytes of a row come back in order**, whatever the row holds above them. -/
theorem rowBytes_packInto {bytes : List ℕ} (hbs : ∀ b ∈ bytes, b < 256) (high : ℕ) :
    rowBytes (packInto (high <<< (8 * bytes.length)) bytes) bytes.length = bytes := by
  induction bytes generalizing high with
  | nil => rfl
  | cons byte bytes ih =>
    have hbyte := hbs byte (mem_cons_self ..)
    have hrest : ∀ b ∈ bytes, b < 256 := fun b hb => hbs b (mem_cons_of_mem _ hb)
    have hhigh : high <<< (8 * (bytes.length + 1)) ||| byte <<< (8 * bytes.length) =
        (high <<< 8 ||| byte) <<< (8 * bytes.length) := by
      rw [Nat.shiftLeft_or_distrib, ← Nat.shiftLeft_add]
      congr 2
      ring
    rw [length_cons, packInto, hhigh, rowBytes, ih hrest, packInto_shiftRight hrest _ le_rfl,
      Nat.shiftLeft_shiftRight]
    congr 1
    have hlow : high <<< 8 % 2 ^ 8 = 0 := by
      rw [Nat.shiftLeft_eq, Nat.mul_mod_left]
    rw [show 256 = 2 ^ 8 from rfl, Nat.or_mod_two_pow, hlow, Nat.zero_or]
    exact Nat.mod_eq_of_lt hbyte

/-- The bytes of a list cut into rows come back in order. -/
theorem flatMap_rowBytes_rowsOf {size : ℕ} (count : ℕ) {bytes : List ℕ}
    (hbs : ∀ b ∈ bytes, b < 256) (hlen : bytes.length = count * size) :
    (rowsOf size count bytes).flatMap (rowBytes · size) = bytes := by
  induction count generalizing bytes with
  | zero =>
    rw [Nat.zero_mul] at hlen
    exact (length_eq_zero_iff.mp hlen).symm
  | succ count ih =>
    rw [Nat.succ_mul] at hlen
    have htake : (bytes.take size).length = size := by
      rw [length_take]
      omega
    have hrow : rowBytes (packInto 0 (bytes.take size)) size = bytes.take size := by
      have hsmall : ∀ b ∈ bytes.take size, b < 256 := fun b hb => hbs b (mem_of_mem_take hb)
      have hback := rowBytes_packInto hsmall 0
      rw [Nat.zero_shiftLeft, htake] at hback
      exact hback
    have hdrop : (bytes.drop size).length = count * size := by
      rw [length_drop]
      omega
    rw [rowsOf, flatMap_cons, hrow, ih (fun b hb => hbs b (mem_of_mem_drop hb)) hdrop,
      take_append_drop]

theorem length_rowsOf (size count : ℕ) (bytes : List ℕ) : (rowsOf size count bytes).length = count := by
  induction count generalizing bytes with
  | zero => rfl
  | succ count ih => rw [rowsOf, length_cons, ih]

end TraceHarbor.Lib
