import Mathlib

/-!
# Signed LEB128

A signed number as bytes of seven bits each, lowest first; every byte but the last has its top bit
set, and bit 6 of the last byte is the sign.
-/

namespace TraceHarbor.Lib.Sleb128

/-- The bytes of a number, at most `n` of them. -/
def encode : ℕ → ℤ → List ℕ
  | 0, _ => []
  | n + 1, v =>
    let byte := (v % 128).toNat
    let rest := v / 128
    if (rest = 0 ∧ byte < 64) ∨ (rest = -1 ∧ 64 ≤ byte) then [byte] else (byte + 128) :: encode n rest

/-- The number at the head of a list of bytes, on top of the `shift` bits read so far, and the bytes
behind it. The sign is extended below bit 64 only. -/
def decode (shift : ℕ) (value : ℤ) : List ℕ → Option (ℤ × List ℕ)
  | [] => none
  | byte :: rest =>
    let value := value + (byte % 128 : ℕ) * 2 ^ shift
    if 128 ≤ byte then decode (shift + 7) value rest
    else if shift + 7 < 64 ∧ 64 ≤ byte then some (value - 2 ^ (shift + 7), rest)
    else some (value, rest)

theorem encode_lt {n : ℕ} {v : ℤ} {b : ℕ} (h : b ∈ encode n v) : b < 256 := by
  induction n generalizing v with
  | zero => simp [encode] at h
  | succ n ih =>
    rw [encode] at h
    split_ifs at h with hlast
    · rw [List.mem_singleton] at h
      omega
    · rcases List.mem_cons.mp h with rfl | h
      · omega
      · exact ih h

theorem encode_ne_nil (n : ℕ) (v : ℤ) : encode (n + 1) v ≠ [] := by
  rw [encode]
  split_ifs <;> simp

theorem length_encode_le (n : ℕ) (v : ℤ) : (encode n v).length ≤ n := by
  induction n generalizing v with
  | zero => simp [encode]
  | succ n ih =>
    rw [encode]
    split_ifs
    · simp
    · simpa using ih _

/-- The last byte of a number gives its remaining bits and its sign. -/
theorem decode_last {shift : ℕ} (hshift : shift + 7 < 64) (acc : ℤ) {v : ℤ}
    (hlast : (v / 128 = 0 ∧ (v % 128).toNat < 64) ∨ (v / 128 = -1 ∧ 64 ≤ (v % 128).toNat))
    (rest : List ℕ) :
    decode shift acc ((v % 128).toNat :: rest) = some (acc + v * 2 ^ shift, rest) := by
  have hbyte : (v % 128).toNat < 128 := by omega
  have hcast : (((v % 128).toNat : ℕ) : ℤ) = v % 128 := by omega
  rw [decode, if_neg (by omega), Nat.mod_eq_of_lt hbyte, hcast]
  rcases hlast with ⟨hrest, hsmall⟩ | ⟨hrest, hbig⟩
  · rw [if_neg fun h => absurd h.2 (not_le.mpr hsmall)]
    have hv' : v % 128 = v := by omega
    rw [hv']
  · rw [if_pos ⟨hshift, hbig⟩]
    have hv' : v % 128 = v + 128 := by omega
    rw [hv']
    congr 2
    ring

/-- **Round trip**: `n + 1` bytes hold every number of `7 * (n + 1)` bits. -/
theorem decode_encode (n shift : ℕ) (hshift : shift + 7 * (n + 1) < 64) (acc v : ℤ)
    (hlow : -2 ^ (7 * n + 6) ≤ v) (hhigh : v < 2 ^ (7 * n + 6)) (rest : List ℕ) :
    decode shift acc (encode (n + 1) v ++ rest) = some (acc + v * 2 ^ shift, rest) := by
  induction n generalizing shift acc v with
  | zero =>
    have hlast : (v / 128 = 0 ∧ (v % 128).toNat < 64) ∨ (v / 128 = -1 ∧ 64 ≤ (v % 128).toNat) := by
      omega
    rw [encode, if_pos hlast]
    exact decode_last (by omega) acc hlast rest
  | succ n ih =>
    rw [encode]
    split_ifs with hlast
    · exact decode_last (by omega) acc hlast rest
    · have hcast : (((v % 128).toNat : ℕ) : ℤ) = v % 128 := by omega
      have hpow : (2 : ℤ) ^ (7 * (n + 1) + 6) = 128 * 2 ^ (7 * n + 6) := by ring
      have hmod : ((v % 128).toNat + 128) % 128 = (v % 128).toNat := by omega
      rw [List.cons_append, decode, if_pos (by omega), hmod, hcast,
        ih _ (by omega) _ _ (by omega) (by omega)]
      -- the bits of this byte and seven times two more for the rest
      have hv : v = 128 * (v / 128) + v % 128 := (Int.mul_ediv_add_emod v 128).symm
      congr 2
      calc acc + v % 128 * 2 ^ shift + v / 128 * 2 ^ (shift + 7)
          = acc + (128 * (v / 128) + v % 128) * 2 ^ shift := by ring
        _ = acc + v * 2 ^ shift := by rw [← hv]

end TraceHarbor.Lib.Sleb128
