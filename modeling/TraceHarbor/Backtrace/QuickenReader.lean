import TraceHarbor.Backtrace.QuickenTable

/-!
# Reading Bytes from Words

`ReadByte` walks over an array of words, from the highest byte of a word to its lowest and on to the
next word. `DecodeSLEB128` reads a signed number on this way.
-/

namespace TraceHarbor.Backtrace

open Lib List Option

variable {a : Arch} {words : List ℕ}

/-! ## Reading -/

/-- The place of the next byte: `_i`, the word, and `_j`, the byte in it. -/
structure Cursor where
  i : ℕ
  j : ℕ
  deriving DecidableEq

/-- `ReadByte`, with `IterateNextByteIdx`; `none` when there is no word to read. -/
def readByte (a : Arch) (words : List ℕ) (c : Cursor) : Option (ℕ × Cursor) :=
  words[c.i]?.map fun word =>
    ((word >>> (8 * c.j)) % 256, if c.j = 0 then ⟨c.i + 1, a.rowSize⟩ else ⟨c.i, c.j - 1⟩)

/-- Reading from one cursor to another yields these bytes. -/
def Reads (a : Arch) (words : List ℕ) : List ℕ → Cursor → Cursor → Prop
  | [], c, c' => c = c'
  | byte :: bytes, c, c' => ∃ next, readByte a words c = some (byte, next) ∧ Reads a words bytes next c'

theorem Reads.append {bytes bytes' : List ℕ} {c c' c'' : Cursor} (h : Reads a words bytes c c')
    (h' : Reads a words bytes' c' c'') : Reads a words (bytes ++ bytes') c c'' := by
  induction bytes generalizing c with
  | nil => exact h ▸ h'
  | cons byte bytes ih =>
    obtain ⟨next, hread, hrest⟩ := h
    exact ⟨next, hread, ih hrest⟩

theorem reads_word {i word : ℕ} (hword : words[i]? = some word) (j : ℕ) :
    Reads a words (rowBytes word (j + 1)) ⟨i, j⟩ ⟨i + 1, a.rowSize⟩ := by
  induction j with
  | zero => exact ⟨_, by rw [readByte, hword]; rfl, rfl⟩
  | succ j ih => exact ⟨⟨i, j⟩, by rw [readByte, hword]; rfl, ih⟩

theorem reads_words {before rest : List ℕ} (h : words = before ++ rest) :
    Reads a words (rest.flatMap (rowBytes · a.wordBytes)) ⟨before.length, a.rowSize⟩
      ⟨words.length, a.rowSize⟩ := by
  induction rest generalizing before with
  | nil => simp [h, Reads]
  | cons word rest ih =>
    have hrest := @ih (before ++ [word]) (by simp [h])
    rw [length_append] at hrest
    exact (reads_word (by simp [h]) _).append hrest

/-- The bytes from byte `j` of the first word on. -/
def bytesFrom (a : Arch) (j : ℕ) : List ℕ → List ℕ
  | [] => []
  | word :: words => rowBytes word (j + 1) ++ words.flatMap (rowBytes · a.wordBytes)

theorem bytesFrom_rowSize (words : List ℕ) :
    bytesFrom a a.rowSize words = words.flatMap (rowBytes · a.wordBytes) := by
  cases words <;> rfl

theorem reads_bytesFrom (hne : words ≠ []) (j : ℕ) :
    Reads a words (bytesFrom a j words) ⟨0, j⟩ ⟨words.length, a.rowSize⟩ := by
  obtain ⟨word, rest, rfl⟩ := exists_cons_of_ne_nil hne
  exact (reads_word rfl j).append (@reads_words a _ [word] rest rfl)

/-- The words of an entry and the byte of the first one at which `Eval` starts. -/
def evalStart (a : Arch) (s : QutSections) (entryOffset : ℕ) : Option (List ℕ × ℕ) := do
  let command ← s.quidx[entryOffset + 1]?
  if command >>> (8 * a.wordBytes - 1) ≠ 0 then some ([command], a.rowSize - 1)
  else
    let rowCount := (command >>> ((a.wordBytes - 1) * 8)) &&& 0x7f
    let rowOffset := command &&& 0xffffff
    if rowOffset + rowCount ≤ s.qutbl.length then
      some ((s.qutbl.drop rowOffset).take rowCount, a.rowSize)
    else none

theorem eval_eq_decode_bytesFrom {s : QutSections} {offset j : ℕ}
    (h : evalStart a s offset = some (words, j)) (ctx : StepContext a) (m : Machine a) :
    eval a s ctx offset m = decode a ctx (bytesFrom a j words) m := by
  obtain ⟨command, hidx, h⟩ := bind_eq_some_iff.mp h
  rw [eval, hidx, bind_eq_bind, bind_some]
  dsimp only at h ⊢
  split_ifs at h ⊢
  · cases h
    cases a <;> exact congrArg (decode _ ctx · m) (append_nil _).symm
  · cases h
    exact congrArg (decode a ctx · m) (bytesFrom_rowSize _).symm

/-! ## Signed numbers -/

/-- One round of the loop of `EncodeSLEB128` on what is left of the value and the bytes so far. -/
def encodeRound : ℤ × List ℕ → (ℤ × List ℕ) ⊕ List ℕ
  | (value, bytes) =>
    let byte := (value % 128).toNat
    let rest := value / 128
    if (rest = 0 ∧ byte < 64) ∨ (rest = -1 ∧ 64 ≤ byte) then .inr (bytes ++ [byte])
    else .inl (rest, bytes ++ [byte + 128])

/-- One round of the loop of `DecodeSLEB128`, and what follows the loop; `none` is the overflow
error. -/
def decodeRound (a : Arch) (words : List ℕ) :
    ℕ × ℕ × Cursor → (ℕ × ℕ × Cursor) ⊕ Option (ℕ × Cursor)
  | (value, shift, c) =>
    match readByte a words c with
    | none => .inr none
    | some (byte, c) =>
      let value := value ||| ((byte % 128) <<< shift) % 2 ^ 64
      let shift := shift + 7
      if 0x80 ≤ byte ∧ c.i < words.length then .inl (value, shift, c)
      else
        let value := if shift < 64 ∧ byte / 64 % 2 = 1 then
          value ||| ((2 ^ 64 - 1) <<< shift) % 2 ^ 64 else value
        .inr (if 0x80 ≤ byte then none else some (value, c))

theorem loop_encodeRound (n : ℕ) {v : ℤ} (hlow : -2 ^ (7 * n + 6) ≤ v) (hhigh : v < 2 ^ (7 * n + 6))
    (bytes : List ℕ) :
    loop encodeRound (n + 1) (v, bytes) = some (bytes ++ Sleb128.encode (n + 1) v) := by
  induction n generalizing v bytes with
  | zero =>
    have hlast : (v / 128 = 0 ∧ (v % 128).toNat < 64) ∨ (v / 128 = -1 ∧ 64 ≤ (v % 128).toNat) := by
      omega
    simp only [loop, encodeRound, Sleb128.encode, if_pos hlast]
  | succ n ih =>
    rw [Sleb128.encode, loop, encodeRound]
    split_ifs with hlast
    · rfl
    · have hpow : (2 : ℤ) ^ (7 * (n + 1) + 6) = 128 * 2 ^ (7 * n + 6) := by ring
      dsimp only
      rw [ih (by omega) (by omega), append_assoc]
      rfl

theorem or_shiftLeft {n shift : ℕ} (hn : n < 2 ^ shift) (high : ℕ) :
    n ||| high <<< shift = n + high * 2 ^ shift := by
  rw [Nat.or_comm, ← Nat.shiftLeft_add_eq_or_of_lt hn, Nat.shiftLeft_eq, Nat.add_comm]

theorem or_ones {n shift : ℕ} (hn : n < 2 ^ shift) (hshift : shift < 64) :
    n ||| ((2 ^ 64 - 1) <<< shift) % 2 ^ 64 = n + (2 ^ 64 - 2 ^ shift) := by
  have hones : ∀ s < 64, ((2 ^ 64 - 1) <<< s) % 2 ^ 64 = (2 ^ (64 - s) - 1) <<< s ∧
      (2 ^ (64 - s) - 1) * 2 ^ s = 2 ^ 64 - 2 ^ s := by
    decide
  rw [(hones _ hshift).1, or_shiftLeft hn, (hones _ hshift).2]

/-- **The loop over the words decodes as the list of bytes does**, below the width of the
accumulator. -/
theorem loop_decodeRound {bytes : List ℕ} {n shift : ℕ} {z : ℤ} {c c' : Cursor}
    (hdec : Sleb128.decode shift n bytes = some (z, [])) (hn : n < 2 ^ shift)
    (hshift : shift + 7 * bytes.length < 64) (hreads : Reads a words bytes c c') :
    loop (decodeRound a words) bytes.length (n, shift, c) = some (some ((z % 2 ^ 64).toNat, c')) := by
  induction bytes generalizing n shift c with
  | nil => cases hdec
  | cons byte bytes ih =>
    obtain ⟨next, hread, hrest⟩ := hreads
    rw [length_cons] at hshift ⊢
    have hsum : n + byte % 128 * 2 ^ shift < 2 ^ (shift + 7) := by
      have hbyte : (byte % 128 + 1) * 2 ^ shift ≤ 128 * 2 ^ shift :=
        Nat.mul_le_mul_right _ (by omega)
      rw [Nat.succ_mul] at hbyte
      rw [pow_add]
      omega
    have hpow : 2 ^ (shift + 7) ≤ 2 ^ 63 := Nat.pow_le_pow_right (by decide) (by omega)
    have hval : n ||| ((byte % 128) <<< shift) % 2 ^ 64 = n + byte % 128 * 2 ^ shift := by
      rw [Nat.mod_eq_of_lt (by omega), or_shiftLeft hn]
    rw [loop, decodeRound, hread]
    dsimp only
    rw [hval]
    rw [Sleb128.decode] at hdec
    rw [show (n : ℤ) + (byte % 128 : ℕ) * 2 ^ shift = (n + byte % 128 * 2 ^ shift : ℕ) by
      rfl] at hdec
    by_cases hmore : 128 ≤ byte
    · rw [if_pos hmore] at hdec
      -- a byte follows, so the words do not end here
      have hins : next.i < words.length := by
        cases bytes with
        | nil => cases hdec
        | cons byte' bytes =>
          obtain ⟨_, hread', -⟩ := hrest
          obtain ⟨word, hword, -⟩ := map_eq_some_iff.mp hread'
          exact (List.getElem?_eq_some_iff.mp hword).1
      rw [if_pos ⟨hmore, hins⟩]
      exact ih hdec hsum (by omega) hrest
    · rw [if_neg fun h => hmore h.1]
      have hsign : byte / 64 % 2 = 1 ↔ 64 ≤ byte := by omega
      simp only [hsign]
      split_ifs at hdec ⊢ with hneg
      all_goals
        cases hdec
        obtain rfl : next = c' := hrest
      · rw [or_ones hsum hneg.1, show (2 : ℤ) ^ (shift + 7) = (2 ^ (shift + 7) : ℕ) by rfl]
        generalize 2 ^ (shift + 7) = high at hsum hpow
        congr 3
        omega
      · congr 3
        omega

/-- **SLEB128 round trip**: a 32-bit number is written in one to five bytes, and wherever they stand
in a table of words, reading them gives back the number in 64 bits and ends behind them. -/
theorem sleb128_roundTrip (v : ℤ) (hlow : -2 ^ 31 ≤ v) (hhigh : v < 2 ^ 31) :
    ∃ bytes, (∀ fuel ≥ 5, loop encodeRound fuel (v, []) = some bytes) ∧
      1 ≤ bytes.length ∧ bytes.length ≤ 5 ∧
      ∀ (a : Arch) (words : List ℕ) (c c' : Cursor), Reads a words bytes c c' →
        ∀ fuel ≥ 5, loop (decodeRound a words) fuel (0, 0, c) =
          some (some ((v % 2 ^ 64).toNat, c')) := by
  have henc := loop_encodeRound 4 (v := v) (by omega) (by omega) []
  have hdec := Sleb128.decode_encode 4 0 (by decide) 0 v (by omega) (by omega) []
  rw [append_nil, zero_add, pow_zero, mul_one] at hdec
  have hlen : (Sleb128.encode (4 + 1) v).length ≤ 5 := Sleb128.length_encode_le 5 v
  refine ⟨Sleb128.encode 5 v, fun fuel hfuel => loop_eq_some_of_le henc hfuel,
    length_pos_iff.mpr (Sleb128.encode_ne_nil 4 v), hlen, fun a words c c' hreads fuel hfuel => ?_⟩
  exact loop_eq_some_of_le (loop_decodeRound hdec (by decide) (by omega) hreads) (by omega)

/-- `-300` across the border of two words. -/
theorem sleb128_roundTrip_border :
    loop (decodeRound .arm32 [0xd4, 0x7d000000]) 5 (0, 0, ⟨0, 0⟩) =
      some (some (2 ^ 64 - 300, ⟨1, 2⟩)) := by
  obtain ⟨bytes, henc, -, -, hdec⟩ := sleb128_roundTrip (-300) (by decide) (by decide)
  obtain rfl : [0xd4, 0x7d] = bytes := some.inj (henc 5 le_rfl)
  exact hdec .arm32 _ ⟨0, 0⟩ ⟨1, 2⟩ ⟨_, rfl, _, rfl, rfl⟩ 5 le_rfl

end TraceHarbor.Backtrace
