import TraceHarbor.Arsc.PoolRefresh

/-!
# String Pool Entries on Android

An entry in UTF-8 has two lengths, the number of units and the number of bytes, each of one byte or,
with the high bit set, of two. `encodeStringPoolEntry` writes two bytes in all, and both are the number
of units.
-/

namespace TraceHarbor.Arsc

open Lib List

/-- Strings with two bytes for each unit of UTF-16. -/
class UnitText (S : Type) extends Text S where
  length_utf16le : ∀ s, (utf16le.encode s).length = 2 * length s

instance : UnitText Ascii where
  length_utf16le := Ascii.length_encode16

/-- A length of one byte or, with the high bit set, of two. -/
def androidLength : Bytes → Option (ℕ × Bytes)
  | [] => none
  | high :: rest =>
    if high.toNat < 0x80 then some (high.toNat, rest)
    else match rest with
      | [] => none
      | low :: rest => some ((high.toNat - 0x80) * 256 + low.toNat, rest)

/-- `size` bytes before a terminator. -/
def androidTerminated (terminator : Bytes) (size : ℕ) (bytes : Bytes) : Option Bytes :=
  if terminator <+: bytes.drop size then some (bytes.take size) else none

/-- The encoded string of an entry, as Android reads it. -/
def androidContent (bytes : Bytes) (utf8 : Bool) : Option Bytes :=
  if utf8 then do
    let (_, bytes) ← androidLength bytes
    let (size, bytes) ← androidLength bytes
    androidTerminated [0] size bytes
  else androidTerminated [0, 0] (2 * leValue (bytes.take 2)) (bytes.drop 2)

theorem androidTerminated_self (terminator content : Bytes) :
    androidTerminated terminator content.length (content ++ terminator) = some content := by
  rw [androidTerminated, drop_left, if_pos prefix_rfl, take_left]

theorem length_of_androidTerminated {size : ℕ} {bytes content : Bytes}
    (h : androidTerminated [0] size bytes = some content) :
    content.length = size ∧ size < bytes.length := by
  rw [androidTerminated] at h
  split_ifs at h with hdrop
  have hlen := IsPrefix.length_le hdrop
  rw [length_singleton, length_drop] at hlen
  rw [← Option.some_inj.mp h, length_take]
  omega

theorem length_of_androidLength {bytes rest : Bytes} {n : ℕ}
    (h : androidLength bytes = some (n, rest)) : rest.length < bytes.length := by
  rcases bytes with _ | ⟨high, _ | ⟨low, bytes⟩⟩
  · cases h
  all_goals
    rw [androidLength] at h
    split_ifs at h <;> cases h <;> simp

/-- With the high bit set, both bytes in front of the string are the number of units. -/
theorem androidContent_of_long {high low : UInt8} {content : Bytes} (h : 0x80 ≤ high.toNat) :
    androidContent (high :: low :: (content ++ [0])) true ≠ some content := by
  intro heq
  simp only [androidContent, if_true, androidLength, if_neg (not_lt.mpr h), Option.bind_eq_bind,
    Option.bind_some] at heq
  obtain ⟨⟨size, rest⟩, hsize, hrest⟩ := Option.bind_eq_some_iff.mp heq
  have hlt := length_of_androidLength hsize
  obtain ⟨hcont, hlen⟩ : content.length = size ∧ size < rest.length :=
    length_of_androidTerminated hrest
  rw [length_append, length_singleton] at hlt
  omega

variable {S : Type} [UnitText S]

theorem android_utf8_iff {s : S} (h : Text.length s < 0x8000) :
    androidContent (encodeStringPoolEntry s true) true = some (Text.utf8.encode s) ↔
      Text.length s < 0x80 ∧ (Text.utf8.encode s).length = Text.length s := by
  have hmask : Text.length s &&& 0xff = Text.length s % 2 ^ 8 := Nat.and_two_pow_sub_one_eq_mod _ 8
  by_cases hlong : 0xff < Text.length s
  · have hor := Nat.or_lt_two_pow (n := 8) (x := (Text.length s &&& 0x7f00) >>> 8) (y := 0x80)
      (by have := Nat.and_le_right (n := Text.length s) (m := 0x7f00); omega) (by decide)
    have hle : 0x80 ≤ (Text.length s &&& 0x7f00) >>> 8 ||| 0x80 := Nat.right_le_or
    simp only [encodeStringPoolEntry, if_pos hlong, if_true, cons_append, nil_append]
    refine iff_of_false (androidContent_of_long ?_) (by omega)
    rw [UInt8.toNat_ofNat', Nat.mod_eq_of_lt hor]
    exact hle
  · have hbyte : (UInt8.ofNat (Text.length s &&& 0xff)).toNat = Text.length s := by
      rw [UInt8.toNat_ofNat']
      omega
    simp only [encodeStringPoolEntry, if_neg hlong, if_true, cons_append, nil_append]
    by_cases hshort : Text.length s < 0x80
    · simp only [androidContent, androidLength, if_true, hbyte, if_pos hshort, Option.bind_eq_bind,
        Option.bind_some]
      refine ⟨fun heq => ⟨hshort, (length_of_androidTerminated heq).1⟩, fun heq => ?_⟩
      rw [← heq.2]
      exact androidTerminated_self ..
    · exact iff_of_false (androidContent_of_long (by omega)) fun h => hshort h.1

theorem android_utf16 {s : S} (h : Text.length s < 0x8000) :
    androidContent (encodeStringPoolEntry s false) false = some (Text.utf16le.encode s) := by
  have hmask : Text.length s &&& 0xffff = Text.length s % 2 ^ 16 :=
    Nat.and_two_pow_sub_one_eq_mod _ 16
  have htake : (leBytes 2 (Text.length s &&& 0xffff)).length = 2 := length_leBytes ..
  simp only [androidContent, encodeStringPoolEntry, if_neg (show ¬ 0xffff < Text.length s by omega),
    Bool.false_eq_true, if_false, append_assoc]
  rw [take_left' htake, leValue_leBytes, hmask,
    show Text.length s % 2 ^ 16 % 256 ^ 2 = Text.length s by omega, ← UnitText.length_utf16le]
  exact androidTerminated_self ..

/-- **String pool entries**: an encoded string resolves to itself; Android reads it back from UTF-16,
and from UTF-8 exactly if it is short and has one byte for each unit. -/
theorem entry_codec_iff (s : S) (utf8 : Bool) (h : Text.length s < 0x8000) :
    resolveStringPoolEntry (encodeStringPoolEntry s utf8) utf8 = some s ∧
        androidContent (encodeStringPoolEntry s utf8) utf8 = some ((charset utf8).encode s) ↔
      utf8 = false ∨ Text.length s < 0x80 ∧ (Text.utf8.encode s).length = Text.length s := by
  rw [and_iff_right (resolve_encode (.inr h))]
  cases utf8 with
  | true => exact (android_utf8_iff h).trans (by simp)
  | false => exact iff_of_true (android_utf16 h) (.inl rfl)

theorem entry_codec_iff_ascii :
    androidContent (encodeStringPoolEntry ([104, 105] : Ascii) true) true =
      some ((charset true).encode ([104, 105] : Ascii)) :=
  ((entry_codec_iff ([104, 105] : Ascii) true (by decide)).mpr (.inr (by decide))).2

/-- A hundred and twenty-eight letters cannot be read back. -/
theorem android_rejects_long_entry :
    androidContent (encodeStringPoolEntry (replicate 128 97 : Ascii) true) true = none := by
  decide +kernel

end TraceHarbor.Arsc
