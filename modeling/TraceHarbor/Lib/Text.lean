import Mathlib

/-!
# Texts, Lines and Numerals

A text is the list of its characters. Programs split it at a character, read it line by line and convert
numbers to digits and back. This file has what a reader needs to know about the output of a writer: the
columns of a joined line, the lines of a written file, the value of printed digits.
-/

namespace TraceHarbor.Lib

open List

/-- A string, as its characters. -/
abbrev Text := List Char

instance : LawfulBEq Text := inferInstance

/-! ## Splitting -/

section Split

variable {α : Type*} [DecidableEq α] {x : α}

theorem not_mem_of_mem_splitOn {l w : List α} (hw : w ∈ l.splitOn x) : x ∉ w := by
  induction l generalizing w with
  | nil =>
    rw [splitOn_nil, mem_singleton] at hw
    simp [hw]
  | cons a l ih =>
    rw [splitOn_cons_eq_if_modifyHead] at hw
    by_cases ha : a = x
    · rw [if_pos (by simpa using ha), mem_cons] at hw
      rcases hw with rfl | hw
      · exact not_mem_nil
      · exact ih hw
    · rw [if_neg (by simpa using ha)] at hw
      obtain ⟨v, vs, hsplit⟩ := exists_cons_of_ne_nil (splitOn_ne_nil x l)
      rw [hsplit, modifyHead_cons, mem_cons] at hw
      rcases hw with rfl | hw
      · exact not_mem_cons_of_ne_of_not_mem (Ne.symm ha) (ih (by simp [hsplit]))
      · exact ih (by simp [hsplit, hw])

theorem infix_of_mem_splitOn {l w : List α} (hw : w ∈ l.splitOn x) : w <:+: l := by
  have hjoin : [x].intercalate (l.splitOn x) = l := intercalate_splitOn x
  rw [← hjoin]
  generalize l.splitOn x = ws at hw
  induction ws with
  | nil => cases hw
  | cons v vs ih =>
    cases vs with
    | nil => rw [mem_singleton.mp hw, intercalate_singleton]
    | cons v' vs =>
      rcases mem_cons.mp hw with rfl | hw
      · exact (prefix_append ..).isInfix
      · exact (ih hw).trans ((suffix_append [x] _).trans (suffix_append v _)).isInfix

end Split

/-- Columns with a blank between them. -/
def unwords (columns : List Text) : Text := [' '].intercalate columns

variable {columns : List Text}

theorem unwords_cons (column : Text) (hne : columns ≠ []) :
    unwords (column :: columns) = column ++ ' ' :: unwords columns := by
  obtain ⟨next, rest, rfl⟩ := exists_cons_of_ne_nil hne
  rfl

theorem mem_unwords {c : Char} (h : c ∈ unwords columns) :
    c = ' ' ∨ ∃ column ∈ columns, c ∈ column := by
  induction columns with
  | nil => simp [unwords] at h
  | cons column columns ih =>
    by_cases hne : columns = []
    · subst hne
      exact .inr ⟨column, mem_cons_self, by simpa [unwords] using h⟩
    · rw [unwords_cons column hne, mem_append, mem_cons] at h
      rcases h with h | h | h
      · exact .inr ⟨column, mem_cons_self, h⟩
      · exact .inl h
      · rcases ih h with heq | ⟨column', hmem, hc⟩
        · exact .inl heq
        · exact .inr ⟨column', mem_cons_of_mem _ hmem, hc⟩

theorem splitOn_unwords (hne : columns ≠ []) (h : ∀ c ∈ columns, ' ' ∉ c) :
    (unwords columns).splitOn ' ' = columns :=
  splitOn_intercalate ' ' h hne

/-! ## Parts of texts -/

section Parts

/-- The first place of the character; `-1` when it does not occur. -/
def indexOf (text : Text) (c : Char) : ℤ :=
  if c ∈ text then text.idxOf c else -1

/-- The last place of the character; `-1` when it does not occur. -/
def lastIndexOf (text : Text) (c : Char) : ℤ :=
  if c ∈ text then text.length - 1 - text.reverse.idxOf c else -1

/-- The characters from one place up to another; `none` when there are no such places. -/
def substring (text : Text) (start stop : ℤ) : Option Text :=
  if 0 ≤ start ∧ start ≤ stop ∧ stop ≤ text.length then
    some ((text.take stop.toNat).drop start.toNat)
  else none

theorem lastIndexOf_append {text rest : Text} {c : Char} (h : c ∉ rest) :
    lastIndexOf (text ++ c :: rest) c = text.length := by
  have hrev : (text ++ c :: rest).reverse.idxOf c = rest.length := by
    rw [reverse_append, reverse_cons, append_assoc,
      idxOf_append_of_notMem (by simpa using h), singleton_append, idxOf_cons_self,
      length_reverse, Nat.add_zero]
  rw [lastIndexOf, if_pos (by simp)]
  simp only [length_append, length_cons]
  omega

/-- A text with the character is split at its last place. -/
theorem exists_last_split {text : Text} {c : Char} (h : c ∈ text) :
    ∃ before after, text = before ++ c :: after ∧ c ∉ after := by
  obtain ⟨after, before, heq, hnot⟩ := eq_append_cons_of_mem (mem_reverse.mpr h)
  exact ⟨before.reverse, after.reverse, by simpa using congrArg reverse heq, by simpa using hnot⟩

end Parts

/-! ## Lines -/

/-- The character ends a line. -/
def endsLine (more : Char → Bool) (c : Char) : Bool := c == '\n' || c == '\r' || more c

/-- The lines of a text whose first line has begun with `line`. What is left at the end is a line
unless it is empty. -/
def readLinesFrom (more : Char → Bool) : Text → Text → List Text
  | line, [] => if line = [] then [] else [line]
  | line, '\r' :: '\n' :: text => line :: readLinesFrom more [] text
  | line, c :: text =>
    if endsLine more c then line :: readLinesFrom more [] text
    else readLinesFrom more (line ++ [c]) text

def readLines (more : Char → Bool) (text : Text) : List Text := readLinesFrom more [] text

/-- A file of lines. -/
def writeLines (lines : List Text) : Text := lines.flatMap (· ++ ['\n'])

section Lines

variable {more : Char → Bool}

theorem readLinesFrom_append {line l text : Text} (h : ∀ c ∈ l, endsLine more c = false) :
    readLinesFrom more line (l ++ '\n' :: text) = (line ++ l) :: readLinesFrom more [] text := by
  induction l generalizing line with
  | nil => simp [readLinesFrom, endsLine]
  | cons c l ih =>
    have hc := h c mem_cons_self
    have hne : c ≠ '\r' := by
      rintro rfl
      simp [endsLine] at hc
    have hstep : readLinesFrom more line (c :: (l ++ '\n' :: text)) =
        readLinesFrom more (line ++ [c]) (l ++ '\n' :: text) := by
      rw [readLinesFrom]
      · rw [hc]
        rfl
      · rintro text' rfl
        exact absurd rfl hne
    rw [cons_append, hstep, ih fun c' hc' => h c' (mem_cons_of_mem c hc'),
      append_assoc, singleton_append]

/-- **The lines of a written file** are the lines that were written. -/
theorem readLines_writeLines {lines : List Text}
    (h : ∀ line ∈ lines, ∀ c ∈ line, endsLine more c = false) :
    readLines more (writeLines lines) = lines := by
  induction lines with
  | nil => rfl
  | cons line lines ih =>
    rw [readLines, writeLines, flatMap_cons, append_assoc, singleton_append,
      readLinesFrom_append (h line mem_cons_self)]
    exact congrArg (line :: ·) (ih fun l hl => h l (mem_cons_of_mem line hl))

end Lines

/-! ## Numerals -/

/-- The value of a digit, a letter standing for a digit above nine. -/
def digitValue (c : Char) : Option ℕ :=
  if '0' ≤ c ∧ c ≤ '9' then some (c.toNat - '0'.toNat)
  else if 'a' ≤ c ∧ c ≤ 'f' then some (c.toNat - 'a'.toNat + 10)
  else if 'A' ≤ c ∧ c ≤ 'F' then some (c.toNat - 'A'.toNat + 10)
  else none

/-- A digit of a base. -/
def digitIn (base : ℕ) (c : Char) : Option ℕ := (digitValue c).filter (· < base)

/-- The value of further digits. -/
def parseFrom (base : ℕ) (n : ℕ) (digits : Text) : Option ℕ :=
  digits.foldlM (fun n c => (digitIn base c).map (base * n + ·)) n

/-- The value of digits, of which there is at least one. -/
def parseDigits (base : ℕ) (digits : Text) : Option ℕ :=
  if digits = [] then none else parseFrom base 0 digits

section Numerals

variable {base : ℕ}

theorem digitIn_digitChar (hbase : base ≤ 16) {d : ℕ} (hd : d < base) :
    digitIn base (Nat.digitChar d) = some d := by
  have hval : ∀ d < 16, digitValue (Nat.digitChar d) = some d := by decide
  rw [digitIn, hval d (hd.trans_le hbase), Option.filter_some, if_pos (by simpa using hd)]

theorem parseFrom_append (n : ℕ) (digits digits' : Text) :
    parseFrom base n (digits ++ digits') = (parseFrom base n digits).bind (parseFrom base · digits') :=
  foldlM_append

theorem parseFrom_toDigits (hbase : 1 < base) (hbase' : base ≤ 16) (n : ℕ) :
    parseFrom base 0 (base.toDigits n) = some n := by
  induction n using Nat.strongRecOn with
  | ind n ih =>
    rw [Nat.toDigits_eq_if hbase]
    split_ifs with hlt
    · simp [parseFrom, digitIn_digitChar hbase' hlt]
    · have hdiv : n / base < n := Nat.div_lt_self (by omega) hbase
      rw [parseFrom_append, ih _ hdiv]
      simp [parseFrom, digitIn_digitChar hbase' (Nat.mod_lt n (by omega)), Nat.div_add_mod]

theorem exists_digitChar_of_mem_toDigits (hbase : 1 < base) {n : ℕ} {c : Char}
    (hc : c ∈ base.toDigits n) : ∃ d < base, c = Nat.digitChar d := by
  induction n using Nat.strongRecOn with
  | ind n ih =>
    rw [Nat.toDigits_eq_if hbase] at hc
    split_ifs at hc with hlt
    · exact ⟨n, hlt, mem_singleton.mp hc⟩
    · rcases mem_append.mp hc with hc | hc
      · exact ih _ (Nat.div_lt_self (by omega) hbase) hc
      · exact ⟨n % base, Nat.mod_lt n (by omega), mem_singleton.mp hc⟩

/-- **Printed digits** have the value of the number. -/
theorem parseDigits_toDigits (hbase : 1 < base) (hbase' : base ≤ 16) (n : ℕ) :
    parseDigits base (base.toDigits n) = some n := by
  rw [parseDigits, if_neg Nat.toDigits_ne_nil, parseFrom_toDigits hbase hbase']

theorem parseFrom_zeros (hbase : 0 < base) (n k : ℕ) :
    parseFrom base n (replicate k '0') = some (n * base ^ k) := by
  induction k generalizing n with
  | zero => simp [parseFrom]
  | succ k ih =>
    have hzero : digitIn base '0' = some 0 := by
      rw [digitIn, show digitValue '0' = some 0 by decide, Option.filter_some,
        if_pos (by simpa using hbase)]
    have hstep : parseFrom base n ('0' :: replicate k '0') =
        parseFrom base (base * n + 0) (replicate k '0') := by
      simp [parseFrom, hzero]
    rw [replicate_succ, hstep, ih]
    congr 1
    ring

theorem parseDigits_append_zeros (hbase : 1 < base) (hbase' : base ≤ 16) (n k : ℕ) :
    parseDigits base (base.toDigits n ++ replicate k '0') = some (n * base ^ k) := by
  have hne : base.toDigits n ++ replicate k '0' ≠ [] := by
    simp [Nat.toDigits_ne_nil]
  rw [parseDigits, if_neg hne, parseFrom_append, parseFrom_toDigits hbase hbase',
    Option.bind_some, parseFrom_zeros (by omega)]

end Numerals

end TraceHarbor.Lib
