import TraceHarbor.Lib.Loop
import TraceHarbor.Lib.Shortlex
import TraceHarbor.Lib.Text

/-!
# Generated Names

`ProguardStringBuilder` generates short names: the letters, then for every name as a beginning the
names that are one letter or digit longer. The names come in the order of their length and never
twice.
-/

namespace TraceHarbor.Shrinker

open Lib List

/-! ## The builder -/

def alphaArray : List Char := (List.range 26).map fun index => Char.ofNat ('a'.toNat + index)

def numberArray : List Char := (List.range 10).map fun index => Char.ofNat ('0'.toNat + index)

/-- `c + 1`. -/
def nextChar (c : Char) : Char := Char.ofNat (c.toNat + 1)

/-- The variables of a builder; `pre` is its `prefix`. -/
structure ProguardStringBuilder where
  alphaIndex : ℕ
  numberIndex : ℕ
  pre : Text
deriving DecidableEq

namespace ProguardStringBuilder

def new : ProguardStringBuilder := ⟨0, 0, []⟩

/-- `getPrefix`, for a length within the prefix. -/
def getPrefix (pre : Text) : ℕ → Text
  | 0 => [alphaArray.getD 0 'a']
  | 1 =>
    let curChar := pre.getD 0 'a'
    if curChar < alphaArray.getD 25 'z' then [nextChar curChar]
    else [alphaArray.getD 0 'a', alphaArray.getD 0 'a']
  | len + 2 =>
    let lastChar := pre.getD (len + 1) 'a'
    if lastChar = alphaArray.getD 25 'z' then pre.take (len + 1) ++ [numberArray.getD 0 '0']
    else if lastChar = numberArray.getD 9 '9' then
      getPrefix pre (len + 1) ++ [alphaArray.getD 0 'a']
    else pre.take (len + 1) ++ [nextChar lastChar]

def nextTurn (b : ProguardStringBuilder) : ProguardStringBuilder :=
  { alphaIndex := 0, numberIndex := 0, pre := getPrefix b.pre b.pre.length }

def nextAlpha (b : ProguardStringBuilder) : Text × ProguardStringBuilder :=
  (b.pre ++ [alphaArray.getD b.alphaIndex 'a'], { b with alphaIndex := b.alphaIndex + 1 })

def nextNumber (b : ProguardStringBuilder) : Text × ProguardStringBuilder :=
  (b.pre ++ [numberArray.getD b.numberIndex '0'], { b with numberIndex := b.numberIndex + 1 })

def generateNextProguard (b : ProguardStringBuilder) : Text × ProguardStringBuilder :=
  if b.pre = [] then
    if b.alphaIndex < 26 then b.nextAlpha else b.nextTurn.nextAlpha
  else if b.alphaIndex < 26 then b.nextAlpha
  else if b.numberIndex < 10 then b.nextNumber
  else b.nextTurn.nextAlpha

end ProguardStringBuilder

/-! ## The order of the names -/

/-- Names begin with a letter; digits come after the letters. -/
def nameAlphabet : Alphabet Char where
  letters := alphaArray ++ numberArray
  initial := 26
  initial_le := by decide
  nodup := by decide

section Letters

theorem index_alpha : ∀ i < 26, nameAlphabet.index (alphaArray.getD i 'a') = i := by decide

theorem index_number : ∀ i < 10, nameAlphabet.index (numberArray.getD i '0') = 26 + i := by decide

theorem mem_letters_of_index_lt {c : Char} (h : nameAlphabet.index c < 36) :
    c ∈ nameAlphabet.letters := idxOf_lt_length_iff.mp h

theorem forall_letters {P : Char → Prop}
    (h : ∀ i < 36, P (nameAlphabet.letters.getD i 'a')) : ∀ c ∈ nameAlphabet.letters, P c := by
  intro c hc
  obtain ⟨i, hi, rfl⟩ := getElem_of_mem hc
  rw [← getD_eq_getElem _ 'a' hi]
  exact h i hi

theorem index_nextChar : ∀ c ∈ nameAlphabet.letters, c ≠ 'z' → c ≠ '9' →
    nameAlphabet.index (nextChar c) = nameAlphabet.index c + 1 ∧
      nextChar c ∈ nameAlphabet.letters :=
  forall_letters (by decide +kernel)

theorem lt_z_iff : ∀ c ∈ nameAlphabet.letters, nameAlphabet.index c < 26 → (c < 'z' ↔ c ≠ 'z') :=
  forall_letters (by decide +kernel)

theorem index_eq_z {c : Char} (h : nameAlphabet.index c = 25) : c = 'z' :=
  Alphabet.index_injOn (mem_letters_of_index_lt (by omega)) (h.trans (by decide))

end Letters

namespace ProguardStringBuilder

theorem ne_nil_of_isWord {w : Text} (h : nameAlphabet.IsWord w) : w ≠ [] := by
  rintro rfl
  exact h

theorem isWord_rank_concat {w : Text} (h : nameAlphabet.IsWord w) {c : Char}
    (hc : c ∈ nameAlphabet.letters) : nameAlphabet.IsWord (w ++ [c]) ∧
      nameAlphabet.rank (w ++ [c]) = 26 + 36 * nameAlphabet.rank w + nameAlphabet.index c := by
  have hne := ne_nil_of_isWord h
  exact ⟨(Alphabet.isWord_concat hne).mpr ⟨h, hc⟩, Alphabet.rank_concat hne c⟩

theorem getPrefix_one {c : Char} (rest : Text) (h : nameAlphabet.index c < 26) :
    nameAlphabet.IsWord (getPrefix (c :: rest) 1) ∧
      nameAlphabet.rank (getPrefix (c :: rest) 1) = nameAlphabet.index c + 1 := by
  have hmem := mem_letters_of_index_lt (h.trans (by decide))
  change nameAlphabet.IsWord (if c < 'z' then [nextChar c] else ['a', 'a']) ∧
    nameAlphabet.rank (if c < 'z' then [nextChar c] else ['a', 'a']) = _
  by_cases hz : c = 'z'
  · subst hz
    decide
  · have hnine : c ≠ '9' := by
      rintro rfl
      revert h
      decide
    have hidx : nameAlphabet.index c ≠ 25 := fun h => hz (index_eq_z h)
    obtain ⟨hnext, -⟩ := index_nextChar c hmem hz hnine
    rw [if_pos ((lt_z_iff c hmem h).mpr hz), Alphabet.isWord_singleton]
    exact ⟨hnext.trans_lt (show _ < 26 by omega), hnext⟩

/-- **The next prefix** is the next word. -/
theorem getPrefix_next {pre : Text} {len : ℕ} (hlen : len + 1 ≤ pre.length)
    (h : nameAlphabet.IsWord (pre.take (len + 1))) :
    nameAlphabet.IsWord (getPrefix pre (len + 1)) ∧
      nameAlphabet.rank (getPrefix pre (len + 1)) = nameAlphabet.rank (pre.take (len + 1)) + 1 := by
  induction len with
  | zero =>
    obtain ⟨c, rest, rfl⟩ := exists_cons_of_ne_nil (ne_nil_of_length_pos hlen)
    exact getPrefix_one rest h.1
  | succ len ih =>
    have hlast : pre.getD (len + 1) 'a' = pre[len + 1] := getD_eq_getElem ..
    have htake : pre.take (len + 1 + 1) = pre.take (len + 1) ++ [pre.getD (len + 1) 'a'] := by
      rw [hlast, take_succ_eq_append_getElem]
    have hne : pre.take (len + 1) ≠ [] :=
      ne_nil_of_length_pos (by rw [length_take]; omega)
    rw [htake, Alphabet.isWord_concat hne] at h
    obtain ⟨hword, hmem⟩ := h
    rw [htake, (isWord_rank_concat hword hmem).2, getPrefix]
    split_ifs with hz hnine
    -- After the last letter comes the first digit, after the last digit the next shorter prefix.
    · rw [hz]
      exact isWord_rank_concat hword (by decide)
    · obtain ⟨hnextWord, hnextRank⟩ := ih (by omega) hword
      obtain ⟨hw, hr⟩ := isWord_rank_concat hnextWord (c := 'a') (by decide)
      refine ⟨hw, ?_⟩
      have hidx : nameAlphabet.index 'a' = 0 ∧ nameAlphabet.index '9' = 35 := by decide
      rw [hnine]
      change nameAlphabet.rank (getPrefix pre (len + 1) ++ ['a']) =
        26 + 36 * nameAlphabet.rank (pre.take (len + 1)) + nameAlphabet.index '9' + 1
      omega
    · obtain ⟨hnext, hnextMem⟩ := index_nextChar _ hmem hz hnine
      obtain ⟨hw, hr⟩ := isWord_rank_concat hword hnextMem
      exact ⟨hw, by rw [hr, hnext]; rfl⟩

/-! ## The names that are generated -/

/-- The builder has generated `n` names. -/
def Generated (n : ℕ) (b : ProguardStringBuilder) : Prop :=
  b.alphaIndex ≤ 26 ∧ b.numberIndex ≤ 10 ∧ (b.alphaIndex < 26 → b.numberIndex = 0) ∧
    (b.pre = [] ∧ b.numberIndex = 0 ∧ n = b.alphaIndex ∨
      nameAlphabet.IsWord b.pre ∧
        n = 26 + 36 * nameAlphabet.rank b.pre + (b.alphaIndex + b.numberIndex))

theorem generated_new : Generated 0 new := by
  refine ⟨by decide, by decide, fun _ => rfl, .inl ⟨rfl, rfl, rfl⟩⟩

variable {b : ProguardStringBuilder}

theorem generated_nextTurn {n : ℕ} (h : Generated n b) (halpha : b.alphaIndex = 26)
    (hnum : b.pre = [] ∨ b.numberIndex = 10) : Generated n b.nextTurn := by
  refine ⟨Nat.zero_le _, Nat.zero_le _, fun _ => rfl, .inr ?_⟩
  rcases h.2.2.2 with ⟨hpre, -, rfl⟩ | ⟨hword, rfl⟩
  · rw [nextTurn, hpre, halpha]
    decide
  · obtain ⟨c, rest, hpre⟩ := exists_cons_of_ne_nil (ne_nil_of_isWord hword)
    have hlen : b.pre.length = rest.length + 1 := by rw [hpre]; rfl
    have htake : b.pre.take (rest.length + 1) = b.pre := by rw [← hlen, take_length]
    obtain ⟨hnext, hrank⟩ := @getPrefix_next b.pre rest.length (by omega) (by rwa [htake])
    have hnum' : b.numberIndex = 10 := hnum.resolve_left (ne_nil_of_isWord hword)
    rw [htake] at hrank
    refine ⟨by rw [nextTurn, hlen]; exact hnext, ?_⟩
    simp only [nextTurn, hlen, hrank, halpha, hnum']
    omega

theorem generated_nextAlpha {n : ℕ} (h : Generated n b) (halpha : b.alphaIndex < 26) :
    nameAlphabet.number b.nextAlpha.1 = some n ∧
      Generated (n + 1) b.nextAlpha.2 := by
  obtain ⟨-, hnum, hzero, hcas⟩ := h
  have hidx := index_alpha b.alphaIndex halpha
  have hzero := hzero halpha
  have hbds : b.nextAlpha.2.alphaIndex ≤ 26 ∧ b.nextAlpha.2.numberIndex ≤ 10 ∧
      (b.nextAlpha.2.alphaIndex < 26 → b.nextAlpha.2.numberIndex = 0) :=
    ⟨halpha, hnum, fun _ => hzero⟩
  rw [Alphabet.number_eq_some_iff]
  rcases hcas with ⟨hpre, -, rfl⟩ | ⟨hword, rfl⟩
  · refine ⟨?_, hbds.1, hbds.2.1, hbds.2.2, .inl ⟨hpre, hzero, rfl⟩⟩
    rw [nextAlpha, hpre, nil_append, Alphabet.isWord_singleton]
    exact ⟨hidx.trans_lt halpha, hidx⟩
  · obtain ⟨hnextWord, hnextRank⟩ := isWord_rank_concat hword
      (mem_letters_of_index_lt (c := alphaArray.getD b.alphaIndex 'a') (by omega))
    refine ⟨⟨hnextWord, ?_⟩, hbds.1, hbds.2.1, hbds.2.2, .inr ⟨hword, ?_⟩⟩
    · rw [nextAlpha, hnextRank, hidx, hzero, Nat.add_zero]
    · simp only [nextAlpha]
      omega

theorem generated_nextNumber {n : ℕ} (h : Generated n b) (hpre : b.pre ≠ [])
    (halpha : b.alphaIndex = 26) (hnum : b.numberIndex < 10) :
    nameAlphabet.number b.nextNumber.1 = some n ∧ Generated (n + 1) b.nextNumber.2 := by
  obtain ⟨hle, -, -, hcas⟩ := h
  have hidx := index_number b.numberIndex hnum
  rcases hcas with ⟨hnil, -⟩ | ⟨hword, rfl⟩
  · exact absurd hnil hpre
  obtain ⟨hnextWord, hnextRank⟩ := isWord_rank_concat hword
    (mem_letters_of_index_lt (c := numberArray.getD b.numberIndex '0') (by omega))
  rw [Alphabet.number_eq_some_iff]
  refine ⟨⟨hnextWord, ?_⟩, hle, hnum, fun hlt => absurd halpha hlt.ne, .inr ⟨hword, ?_⟩⟩
  · rw [nextNumber, hnextRank, hidx, halpha]
  · simp only [nextNumber]
    omega

/-- **The next name** of a builder that has generated `n` names is the word with number `n`. -/
theorem generated_next {n : ℕ} (h : Generated n b) :
    nameAlphabet.number b.generateNextProguard.1 = some n ∧
      Generated (n + 1) b.generateNextProguard.2 := by
  have hle := h.1
  have hle' := h.2.1
  rw [generateNextProguard]
  split_ifs with hpre halpha halpha hnum
  · exact generated_nextAlpha h halpha
  · exact generated_nextAlpha (generated_nextTurn h (by omega) (.inl hpre)) (Nat.zero_lt_succ 25)
  · exact generated_nextAlpha h halpha
  · exact generated_nextNumber h hpre (by omega) hnum
  · exact generated_nextAlpha (generated_nextTurn h (by omega) (.inr (by omega)))
      (Nat.zero_lt_succ 25)

/-! ## File names -/

def reset (_ : ProguardStringBuilder) : ProguardStringBuilder := ⟨0, 0, []⟩

/-- `WIN_INVALID_FILE_NAME`. -/
def winInvalidFileName : List Text :=
  ["aux", "nul", "prn", "nul", "con",
    "com1", "com2", "com3", "com4", "com5", "com6", "com7", "com8", "com9",
    "lpt1", "lpt2", "lpt3", "lpt4", "lpt5", "lpt6", "lpt7", "lpt8", "lpt9"].map String.toList

/-- `lowercase`, for ASCII. -/
def lowercase (name : Text) : Text := name.map Char.toLower

/-- A round of `generateNextProguardFileName`. -/
def fileNameRound (b : ProguardStringBuilder) :
    ProguardStringBuilder ⊕ (Text × ProguardStringBuilder) :=
  if lowercase b.generateNextProguard.1 ∈ winInvalidFileName then .inl b.generateNextProguard.2
  else .inr b.generateNextProguard

def generateNextProguardFileName (fuel : ℕ) (b : ProguardStringBuilder) :
    Option (Text × ProguardStringBuilder) := loop fileNameRound fuel b

inductive Reached : ProguardStringBuilder → Prop
  | new : Reached new
  | reset {b : ProguardStringBuilder} : Reached b → Reached b.reset
  | next {b : ProguardStringBuilder} : Reached b → Reached b.generateNextProguard.2
  | nextFileName {b : ProguardStringBuilder} {fuel : ℕ} {result : Text × ProguardStringBuilder} :
    Reached b → generateNextProguardFileName fuel b = some result → Reached result.2

/-- The name after `n` others. -/
def nth (b : ProguardStringBuilder) (n : ℕ) : Text :=
  ((fun b => b.generateNextProguard.2)^[n] b).generateNextProguard.1

theorem number_nth (n : ℕ) :
    nameAlphabet.IsWord (nth new n) ∧ nameAlphabet.rank (nth new n) = n := by
  have hgen : Generated n ((fun b => b.generateNextProguard.2)^[n] new) := by
    induction n with
    | zero => exact generated_new
    | succ n ih =>
      rw [Function.iterate_succ_apply']
      exact (generated_next ih).2
  exact Alphabet.number_eq_some_iff.mp (generated_next hgen).1

theorem exists_nth {w : Text} (h : nameAlphabet.IsWord w) : ∃ n, nth new n = w := by
  obtain ⟨hword, hrank⟩ := number_nth (nameAlphabet.rank w)
  exact ⟨_, Alphabet.rank_injOn hword h hrank⟩

theorem lowercase_eq {w : Text} (h : nameAlphabet.IsWord w) : lowercase w = w := by
  have hlow : ∀ c ∈ nameAlphabet.letters, c.toLower = c := forall_letters (by decide)
  exact (map_congr_left fun c hc => hlow c (Alphabet.mem_letters h hc)).trans (map_id w)

theorem rank_le_of_reserved : ∀ w ∈ winInvalidFileName, nameAlphabet.rank w ≤ 568033 := by
  decide +kernel

theorem fileName_ends {n : ℕ} {b : ProguardStringBuilder} (h : Generated n b) :
    ∃ result, generateNextProguardFileName (568034 - n + 1) b = some result ∧
      lowercase result.1 ∉ winInvalidFileName ∧ ∃ m, Generated m result.2 := by
  -- every round takes one of the names up to `lpt9`
  refine @loop_of_variant _ _ _ (fun k b => ∃ n, Generated n b ∧ k = 568034 - n) _
    (fun k b hinv => ?_) _ _ ⟨n, h, rfl⟩
  obtain ⟨n, hgen, rfl⟩ := hinv
  obtain ⟨hnum, hnext⟩ := generated_next hgen
  obtain ⟨hword, hrank⟩ := Alphabet.number_eq_some_iff.mp hnum
  rw [fileNameRound]
  split_ifs with hres
  · have hle := rank_le_of_reserved _ (lowercase_eq hword ▸ hres)
    exact .inl ⟨_, rfl, _, by omega, n + 1, hnext, rfl⟩
  · exact .inr ⟨_, rfl, hres, n + 1, hnext⟩

theorem Reached.generated {b : ProguardStringBuilder} (h : Reached b) : ∃ n, Generated n b := by
  induction h with
  | new | reset _ _ => exact ⟨0, generated_new⟩
  | next _ ih =>
    obtain ⟨n, hn⟩ := ih
    exact ⟨n + 1, (generated_next hn).2⟩
  | @nextFileName b fuel result _ hres ih =>
    obtain ⟨n, hn⟩ := ih
    obtain ⟨result', hres', -, hgen⟩ := fileName_ends hn
    have hsame := (loop_eq_some_of_le hres (le_max_left fuel _)).symm.trans
      (loop_eq_some_of_le hres' (le_max_right fuel _))
    rwa [Option.some.inj hsame]

theorem mem_charRange {first : Char} {n : ℕ} {c : Char} (hle : first.toNat ≤ c.toNat)
    (hlt : c.toNat < first.toNat + n) :
    c ∈ (range n).map fun index => Char.ofNat (first.toNat + index) := by
  refine mem_map.mpr ⟨c.toNat - first.toNat, mem_range.mpr (by omega), ?_⟩
  rw [Nat.add_sub_cancel' hle, Char.ofNat_toNat]

theorem isWord_of_chars {c : Char} {rest : Text} (hc : c.isLower)
    (hrest : ∀ d ∈ rest, d.isLower ∨ d.isDigit) : nameAlphabet.IsWord (c :: rest) := by
  have halpha : ∀ {d : Char}, d.isLower → d ∈ alphaArray := fun hd => by
    rw [Char.isLower, Bool.and_eq_true, decide_eq_true_eq, decide_eq_true_eq] at hd
    exact mem_charRange hd.1 (Nat.lt_succ_of_le hd.2)
  have hnum : ∀ {d : Char}, d.isDigit → d ∈ numberArray := fun hd => by
    rw [Char.isDigit, Bool.and_eq_true, decide_eq_true_eq, decide_eq_true_eq] at hd
    exact mem_charRange hd.1 (Nat.lt_succ_of_le hd.2)
  refine ⟨?_, fun d hd => mem_append.mpr ((hrest d hd).imp halpha hnum)⟩
  rw [Alphabet.index, nameAlphabet, idxOf_append_of_mem (halpha hc)]
  exact idxOf_lt_length_iff.mpr (halpha hc)

/-- **Generated names**: they never repeat, never get shorter, and every text of a letter and further
letters or digits is among them. For a file the generator comes to a name that is not reserved, after
any calls. -/
theorem names_enumerated : Function.Injective (nth new) ∧
    Monotone (fun n => (nth new n).length) ∧
    (∀ (c : Char) (rest : Text), c.isLower → (∀ d ∈ rest, d.isLower ∨ d.isDigit) →
      ∃ n, nth new n = c :: rest) ∧
    ∀ b, Reached b → nth b.reset = nth new ∧ ∃ fuel result,
      generateNextProguardFileName fuel b = some result ∧
        lowercase result.1 ∉ winInvalidFileName := by
  refine ⟨fun m n heq => ?_, fun m n hle => ?_, fun c rest hc hrest => ?_, fun b hb => ⟨rfl, ?_⟩⟩
  · rw [← (number_nth m).2, ← (number_nth n).2, heq]
  · by_contra hlt
    obtain ⟨hm, hrank⟩ := number_nth m
    obtain ⟨hn, hrank'⟩ := number_nth n
    have hless := Alphabet.rank_lt_of_length_lt hm hn (not_le.mp hlt)
    omega
  · exact exists_nth (isWord_of_chars hc hrest)
  · obtain ⟨n, hn⟩ := hb.generated
    obtain ⟨result, hres, hval, -⟩ := fileName_ends hn
    exact ⟨_, result, hres, hval⟩

end ProguardStringBuilder

end TraceHarbor.Shrinker
