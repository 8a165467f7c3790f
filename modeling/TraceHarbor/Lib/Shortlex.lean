import Mathlib

/-!
# Words in the Order of Their Length

The words over an alphabet, where only some letters may begin a word, ordered by their length and among
words of one length lexicographically. The number (`rank`) of a word is the number of words before it.
-/

namespace TraceHarbor.Lib

open List

/-- Letters in their order, of which the first ones, `initial` many, may begin a word. -/
structure Alphabet (γ : Type*) where
  letters : List γ
  initial : ℕ
  initial_le : initial ≤ letters.length
  nodup : letters.Nodup

namespace Alphabet

variable {γ : Type*} [DecidableEq γ] (A : Alphabet γ)

/-- The place of a letter. -/
def index (c : γ) : ℕ := A.letters.idxOf c

/-- The word is not empty, begins with a letter that may begin it, and has no other letters. -/
def IsWord : List γ → Prop
  | [] => False
  | c :: w => A.index c < A.initial ∧ ∀ d ∈ w, d ∈ A.letters

instance (w : List γ) : Decidable (A.IsWord w) :=
  match w with
  | [] => inferInstanceAs (Decidable False)
  | c :: w => inferInstanceAs (Decidable (A.index c < A.initial ∧ ∀ d ∈ w, d ∈ A.letters))

/-- The number of a word that is one letter longer than the word with number `r`. -/
def extend (r : ℕ) (c : γ) : ℕ := A.initial + A.letters.length * r + A.index c

/-- The number of words before the word. -/
def rank : List γ → ℕ
  | [] => 0
  | c :: w => w.foldl A.extend (A.index c)

/-- The number of a text, if it is a word. -/
def number (w : List γ) : Option ℕ := if A.IsWord w then some (A.rank w) else none

variable {A} {w v : List γ} {c : γ}

theorem index_lt (h : c ∈ A.letters) : A.index c < A.letters.length := idxOf_lt_length_iff.mpr h

theorem index_injOn {d : γ} (hc : c ∈ A.letters) (h : A.index c = A.index d) : c = d :=
  (idxOf_inj hc).mp h

theorem mem_of_index_lt (h : A.index c < A.initial) : c ∈ A.letters :=
  idxOf_lt_length_iff.mp (Nat.lt_of_lt_of_le h A.initial_le)

theorem isWord_singleton : A.IsWord [c] ↔ A.index c < A.initial := by simp [IsWord]

theorem mem_letters (h : A.IsWord w) (hc : c ∈ w) : c ∈ A.letters := by
  cases w with
  | nil => exact h.elim
  | cons d w =>
    rcases mem_cons.mp hc with rfl | hc
    · exact mem_of_index_lt h.1
    · exact h.2 c hc

theorem isWord_concat (hne : w ≠ []) : A.IsWord (w ++ [c]) ↔ A.IsWord w ∧ c ∈ A.letters := by
  obtain ⟨d, w, rfl⟩ := exists_cons_of_ne_nil hne
  simp [IsWord, or_imp, forall_and, and_assoc]

theorem rank_concat (hne : w ≠ []) (c : γ) : A.rank (w ++ [c]) = A.extend (A.rank w) c := by
  obtain ⟨d, w, rfl⟩ := exists_cons_of_ne_nil hne
  rw [cons_append, rank, foldl_append]
  rfl

theorem initial_le_rank_concat (hne : w ≠ []) (c : γ) : A.initial ≤ A.rank (w ++ [c]) := by
  rw [rank_concat hne, extend, Nat.add_assoc]
  exact Nat.le_add_right ..

/-- The last letter and the number before it can be read off. -/
theorem extend_inj {r s : ℕ} {d : γ} (hc : c ∈ A.letters) (hd : d ∈ A.letters)
    (h : A.extend r c = A.extend s d) : r = s ∧ c = d := by
  have hlt := index_lt hc
  have hpos : 0 < A.letters.length := by omega
  have heq : A.letters.length * r + A.index c = A.letters.length * s + A.index d := by
    simp only [extend] at h
    omega
  have hmod := congrArg (· % A.letters.length) heq
  have hdiv := congrArg (· / A.letters.length) heq
  simp only [Nat.mul_add_mod, Nat.mod_eq_of_lt hlt, Nat.mod_eq_of_lt (index_lt hd)] at hmod
  simp only [Nat.mul_add_div hpos, Nat.div_eq_of_lt hlt, Nat.div_eq_of_lt (index_lt hd)] at hdiv
  exact ⟨by omega, index_injOn hc hmod⟩

/-- **No two words have the same number.** -/
theorem rank_injOn (hw : A.IsWord w) (hv : A.IsWord v) (h : A.rank w = A.rank v) : w = v := by
  induction w using reverseRecOn generalizing v with
  | nil => exact hw.elim
  | append_singleton w c ih =>
    rcases eq_nil_or_concat' v with rfl | ⟨v, d, rfl⟩
    · exact hv.elim
    -- A word of one letter has a number below `initial`, a longer one has not.
    rcases eq_or_ne w [] with rfl | hwne <;> rcases eq_or_ne v [] with rfl | hvne
    · rw [nil_append, isWord_singleton] at hw
      exact congrArg (fun c => [c]) (index_injOn (mem_of_index_lt hw) h)
    · rw [nil_append, isWord_singleton] at hw
      have hle := initial_le_rank_concat (A := A) hvne d
      rw [← h] at hle
      exact absurd hle (Nat.not_le.mpr hw)
    · rw [nil_append, isWord_singleton] at hv
      have hle := initial_le_rank_concat (A := A) hwne c
      rw [h] at hle
      exact absurd hle (Nat.not_le.mpr hv)
    · rw [isWord_concat hwne] at hw
      rw [isWord_concat hvne] at hv
      rw [rank_concat hwne, rank_concat hvne] at h
      obtain ⟨hrank, rfl⟩ := extend_inj hw.2 hv.2 h
      rw [ih hw.1 hv.1 hrank]

theorem rank_lt_of_length_lt (hw : A.IsWord w) (hv : A.IsWord v) (h : v.length < w.length) :
    A.rank v < A.rank w := by
  induction w using reverseRecOn generalizing v with
  | nil => exact hw.elim
  | append_singleton w c ih =>
    rcases eq_nil_or_concat' v with rfl | ⟨v, d, rfl⟩
    · exact hv.elim
    simp only [length_append, length_singleton, Nat.add_lt_add_iff_right] at h
    have hwne : w ≠ [] := ne_nil_of_length_pos (Nat.zero_lt_of_lt h)
    rcases eq_or_ne v [] with rfl | hvne
    · exact Nat.lt_of_lt_of_le (isWord_singleton.mp hv) (initial_le_rank_concat hwne c)
    · rw [isWord_concat hwne] at hw
      rw [isWord_concat hvne] at hv
      have hlt := index_lt hv.2
      have hmul := Nat.mul_le_mul_left A.letters.length (ih hw.1 hv.1 h)
      rw [Nat.mul_succ] at hmul
      rw [rank_concat hwne, rank_concat hvne, extend, extend]
      omega

theorem number_eq_some_iff {n : ℕ} : A.number w = some n ↔ A.IsWord w ∧ A.rank w = n := by
  rw [number]
  split_ifs with h <;> simp [h]

end Alphabet

end TraceHarbor.Lib
