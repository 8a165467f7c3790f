import Mathlib

/-!
# Parsers of Byte Streams

A parser takes bytes from the front of a stream. It may find the stream at its end, or give up.

- `Reads p bytes a`: on a stream that starts with `bytes`, the parser takes exactly these and
  returns `a`;
- `Takes p size`: whatever the stream, a value that is returned has cost at least `size` bytes;
- `Uses p size`: the same, unless the stream is at its end afterwards.
-/

namespace TraceHarbor.Lib

open List

inductive ParseResult (α : Type) where
  | ok (value : α) (rest : List UInt8)
  | eof
  | fail
  deriving DecidableEq, Repr

def Parser (α : Type) : Type := List UInt8 → ParseResult α

namespace Parser

instance : Monad Parser where
  pure a := fun b => .ok a b
  bind p f := fun b =>
    match p b with
    | .ok a rest => f a rest
    | .eof => .eof
    | .fail => .fail

variable {α β : Type}

def fail : Parser α := fun _ => .fail

/-- Exactly so many bytes. -/
def take (n : ℕ) : Parser (List UInt8) := fun b =>
  if n ≤ b.length then .ok (b.take n) (b.drop n) else .eof

/-- One byte, or nothing at the end of the stream. -/
def readByte : Parser (Option UInt8)
  | [] => .ok none []
  | x :: rest => .ok (some x) rest

/-- Skips bytes; there is no way to skip more than there are. -/
def skip (n : ℕ) : Parser Unit := fun b =>
  if n ≤ b.length then .ok () (b.drop n) else .fail

/-- The same parser several times. -/
def many (p : Parser α) : ℕ → Parser (List α)
  | 0 => pure []
  | n + 1 => do
    let a ← p
    let l ← many p n
    pure (a :: l)

theorem pure_apply (a : α) (b : List UInt8) : (pure a : Parser α) b = .ok a b := rfl

theorem bind_apply (p : Parser α) (f : α → Parser β) (b : List UInt8) : (p >>= f) b =
    match p b with | .ok a rest => f a rest | .eof => .eof | .fail => .fail := rfl

theorem bind_of_ok {p : Parser α} {f : α → Parser β} {b rest : List UInt8} {a : α}
    (h : p b = .ok a rest) : (p >>= f) b = f a rest := by
  rw [bind_apply, h]

theorem bind_of_fail {p : Parser α} {f : α → Parser β} {b : List UInt8} (h : p b = .fail) :
    (p >>= f) b = .fail := by
  rw [bind_apply, h]

theorem bind_of_eof {p : Parser α} {f : α → Parser β} {b : List UInt8} (h : p b = .eof) :
    (p >>= f) b = .eof := by
  rw [bind_apply, h]

theorem bind_eq_ok {p : Parser α} {f : α → Parser β} {b rest : List UInt8} {c : β}
    (h : (p >>= f) b = .ok c rest) : ∃ a mid, p b = .ok a mid ∧ f a mid = .ok c rest := by
  cases hp : p b with
  | ok a mid => exact ⟨a, mid, rfl, by rwa [bind_of_ok hp] at h⟩
  | eof =>
    rw [bind_of_eof hp] at h
    exact nomatch h
  | fail =>
    rw [bind_of_fail hp] at h
    exact nomatch h

/-! ## Reading what was written -/

/-- On a stream that starts with these bytes the parser takes them and returns the value. -/
def Reads (p : Parser α) (bytes : List UInt8) (a : α) : Prop :=
  ∀ rest, p (bytes ++ rest) = .ok a rest

theorem reads_pure (a : α) : Reads (pure a) [] a := fun _ => rfl

theorem Reads.bind {p : Parser α} {f : α → Parser β} {bytes bytes' : List UInt8} {a : α} {c : β}
    (hp : Reads p bytes a) (hf : Reads (f a) bytes' c) : Reads (p >>= f) (bytes ++ bytes') c := by
  intro rest
  rw [append_assoc, bind_of_ok (hp _)]
  exact hf rest

/-- A last value that is computed from what was read. -/
theorem Reads.map {p : Parser α} {f : α → β} {bytes : List UInt8} {a : α} (hp : Reads p bytes a) :
    Reads (p >>= fun a => pure (f a)) bytes (f a) := by
  intro rest
  rw [bind_of_ok (hp rest)]
  rfl

theorem reads_take (bytes : List UInt8) : Reads (take bytes.length) bytes bytes := by
  intro rest
  simp [take]

theorem reads_readByte (x : UInt8) : Reads readByte [x] (some x) := fun _ => rfl

theorem reads_skip (bytes : List UInt8) : Reads (skip bytes.length) bytes () := by
  intro rest
  simp [skip]

theorem reads_many {p : Parser α} {ι : Type} {encode : ι → List UInt8} {value : ι → α} {l : List ι}
    (h : ∀ x ∈ l, Reads p (encode x) (value x)) :
    Reads (many p l.length) (l.flatMap encode) (l.map value) := by
  induction l with
  | nil => exact reads_pure []
  | cons x l ih =>
    exact (h x (mem_cons_self ..)).bind
      (ih fun y hy => h y (mem_cons_of_mem _ hy)).map

/-! ## Giving up -/

open Classical in
/-- On a stream that starts with these bytes the parser takes them and returns the value, if the
condition holds, and gives up otherwise. -/
def ReadsIf (c : Prop) (p : Parser α) (bytes : List UInt8) (a : α) : Prop :=
  ∀ rest, p (bytes ++ rest) = if c then .ok a rest else .fail

section ReadsIf

variable {c d : Prop} {p : Parser α} {f : α → Parser β} {bytes bytes' : List UInt8} {a : α} {r : β}

theorem Reads.readsIf (h : Reads p bytes a) (hc : c) : ReadsIf c p bytes a :=
  fun rest => (h rest).trans (if_pos hc).symm

theorem readsIf_fail (hc : ¬ c) : ReadsIf c fail bytes a := fun _ => (if_neg hc).symm

theorem Reads.bind_if (hp : Reads p bytes a) (hf : ReadsIf c (f a) bytes' r) :
    ReadsIf c (p >>= f) (bytes ++ bytes') r := by
  intro rest
  rw [append_assoc, bind_of_ok (hp _)]
  exact hf rest

theorem ReadsIf.bind (hp : ReadsIf c p bytes a) (hf : ReadsIf d (f a) bytes' r) :
    ReadsIf (c ∧ d) (p >>= f) (bytes ++ bytes') r := by
  intro rest
  have hfst := hp (bytes' ++ rest)
  rw [append_assoc]
  by_cases hc : c
  · rw [if_pos hc] at hfst
    rw [bind_of_ok hfst, hf rest]
    by_cases hd : d
    · rw [if_pos hd, if_pos ⟨hc, hd⟩]
    · rw [if_neg hd, if_neg fun h => hd h.2]
  · rw [if_neg hc] at hfst
    rw [bind_of_fail hfst, if_neg fun h => hc h.1]

theorem ReadsIf.map {f : α → β} (hp : ReadsIf c p bytes a) :
    ReadsIf c (p >>= fun a => pure (f a)) bytes (f a) := by
  intro rest
  have hfst := hp rest
  split_ifs at hfst ⊢
  · exact bind_of_ok hfst
  · exact bind_of_fail hfst

end ReadsIf

/-! ## What a value costs -/

/-- A value that is returned has cost at least so many bytes. -/
def Takes (p : Parser α) (size : α → ℕ) : Prop :=
  ∀ b a rest, p b = .ok a rest → rest.length + size a ≤ b.length

/-- A value that is returned has cost at least so many bytes, or the stream is at its end. -/
def Uses (p : Parser α) (size : α → ℕ) : Prop :=
  ∀ b a rest, p b = .ok a rest → rest.length + size a ≤ b.length ∨ rest = []

variable {size : α → ℕ}

theorem Takes.uses {p : Parser α} (h : Takes p size) : Uses p size :=
  fun b a rest hok => .inl (h b a rest hok)

theorem takes_pure {a : α} (h : size a = 0) : Takes (pure a) size := by
  rintro b a' rest hok
  obtain ⟨rfl, rfl⟩ : a = a' ∧ b = rest := by simpa [pure_apply] using hok
  rw [h, Nat.add_zero]

theorem takes_fail : Takes (fail : Parser α) size := nofun

variable {total : β → ℕ}

theorem Takes.bind {p : Parser α} {f : α → Parser β}
    (hp : Takes p size) (hf : ∀ a, Takes (f a) fun c => total c - size a) :
    Takes (p >>= f) total := by
  intro b c rest hok
  obtain ⟨a, mid, ha, hc⟩ := bind_eq_ok hok
  have h₁ := hp b a mid ha
  have h₂ : rest.length + (total c - size a) ≤ mid.length := hf a mid c rest hc
  omega

theorem Uses.bind {p : Parser α} {f : α → Parser β}
    (hp : Uses p size) (hf : ∀ a, Uses (f a) fun c => total c - size a) :
    Uses (p >>= f) total := by
  intro b c rest hok
  obtain ⟨a, mid, ha, hc⟩ := bind_eq_ok hok
  have h₂ : rest.length + (total c - size a) ≤ mid.length ∨ rest = [] := hf a mid c rest hc
  rcases h₂ with h₂ | h₂
  · rcases hp b a mid ha with h₁ | h₁
    · left
      omega
    · right
      rw [h₁, length_nil] at h₂
      exact eq_nil_of_length_eq_zero (by omega)
  · exact .inr h₂

/-- What cannot be done at the end of the stream shows that the stream was not at its end. -/
theorem Uses.bind_takes {p : Parser α} {f : α → Parser β}
    (hp : Uses p size) (hf : ∀ a, Takes (f a) fun c => total c - size a)
    (hungry : ∀ a c rest, f a [] ≠ .ok c rest) : Takes (p >>= f) total := by
  intro b c rest hok
  obtain ⟨a, mid, ha, hc⟩ := bind_eq_ok hok
  have h₂ : rest.length + (total c - size a) ≤ mid.length := hf a mid c rest hc
  rcases hp b a mid ha with h₁ | rfl
  · omega
  · exact absurd hc (hungry a c rest)

theorem takes_take (n : ℕ) : Takes (take n) length := by
  intro b a rest hok
  unfold take at hok
  split at hok
  · obtain ⟨rfl, rfl⟩ : b.take n = a ∧ b.drop n = rest := by simpa using hok
    simp only [length_take, length_drop]
    omega
  · exact nomatch hok

theorem takes_exactly (n : ℕ) : Takes (take n) fun _ => n := by
  intro b a rest hok
  unfold take at hok
  split at hok
  · obtain ⟨-, rfl⟩ : _ ∧ b.drop n = rest := by simpa using hok
    dsimp only
    rw [length_drop]
    omega
  · exact nomatch hok

theorem takes_skip (n : ℕ) : Takes (skip n) fun _ => n := by
  intro b a rest hok
  unfold skip at hok
  split at hok
  · obtain rfl : b.drop n = rest := by simpa using hok
    dsimp only
    rw [length_drop]
    omega
  · exact nomatch hok

theorem takes_readByte : Takes readByte fun x => x.toList.length := by
  intro b a rest hok
  cases b with
  | nil =>
    obtain ⟨rfl, rfl⟩ : none = a ∧ [] = rest := by simpa [readByte] using hok
    exact le_rfl
  | cons x b =>
    obtain ⟨rfl, rfl⟩ : some x = a ∧ b = rest := by simpa [readByte] using hok
    exact le_rfl

theorem uses_readByte : Uses readByte fun _ => 1 := by
  intro b a rest hok
  cases b with
  | nil =>
    obtain ⟨rfl, rfl⟩ : none = a ∧ [] = rest := by simpa [readByte] using hok
    exact .inr rfl
  | cons x b =>
    obtain ⟨rfl, rfl⟩ : some x = a ∧ b = rest := by simpa [readByte] using hok
    exact .inl le_rfl

theorem takes_many {p : Parser α} (hp : Takes p size) (n : ℕ) :
    Takes (many p n) fun l => (l.map size).sum := by
  induction n with
  | zero => exact takes_pure rfl
  | succ n ih =>
    refine hp.bind fun a => ih.bind fun l => takes_pure ?_
    simp only [map_cons, sum_cons]
    omega

theorem uses_many {p : Parser α} (hp : Uses p size) (n : ℕ) :
    Uses (many p n) fun l => (l.map size).sum := by
  induction n with
  | zero =>
    have h : Takes (many p 0) fun l => (l.map size).sum := takes_pure rfl
    exact h.uses
  | succ n ih =>
    refine hp.bind fun a => ih.bind fun l => (takes_pure ?_).uses
    simp only [map_cons, sum_cons]
    omega

/-! ## Big-endian words -/

/-- The value of big-endian bytes. -/
def ofBE (bytes : List UInt8) : ℕ := bytes.foldl (fun acc x => acc * 256 + x.toNat) 0

/-- The big-endian bytes of a number. -/
def beBytes : ℕ → ℕ → List UInt8
  | 0, _ => []
  | k + 1, v => beBytes k (v / 256) ++ [UInt8.ofNat v]

theorem length_beBytes (k v : ℕ) : (beBytes k v).length = k := by
  induction k generalizing v with
  | zero => rfl
  | succ k ih => rw [beBytes, length_append, ih, length_singleton]

theorem ofBE_beBytes {k v : ℕ} (h : v < 256 ^ k) : ofBE (beBytes k v) = v := by
  induction k generalizing v with
  | zero =>
    rw [Nat.lt_one_iff.mp h]
    rfl
  | succ k ih =>
    have hdiv : v / 256 < 256 ^ k := by
      rw [pow_succ] at h
      exact Nat.div_lt_of_lt_mul (by rwa [Nat.mul_comm] at h)
    rw [beBytes, ofBE, foldl_append, ← ofBE, ih hdiv]
    simp only [foldl_cons, foldl_nil, UInt8.toNat_ofNat']
    omega

/-- A word of `w` bits in `k` big-endian bytes. -/
def readBE (w k : ℕ) : Parser (BitVec w) := do
  let bytes ← take k
  pure (BitVec.ofNat w (ofBE bytes))

theorem reads_readBE_bytes (w : ℕ) (bytes : List UInt8) :
    Reads (readBE w bytes.length) bytes (BitVec.ofNat w (ofBE bytes)) := (reads_take bytes).map

theorem reads_readBE {w k : ℕ} (h : 2 ^ w ≤ 256 ^ k) (v : BitVec w) :
    Reads (readBE w k) (beBytes k v.toNat) v := by
  have hread := reads_readBE_bytes w (beBytes k v.toNat)
  rwa [length_beBytes, ofBE_beBytes (lt_of_lt_of_le v.isLt h), BitVec.ofNat_toNat,
    BitVec.setWidth_eq] at hread

theorem takes_readBE (w k : ℕ) : Takes (readBE w k) fun _ => k :=
  (takes_exactly k).bind fun _ => takes_pure (Nat.sub_self k)

end Parser

end TraceHarbor.Lib
