import Mathlib

/-!
# Random Access Files

A file is a list of bytes that is read at a position which a read action moves and a seek sets. Actions
may fail: `Input`. Numbers are stored with the least significant byte first. `Holds` says which bytes a
file has at a position.
-/

namespace TraceHarbor.Lib

open List

/-! ## Little-endian numbers -/

/-- The lowest `n` bytes of a number, least significant byte first. -/
def leBytes : ℕ → ℕ → List UInt8
  | 0, _ => []
  | n + 1, v => UInt8.ofNat v :: leBytes n (v / 256)

/-- The number that some bytes stand for. -/
def leValue : List UInt8 → ℕ
  | [] => 0
  | b :: bytes => b.toNat + 256 * leValue bytes

@[simp]
theorem length_leBytes (n v : ℕ) : (leBytes n v).length = n := by
  induction n generalizing v with
  | zero => rfl
  | succ n ih => rw [leBytes, length_cons, ih]

theorem leValue_leBytes (n v : ℕ) : leValue (leBytes n v) = v % 256 ^ n := by
  induction n generalizing v with
  | zero => rw [leBytes, leValue, Nat.pow_zero, Nat.mod_one]
  | succ n ih =>
    rw [leBytes, leValue, ih, Nat.pow_succ', Nat.mod_mul]
    congr 1

/-- A machine word from its bytes. -/
def leWord (w : ℕ) (bytes : List UInt8) : BitVec w := BitVec.ofNat w (leValue bytes)

theorem leWord_leBytes {w n : ℕ} (h : 2 ^ w ≤ 256 ^ n) (v : BitVec w) :
    leWord w (leBytes n v.toNat) = v := by
  rw [leWord, leValue_leBytes, Nat.mod_eq_of_lt (v.isLt.trans_le h)]
  exact BitVec.eq_of_toNat_eq (by rw [BitVec.toNat_ofNat, Nat.mod_eq_of_lt v.isLt])

/-! ## Contents -/

/-- The file has these bytes at the position. -/
def Holds (file : List UInt8) (pos : ℕ) (bytes : List UInt8) : Prop := bytes <+: file.drop pos

section Holds

variable {file a b : List UInt8} {pos : ℕ}

theorem holds_append : Holds file pos (a ++ b) ↔ Holds file pos a ∧ Holds file (pos + a.length) b := by
  rw [Holds, Holds, Holds, ← drop_drop]
  constructor
  · rintro ⟨rest, hrest⟩
    rw [← hrest, append_assoc]
    exact ⟨prefix_append _ _, by rw [drop_left]; exact prefix_append _ _⟩
  · rintro ⟨⟨rest, hrest⟩, hb⟩
    rw [← hrest] at hb ⊢
    rw [drop_left] at hb
    exact (prefix_append_right_inj a).mpr hb

theorem Holds.left (h : Holds file pos (a ++ b)) : Holds file pos a := (holds_append.mp h).1

theorem Holds.right (h : Holds file pos (a ++ b)) : Holds file (pos + a.length) b :=
  (holds_append.mp h).2

theorem Holds.take_eq (h : Holds file pos a) : (file.drop pos).take a.length = a :=
  (prefix_iff_eq_take.mp h).symm

theorem Holds.end_le (h : Holds file pos a) (ha : 0 < a.length) : pos + a.length ≤ file.length := by
  have hlen := List.IsPrefix.length_le h
  rw [length_drop] at hlen
  omega

theorem holds_self (file : List UInt8) : Holds file 0 file := prefix_refl _

end Holds

/-! ## Reading -/

/-- Read actions at a position; `none` is a failure. -/
abbrev Input := StateT ℕ Option

namespace Input

variable {α β : Type} {file : List UInt8} {pos : ℕ}

/-- Read exactly `n` bytes. -/
def readFully (file : List UInt8) (n : ℕ) : Input (List UInt8) := fun pos =>
  if pos + n ≤ file.length then some ((file.drop pos).take n, pos + n) else none

/-- Read into a buffer of `n` zeros, up to the end of the file. -/
def readInto (file : List UInt8) (n : ℕ) : Input (List UInt8) := fun pos =>
  let bytes := (file.drop pos).take n
  some (bytes ++ List.replicate (n - bytes.length) 0, pos + bytes.length)

/-- Read a word of `n` bytes. -/
def readWord (file : List UInt8) (n w : ℕ) : Input (BitVec w) := fun pos =>
  (readFully file n pos).map fun (bytes, pos) => (leWord w bytes, pos)

def seek (pos : ℤ) : Input Unit := fun _ => if 0 ≤ pos then some ((), pos.toNat) else none

/-- The actions for the members of a list, one after another. -/
def forEach (f : β → Input α) : List β → Input (List α)
  | [] => pure []
  | x :: xs => do
    let a ← f x
    let as ← forEach f xs
    return a :: as

theorem bind_of_eq {m : Input α} {f : α → Input β} {a : α} {pos' : ℕ} (h : m pos = some (a, pos')) :
    (m >>= f) pos = f a pos' := by
  change (m pos).bind _ = _
  rw [h]
  rfl

theorem bind_of_none {m : Input α} {f : α → Input β} (h : m pos = none) : (m >>= f) pos = none := by
  change (m pos).bind _ = _
  rw [h]
  rfl

theorem bind_get {f : ℕ → Input α} : ((get : Input ℕ) >>= f) pos = f pos pos := rfl

theorem readWord_of_holds {n w : ℕ} {v : BitVec w} (h : Holds file pos (leBytes n v.toNat))
    (hn : 0 < n) (hw : 2 ^ w ≤ 256 ^ n) : readWord file n w pos = some (v, pos + n) := by
  have hend := h.end_le (by rwa [length_leBytes])
  have htake := h.take_eq
  rw [length_leBytes] at hend htake
  rw [readWord, readFully, if_pos hend, htake]
  exact congrArg (fun v => some (v, pos + n)) (leWord_leBytes hw v)

theorem readInto_of_holds {bytes : List UInt8} (h : Holds file pos bytes) :
    readInto file bytes.length pos = some (bytes, pos + bytes.length) := by
  simp [readInto, h.take_eq]

theorem seek_eq {target : ℤ} {pos' : ℕ} (h : target = pos') : seek target pos = some ((), pos') := by
  rw [h, seek, if_pos (Int.natCast_nonneg pos'), Int.toNat_natCast]

/-- An action that does not look at the members is repeated as often as there are members. -/
theorem forEach_const {γ : Type} (m : Input α) {xs : List β} (ys : List γ)
    (h : xs.length = ys.length) : forEach (fun _ => m) xs = forEach (fun _ => m) ys := by
  induction xs generalizing ys with
  | nil =>
    rw [length_eq_zero_iff.mp h.symm]
    rfl
  | cons x xs ih =>
    cases ys with
    | nil => cases h
    | cons y ys => rw [forEach, forEach, ih ys (Nat.succ.inj h)]

theorem forEach_map {γ : Type} (f : β → Input α) (h : γ → β) (xs : List γ) :
    forEach f (xs.map h) = forEach (fun x => f (h x)) xs := by
  induction xs with
  | nil => rfl
  | cons x xs ih => rw [map_cons, forEach, forEach, ih]

/-- **Reading a list**: when the file holds the bytes of the members one after another, and reading a
member gives its value or fails, the values of all members are read, or there is a failure. -/
theorem forEach_of_holds {f : β → Input α} {b : β → List UInt8} {g : β → α} {p : β → Bool}
    {xs : List β}
    (hread : ∀ x ∈ xs, ∀ pos, Holds file pos (b x) →
      f x pos = if p x then some (g x, pos + (b x).length) else none)
    (h : Holds file pos (xs.flatMap b)) :
    forEach f xs pos =
      if xs.all p then some (xs.map g, pos + (xs.flatMap b).length) else none := by
  induction xs generalizing pos with
  | nil => rfl
  | cons x xs ih =>
    obtain ⟨hx, hxs⟩ := forall_mem_cons.mp hread
    have hfst := hx pos h.left
    rw [all_cons, forEach]
    cases hok : p x with
    | false =>
      rw [hok] at hfst
      rw [bind_of_none hfst]
      rfl
    | true =>
      rw [hok] at hfst
      have hrest := ih hxs h.right
      rw [bind_of_eq hfst]
      cases hall : xs.all p with
      | false =>
        rw [hall] at hrest
        rw [bind_of_none hrest]
        rfl
      | true =>
        rw [hall] at hrest
        rw [bind_of_eq hrest, flatMap_cons, length_append, ← Nat.add_assoc]
        rfl

/-- Reading a list whose members can all be read. -/
theorem forEach_eq_some {f : β → Input α} {b : β → List UInt8} {g : β → α} {xs : List β}
    (hread : ∀ x ∈ xs, ∀ pos, Holds file pos (b x) → f x pos = some (g x, pos + (b x).length))
    (h : Holds file pos (xs.flatMap b)) :
    forEach f xs pos = some (xs.map g, pos + (xs.flatMap b).length) := by
  rw [forEach_of_holds (p := fun _ => true) hread h, if_pos]
  exact all_eq_true.mpr fun _ _ => rfl

/-! ## What is read -/

/-- What the action returns satisfies `P`. -/
def Gives (m : Input α) (P : α → Prop) : Prop := ∀ pos r, m pos = some r → P r.1

theorem Gives.bind {m : Input α} {Q : α → Prop} {f : α → Input β} {P : β → Prop} (hm : m.Gives Q)
    (hf : ∀ a, Q a → (f a).Gives P) : (m >>= f).Gives P := by
  intro pos r h
  obtain ⟨a, ha, hr⟩ := Option.bind_eq_some_iff.mp h
  exact hf a.1 (hm pos a ha) a.2 r hr

theorem Gives.after {m : Input α} {f : α → Input β} {P : β → Prop} (hf : ∀ a, (f a).Gives P) :
    (m >>= f).Gives P :=
  Gives.bind (Q := fun _ => True) (fun _ _ _ => trivial) fun a _ => hf a

theorem gives_pure {a : α} {P : α → Prop} (h : P a) : (pure a : Input α).Gives P := by
  rintro pos r ⟨⟩
  exact h

theorem gives_forEach {f : β → Input α} {P : α → Prop} (h : ∀ x, (f x).Gives P) (xs : List β) :
    (forEach f xs).Gives fun as => as.length = xs.length ∧ ∀ a ∈ as, P a := by
  induction xs with
  | nil => exact gives_pure ⟨rfl, nofun⟩
  | cons x xs ih =>
    refine (h x).bind fun a ha => ih.bind fun as has => gives_pure ⟨?_, ?_⟩
    · rw [length_cons, length_cons, has.1]
    · exact forall_mem_cons.mpr ⟨ha, has.2⟩

end Input

end TraceHarbor.Lib
