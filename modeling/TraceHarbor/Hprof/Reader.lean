import Mathlib

/-!
# The Buffer Reader

`Reader` is a buffer with a cursor. Reading and skipping past the end are fatal errors of the
program, so that a read action is a state transformer that may fail: `ReadM`.

`LocalRead` says that an action which succeeds inside a buffer does the same wherever that buffer
is embedded in a larger one.
-/

namespace TraceHarbor.Hprof

structure Reader where
  buffer : List UInt8
  cursor : ℕ
  deriving Repr, DecidableEq

/-- Read actions; `none` is a fatal error. -/
abbrev ReadM := StateT Reader Option

namespace Reader

/-- The loop of `Read`: shift the bytes into a 64-bit result, most significant byte first. -/
def readLoop : ℕ → ℕ → ReadM ℕ
  | 0, ret => pure ret
  | size + 1, ret => fun r =>
    match r.buffer[r.cursor]? with
    | none => none
    | some byte =>
      readLoop size ((ret * 2 ^ 8 + byte.toNat) % 2 ^ 64) { r with cursor := r.cursor + 1 }

def read (size : ℕ) : ReadM ℕ := readLoop size 0

def skip (size : ℕ) : ReadM Unit := fun r =>
  if r.cursor + size > r.buffer.length then none
  else some ((), { r with cursor := r.cursor + size })

def readU1 : ReadM ℕ := read 1

def readU2 : ReadM ℕ := read 2

def skipU2 : ReadM Unit := skip 2

def skipU4 : ReadM Unit := skip 4

end Reader

/-! ## Reading inside a Larger Buffer -/

def Reader.within (r : Reader) (before after : List UInt8) : Reader :=
  ⟨before ++ r.buffer ++ after, before.length + r.cursor⟩

/-- An action that succeeds in a buffer does the same when bytes stand before and after it. -/
def LocalRead {α : Type} (action : ReadM α) : Prop :=
  ∀ r a r' before after, action r = some (a, r') →
    action (r.within before after) = some (a, r'.within before after)

namespace LocalRead

variable {α β : Type}

theorem pure (a : α) : LocalRead (Pure.pure a : ReadM α) := by
  intro r a' r' before after h
  cases h
  rfl

theorem bind {x : ReadM α} {f : α → ReadM β} (hx : LocalRead x) (hf : ∀ a, LocalRead (f a)) :
    LocalRead (x >>= f) := by
  intro r b r' before after h
  obtain ⟨⟨a, r₁⟩, hx₁, hf₁⟩ := Option.bind_eq_some_iff.mp h
  exact Option.bind_eq_some_iff.mpr
    ⟨_, hx r a r₁ before after hx₁, hf a r₁ b r' before after hf₁⟩

theorem lift (o : Option α) : LocalRead (StateT.lift o : ReadM α) := by
  intro r a r' before after h
  cases o with
  | none => cases h
  | some b =>
    cases h
    rfl

theorem readLoop (size ret : ℕ) : LocalRead (Reader.readLoop size ret) := by
  induction size generalizing ret with
  | zero => exact LocalRead.pure ret
  | succ size ih =>
    intro r a r' before after h
    rw [Reader.readLoop] at h ⊢
    cases hbyte : r.buffer[r.cursor]? with
    | none => simp [hbyte] at h
    | some byte =>
      have hlt : r.cursor < r.buffer.length := (List.getElem?_eq_some_iff.mp hbyte).1
      have hsame : (r.within before after).buffer[(r.within before after).cursor]? = some byte := by
        simp only [Reader.within, List.append_assoc]
        rw [List.getElem?_append_right (by omega), Nat.add_sub_cancel_left,
          List.getElem?_append_left hlt, hbyte]
      simp only [hbyte] at h
      simp only [hsame]
      exact ih _ _ a r' before after h

theorem read (size : ℕ) : LocalRead (Reader.read size) := readLoop size 0

theorem skip (size : ℕ) : LocalRead (Reader.skip size) := by
  intro r a r' before after h
  unfold Reader.skip at h ⊢
  split at h
  · cases h
  · rename_i hle
    cases h
    rw [if_neg]
    · simp [Reader.within, Nat.add_assoc]
    · simp only [Reader.within, List.length_append]
      omega

end LocalRead

end TraceHarbor.Hprof
