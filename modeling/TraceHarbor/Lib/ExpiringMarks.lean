import Mathlib

/-!
# Marks that Expire

A table has the time at which a key was marked, and the mark is valid for `life` from then on. An entry
may stay when it is too old, or be removed by a look at it. `Follows` relates what the table has of a key
to the latest mark of the key; then the table answers as the latest mark does, `Right`, at every time to
come.
-/

namespace TraceHarbor.Lib.Marks

def Valid (life now : ℤ) (mark : Option ℤ) : Prop := ∃ s ∈ mark, now - s ≤ life

/-- The entry is the latest mark, or there is none and the latest mark is too old. -/
def Follows (life now : ℤ) (entry latest : Option ℤ) : Prop :=
  (∀ s ∈ latest, s ≤ now) ∧ (entry = latest ∨ entry = none ∧ ¬ Valid life now latest)

def Right (life now : ℤ) (entry latest : Option ℤ) : Prop :=
  ∀ t, now ≤ t → (Valid life t entry ↔ Valid life t latest)

variable {life now t s : ℤ} {entry latest : Option ℤ}

@[simp]
theorem valid_some : Valid life now (some s) ↔ now - s ≤ life := by simp [Valid]

@[simp]
theorem not_valid_none : ¬ Valid life now none := by simp [Valid]

theorem Valid.earlier (h : Valid life t entry) (hle : now ≤ t) : Valid life now entry := by
  obtain ⟨s, hs, hlife⟩ := h
  exact ⟨s, hs, by omega⟩

theorem follows_none : Follows life now none none := ⟨by simp, .inl rfl⟩

theorem follows_mark : Follows life now (some now) (some now) := ⟨by simp, .inl rfl⟩

theorem Follows.later (h : Follows life now entry latest) (hle : now ≤ t) :
    Follows life t entry latest :=
  ⟨fun s hs => (h.1 s hs).trans hle, h.2.imp_right fun h' => ⟨h'.1, fun hv => h'.2 (hv.earlier hle)⟩⟩

/-- A look may remove what is not valid. -/
theorem Follows.look (h : Follows life now entry latest) (hold : ¬ Valid life now entry) :
    Follows life now none latest :=
  ⟨h.1, .inr ⟨rfl, h.2.elim (fun heq => heq ▸ hold) And.right⟩⟩

theorem Follows.right (h : Follows life now entry latest) : Right life now entry latest := by
  intro t hle
  obtain rfl | ⟨rfl, hold⟩ := h.2
  · rfl
  · exact iff_of_false not_valid_none fun hv => hold (hv.earlier hle)

/-- The older mark is the first to expire. -/
theorem not_right_of_older (hlife : 0 ≤ life) (hlt : s < now) :
    ¬ Right life now (some s) (some now) := by
  intro h
  have hend := h (now + life) (by omega)
  rw [valid_some, valid_some] at hend
  omega

end TraceHarbor.Lib.Marks
