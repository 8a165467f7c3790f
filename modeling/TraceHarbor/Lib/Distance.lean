import Mathlib

/-!
# Paths from a Set of Roots

`Reach R E n x` says that some path with `n` edges of the relation `E` leads from a root in `R` to `x`.
`Reach.le_of_closed` is the fact behind breadth-first search: depth labels that are closed below a level
bound the distance of every vertex that can be reached in as many steps.
-/

namespace TraceHarbor.Lib

variable {α : Type*}

/-- There is a path with `n` edges from a root to the vertex. -/
inductive Reach (R : Set α) (E : α → α → Prop) : ℕ → α → Prop
  | root {x : α} : x ∈ R → Reach R E 0 x
  | step {n : ℕ} {x y : α} : Reach R E n x → E x y → Reach R E (n + 1) y

variable {R : Set α} {E : α → α → Prop}

theorem reach_zero {x : α} : Reach R E 0 x ↔ x ∈ R :=
  ⟨fun | .root h => h, .root⟩

/-- A labelling that is closed below level `h` has a label of at most `n` at everything that is
`n ≤ h` steps away from the roots. -/
theorem Reach.le_of_closed (depth : α → Option ℕ) {h : ℕ} (hroot : ∀ x ∈ R, depth x = some 0)
    (hclos : ∀ x d, depth x = some d → d < h → ∀ y, E x y → ∃ e, depth y = some e ∧ e ≤ d + 1)
    {n : ℕ} {x : α} (hn : n ≤ h) (hreach : Reach R E n x) :
    ∃ d, depth x = some d ∧ d ≤ n := by
  induction hreach with
  | root hx => exact ⟨0, hroot _ hx, le_rfl⟩
  | step _ hedge ih =>
    obtain ⟨d, hd, hle⟩ := ih (by omega)
    obtain ⟨e, he, hle'⟩ := hclos _ d hd (by omega) _ hedge
    exact ⟨e, he, by omega⟩

end TraceHarbor.Lib
