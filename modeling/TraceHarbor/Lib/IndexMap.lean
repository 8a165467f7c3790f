import Mathlib

/-!
# Index Maps

A map from keys to positions that is filled along a list: for each member, its key is mapped to the
member's position. A later member replaces an earlier one with the same key.
-/

namespace TraceHarbor.Lib

open Function

variable {κ α β : Type} [DecidableEq κ]

/-- Map the key of each member to its position, counted from `i`. -/
def indexFrom (f : α → κ) : ℕ → List α → (κ → Option ℕ) → (κ → Option ℕ)
  | _, [], map => map
  | i, x :: xs, map => indexFrom f (i + 1) xs (Function.update map (f x) (some i))

variable {f : α → κ} {i : ℕ} {xs : List α} {map : κ → Option ℕ}

theorem indexFrom_map (g : β → α) (ys : List β) :
    indexFrom f i (ys.map g) map = indexFrom (f ∘ g) i ys map := by
  induction ys generalizing i map with
  | nil => rfl
  | cons y ys ih => rw [List.map_cons, indexFrom, indexFrom, ih, comp_apply]

/-- A key is mapped to a position that has it, or where it was mapped to before. -/
theorem indexFrom_sound {k : κ} {n : ℕ} (h : indexFrom f i xs map k = some n) :
    (∃ x, i ≤ n ∧ xs[n - i]? = some x ∧ f x = k) ∨ map k = some n := by
  induction xs generalizing i map with
  | nil => exact .inr h
  | cons x xs ih =>
    rcases ih h with ⟨y, hle, hy, hkey⟩ | hupd
    · refine .inl ⟨y, Nat.le_of_succ_le hle, ?_, hkey⟩
      rw [show n - i = n - (i + 1) + 1 by omega, List.getElem?_cons_succ, hy]
    · by_cases hk : k = f x
      · rw [hk, update_self] at hupd
        cases hupd
        exact .inl ⟨x, le_rfl, by simp, hk.symm⟩
      · rw [update_of_ne hk] at hupd
        exact .inr hupd

theorem isSome_indexFrom {k : κ} (h : (map k).isSome) : (indexFrom f i xs map k).isSome := by
  induction xs generalizing i map with
  | nil => exact h
  | cons x xs ih =>
    refine ih ?_
    by_cases hk : k = f x
    · rw [hk, update_self]
      rfl
    · rw [update_of_ne hk]
      exact h

theorem isSome_indexFrom_of_mem {x : α} (h : x ∈ xs) : (indexFrom f i xs map (f x)).isSome := by
  induction xs generalizing i map with
  | nil => cases h
  | cons y ys ih =>
    rcases List.mem_cons.mp h with rfl | hmem
    · rw [indexFrom]
      refine isSome_indexFrom ?_
      rw [update_self]
      rfl
    · exact ih hmem

theorem getElem?_of_indexFrom {k : κ} {n : ℕ} (h : indexFrom f 0 xs (fun _ => none) k = some n) :
    ∃ x, xs[n]? = some x ∧ f x = k := by
  rcases indexFrom_sound h with ⟨x, -, hx, hkey⟩ | hnone
  · exact ⟨x, hx, hkey⟩
  · cases hnone

theorem exists_indexFrom {x : α} (h : x ∈ xs) :
    ∃ n y, indexFrom f 0 xs (fun _ => none) (f x) = some n ∧ xs[n]? = some y ∧ f y = f x := by
  obtain ⟨n, hn⟩ := Option.isSome_iff_exists.mp (isSome_indexFrom_of_mem (f := f) (i := 0) h)
  obtain ⟨y, hy, hkey⟩ := getElem?_of_indexFrom hn
  exact ⟨n, y, hn, hy, hkey⟩

end TraceHarbor.Lib
