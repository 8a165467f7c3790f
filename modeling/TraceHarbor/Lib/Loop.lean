import Mathlib

/-!
# While Loops with Fuel

A loop is given by the function its body computes: `Sum.inl s` goes round again in state `s`, `Sum.inr r`
leaves the loop with `r`. `loop step fuel s` runs at most `fuel` rounds and is `none` when they do not
suffice. `loop_of_variant` and `loop_of_measure` give total correctness from an invariant and a variant
that every round lowers.
-/

namespace TraceHarbor.Lib

open List

variable {σ ρ : Type*}

/-- At most `fuel` rounds of the loop with body `step`. -/
def loop (step : σ → σ ⊕ ρ) : ℕ → σ → Option ρ
  | 0, _ => none
  | fuel + 1, s =>
    match step s with
    | .inl s' => loop step fuel s'
    | .inr r => some r

variable {step : σ → σ ⊕ ρ}

theorem loop_succ_of_inl {s s' : σ} (fuel : ℕ) (h : step s = .inl s') :
    loop step (fuel + 1) s = loop step fuel s' := by
  rw [loop, h]

theorem loop_succ_of_inr {s : σ} {r : ρ} (fuel : ℕ) (h : step s = .inr r) :
    loop step (fuel + 1) s = some r := by
  rw [loop, h]

/-- A round that changes nothing comes again and again. -/
theorem loop_eq_none_of_same {s : σ} (h : step s = .inl s) (fuel : ℕ) : loop step fuel s = none := by
  induction fuel with
  | zero => rfl
  | succ fuel ih => rw [loop_succ_of_inl _ h, ih]

theorem loop_eq_some_of_le {s : σ} {r : ρ} {fuel fuel' : ℕ} (h : loop step fuel s = some r)
    (hle : fuel ≤ fuel') : loop step fuel' s = some r := by
  induction fuel generalizing s fuel' with
  | zero => cases h
  | succ fuel ih =>
    obtain ⟨more, rfl⟩ := Nat.exists_eq_add_of_le hle
    rw [Nat.add_right_comm fuel 1 more]
    cases hstep : step s with
    | inl s' =>
      rw [loop_succ_of_inl _ hstep] at h ⊢
      exact ih h (Nat.le_add_right fuel more)
    | inr r' =>
      rw [loop_succ_of_inr _ hstep] at h ⊢
      exact h

/-- **Total correctness**: if every round from a state in the invariant with variant `n` either
stays in it with a smaller variant or leaves the loop with a result in `Q`, then `n + 1` rounds end
the loop with a result in `Q`. -/
theorem loop_of_variant {Inv : ℕ → σ → Prop} {Q : ρ → Prop}
    (hround : ∀ n s, Inv n s → (∃ s', step s = .inl s' ∧ ∃ n' < n, Inv n' s') ∨
      ∃ r, step s = .inr r ∧ Q r) {n : ℕ} {s : σ} (hs : Inv n s) :
    ∃ r, loop step (n + 1) s = some r ∧ Q r := by
  induction n using Nat.strong_induction_on generalizing s with
  | _ n ih =>
    rcases hround n s hs with ⟨s', hstep, n', hlt, hinv⟩ | ⟨r, hstep, hQ⟩
    · obtain ⟨r, hr, hQ⟩ := ih n' hlt hinv
      exact ⟨r, loop_succ_of_inl n hstep ▸ loop_eq_some_of_le hr hlt, hQ⟩
    · exact ⟨r, loop_succ_of_inr n hstep, hQ⟩

theorem loop_of_measure {Inv : σ → Prop} {Q : ρ → Prop} (μ : σ → ℕ)
    (hag : ∀ s s', Inv s → step s = .inl s' → Inv s' ∧ μ s' < μ s)
    (hdone : ∀ s r, Inv s → step s = .inr r → Q r) {s : σ} (hs : Inv s) :
    ∃ r, loop step (μ s + 1) s = some r ∧ Q r := by
  have hround : ∀ n s, Inv s ∧ μ s = n → (∃ s', step s = .inl s' ∧ ∃ n' < n, Inv s' ∧ μ s' = n') ∨
      ∃ r, step s = .inr r ∧ Q r := by
    rintro n s ⟨hinv, rfl⟩
    cases hstep : step s with
    | inl s' =>
      obtain ⟨hinv', hlt⟩ := hag s s' hinv hstep
      exact .inl ⟨s', rfl, μ s', hlt, hinv', rfl⟩
    | inr r => exact .inr ⟨r, rfl, hdone s r hinv hstep⟩
  exact loop_of_variant hround ⟨hs, rfl⟩

/-! ## Loops over lists -/

section Lists

variable {ι β : Type*}

theorem mapM_eq_some_iff {f : ι → Option β} {l : List ι} {read : List β} :
    l.mapM f = some read ↔ l.map f = read.map some := by
  induction l generalizing read with
  | nil => cases read <;> simp
  | cons i l ih =>
    rw [mapM_cons, map_cons]
    cases read with
    | nil => cases f i <;> cases l.mapM f <;> simp
    | cons b read =>
      rw [map_cons, cons.injEq, ← ih]
      cases f i <;> cases l.mapM f <;> simp

theorem exists_mapM_eq_some {f : ι → Option β} {l : List ι}
    (h : ∀ i ∈ l, (f i).isSome) : ∃ read, l.mapM f = some read := by
  induction l with
  | nil => exact ⟨[], rfl⟩
  | cons i l ih =>
    obtain ⟨b, hb⟩ := Option.isSome_iff_exists.mp (h i mem_cons_self)
    obtain ⟨read, hread⟩ := ih fun j hj => h j (mem_cons_of_mem _ hj)
    exact ⟨b :: read, by rw [mapM_cons, hb, hread]; rfl⟩

theorem exists_foldlM_eq_some {f : β → ι → Option β} {l : List ι}
    (h : ∀ b, ∀ i ∈ l, (f b i).isSome) (b : β) : ∃ b', l.foldlM f b = some b' := by
  induction l generalizing b with
  | nil => exact ⟨b, rfl⟩
  | cons i l ih =>
    obtain ⟨b₁, hb₁⟩ := Option.isSome_iff_exists.mp (h b i mem_cons_self)
    obtain ⟨b', hb'⟩ := ih (fun b j hj => h b j (mem_cons_of_mem _ hj)) b₁
    exact ⟨b', by rw [foldlM_cons, hb₁]; exact hb'⟩

end Lists

end TraceHarbor.Lib
