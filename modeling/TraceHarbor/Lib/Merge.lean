import Mathlib

/-!
# Merging Equal Elements

A list is gone through once, and of the elements with the same key the first becomes the representative.
The map from an element to its representative has an entry only for an element that shares its key with
another one.
-/

namespace TraceHarbor.Lib

open List

variable {ι κ : Type*} [DecidableEq κ]

/-- The first element with each key, and the representatives. The newest entry counts. -/
structure Merge (ι κ : Type*) where
  first : List (κ × ι)
  merged : List (ι × ι)

namespace Merge

def step (key : ι → κ) (s : Merge ι κ) (x : ι) : Merge ι κ :=
  match s.first.lookup (key x) with
  | none => { s with first := (key x, x) :: s.first }
  | some y => { s with merged := (x, y) :: (y, y) :: s.merged }

def ofList (key : ι → κ) (l : List ι) : Merge ι κ := l.foldl (step key) ⟨[], []⟩

theorem ofList_concat (key : ι → κ) (l : List ι) (x : ι) :
    ofList key (l ++ [x]) = step key (ofList key l) x := by
  rw [ofList, foldl_append]
  rfl

theorem lookup_cons_of_ne {α β : Type*} [BEq α] [LawfulBEq α] {a c : α} (h : c ≠ a) (b : β)
    (l : List (α × β)) : ((a, b) :: l).lookup c = l.lookup c := by
  rw [lookup_cons, beq_false_of_ne h]

/-- The map from keys has the first element with the key. -/
theorem lookup_first (key : ι → κ) (l : List ι) (m : κ) :
    (ofList key l).first.lookup m = l.find? fun x => key x = m := by
  induction l using reverseRecOn with
  | nil => rfl
  | append_singleton l x ih =>
    rw [ofList_concat, step, find?_append, ← ih]
    by_cases hm : key x = m
    · subst hm
      cases hx : (ofList key l).first.lookup (key x) with
      | none => simp
      | some y => simp [hx]
    · have hlast : ([x].find? fun x => key x = m) = none := by simp [hm]
      rw [hlast, Option.or_none]
      cases (ofList key l).first.lookup (key x) with
      | none => exact lookup_cons_of_ne (Ne.symm hm) ..
      | some y => rfl

/-- An element shares its key with another one. -/
def Shared (key : ι → κ) (l : List ι) (x : ι) : Prop := x ∈ l ∧ ∃ z ∈ l, z ≠ x ∧ key z = key x

theorem find?_append_of_mem (key : ι → κ) {l : List ι} {x : ι} (hx : x ∈ l) (l' : List ι) :
    (l ++ l').find? (fun z => key z = key x) = l.find? fun z => key z = key x := by
  rw [find?_append]
  exact Option.or_of_isSome (find?_isSome.mpr ⟨x, hx, decide_eq_true rfl⟩)

/-- The map from elements has the representative of every element that shares its key. -/
theorem lookup_merged [BEq ι] [LawfulBEq ι] (key : ι → κ) {l : List ι} (hl : l.Nodup) (x y : ι) :
    (ofList key l).merged.lookup x = some y ↔
      Shared key l x ∧ l.find? (fun z => key z = key x) = some y := by
  induction l using reverseRecOn generalizing x y with
  | nil => simp [ofList, Shared]
  | append_singleton l a ih =>
    obtain ⟨hl, -, hdisj⟩ := nodup_append.mp hl
    have ha : a ∉ l := fun h => hdisj a h a (mem_singleton_self a) rfl
    have hmem : a ∈ l ++ [a] := mem_append_right _ (mem_singleton_self a)
    -- an element before shares its key now if it did before, or if it has the key of the new one
    have hshar : ∀ x ∈ l, Shared key (l ++ [a]) x ↔ Shared key l x ∨ key a = key x := by
      intro x hx
      constructor
      · rintro ⟨-, z, hz, hne, hkey⟩
        rw [mem_append, mem_singleton] at hz
        rcases hz with hz | rfl
        · exact .inl ⟨hx, z, hz, hne, hkey⟩
        · exact .inr hkey
      · rintro (⟨-, z, hz, hne, hkey⟩ | hkey)
        · exact ⟨mem_append_left _ hx, z, mem_append_left _ hz, hne, hkey⟩
        · exact ⟨mem_append_left _ hx, a, hmem, fun h => ha (h ▸ hx), hkey⟩
    have hfst := lookup_first key l (key a)
    rw [ofList_concat, step]
    cases hb : (ofList key l).first.lookup (key a) with
    | none =>
      -- a new key: nothing is merged
      have hnew : ∀ z ∈ l, key z ≠ key a := by
        rw [hb] at hfst
        simpa using hfst.symm
      rw [ih hl]
      by_cases hx : x ∈ l
      · rw [find?_append_of_mem key hx, hshar x hx, or_iff_left (hnew x hx).symm]
      · refine ⟨fun h => absurd h.1.1 hx, fun h => absurd h.1 ?_⟩
        rintro ⟨hxa, z, hz, hne, hkey⟩
        obtain rfl : x = a := by simpa [hx] using hxa
        exact hnew z (by simpa [hne] using hz) hkey
    | some b =>
      -- the element is merged with the first one that has its key
      have hfind : (l.find? fun z => key z = key a) = some b := by rw [← hfst, hb]
      have hbl : b ∈ l := mem_of_find?_eq_some hfind
      have hbkey : key b = key a := by simpa using find?_some hfind
      have hba : b ≠ a := fun h => ha (h ▸ hbl)
      by_cases hxa : x = a
      · subst hxa
        rw [lookup_cons_self, find?_append, hfind]
        exact ⟨fun h => ⟨⟨hmem, b, mem_append_left _ hbl, hba, hbkey⟩, h⟩, fun h => h.2⟩
      · rw [lookup_cons_of_ne hxa]
        by_cases hxb : x = b
        · subst hxb
          rw [lookup_cons_self, find?_append_of_mem key hbl, hbkey, hfind, hshar x hbl]
          exact ⟨fun h => ⟨.inr hbkey.symm, h⟩, fun h => h.2⟩
        · rw [lookup_cons_of_ne hxb, ih hl]
          by_cases hx : x ∈ l
          · rw [find?_append_of_mem key hx, hshar x hx]
            refine and_congr_left fun _ => (or_iff_left_of_imp fun hkey => ?_).symm
            exact ⟨hx, b, hbl, Ne.symm hxb, hbkey.trans hkey⟩
          · refine ⟨fun h => absurd h.1.1 hx, fun h => absurd h.1.1 ?_⟩
            simp [hx, hxa]

end Merge

end TraceHarbor.Lib
