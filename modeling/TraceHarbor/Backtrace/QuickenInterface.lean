import TraceHarbor.Lib.Loop

/-!
# Finding the Entry of a Program Counter

`QuickenInterface::FindEntry` searches the index of a quicken table, in which addresses stand at the
even positions and commands behind them.
-/

namespace TraceHarbor.Backtrace

open Lib

variable {quidx : List ℕ} {pc : ℕ}

/-- A round of the search and what follows it, on the bounds `first` and `last` and the positions
read so far. -/
def findRound (quidx : List ℕ) (pc : ℕ) :
    (ℕ × ℕ) × List ℕ → ((ℕ × ℕ) × List ℕ) ⊕ (Option ℕ × List ℕ)
  | ((first, last), reads) =>
    if first < last then
      let current := ((first + last) / 2) &&& 0xfffffffe
      let addr := quidx.getD current 0
      let reads := reads ++ [current]
      if pc = addr then .inr (some current, reads)
      else if pc < addr then .inl ((first, current), reads)
      else .inl ((current + 2, last), reads)
    else .inr (if last ≠ 0 then some (last - 2) else none, reads)

/-- `FindEntry`: the offset of the entry, and the positions that were read. -/
def findEntry (quidx : List ℕ) (pc fuel : ℕ) : Option (Option ℕ × List ℕ) :=
  loop (findRound quidx pc) fuel ((0, quidx.length), [])

def IsEntry (quidx : List ℕ) (k : ℕ) : Prop := k % 2 = 0 ∧ k < quidx.length

def Ascending (quidx : List ℕ) : Prop :=
  ∀ l < quidx.length, ∀ k < l, k % 2 = 0 → l % 2 = 0 → quidx.getD k 0 < quidx.getD l 0

/-- The entry of `pc` lies before `last`, and the entries before `first` are not above `pc`. -/
structure Searching (quidx : List ℕ) (pc first last : ℕ) (reads : List ℕ) : Prop where
  even : first % 2 = 0 ∧ last % 2 = 0
  le : first ≤ last
  le_length : last ≤ quidx.length
  below : ∀ k, IsEntry quidx k → k < first → quidx.getD k 0 ≤ pc
  above : ∀ k, IsEntry quidx k → last ≤ k → pc < quidx.getD k 0
  reads : ∀ k ∈ reads, IsEntry quidx k

/-- What the search returns. -/
structure Found (quidx : List ℕ) (pc : ℕ) (r : Option ℕ × List ℕ) : Prop where
  none_iff : r.1 = none ↔ quidx.length = 0 ∨ pc < quidx.getD 0 0
  greatest : ∀ k, r.1 = some k → IsEntry quidx k ∧ quidx.getD k 0 ≤ pc ∧
    ∀ l, IsEntry quidx l → quidx.getD l 0 ≤ pc → quidx.getD l 0 ≤ quidx.getD k 0
  reads : ∀ k ∈ r.2, IsEntry quidx k

theorem middle_spec {first last : ℕ} (heven : first % 2 = 0 ∧ last % 2 = 0) (hlt : first < last)
    (hlast : last < 2 ^ 32) : (((first + last) / 2) &&& 0xfffffffe) % 2 = 0 ∧
      first ≤ (((first + last) / 2) &&& 0xfffffffe) ∧
      (((first + last) / 2) &&& 0xfffffffe) + 2 ≤ last := by
  generalize hn : (first + last) / 2 = n
  have hdiv : (n &&& 0xfffffffe) / 2 = n / 2 % 2 ^ 31 := by
    rw [Nat.and_div_two, ← Nat.and_two_pow_sub_one_eq_mod]
  have hmod : (n &&& 0xfffffffe) % 2 ^ 1 = 0 := by
    rw [Nat.and_mod_two_pow]
    exact Nat.and_zero _
  omega

theorem Ascending.le (hsort : Ascending quidx) {k l : ℕ} (hk : IsEntry quidx k)
    (hl : IsEntry quidx l) (hle : k ≤ l) : quidx.getD k 0 ≤ quidx.getD l 0 := by
  rcases hle.eq_or_lt with rfl | hlt
  · rfl
  · exact (hsort l hl.2 k hlt hk.1 hl.1).le

theorem found_some (hsort : Ascending quidx) {k : ℕ} (hk : IsEntry quidx k)
    (hle : quidx.getD k 0 ≤ pc) (hab : ∀ l, IsEntry quidx l → k < l → pc < quidx.getD l 0)
    {reads : List ℕ} (hreads : ∀ l ∈ reads, IsEntry quidx l) : Found quidx pc (some k, reads) where
  none_iff := by
    have hlen := hk.2
    have hfst := hsort.le (k := 0) ⟨rfl, by omega⟩ hk (Nat.zero_le k)
    simp only [reduceCtorEq, false_iff]
    omega
  greatest l hl := by
    cases hl
    refine ⟨hk, hle, fun l hl hlpc => hsort.le hl hk ?_⟩
    by_contra hlt
    exact absurd (hab l hl (not_le.mp hlt)) (not_lt.mpr hlpc)
  reads := hreads

theorem findRound_spec (hsort : Ascending quidx) (hsize : quidx.length < 2 ^ 32)
    {first last : ℕ} {reads : List ℕ} (hs : Searching quidx pc first last reads) :
    match findRound quidx pc ((first, last), reads) with
    | .inl s => Searching quidx pc s.1.1 s.1.2 s.2 ∧ s.1.2 - s.1.1 < last - first
    | .inr r => Found quidx pc r := by
  obtain ⟨heven, hle, hlen, hbel, hab, hreads⟩ := hs
  rw [findRound]
  by_cases hlt : first < last
  · obtain ⟨hmid, hlow, hhigh⟩ := middle_spec heven hlt (by omega)
    generalize (first + last) / 2 &&& 0xfffffffe = current at *
    have hent : IsEntry quidx current := ⟨hmid, by omega⟩
    have hreads' : ∀ k ∈ reads ++ [current], IsEntry quidx k := by
      simpa [or_imp, forall_and] using ⟨hreads, hent⟩
    dsimp only
    split_ifs with heq hpc
    · exact found_some hsort hent heq.ge
        (fun l hl hlt => heq ▸ hsort l hl.2 _ hlt hent.1 hl.1) hreads'
    · refine ⟨⟨⟨heven.1, hmid⟩, hlow, (by omega : current ≤ _), hbel, fun k hk hle => ?_, hreads'⟩,
        (by omega : current - first < last - first)⟩
      exact hpc.trans_le (hsort.le hent hk hle)
    · refine ⟨⟨⟨(by omega : (current + 2) % 2 = 0), heven.2⟩, hhigh, hlen, fun k hk hlt => ?_, hab,
        hreads'⟩, (by omega : last - (current + 2) < last - first)⟩
      have hkev := hk.1
      dsimp only at hlt
      exact (hsort.le hk hent (by omega)).trans (not_lt.mp hpc)
  · obtain rfl : first = last := by omega
    split_ifs with hzero
    · have hent : IsEntry quidx (first - 2) := ⟨by omega, by omega⟩
      refine found_some hsort hent (hbel _ hent (by omega)) (fun l hl hlt => ?_) hreads
      have hlev := hl.1
      exact hab l hl (by omega)
    · obtain rfl : first = 0 := not_not.mp hzero
      refine ⟨⟨fun _ => ?_, fun _ => rfl⟩, nofun, hreads⟩
      by_cases hemp : quidx.length = 0
      · exact .inl hemp
      · exact .inr (hab 0 ⟨rfl, by omega⟩ le_rfl)

/-- **Binary search**: `FindEntry` ends, reads only addresses of the index, fails exactly for an empty
index or a `pc` below all addresses, and otherwise returns the entry with the greatest address that
is not above `pc`. -/
theorem findEntry_greatest (quidx : List ℕ) (heven : quidx.length % 2 = 0)
    (hsize : quidx.length < 2 ^ 32) (hsorted : Ascending quidx) (pc : ℕ) :
    ∃ r, (∀ fuel > quidx.length, findEntry quidx pc fuel = some r) ∧ Found quidx pc r := by
  have hinit : Searching quidx pc 0 quidx.length [] :=
    ⟨⟨rfl, heven⟩, Nat.zero_le _, le_rfl, nofun, fun k hk hle => absurd hk.2 (not_lt.mpr hle), nofun⟩
  obtain ⟨r, hr, hfound⟩ := @loop_of_measure _ _ (findRound quidx pc)
    (fun s => Searching quidx pc s.1.1 s.1.2 s.2) (Found quidx pc) (fun s => s.1.2 - s.1.1)
    (fun s s' hs hstep => by simpa [hstep] using findRound_spec hsorted hsize hs)
    (fun s r hs hstep => by simpa [hstep] using findRound_spec hsorted hsize hs)
    ((0, quidx.length), []) hinit
  exact ⟨r, fun fuel hfuel => loop_eq_some_of_le hr hfuel, hfound⟩

/-- An address inside the second of three entries. -/
theorem findEntry_second :
    ∃ r, (∀ fuel > 6, findEntry [0x10, 7, 0x20, 8, 0x30, 9] 0x2c fuel = some r) ∧
      Found [0x10, 7, 0x20, 8, 0x30, 9] 0x2c r :=
  findEntry_greatest [0x10, 7, 0x20, 8, 0x30, 9] rfl (by decide) (by unfold Ascending; decide) 0x2c

end TraceHarbor.Backtrace
