import TraceHarbor.Hooks.MetaAttribution

/-!
# Accounting and Residue of the Meta Container

With pointers that are not tracked when they are inserted, every entry has exactly the size of its
pointers. An entry without a pointer is the blank head of a chain: `erase` blanks a head that it cannot
remove because its chain goes on.
-/

namespace TraceHarbor.Hooks

open Lib List Option

namespace MetaContainer

/-! ## What the accounts are about -/

/-- A stack entry of the container: at the index of some hash, or in an allocated block. -/
def Holds (c : MetaContainer) (r : StackRef) (m : StackMeta) : Prop :=
  c.read r = some m ∧ match r with
    | .top i => ∃ hash s, c.stackMetas.exist hash = some (true, s) ∧ s.rootPtr = i
    | .ext _ => True

/-- The pointers among the tracked ones that resolve to an entry. -/
def pointersOf (l : List (ℕ × PtrMeta)) (r : StackRef) : List (ℕ × PtrMeta) :=
  l.filter fun x => x.2.stackHash ≠ 0 ∧ x.2.home = r

theorem sum_pointersOf (l : List (ℕ × PtrMeta)) (r : StackRef) :
    ((pointersOf l r).map fun x => x.2.size).sum = (l.map fun x => x.2.weight r).sum := by
  simp only [PtrMeta.weight]
  rw [sum_map_ite, map_const', sum_replicate, smul_zero, add_zero]
  rfl

/-! ## The invariant -/

/-- The container represents a balanced book, one without blank entries if `full` holds. -/
def Accounted (full : Prop) (past : List Update) (c : MetaContainer) : Prop :=
  ∃ b, Represents c b ∧ Sound b (latest past) ∧ Balanced b ∧ (full → Full b)

/-- **One message** with an untracked pointer keeps the accounts. -/
theorem Accounted.step {env : MetaEnv} (henv : env.Ample) {full : Prop} {past : List Update}
    {c : MetaContainer} (h : Accounted full past c) {u : Update} (hready : c.Ready env u)
    (hfresh : c.Fresh u) (hblan : full → c.blanks u = false) :
    ∃ c', c.apply env u = some c' ∧ Accounted full (past ++ [u]) c' := by
  obtain ⟨b, hrep, hsound, hbal, hfull⟩ := h
  obtain ⟨c', b', happ, hrep', hsound', -, hkeep⟩ := apply_represents henv hrep hsound hready
  obtain ⟨hbal', hfull'⟩ := hkeep hbal hfresh
  exact ⟨c', happ, b', hrep', hsound', hbal', fun hf => hfull' (hfull hf) (hblan hf)⟩

namespace Accounted

variable {full : Prop} {past : List Update} {c : MetaContainer}

theorem entry_of_holds {b : Book} (h : Represents c b) {r : StackRef} {m : StackMeta}
    (hholds : c.Holds r m) : ∃ hash, b.entry r = some (hash, m.toStackEntry) := by
  obtain ⟨idx, chains, hfil⟩ := h.files
  obtain ⟨hread, hlive⟩ := hholds
  cases r with
  | top i =>
    obtain ⟨hash, s, hex, hroot⟩ := hlive
    obtain ⟨s', heq, -, -, -, hroot'⟩ := hfil.exist_spec hash
    rw [hex] at heq
    obtain ⟨hsome, rfl⟩ := Prod.mk.inj (some.inj heq)
    obtain ⟨j, hj⟩ := isSome_iff_exists.mp hsome.symm
    obtain rfl : j = i := (hroot' j hj).1.symm.trans hroot
    obtain ⟨top, exts, htop, hl, -⟩ := hfil.chain_cons hj
    cases htop.symm.trans hread
    exact ⟨hash, (hfil.filed _ _ _).mpr (by simp [hl])⟩
  | ext a =>
    have hsome := hfil.allocated a (by rw [show c.heap[a]? = some m from hread]; simp)
    obtain ⟨⟨hash, e⟩, hent⟩ := ne_none_iff_exists'.mp hsome
    obtain ⟨m', hread', rfl⟩ := hfil.read_of_mem ((hfil.filed _ _ _).mp hent)
    cases hread.symm.trans hread'
    exact ⟨hash, hent⟩

theorem entries (h : Accounted full past c) {l : List (ℕ × PtrMeta)} (htrk : c.tracked = some l)
    {r : StackRef} {m : StackMeta} (hholds : c.Holds r m) :
    ((pointersOf l r).map fun x => x.2.size).sum = m.size ∧
      (pointersOf l r ≠ [] ∨ ¬ full ∧ ∃ i, r = .top i ∧ m.toStackEntry = .blank) := by
  obtain ⟨b, hrep, -, hbal, hfull⟩ := h
  obtain rfl : b.tracked.toList = l := some.inj (hrep.ptrs.enumerate.symm.trans htrk)
  obtain ⟨hash, hent⟩ := entry_of_holds hrep hholds
  have hsum := (sum_pointersOf b.tracked.toList r).trans (hbal.charged r hash _ hent)
  refine ⟨hsum, ?_⟩
  by_cases hzero : m.size = 0
  · exact .inr ⟨fun hf => hfull hf r hash _ hent hzero, hbal.blank r hash _ hent hzero⟩
  · refine .inl fun hnil => hzero ?_
    rw [← hsum, hnil]
    rfl

theorem residue (h : Accounted full past c) (htrk : c.tracked = some []) :
    c.heap = ∅ ∧ (full → c.stackMetas.tSize = 0) := by
  obtain ⟨b, hrep, -, hbal, hfull⟩ := h
  have hemp : b.tracked.toList = [] := some.inj (hrep.ptrs.enumerate.symm.trans htrk)
  -- an entry without pointers has the size zero
  have hzero : ∀ r hash e, b.entry r = some (hash, e) → e.size = 0 := by
    intro r hash e hent
    rw [← hbal.charged r hash e hent, charge, OrdMap.total, hemp]
    rfl
  obtain ⟨idx, chains, hfil⟩ := hrep.files
  constructor
  · refine Std.ExtTreeMap.ext_getElem? fun {a} => ?_
    by_contra hne
    obtain ⟨⟨hash, e⟩, hent⟩ := ne_none_iff_exists'.mp (hfil.allocated a hne)
    obtain ⟨i, hi, -⟩ := hbal.blank _ _ _ hent (hzero _ _ _ hent)
    cases hi
  · intro hf
    have hnone : idx = ∅ := by
      refine Std.ExtTreeMap.ext_getElem? fun {hash} => ?_
      by_contra hne
      obtain ⟨i, hi⟩ := ne_none_iff_exists'.mp hne
      obtain ⟨top, exts, htop, hl, -⟩ := hfil.chain_cons hi
      have hent := (hfil.filed (.top i) hash top.toStackEntry).mpr (by simp [hl])
      exact hfull hf _ _ _ hent (hzero _ _ _ hent)
    obtain ⟨free, high, hmod⟩ := hfil.indexes
    rw [hmod.size_eq, hnone]
    rfl

end Accounted

/-- **Accounting**: a run of messages that finds the memory it needs, and inserts only pointers that are
not tracked, leaves each stack entry with the size of the pointers that resolve to it. The entry has
one unless it is a head that a deletion has blanked. Once every pointer is erased no block is left,
and the stack map is empty if no head was blanked. -/
theorem applyAll_accounts_sizes (env : MetaEnv) (henv : env.Ample) :
    ∃ c₀, init env = some c₀ ∧
      ∀ us, TryMeets (fun c u => apply c env u) (fun c u => c.Ready env u ∧ c.Fresh u) c₀ us →
        ∃ c l, c₀.applyAll env us = some c ∧ c.tracked = some l ∧
          (∀ r m, c.Holds r m → ((pointersOf l r).map fun x => x.2.size).sum = m.size ∧
            (pointersOf l r ≠ [] ∨
              ¬ TryMeets (fun c u => apply c env u) (fun c u => c.blanks u = false) c₀ us ∧
                ∃ i, r = .top i ∧ m.toStackEntry = .blank)) ∧
          (l = [] → c.heap = ∅ ∧
            (TryMeets (fun c u => apply c env u) (fun c u => c.blanks u = false) c₀ us →
              c.stackMetas.tSize = 0)) := by
  obtain ⟨c₀, hinit, hrep⟩ := init_represents henv
  refine ⟨c₀, hinit, fun us hmeets => ?_⟩
  have hstart : ∀ full, Accounted full [] c₀ := fun full =>
    ⟨_, hrep, sound_empty, ⟨nofun, nofun⟩, fun _ => nofun⟩
  obtain ⟨c, hrun, hacc⟩ := tryRun_of_invariant
    (fun past c u (hinv : Accounted _ past c) hcond =>
      hinv.step henv hcond.1.1 hcond.1.2 hcond.2)
    (hstart _) (hmeets.and (TryMeets.imp id))
  have htrk : ∃ l, c.tracked = some l := by
    obtain ⟨b, hrep', -⟩ := hacc
    exact ⟨_, hrep'.ptrs.enumerate⟩
  obtain ⟨l, htrk⟩ := htrk
  refine ⟨c, l, hrun, htrk, fun r m hholds => hacc.entries htrk hholds, ?_⟩
  rintro rfl
  exact hacc.residue htrk

/-- Two colliding stacks. The one at the head goes last. -/
def tailFirst : List Update :=
  [allocationAt 16 8 0 1, allocationAt 32 8 0 2, .deletion 32, .deletion 16]

theorem applyAll_accounts_sizes_tailFirst :
    ∃ c₀ c, init collidingEnv = some c₀ ∧
      TryMeets (fun c u => apply c collidingEnv u) (fun c u => c.Ready collidingEnv u ∧ c.Fresh u) c₀
        tailFirst ∧
      TryMeets (fun c u => apply c collidingEnv u) (fun c u => c.blanks u = false) c₀ tailFirst ∧
      c₀.applyAll collidingEnv tailFirst = some c ∧ c.tracked = some [] ∧ c.heap = ∅ ∧
      c.stackMetas.tSize = 0 := by
  obtain ⟨c₀, hinit, hall⟩ := applyAll_accounts_sizes collidingEnv collidingEnv_ample
  obtain rfl : (init collidingEnv).get rfl = c₀ := by simp [hinit]
  have hready : TryMeets (fun c u => apply c collidingEnv u)
      (fun c u => c.Ready collidingEnv u ∧ c.Fresh u) ((init collidingEnv).get rfl) tailFirst := by
    decide +kernel
  have hblan : TryMeets (fun c u => apply c collidingEnv u) (fun c u => c.blanks u = false)
      ((init collidingEnv).get rfl) tailFirst := by
    decide +kernel
  obtain ⟨c, l, hrun, htrk, -, hres⟩ := hall tailFirst hready
  have hl : (applyFresh collidingEnv tailFirst).bind tracked = some [] := by decide +kernel
  obtain rfl : l = [] := by
    rw [applyFresh, hinit, bind_some, hrun, bind_some, htrk] at hl
    exact some.inj hl
  obtain ⟨hheap, hsize⟩ := hres rfl
  exact ⟨_, c, hinit, hready, hblan, hrun, htrk, hheap, hsize hblan⟩

/-- Two colliding stacks. The one at the head goes first. -/
def headFirst : List Update :=
  [allocationAt 16 8 0 1, allocationAt 32 8 0 2, .deletion 16, .deletion 32]

/-- The head of the chain stays behind: without a pointer while the chain goes on, and then in a
container that tracks nothing. Two sizes that add up to `2 ^ 64` are counted as zero, and a collision
without memory for a block fails a `CRITICAL_CHECK`. -/
theorem applyAll_headFirst_leaves_residue :
    ((applyFresh collidingEnv (headFirst.take 3)).map fun c =>
      (c.stackMetas.tSize, (c.read (.top 1)).map (·.size), pointersOf (c.tracked.getD []) (.top 1))) =
        some (1, some 0, []) ∧
    ((applyFresh collidingEnv headFirst).map fun c => (c.tracked, c.stackMetas.tSize)) =
      some (some [], 1) ∧
    ((applyFresh collidingEnv (wrappedSize.take 2)).map fun c => (c.read (.top 1)).map (·.size)) =
      some (some 0) ∧
    (applyFresh collidingEnv noBlock).isNone := by
  decide +kernel

end MetaContainer

end TraceHarbor.Hooks
