import TraceHarbor.Hooks.SplayMapOps

/-!
# The Splay Map Refines a Finite Map

A sequence of calls on a splay map is answered as by the finite map with the same inserts and
removes. The session around the map remembers the highest index that `insert` has ever handed out,
so that the indices in use can be compared with it.
-/

namespace TraceHarbor.Hooks

open Lib BinTree

/-! ## Calls and their answers -/

/-- The calls on a map. `find` stands for `exist` followed by `find` when it answers yes. -/
inductive Call (κ V : Type) where
  | insert (key : κ) (val : V)
  | remove (key : κ)
  | exist (key : κ)
  | find (key : κ)
  | enumerate

/-- What a call answers: whether a pointer was returned, the value behind it, or the sequence that
the callback was given. -/
inductive Answer (κ V : Type) where
  | inserted (ok : Bool)
  | removed (val : Option V)
  | existed (live : Bool)
  | found (val : Option V)
  | visited (entries : List (κ × V))

/-- A map in use, with the highest index it has ever handed out. -/
structure Session (κ V : Type) where
  map : SplayMap κ V
  highest : ℕ

variable {κ V : Type} [LinearOrder κ]

namespace Session

variable [Inhabited κ] [Inhabited V]

/-- One call; `none` when it touches an index outside the buffers. -/
def call (p : Platform) (x : Session κ V) : Call κ V → Option (Answer κ V × Session κ V)
  | .insert key val => do
    let (n, map) ← x.map.insert p key val
    return (.inserted n.isSome, { map := map, highest := max x.highest (n.getD 0) })
  | .remove key => do
    let (n, map) ← x.map.remove key
    return (.removed (n.map map.vBuff), { x with map := map })
  | .exist key => do
    let (live, map) ← x.map.exist key
    return (.existed live, { x with map := map })
  | .find key => do
    let (live, map) ← x.map.exist key
    if live then
      let val ← map.find
      return (.found (some val), { x with map := map })
    else return (.found none, { x with map := map })
  | .enumerate => do
    let entries ← x.map.enumerate
    return (.visited entries, x)

def calls (p : Platform) : Session κ V → List (Call κ V) → Option (List (Answer κ V) × Session κ V)
  | x, [] => some ([], x)
  | x, c :: cs => do
    let (a, x) ← x.call p c
    let (as, x) ← x.calls p cs
    return (a :: as, x)

/-- The call does not ask for blocks whose sizes overflow. -/
def Fits (p : Platform) (x : Session κ V) : Call κ V → Prop
  | .insert _ _ => x.map.tSize + 1 = x.map.bSize → p.Fits (x.map.bSize + x.map.iSize)
  | _ => True

/-- No call of the sequence asks for blocks whose sizes overflow. -/
def AllFit (p : Platform) : Session κ V → List (Call κ V) → Prop
  | _, [] => True
  | x, c :: cs => x.Fits p c ∧
    match x.call p c with
    | some (_, x') => AllFit p x' cs
    | none => True

instance (p : Platform) (n : ℕ) : Decidable (p.Fits n) :=
  inferInstanceAs (Decidable (_ < _ ∧ _ < _))

instance (p : Platform) (x : Session κ V) : ∀ c, Decidable (x.Fits p c)
  | .insert _ _ => inferInstanceAs (Decidable (_ = _ → p.Fits _))
  | .remove _ | .exist _ | .find _ | .enumerate => isTrue trivial

instance decidableAllFit (p : Platform) :
    ∀ (x : Session κ V) (cs : List (Call κ V)), Decidable (x.AllFit p cs)
  | _, [] => isTrue trivial
  | x, c :: cs =>
    haveI : Decidable (match x.call p c with
        | some (_, x') => AllFit p x' cs
        | none => True) :=
      match x.call p c with
      | some (_, x') => decidableAllFit p x' cs
      | none => isTrue trivial
    inferInstanceAs (Decidable (x.Fits p c ∧ _))

end Session

local instance transCmp : Std.TransCmp (compare : κ → κ → Ordering) := inferInstance

/-- The answer of a finite map to a call, and the map after it. -/
def answer (m : OrdMap κ V) : Call κ V → Answer κ V × OrdMap κ V
  | .insert key val => (.inserted true, m.insert key val)
  | .remove key => (.removed m[key]?, m.erase key)
  | .exist key => (.existed m[key]?.isSome, m)
  | .find key => (.found m[key]?, m)
  | .enumerate => (.visited m.toList, m)

/-- The answers of a finite map to a sequence of calls. -/
def answers : OrdMap κ V → List (Call κ V) → List (Answer κ V) × OrdMap κ V
  | m, [] => ([], m)
  | m, c :: cs =>
    let (a, m) := answer m c
    let (as, m) := answers m cs
    (a :: as, m)

/-! ## Refinement -/

/-- The map of the session holds the entries of `m`. -/
def Refines (x : Session κ V) (m : OrdMap κ V) : Prop :=
  ∃ idx free, x.map.Models idx free x.highest ∧ ∀ k : κ, m[k]? = idx[k]?.map x.map.vBuff

/-- The live indices and the free indices are, without repetition, those from 1 to the highest one
ever handed out. -/
def IndicesExact (x : Session κ V) : Prop :=
  ∃ T free, Rep x.map.kBuff.child x.map.rootPtr T ∧
    RepList x.map.kBuff.child .left x.map.freePtr free ∧
    (T.inorder ++ free).Perm (List.range' 1 x.highest)

namespace SplayMap

variable {s : SplayMap κ V} {idx : OrdMap κ ℕ} {free : List ℕ} {high : ℕ}

theorem Models.lt_bSize (h : Models s idx free high) {k : κ} {i : ℕ} (hi : idx[k]? = some i) :
    i < s.bSize := by
  obtain ⟨T, hval, hidx⟩ := h
  exact hval.lt_bSize ((hidx k i).mp hi).1

theorem Models.index_inj (h : Models s idx free high) {a b : κ} {i : ℕ} (ha : idx[a]? = some i)
    (hb : idx[b]? = some i) : a = b := by
  obtain ⟨T, hval, hidx⟩ := h
  exact ((hidx a i).mp ha).2.symm.trans ((hidx b i).mp hb).2

theorem Inserted.value_of_ne {key : κ} {val : V} {n : ℕ} {s' : SplayMap κ V}
    (hins : Inserted s idx high key val n s') (h : Models s idx free high) {k : κ} {i : ℕ}
    (hi : idx[k]? = some i) (hk : k ≠ key) : s'.vBuff i = s.vBuff i := by
  refine hins.others i (h.lt_bSize hi) ?_
  rintro rfl
  cases hkey : idx[key]? with
  | none => exact hins.fresh hkey k hi
  | some j =>
    obtain rfl := hins.old j hkey
    exact hk (h.index_inj hi hkey)

end SplayMap

namespace Refines

variable {x : Session κ V} {m : OrdMap κ V}

theorem toList_eq {idx : OrdMap κ ℕ} {vBuff : ℕ → V} (hval : ∀ k : κ, m[k]? = idx[k]?.map vBuff) :
    m.toList = idx.toList.map fun e => (e.1, vBuff e.2) := by
  refine OrdMap.toList_eq_of_sorted (List.pairwise_map.mpr idx.sorted_toList) fun k v => ?_
  rw [hval, Option.map_eq_some_iff, List.mem_map]
  constructor
  · rintro ⟨⟨a, i⟩, hmem, heq⟩
    cases heq
    exact ⟨i, OrdMap.mem_toList.mp hmem, rfl⟩
  · rintro ⟨i, hi, rfl⟩
    exact ⟨(k, i), OrdMap.mem_toList.mpr hi, rfl⟩

theorem size_eq (h : Refines x m) : x.map.tSize = m.size := by
  obtain ⟨idx, free, hmod, hval⟩ := h
  rw [hmod.size_eq, ← Std.ExtTreeMap.length_toList, ← Std.ExtTreeMap.length_toList,
    toList_eq hval, List.length_map]

theorem indicesExact (h : Refines x m) : IndicesExact x := by
  obtain ⟨idx, free, ⟨T, hval, -⟩, -⟩ := h
  exact ⟨T, free, hval.root, hval.freeList, hval.cover⟩

theorem highest_lt (h : Refines x m) : x.highest < x.map.bSize := by
  obtain ⟨idx, free, ⟨T, hval, -⟩, -⟩ := h
  exact hval.room

variable [Inhabited κ] [Inhabited V] {p : Platform}

theorem insert (hrealloc : ∀ bytes, p.realloc bytes = true) (h : Refines x m) (key : κ) (val : V)
    (hfits : x.Fits p (.insert key val)) :
    ∃ x', x.call p (.insert key val) = some (.inserted true, x') ∧ Refines x' (m.insert key val) := by
  obtain ⟨idx, free, hmod, hval⟩ := h
  obtain ⟨n, s', heq, hins⟩ := hmod.insert hrealloc hfits key val
  obtain ⟨free', hmod'⟩ := hins.models
  refine ⟨⟨s', max x.highest n⟩, by simp [Session.call, heq], idx.insert key n, free', hmod', ?_⟩
  intro k
  rw [OrdMap.get_insert, OrdMap.get_insert]
  by_cases hk : k = key
  · rw [if_pos hk, if_pos hk]
    exact congrArg some hins.value.symm
  · rw [if_neg hk, if_neg hk, hval]
    cases hi : idx[k]? with
    | none => rfl
    | some i => exact congrArg some (hins.value_of_ne hmod hi hk).symm

theorem remove (h : Refines x m) (key : κ) :
    ∃ x', x.call p (.remove key) = some (.removed m[key]?, x') ∧ Refines x' (m.erase key) := by
  obtain ⟨idx, free, hmod, hval⟩ := h
  cases hkey : idx[key]? with
  | none =>
    obtain ⟨s', heq, hmod', hsame⟩ := hmod.remove_of_none hkey
    refine ⟨⟨s', x.highest⟩, by simp [Session.call, heq, hval, hkey], idx, free, hmod', ?_⟩
    intro k
    rw [OrdMap.get_erase, hsame.vBuff]
    by_cases hk : k = key
    · rw [if_pos hk, hk, hkey]
      rfl
    · rw [if_neg hk, hval]
  | some r =>
    obtain ⟨s', heq, hmod', hvBuff, -⟩ := hmod.remove_of_some hkey
    refine ⟨⟨s', x.highest⟩, by simp [Session.call, heq, hval, hkey, hvBuff], idx.erase key, r :: free,
      hmod', ?_⟩
    intro k
    rw [OrdMap.get_erase, OrdMap.get_erase, hvBuff]
    by_cases hk : k = key
    · rw [if_pos hk, if_pos hk]
      rfl
    · rw [if_neg hk, if_neg hk, hval]

theorem exist (h : Refines x m) (key : κ) :
    ∃ x', x.call p (.exist key) = some (.existed m[key]?.isSome, x') ∧ Refines x' m := by
  obtain ⟨idx, free, hmod, hval⟩ := h
  obtain ⟨s', heq, hmod', hsame, -⟩ := hmod.exist key
  refine ⟨⟨s', x.highest⟩, by simp [Session.call, heq, hval], idx, free, hmod', ?_⟩
  intro k
  rw [hval, hsame.vBuff]

theorem find (h : Refines x m) (key : κ) :
    ∃ x', x.call p (.find key) = some (.found m[key]?, x') ∧ Refines x' m := by
  obtain ⟨idx, free, hmod, hval⟩ := h
  obtain ⟨s', heq, hmod', hsame, hlast⟩ := hmod.exist key
  refine ⟨⟨s', x.highest⟩, ?_, idx, free, hmod', fun k => by rw [hval, hsame.vBuff]⟩
  cases hkey : idx[key]? with
  | none => simp [Session.call, heq, hval, hkey]
  | some i =>
    have hbd : i < s'.valBound := by
      obtain ⟨T, hvalid, hidx⟩ := hmod'
      rw [hvalid.valBound_eq]
      exact hvalid.lt_bSize ((hidx key i).mp hkey).1
    have hfind : s'.find = some (x.map.vBuff i) := by
      rw [SplayMap.find, (hlast i hkey).2, if_pos hbd, hsame.vBuff]
    simp [Session.call, heq, hval, hkey, hfind]

theorem enumerate (h : Refines x m) :
    x.call p .enumerate = some (.visited m.toList, x) := by
  obtain ⟨idx, free, hmod, hval⟩ := h
  simp [Session.call, hmod.enumerate, toList_eq hval]

section

variable (hrealloc : ∀ bytes, p.realloc bytes = true)

include hrealloc

/-- **One call**: the splay map answers as the finite map and goes on refining it. -/
theorem call (h : Refines x m) (c : Call κ V) (hfits : x.Fits p c) :
    ∃ x', x.call p c = some ((answer m c).1, x') ∧ Refines x' (answer m c).2 := by
  cases c with
  | insert key val => exact h.insert hrealloc key val hfits
  | remove key => exact h.remove key
  | exist key => exact h.exist key
  | find key => exact h.find key
  | enumerate => exact ⟨x, h.enumerate, h⟩

/-- **Every sequence of calls**, by induction on the sequence. -/
theorem calls (cs : List (Call κ V)) (h : Refines x m) (hfit : x.AllFit p cs) :
    ∃ x', x.calls p cs = some ((answers m cs).1, x') ∧ Refines x' (answers m cs).2 := by
  induction cs generalizing x m with
  | nil => exact ⟨x, rfl, h⟩
  | cons c cs ih =>
    obtain ⟨hfits, hrest⟩ := hfit
    obtain ⟨x₁, hcall, h₁⟩ := h.call hrealloc c hfits
    rw [hcall] at hrest
    obtain ⟨x₂, hcalls, h₂⟩ := ih h₁ hrest
    exact ⟨x₂, by simp [Session.calls, hcall, hcalls, answers], h₂⟩

theorem init {capacity : ℕ} (hpos : 0 < capacity) (hfits : p.Fits capacity) :
    ∃ s : SplayMap κ V, SplayMap.init p capacity = some s ∧ Refines ⟨s, 0⟩ (∅ : OrdMap κ V) := by
  obtain ⟨hkey, hval⟩ := hfits
  have hkeyBytes : p.keyBytes capacity = sizeofTreeInfo + capacity * p.sizeofNode :=
    Nat.mod_eq_of_lt hkey
  have hvalBytes : p.valBytes capacity = capacity * p.sizeofVal := Nat.mod_eq_of_lt hval
  have hinit : (SplayMap.init p capacity : Option (SplayMap κ V)) = some {
      rootPtr := 0, freePtr := 0, bSize := capacity, tSize := 0
      kBuff := fun _ => default, vBuff := fun _ => default
      lastPtr := 0, iSize := capacity, kCap := capacity, vCap := capacity } := by
    simp only [SplayMap.init, hrealloc, hpos.ne', if_false, hkeyBytes, hvalBytes,
      Nat.add_sub_cancel_left, Nat.mul_div_cancel _ p.sizeofNode_pos,
      Nat.mul_div_cancel _ p.sizeofVal_pos]
    exact if_pos ⟨trivial, trivial, Nat.le_add_right ..⟩
  refine ⟨_, hinit, ∅, [], ⟨.nil, ⟨rfl, rfl, List.Perm.nil, List.Pairwise.nil, rfl, hpos, le_rfl,
    le_rfl, hpos⟩, fun k i => ?_⟩, fun k => ?_⟩
  · simp
  · simp

end

end Refines

variable [Inhabited κ] [Inhabited V]

/-- **Refinement**: on a fresh map of positive capacity, calls are answered as by the finite map, as long
as no block size overflows. After them `size` is the number of live keys, and the live and the free
indices are those from 1 to the highest one ever handed out, all below `b_size`. -/
theorem calls_refine_answers (p : Platform) (hrealloc : ∀ bytes, p.realloc bytes = true)
    {capacity : ℕ} (hpos : 0 < capacity) (hfits : p.Fits capacity) :
    ∃ s : SplayMap κ V, SplayMap.init p capacity = some s ∧
      ∀ cs : List (Call κ V), (Session.mk s 0).AllFit p cs →
        ∃ x, (Session.mk s 0).calls p cs = some ((answers ∅ cs).1, x) ∧
          x.map.tSize = (answers (∅ : OrdMap κ V) cs).2.size ∧ IndicesExact x ∧
          x.highest < x.map.bSize := by
  obtain ⟨s, hinit, href⟩ : ∃ s : SplayMap κ V, SplayMap.init p capacity = some s ∧
      Refines ⟨s, 0⟩ (∅ : OrdMap κ V) := Refines.init hrealloc hpos hfits
  refine ⟨s, hinit, fun cs hfit => ?_⟩
  obtain ⟨x, hcalls, hx⟩ := href.calls hrealloc cs hfit
  exact ⟨x, hcalls, hx.size_eq, hx.indicesExact, hx.highest_lt⟩

/-- Nodes with 8-byte keys, 8-byte values, and a `realloc` that always succeeds. -/
def ampleMemory : Platform where
  sizeofNode := 16
  sizeofVal := 8
  realloc _ := true
  sizeofNode_pos := by decide
  sizeofVal_pos := by decide

/-- Three inserts into a map of capacity 2, which grows once, a removal and two queries. -/
def sampleCalls : List (Call ℕ ℕ) :=
  [.insert 5 50, .insert 3 30, .insert 9 90, .remove 5, .find 3, .enumerate]

theorem calls_refine_answers_sample :
    ∃ s x, SplayMap.init ampleMemory 2 = some s ∧ (Session.mk s 0).AllFit ampleMemory sampleCalls ∧
      (Session.mk s 0).calls ampleMemory sampleCalls = some ((answers ∅ sampleCalls).1, x) ∧
      x.map.tSize = 2 ∧ x.highest < x.map.bSize := by
  obtain ⟨s, hinit, hcalls⟩ :=
    @calls_refine_answers ℕ ℕ _ _ _ ampleMemory (fun _ => rfl) 2 (by decide) (by decide)
  obtain rfl : (SplayMap.init ampleMemory 2).get rfl = s := by simp [hinit]
  have hfit : (Session.mk ((SplayMap.init ampleMemory 2).get rfl) 0).AllFit ampleMemory sampleCalls := by
    decide +kernel
  obtain ⟨x, hx, hsize, -, hhigh⟩ := hcalls sampleCalls hfit
  exact ⟨_, x, hinit, hfit, hx, hsize.trans (by decide +kernel), hhigh⟩

/-- A map for `2 ^ 28` entries asks for `16 + 2 ^ 32` bytes, which the 32-bit size cuts down to the
header: the first `insert` writes its node past the block. -/
theorem calls_truncatedBlock_fails :
    ¬ ∀ (p : Platform), (∀ bytes, p.realloc bytes = true) → ∀ capacity, 0 < capacity →
      capacity < 2 ^ 32 → ∀ cs : List (Call ℕ ℕ), ∃ s x, SplayMap.init p capacity = some s ∧
        (Session.mk s 0).calls p cs = some ((answers ∅ cs).1, x) := by
  intro h
  obtain ⟨s, x, hinit, hcalls⟩ :=
    h ampleMemory (fun _ => rfl) (2 ^ 28) (by decide) (by decide) [.insert 1 7]
  obtain rfl : (SplayMap.init ampleMemory (2 ^ 28)).get rfl = s := by simp only [hinit, Option.get_some]
  have hfails : ((Session.mk ((SplayMap.init ampleMemory (2 ^ 28)).get rfl) 0).calls ampleMemory
      [.insert 1 7] : Option (List (Answer ℕ ℕ) × Session ℕ ℕ)).isNone := by
    decide +kernel
  rw [hcalls] at hfails
  cases hfails

end TraceHarbor.Hooks
