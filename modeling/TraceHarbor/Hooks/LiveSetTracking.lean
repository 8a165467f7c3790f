import TraceHarbor.Hooks.LiveSet
import TraceHarbor.Hooks.MetaAttribution

/-!
# Tracked Pointers and Live Allocations

A block that the program holds is recorded with its size, a block that a thread has just acquired is not
recorded yet, and an address that a `realloc` has given up is still recorded.
-/

namespace TraceHarbor.Hooks

open Lib List Option Function

/-! ## Responsibility for blocks -/

/-- Who is responsible for the block at an address. -/
inductive Holder (k : ℕ) where
  | nobody
  | program
  | thread (t : Fin k)
  deriving DecidableEq

variable {x : HookState}

namespace HookState

def block : HookState → Option ℕ
  | .reallocating _ ptr _ | .freeing ptr | .libcFreeing ptr => nonNull ptr
  | .recordingFree _ (some a) | .recordingAlloc a _ => nonNull a.ptr
  | _ => none

/-- The allocation that a thread has still to report. -/
def allocation : HookState → Option Allocation
  | .recordingFree _ (some a) | .recordingAlloc a _ => some a
  | _ => none

/-- The block of the thread is not recorded, once its old releases are. -/
def unrecorded : HookState → Bool
  | .recordingFree _ (some _) | .recordingAlloc _ _ | .libcFreeing _ => true
  | _ => false

/-- The release of the thread's block may still be pending. -/
def waits : HookState → Bool
  | .recordingFree _ (some _) | .recordingAlloc _ _ | .freeing _ => true
  | _ => false

/-- The thread has not failed in a `realloc`, which it is in only with a block, and is to report the
size that it requests, as a `size_t`. -/
def Succeeding : HookState → Prop
  | .acquiring _ requested byteCount => byteCount.val = requested % 2 ^ 64
  | .recordingAlloc a back => back = a.ptr
  | .reallocating _ ptr _ | .recordingFree ptr none => ptr ≠ 0
  | .recordingFree ptr (some a) => ptr ≠ 0 ∧ a.ptr ≠ 0
  | _ => True

theorem block_of_allocation {a : Allocation} (h : x.allocation = some a) (hptr : a.ptr ≠ 0) :
    x.block = some a.ptr := by
  cases x with
  | recordingAlloc b back =>
    cases h
    exact if_neg hptr
  | recordingFree ptr next =>
    cases next with
    | none => cases h
    | some b =>
      cases h
      exact if_neg hptr
  | idle | acquiring | reallocating | freeing | libcFreeing => cases h

theorem unrecorded_or_release {p : ℕ} (hwaits : x.waits = true) (hblk : x.block = some p) :
    x.unrecorded = true ∨ x.release = some p := by
  cases x with
  | freeing ptr => exact .inr hblk
  | recordingAlloc a back => exact .inl rfl
  | recordingFree ptr next =>
    cases next with
    | none => cases hwaits
    | some a => exact .inl rfl
  | idle | acquiring | reallocating | libcFreeing => cases hwaits

/-- Two states of a thread that are the same to an address. -/
structure SameAt (p : ℕ) (x y : HookState) : Prop where
  block : y.block = some p ↔ x.block = some p
  release : y.release = some p ↔ x.release = some p
  allocation : x.block = some p → y.allocation = x.allocation
  unrecorded : x.block = some p → y.unrecorded = x.unrecorded
  waits : x.block = some p → y.waits = x.waits

theorem SameAt.of_block_ne {p : ℕ} {y : HookState} (hx : x.block ≠ some p) (hy : y.block ≠ some p)
    (hrel : y.release = some p ↔ x.release = some p) : SameAt p x y :=
  ⟨iff_of_false hy hx, hrel, fun hb => absurd hb hx, fun hb => absurd hb hx,
    fun hb => absurd hb hx⟩

end HookState

/-- What is recorded of an address with no pending release. -/
def expected {k : ℕ} (w : HookWorld k) (p : ℕ) : Holder k → Option ℕ
  | .thread t => if (w.threads t).unrecorded then none else w.live p
  | _ => w.live p

/-- What is known about an address: `holder` is responsible for its block, `releaser` has still to
report a release, and `recorded` is the size in the reports so far. -/
structure At {k : ℕ} (w : HookWorld k) (p : ℕ) (recorded : Option ℕ) (holder : Holder k)
    (releaser : Option (Fin k)) : Prop where
  live : w.live p = none ↔ holder = .nobody
  owned : w.owned p = true ↔ holder = .program
  block : ∀ t, (w.threads t).block = some p ↔ holder = .thread t
  release : ∀ t, (w.threads t).release = some p ↔ releaser = some t
  size : ∀ t a, (w.threads t).allocation = some a → a.ptr = p → p ≠ 0 →
    w.live p = some a.byteCount.val
  settled : releaser = none → recorded = expected w p holder
  pending : ∀ t, releaser = some t → recorded ≠ none ∧ holder ≠ .program ∧
    ∀ t', holder = .thread t' → (w.threads t').waits = true

namespace At

variable {k : ℕ} {w w' : HookWorld k} {p : ℕ} {recorded recorded' : Option ℕ}
  {holder holder' : Holder k} {releaser releaser' : Option (Fin k)} {t : Fin k} {x : HookState}

theorem frame (h : At w p recorded holder releaser) (hlive : w'.live p = w.live p)
    (hown : w'.owned p = w.owned p) (hthrs : ∀ t', t' ≠ t → w'.threads t' = w.threads t')
    (hsame : (w.threads t).SameAt p (w'.threads t)) : At w' p recorded holder releaser := by
  refine
    { live := by rw [hlive]; exact h.live, owned := by rw [hown]; exact h.owned,
      block := fun t' => ?_, release := fun t' => ?_, size := fun t' a ha hptr hp => ?_,
      settled := fun hnone => ?_, pending := fun t' hsome => ?_ }
  · by_cases heq : t' = t
    · rw [heq, hsame.block]
      exact h.block t
    · rw [hthrs t' heq]
      exact h.block t'
  · by_cases heq : t' = t
    · rw [heq, hsame.release]
      exact h.release t
    · rw [hthrs t' heq]
      exact h.release t'
  · rw [hlive]
    by_cases heq : t' = t
    · rw [heq] at ha
      have hblk := hsame.block.mp (hptr ▸ HookState.block_of_allocation ha (hptr ▸ hp))
      exact h.size t a ((hsame.allocation hblk).symm.trans ha) hptr hp
    · rw [hthrs t' heq] at ha
      exact h.size t' a ha hptr hp
  · rw [h.settled hnone]
    cases hh : holder with
    | nobody | program => exact hlive.symm
    | thread t' =>
      simp only [expected, hlive]
      by_cases heq : t' = t
      · rw [heq, hsame.unrecorded ((h.block t).mpr (heq ▸ hh))]
      · rw [hthrs t' heq]
  · obtain ⟨hrec, hprog, hwaits⟩ := h.pending t' hsome
    refine ⟨hrec, hprog, fun t'' hh => ?_⟩
    by_cases heq : t'' = t
    · rw [heq, hsame.waits ((h.block t).mpr (heq ▸ hh))]
      exact hwaits t (heq ▸ hh)
    · rw [hthrs t'' heq]
      exact hwaits t'' hh

theorem touch (h : At w p recorded holder releaser)
    (hthrs : ∀ t', t' ≠ t → w'.threads t' = w.threads t')
    (hoth : ∀ t', t' ≠ t → holder ≠ .thread t' ∧ holder' ≠ .thread t')
    (hrelr : ∀ t', t' ≠ t → (releaser = some t' ↔ releaser' = some t'))
    (hlive : w'.live p = none ↔ holder' = .nobody) (hown : w'.owned p = true ↔ holder' = .program)
    (hblk : (w'.threads t).block = some p ↔ holder' = .thread t)
    (hrel : (w'.threads t).release = some p ↔ releaser' = some t)
    (hsize : ∀ a, (w'.threads t).allocation = some a → a.ptr = p → w'.live p = some a.byteCount.val)
    (hsett : releaser' = none → recorded' = expected w' p holder')
    (hpend : ∀ t', releaser' = some t' → recorded' ≠ none ∧ holder' ≠ .program ∧
      (holder' = .thread t → (w'.threads t).waits = true)) :
    At w' p recorded' holder' releaser' := by
  refine
    { live := hlive, owned := hown, block := fun t' => ?_, release := fun t' => ?_,
      size := fun t' a ha hptr hp => ?_, settled := hsett, pending := fun t' hsome => ?_ }
  · by_cases heq : t' = t
    · rw [heq]
      exact hblk
    · rw [hthrs t' heq, h.block t']
      exact iff_of_false (hoth t' heq).1 (hoth t' heq).2
  · by_cases heq : t' = t
    · rw [heq]
      exact hrel
    · rw [hthrs t' heq, h.release t']
      exact hrelr t' heq
  · by_cases heq : t' = t
    · rw [heq] at ha
      exact hsize a ha hptr
    · rw [hthrs t' heq] at ha
      have hb := HookState.block_of_allocation ha (hptr ▸ hp)
      exact absurd ((h.block t').mp (hptr ▸ hb)) (hoth t' heq).1
  · obtain ⟨hrec, hprog, hwaits⟩ := hpend t' hsome
    refine ⟨hrec, hprog, fun t'' hh => ?_⟩
    have heq : t'' = t := by
      by_contra hne
      exact (hoth t'' hne).2 hh
    rw [heq]
    exact hwaits (heq ▸ hh)

end At

/-- The records, the blocks and the threads fit together. -/
structure Consistent {k : ℕ} (w : HookWorld k) (recorded : ℕ → Option ℕ) (holder : ℕ → Holder k)
    (releaser : ℕ → Option (Fin k)) : Prop where
  address : ∀ p, At w p (recorded p) (holder p) (releaser p)
  null : holder 0 = .nobody
  succeeding : ∀ t, (w.threads t).Succeeding

namespace Consistent

variable {k : ℕ} {w w' : HookWorld k} {recorded recorded' : ℕ → Option ℕ} {holder : ℕ → Holder k}
  {releaser : ℕ → Option (Fin k)} {t : Fin k} {p : ℕ}

theorem init : Consistent (HookWorld.init : HookWorld k) (fun _ => none) (fun _ => .nobody)
    (fun _ => none) where
  address p :=
    { live := by simp [HookWorld.init], owned := by simp [HookWorld.init]
      block := fun t => by simp [HookWorld.init, HookState.block]
      release := fun t => by simp [HookWorld.init, HookState.release]
      size := nofun
      settled := fun _ => rfl
      pending := nofun }
  null := rfl
  succeeding _ := trivial

/-! ### Reading the invariant -/

section

variable (h : Consistent w recorded holder releaser)

include h

theorem releaser_of_block (hblk : (w.threads t).block = some p)
    (hwaits : (w.threads t).waits = false) : releaser p = none := by
  have hhold := ((h.address p).block t).mp hblk
  cases hr : releaser p with
  | none => rfl
  | some t' =>
    obtain ⟨-, -, hall⟩ := (h.address p).pending t' hr
    rw [hall t hhold] at hwaits
    cases hwaits

theorem releaser_of_owned (hown : w.owned p = true) : releaser p = none := by
  cases hr : releaser p with
  | none => rfl
  | some t' =>
    obtain ⟨-, hprog, -⟩ := (h.address p).pending t' hr
    exact absurd ((h.address p).owned.mp hown) hprog

/-! ### Steps -/

theorem withPipeline (pipeline : Pipeline) :
    Consistent { w with pipeline := pipeline } recorded holder releaser :=
  ⟨fun p => { h.address p with }, h.null, h.succeeding⟩

/-- **One step of a thread** at one address. -/
theorem update (hthrs : w'.threads = update w.threads t x) (hsucc : x.Succeeding)
    (hp : p ≠ 0) (hlive : ∀ q, q ≠ p → w'.live q = w.live q)
    (hown : ∀ q, q ≠ p → w'.owned q = w.owned q)
    (hrec : ∀ q, q ≠ p → recorded' q = recorded q)
    (hsame : ∀ q, q ≠ p → (w.threads t).SameAt q x) {y : Holder k} {r : Option (Fin k)}
    (hat : At w' p (recorded' p) y r) :
    ∃ holder' releaser', Consistent w' recorded' holder' releaser' := by
  have hself : w'.threads t = x := by rw [hthrs, update_self]
  have hoths : ∀ t', t' ≠ t → w'.threads t' = w.threads t' := fun t' hne => by
    rw [hthrs, update_of_ne hne]
  refine ⟨Function.update holder p y, Function.update releaser p r, fun q => ?_, ?_, fun t' => ?_⟩
  · by_cases hq : q = p
    · subst hq
      rw [update_self, update_self]
      exact hat
    · rw [update_of_ne hq, update_of_ne hq, hrec q hq]
      exact (h.address q).frame (hlive q hq) (hown q hq) hoths (hself.symm ▸ hsame q hq)
  · rw [update_of_ne hp.symm]
    exact h.null
  · by_cases heq : t' = t
    · rw [heq, hself]
      exact hsucc
    · rw [hoths t' heq]
      exact h.succeeding t'

theorem goto (hold : (w.threads t).block = none ∧ (w.threads t).release = none)
    (hnew : x.block = none ∧ x.release = none) (hsucc : x.Succeeding) :
    Consistent (w.goto t x) recorded holder releaser := by
  have hself : (w.goto t x).threads t = x := update_self ..
  have hthrs : ∀ t', t' ≠ t → (w.goto t x).threads t' = w.threads t' := fun t' hne =>
    update_of_ne hne ..
  refine ⟨fun q => (h.address q).frame rfl rfl hthrs ?_, h.null, fun t' => ?_⟩
  · exact .of_block_ne (by simp [hold.1]) (by simp [hnew.1]) (by simp [hold.2, hnew.2])
  · by_cases heq : t' = t
    · rw [heq, hself]
      exact hsucc
    · rw [hthrs t' heq]
      exact h.succeeding t'

theorem take (hidle : w.threads t = .idle) (hp : p ≠ 0) (hown : w.owned p = true)
    (hblk : x.block = some p) (hrel : x.release = none ∨ x.release = some p ∧ x.waits = true)
    (halloc : x.allocation = none) (hunr : x.unrecorded = false)
    (hsucc : x.Succeeding) :
    ∃ holder' releaser', Consistent ((w.hold p false).goto t x) recorded holder' releaser' := by
  have hhold : holder p = .program := (h.address p).owned.mp hown
  have hnone := h.releaser_of_owned hown
  have hrec : recorded p = w.live p := by
    rw [(h.address p).settled hnone, hhold]
    rfl
  have hlive : w.live p ≠ none := mt (h.address p).live.mp (by simp [hhold])
  have hsame : ∀ q, q ≠ p → (w.threads t).SameAt q x := by
    intro q hq
    have hnoRelease : HookState.idle.release = none := rfl
    rw [hidle]
    refine .of_block_ne (by simp [HookState.block]) (by simp [hblk, Ne.symm hq]) ?_
    rcases hrel with hr | ⟨hr, -⟩ <;> simp [hnoRelease, hr, Ne.symm hq]
  refine h.update (t := t) (x := x) (p := p) (y := .thread t)
    (r := if x.release = none then none else some t) (by simp) hsucc hp (by simp)
    (fun q hq => by simp [HookWorld.hold_owned false hp, hq]) (fun _ _ => rfl) hsame ?_
  refine (h.address p).touch (t := t) (fun t' hne => by simp [hne])
    (fun t' hne => by simp [hhold, Ne.symm hne])
    (fun t' hne => by rcases hrel with hr | ⟨hr, -⟩ <;> simp [hnone, hr, Ne.symm hne])
    (by simpa using hlive) (by simp [HookWorld.hold_owned false hp]) (by simp [hblk])
    (by rcases hrel with hr | ⟨hr, -⟩ <;> simp [hr]) (fun a ha => by simp [halloc] at ha)
    (fun _ => by simp [expected, hunr, hrec]) fun t' hr => ?_
  refine ⟨hrec ▸ hlive, by simp, fun _ => ?_⟩
  rcases hrel with hr' | ⟨-, hwaits⟩
  · simp [hr'] at hr
  · simpa using hwaits

/-- Libc hands out a free address. The thread may have a release to report, even of that address. -/
theorem acquire {a : Allocation} (hold : (w.threads t).block = none)
    (hrel : x.release = (w.threads t).release) (halloc : x.allocation = some a)
    (hunr : x.unrecorded = true) (hwaits : x.waits = true) (hsucc : x.Succeeding)
    (hp : a.ptr ≠ 0) (hfree : w.live a.ptr = none) :
    ∃ holder' releaser', Consistent ((w.acquire a.ptr a.byteCount).goto t x) recorded holder'
      releaser' := by
  have hhold : holder a.ptr = .nobody := (h.address _).live.mp hfree
  have hblk := HookState.block_of_allocation halloc hp
  refine h.update (t := t) (x := x) (p := a.ptr) (y := .thread t) (r := releaser a.ptr) (by simp)
    hsucc hp (fun q hq => by simp [HookWorld.acquire_live _ hp, hq]) (by simp)
    (fun _ _ => rfl) (fun q hq => .of_block_ne (by simp [hold]) (by simp [hblk, Ne.symm hq])
      (by rw [hrel])) ?_
  refine (h.address a.ptr).touch (t := t) (fun t' hne => by simp [hne])
    (fun t' hne => by simp [hhold, Ne.symm hne]) (fun _ _ => Iff.rfl)
    (by simp [HookWorld.acquire_live _ hp]) ?_ (by simp [hblk]) ?_ (fun b hb _ => ?_)
    (fun hnone => ?_) fun t' hr => ?_
  · simpa [hhold] using (h.address a.ptr).owned
  · rw [HookWorld.goto_threads, update_self, hrel]
    exact (h.address a.ptr).release t
  · obtain rfl : a = b := by simpa [halloc] using hb
    simp [HookWorld.acquire_live _ hp]
  · rw [(h.address a.ptr).settled hnone, hhold]
    simp [expected, hunr, hfree]
  · obtain ⟨hrec, -, -⟩ := (h.address a.ptr).pending t' hr
    exact ⟨hrec, by simp, fun _ => by simp [hwaits]⟩

/-- A block leaves libc before its release is reported, as in `realloc`, or after it, as in `free`. -/
theorem discard (hp : p ≠ 0) (hblk : (w.threads t).block = some p)
    (hwaits : (w.threads t).waits = false) (hrel : (w.threads t).release = none)
    (hblk' : x.block = none)
    (hrel' : x.release = if (w.threads t).unrecorded then none else some p)
    (hsucc : x.Succeeding) :
    ∃ holder' releaser', Consistent ((w.discard p).goto t x) recorded holder' releaser' := by
  have hhold : holder p = .thread t := ((h.address p).block t).mp hblk
  have hnone := h.releaser_of_block hblk hwaits
  have hrec := (h.address p).settled hnone
  have hlive : w.live p ≠ none := mt (h.address p).live.mp (by simp [hhold])
  rw [hhold] at hrec
  refine h.update (t := t) (x := x) (p := p) (y := .nobody)
    (r := if (w.threads t).unrecorded then none else some t) (by simp) hsucc hp
    (fun q hq => by simp [HookWorld.discard_live hp, hq]) (by simp) (fun _ _ => rfl)
    (fun q hq => .of_block_ne (by simp [hblk, Ne.symm hq]) (by simp [hblk'])
      (by rw [hrel, hrel']; split <;> simp [Ne.symm hq])) ?_
  refine (h.address p).touch (t := t) (fun t' hne => by simp [hne])
    (fun t' hne => by simp [hhold, Ne.symm hne]) (fun t' hne => ?_)
    (by simp [HookWorld.discard_live hp]) ?_ (by simp [hblk']) ?_ (fun a ha hptr => ?_)
    (fun hnone' => ?_) fun t' hr => ⟨?_, by simp, nofun⟩
  · rw [hnone]
    split <;> simp [Ne.symm hne]
  · simpa [hhold] using (h.address p).owned
  · rw [HookWorld.goto_threads, update_self, hrel']
    split <;> simp
  · rw [HookWorld.goto_threads, update_self] at ha
    rw [HookState.block_of_allocation ha (hptr ▸ hp)] at hblk'
    cases hblk'
  · rw [hrec]
    cases hu : (w.threads t).unrecorded with
    | true => simp [expected, hu, HookWorld.discard_live hp]
    | false => simp [hu] at hnone'
  · rw [hrec]
    cases hu : (w.threads t).unrecorded with
    | true => simp [hu] at hr
    | false => simpa [expected, hu] using hlive

/-- **The allocation of a block is reported**, and the program gets the pointer. -/
theorem recordAlloc {a : Allocation} {back : ℕ} (hthr : w.threads t = .recordingAlloc a back)
    (hp : a.ptr ≠ 0) (hordly : ∀ t', (w.threads t').release ≠ some a.ptr) :
    recorded a.ptr = none ∧ ∃ holder' releaser', Consistent ((w.hold back true).goto t .idle)
      (Function.update recorded a.ptr (some a.byteCount.val)) holder' releaser' := by
  have hback : back = a.ptr := by
    have hs := h.succeeding t
    rwa [hthr] at hs
  subst hback
  have hblk : (w.threads t).block = some a.ptr := by
    rw [hthr]
    exact if_neg hp
  have hhold : holder a.ptr = .thread t := ((h.address _).block t).mp hblk
  have hnone : releaser a.ptr = none := by
    cases hr : releaser a.ptr with
    | none => rfl
    | some t' => exact absurd (((h.address _).release t').mpr hr) (hordly t')
  have hlive : w.live a.ptr = some a.byteCount.val :=
    (h.address a.ptr).size t a (by rw [hthr]; rfl) rfl hp
  refine ⟨?_, ?_⟩
  · rw [(h.address _).settled hnone, hhold]
    simp [expected, hthr, HookState.unrecorded]
  refine h.update (t := t) (x := .idle) (p := a.ptr) (y := .program) (r := none) (by simp) trivial hp
    (by simp) (fun q hq => by simp [HookWorld.hold_owned true hp, hq]) (fun q hq => by simp [hq])
    (fun q hq => .of_block_ne (by simp [hblk, Ne.symm hq]) (by simp [HookState.block])
      (by simp [hthr, HookState.release])) ?_
  refine (h.address a.ptr).touch (t := t) (fun t' hne => by simp [hne])
    (fun t' hne => by simp [hhold, Ne.symm hne]) (fun t' _ => by simp [hnone])
    (by simp [hlive]) (by simp [HookWorld.hold_owned true hp]) (by simp [HookState.block])
    (by simp [HookState.release]) (fun b hb => by simp [HookState.allocation] at hb)
    (fun _ => by simp [expected, hlive]) nofun

/-- **A release is reported**. -/
theorem recordFree (hp : p ≠ 0) (hrel : (w.threads t).release = some p)
    (hrel' : x.release = none) (hblk : x.block = (w.threads t).block)
    (halloc : x.allocation = (w.threads t).allocation)
    (hunr : x.block ≠ none → x.unrecorded = true)
    (hkept : x.block ≠ none → x.block ≠ some p →
      x.unrecorded = (w.threads t).unrecorded ∧ x.waits = (w.threads t).waits)
    (hsucc : x.Succeeding) :
    ∃ holder' releaser', Consistent (w.goto t x) (Function.update recorded p none) holder'
      releaser' := by
  have hrelr : releaser p = some t := ((h.address p).release t).mp hrel
  obtain ⟨-, hprog, hwaits⟩ := (h.address p).pending t hrelr
  refine h.update (t := t) (x := x) (p := p) (y := holder p) (r := none) (by simp) hsucc hp
    (by simp) (by simp) (fun q hq => by simp [hq]) (fun q hq => ?_) ?_
  · refine ⟨by rw [hblk], by simp [hrel, hrel', Ne.symm hq], fun _ => halloc,
      fun hb => ?_, fun hb => ?_⟩ <;> rw [← hblk] at hb
    · exact (hkept (by simp [hb]) (by simp [hb, hq])).1
    · exact (hkept (by simp [hb]) (by simp [hb, hq])).2
  · refine
      { live := (h.address p).live, owned := (h.address p).owned, block := fun t' => ?_,
        release := fun t' => ?_, size := fun t' a ha hptr _ => ?_, settled := fun _ => ?_,
        pending := nofun }
    · rw [← (h.address p).block t']
      by_cases heq : t' = t
      · rw [heq, HookWorld.goto_threads, update_self, hblk]
      · rw [HookWorld.goto_threads, update_of_ne heq]
    · refine iff_of_false (fun hr => ?_) (by simp)
      by_cases heq : t' = t
      · rw [heq, HookWorld.goto_threads, update_self, hrel'] at hr
        cases hr
      · rw [HookWorld.goto_threads, update_of_ne heq, (h.address p).release, hrelr] at hr
        exact heq (some.inj hr).symm
    · by_cases heq : t' = t
      · rw [heq, HookWorld.goto_threads, update_self, halloc] at ha
        exact (h.address p).size t a ha hptr hp
      · rw [HookWorld.goto_threads, update_of_ne heq] at ha
        exact (h.address p).size t' a ha hptr hp
    · -- a block that was hand out again meanwhile is not recorded either
      rw [update_self]
      cases hh : holder p with
      | nobody => exact ((h.address p).live.mpr hh).symm
      | program => exact absurd hh hprog
      | thread t' =>
        have hb := ((h.address p).block t').mpr hh
        by_cases heq : t' = t
        · rw [heq, ← hblk] at hb
          simp [expected, heq, hunr (by simp [hb])]
        · have hu : (w.threads t').unrecorded = true := by
            rcases HookState.unrecorded_or_release (hwaits t' hh) hb with hu | hr
            · exact hu
            · rw [(h.address p).release, hrelr] at hr
              exact absurd (some.inj hr).symm heq
          simp [expected, heq, hu]

end

end Consistent

/-! ## What the reports record -/

def Report.size (r : Report) : Option ℕ := r.message.map AllocationMessage.size

/-- The size that is recorded after the reports for one pointer. -/
def recordedSize (rs : List Report) : Option ℕ := rs.getLast?.bind Report.size

/-- Allocations are only reported when nothing is recorded. -/
def Alternates (rs : List Report) : Prop :=
  ∀ l₁ r l₂, rs = l₁ ++ r :: l₂ → r.message ≠ none → recordedSize l₁ = none

@[simp]
theorem recordedSize_snoc (rs : List Report) (r : Report) : recordedSize (rs ++ [r]) = r.size := by
  simp [recordedSize]

variable {rs : List Report} {r : Report}

theorem Alternates.snoc (h : Alternates rs) (hr : r.message ≠ none → recordedSize rs = none) :
    Alternates (rs ++ [r]) := by
  intro l₁ r' l₂ heq hmsg
  cases l₂ using reverseRecOn with
  | nil =>
    obtain ⟨rfl, hrr⟩ := append_inj' heq rfl
    obtain rfl := (cons.inj hrr).1
    exact hr hmsg
  | append_singleton l₂ z =>
    have heq' : rs ++ [r] = (l₁ ++ r' :: l₂) ++ [z] := by simpa using heq
    exact h l₁ r' l₂ (append_inj' heq' rfl).1 hmsg

theorem Alternates.of_snoc (h : Alternates (rs ++ [r])) :
    Alternates rs ∧ (r.message ≠ none → recordedSize rs = none) :=
  ⟨fun l₁ r' l₂ heq => h l₁ r' (l₂ ++ [r]) (by simp [heq]), h rs r [] rfl⟩

theorem recordedSize_of_cancels {sent kept : List Report} (h : Pipeline.Cancels sent kept)
    (halt : Alternates sent) : Alternates kept ∧ recordedSize kept = recordedSize sent := by
  induction h with
  | nil => exact ⟨halt, rfl⟩
  | keep _ ih =>
    obtain ⟨hsent, hlast⟩ := halt.of_snoc
    obtain ⟨hkept, heq⟩ := ih hsent
    exact ⟨hkept.snoc fun hmsg => heq.trans (hlast hmsg), by simp⟩
  | @cancel sent kept a d _ hund ih =>
    obtain ⟨hkept, -⟩ := ih halt.of_snoc.1
    obtain ⟨hkept, hlast⟩ := hkept.of_snoc
    have ha : a.message ≠ none := by
      cases d <;> cases a <;> simp_all [Report.undoes, Report.message]
    have hd : d.size = none := by
      cases d <;> cases a <;> simp_all [Report.undoes, Report.message, Report.size]
    exact ⟨hkept, by rw [hlast ha, recordedSize_snoc, hd]⟩

/-! ## Runs -/

namespace HookWorld

variable {k bits : ℕ}

/-- What is recorded by the steps of the pipeline. -/
def recordedBy (past : List Pipeline.Step) (p : ℕ) : Option ℕ :=
  recordedSize (Pipeline.sent p past)

/-- The world is consistent with the reports that have gone into the pipeline. -/
def Tracking (bits : ℕ) (w : HookWorld k) : Prop :=
  ∃ past holder releaser, Pipeline.Flows bits past w.pipeline ∧
    (∀ p, Alternates (Pipeline.sent p past)) ∧ Consistent w (recordedBy past) holder releaser

variable {past : List Pipeline.Step}

theorem recordedBy_report (hptr : r.ptr ≠ 0) :
    recordedBy (past ++ [.report r]) = update (recordedBy past) r.ptr r.size := by
  funext p
  rw [recordedBy, Pipeline.sent_append_report p past r hptr]
  split_ifs with hp
  · rw [recordedSize_snoc, hp, update_self]
  · rw [append_nil, update_of_ne (Ne.symm hp), recordedBy]

theorem recordedBy_congr {past' : List Pipeline.Step}
    (h : ∀ p, Pipeline.sent p past' = Pipeline.sent p past) : recordedBy past' = recordedBy past :=
  funext fun p => congrArg recordedSize (h p)

theorem recordedBy_of_null {p : ℕ} (hp : p = 0) : recordedBy past p = none := by
  have hsent : Pipeline.sent p past = [] := by
    refine filterMap_eq_nil_iff.mpr fun x _ => ?_
    cases x with
    | report r => exact if_neg fun hr => hr.2 hp
    | consume => rfl
  rw [recordedBy, hsent]
  rfl

theorem Tracking.report {w : HookWorld k} (hflows : Pipeline.Flows bits past w.pipeline)
    (halt : ∀ p, Alternates (Pipeline.sent p past))
    (hfits : w.pipeline.Fits bits (.report r))
    (hnew : r.message ≠ none → recordedBy past r.ptr = none) :
    ∃ pipeline past', w.pipeline.report bits r = some pipeline ∧
      Pipeline.Flows bits past' pipeline ∧ (∀ p, Alternates (Pipeline.sent p past')) ∧
      recordedBy past' =
        if r.ptr = 0 then recordedBy past else update (recordedBy past) r.ptr r.size := by
  obtain ⟨pipeline, hstep, hflows'⟩ := hflows.step hfits
  refine ⟨pipeline, past ++ [.report r], hstep, hflows', ?_⟩
  by_cases hptr : r.ptr = 0
  · have hsent : ∀ p, Pipeline.sent p (past ++ [.report r]) = Pipeline.sent p past := fun p =>
      Pipeline.sent_append_null p past r hptr
    refine ⟨fun p => hsent p ▸ halt p, ?_⟩
    rw [if_pos hptr]
    exact recordedBy_congr hsent
  · refine ⟨fun p => ?_, by rw [if_neg hptr, recordedBy_report hptr]⟩
    rw [Pipeline.sent_append_report p past r hptr]
    split_ifs with hp
    · exact (halt p).snoc fun hmsg => hp ▸ hnew hmsg
    · rw [append_nil]
      exact halt p

section Steps

variable {w : HookWorld k} {t : Fin k} {recorded : ℕ → Option ℕ} {holder : ℕ → Holder k}
  {releaser : ℕ → Option (Fin k)}

/-- **The start of a call.** -/
theorem consistent_start (h : Consistent w recorded holder releaser) {call : HookCall}
    (hidle : w.threads t = .idle) (hown : call.ptr = 0 ∨ w.owned call.ptr = true) :
    ∃ holder' releaser', Consistent ((w.hold call.ptr false).goto t call.enter) recorded holder'
      releaser' := by
  have hthr : (w.threads t).block = none ∧ (w.threads t).release = none := by
    rw [hidle]
    exact ⟨rfl, rfl⟩
  by_cases hp : call.ptr = 0
  · have hhold : w.hold call.ptr false = w := if_pos hp
    rw [hhold]
    refine ⟨holder, releaser, h.goto hthr ?_ ?_⟩
    · cases call <;> simp_all [HookCall.enter, HookCall.ptr, HookState.block, HookState.release,
        nonNull]
    · cases call with
      | malloc site n => exact (Nat.mod_eq_of_lt n.isLt).symm
      | calloc site c n => exact Fin.val_mul c n
      | realloc site ptr n =>
        simp only [HookCall.enter, if_pos (show ptr = 0 from hp)]
        exact (Nat.mod_eq_of_lt n.isLt).symm
      | free ptr => trivial
  · have hown := hown.resolve_left hp
    refine h.take hidle hp hown ?_ ?_ ?_ ?_ ?_ <;> cases call <;>
      simp_all [HookCall.enter, HookCall.ptr, HookState.block, HookState.release, nonNull,
        HookState.Succeeding, HookState.waits, HookState.allocation, HookState.unrecorded]

/-- **The effect in libc.** -/
theorem consistent_libc (h : Consistent w recorded holder releaser) {p : ℕ}
    (halw : w.mayReturn (w.threads t) p = true) (hordly : fails (w.threads t) p = false) :
    ∃ w', w.libc t p = some w' ∧ w'.pipeline = w.pipeline ∧
      ∃ holder' releaser', Consistent w' recorded holder' releaser' := by
  have hsucc := h.succeeding t
  cases hthr : w.threads t with
  | acquiring site requested n =>
    rw [hthr] at halw hsucc
    refine ⟨_, by rw [libc, hthr], by simp, ?_⟩
    by_cases hp : p = 0
    · have hacq : w.acquire p requested = w := if_pos hp
      rw [hacq]
      exact ⟨holder, releaser, h.goto (by rw [hthr]; exact ⟨rfl, rfl⟩) ⟨if_pos hp, rfl⟩ rfl⟩
    · obtain ⟨hfree, hlt⟩ : w.live p = none ∧ requested < 2 ^ 64 := by
        simpa [mayReturn, hp] using halw
      have hreq : requested = n.val :=
        (Nat.mod_eq_of_lt hlt).symm.trans (show n.val = requested % 2 ^ 64 from hsucc).symm
      rw [hreq]
      exact h.acquire (a := ⟨site, p, n⟩) (by rw [hthr]; rfl) (by rw [hthr]; rfl) rfl rfl rfl
        rfl hp hfree
  | reallocating site ptr n =>
    rw [hthr] at halw hordly hsucc
    have hptr : ptr ≠ 0 := hsucc
    have hblk : (w.threads t).block = some ptr := by
      rw [hthr]
      exact if_neg hptr
    -- the old block goes first, and its release is pending from then on
    have hrel : (HookState.recordingFree ptr none).release =
        if (w.threads t).unrecorded then none else some ptr := by
      rw [hthr]
      exact if_neg hptr
    obtain ⟨holder₁, releaser₁, h₁⟩ := h.discard (x := .recordingFree ptr none) hptr hblk
      (by rw [hthr]; rfl) (by rw [hthr]; rfl) rfl hrel hptr
    by_cases hn : n = 0
    · exact ⟨_, by rw [libc, hthr]; exact if_pos hn, by simp, holder₁, releaser₁, h₁⟩
    · have hp : p ≠ 0 := by simpa [fails, hn] using hordly
      have hmay : p = ptr ∨ w.live p = none := by simpa [mayReturn, hn, hp] using halw
      refine ⟨((w.discard ptr).acquire p n).goto t (.recordingFree ptr (some ⟨site, p, n⟩)),
        by rw [libc, hthr]; simp only [if_neg hn, if_neg hp], by simp, ?_⟩
      rw [← goto_acquire_goto t _ _ (.recordingFree ptr none)]
      have hself : ((w.discard ptr).goto t (.recordingFree ptr none)).threads t = _ := update_self ..
      refine h₁.acquire (x := .recordingFree ptr (some ⟨site, p, n⟩)) (a := ⟨site, p, n⟩)
        (by rw [hself]; rfl) (by rw [hself]; rfl) rfl rfl rfl ⟨hptr, hp⟩ hp ?_
      · rw [goto_live, discard_live hptr]
        by_cases heq : p = ptr
        · rw [heq, update_self]
        · rw [update_of_ne heq]
          exact hmay.resolve_left heq
  | libcFreeing ptr =>
    refine ⟨_, by rw [libc, hthr], by simp, ?_⟩
    by_cases hptr : ptr = 0
    · have hdisc : w.discard ptr = w := if_pos hptr
      rw [hdisc]
      exact ⟨holder, releaser, h.goto (by rw [hthr]; exact ⟨if_pos hptr, rfl⟩) ⟨rfl, rfl⟩ trivial⟩
    · exact h.discard hptr (by rw [hthr]; exact if_neg hptr) (by rw [hthr]; rfl)
        (by rw [hthr]; rfl) rfl (by rw [hthr]; rfl) trivial
  | idle | recordingFree ptr next | recordingAlloc a back | freeing ptr =>
    rw [hthr] at halw
    cases halw

/-- **A report**, seen by the threads: what is recorded of the pointer afterwards. -/
theorem consistent_afterReport (h : Consistent w recorded holder releaser)
    (hnull : recorded 0 = none) (hr : (w.threads t).report = some r) (hordly : w.Orderly (.record t)) :
    (r.message ≠ none → recorded r.ptr = none) ∧
    ∃ holder' releaser', Consistent (afterReport w t)
      (if r.ptr = 0 then recorded else update recorded r.ptr r.size) holder' releaser' := by
  have hsucc := h.succeeding t
  cases hthr : w.threads t with
  | recordingFree ptr next =>
    obtain rfl : Report.freeMemory ptr = r := by simpa [hthr, HookState.report] using hr
    rw [hthr] at hsucc
    have hptr : ptr ≠ 0 := by
      cases next with
      | none => exact hsucc
      | some a => exact hsucc.1
    have hrel : (w.threads t).release = some ptr := by
      rw [hthr]
      exact if_neg hptr
    rw [if_neg (show (Report.freeMemory ptr).ptr ≠ 0 from hptr)]
    refine ⟨fun hmsg => absurd rfl hmsg, ?_⟩
    cases next with
    | none =>
      simp only [afterReport, hthr]
      exact h.recordFree (x := .idle) hptr hrel rfl (by rw [hthr]; rfl) (by rw [hthr]; rfl)
        (fun hb => absurd rfl hb) (fun hb => absurd rfl hb) trivial
    | some a =>
      simp only [afterReport, hthr, if_neg hsucc.2]
      exact h.recordFree (x := .recordingAlloc a a.ptr) hptr hrel rfl (by rw [hthr]; rfl)
        (by rw [hthr]; rfl) (fun _ => rfl) (fun _ _ => by rw [hthr]; exact ⟨rfl, rfl⟩) rfl
  | recordingAlloc a back =>
    obtain rfl : Report.allocMemory a.message = r := by simpa [hthr, HookState.report] using hr
    simp only [afterReport, hthr]
    by_cases hptr : a.ptr = 0
    · -- nothing was allocated, and nothing is recorded
      rw [hthr] at hsucc
      rw [if_pos (show (Report.allocMemory a.message).ptr = 0 from hptr), hold,
        if_pos (hsucc.trans hptr)]
      exact ⟨fun _ => (congrArg recorded hptr).trans hnull, holder, releaser,
        h.goto (by rw [hthr]; exact ⟨if_pos hptr, rfl⟩) ⟨rfl, rfl⟩ trivial⟩
    · have hacq : (w.threads t).acquired = some a.ptr := by
        rw [hthr]
        exact if_neg hptr
      have hrel : ∀ t', (w.threads t').release ≠ some a.ptr := fun t' => by
        have ht' := hordly t'
        rw [hacq] at ht'
        exact ht'.resolve_left (by simp)
      rw [if_neg (show (Report.allocMemory a.message).ptr ≠ 0 from hptr)]
      exact (h.recordAlloc hthr hptr hrel).imp_left fun hnone _ => hnone
  | freeing ptr =>
    obtain rfl : Report.freeMemory ptr = r := by simpa [hthr, HookState.report] using hr
    simp only [afterReport, hthr]
    refine ⟨fun hmsg => absurd rfl hmsg, ?_⟩
    by_cases hptr : ptr = 0
    · rw [if_pos (show (Report.freeMemory ptr).ptr = 0 from hptr)]
      exact ⟨holder, releaser, h.goto (by rw [hthr]; exact ⟨if_pos hptr, if_pos hptr⟩)
        ⟨if_pos hptr, rfl⟩ trivial⟩
    · rw [if_neg (show (Report.freeMemory ptr).ptr ≠ 0 from hptr)]
      have hblk : (HookState.libcFreeing ptr).block = some ptr := if_neg hptr
      exact h.recordFree (x := .libcFreeing ptr) hptr (by rw [hthr]; exact if_neg hptr) rfl
        (by rw [hthr]; rfl) (by rw [hthr]; rfl) (fun _ => rfl) (fun _ hne => absurd hblk hne) trivial
  | idle | acquiring | reallocating | libcFreeing =>
    rw [hthr] at hr
    cases hr

/-- **A report** goes into the pipeline. -/
theorem consistent_record (h : Consistent w (recordedBy past) holder releaser)
    (hflows : Pipeline.Flows bits past w.pipeline)
    (halt : ∀ p, Alternates (Pipeline.sent p past)) (hr : (w.threads t).report = some r)
    (hfits : w.pipeline.Fits bits (.report r)) (hordly : w.Orderly (.record t)) :
    ∃ pipeline, w.pipeline.report bits r = some pipeline ∧
      Tracking bits (afterReport { w with pipeline := pipeline } t) := by
  have hnull : recordedBy past 0 = none := recordedBy_of_null rfl
  obtain ⟨pipeline, past', hrep, hflows', halt', hrec⟩ :=
    Tracking.report hflows halt hfits (consistent_afterReport h hnull hr hordly).1
  obtain ⟨holder', releaser', hcons⟩ :=
    (consistent_afterReport (h.withPipeline pipeline) hnull hr hordly).2
  refine ⟨pipeline, hrep, past', holder', releaser', ?_, halt', hrec ▸ hcons⟩
  have hpip : (afterReport { w with pipeline := pipeline } t).pipeline = pipeline := by
    unfold afterReport
    split <;> simp
  rwa [hpip]

end Steps

/-- **One step** that is allowed, fits and is orderly. -/
theorem Tracking.step {w : HookWorld k} (h : Tracking bits w) {e : HookEvent k}
    (halw : w.Allowed e) (hfits : w.Fits bits e) (hordly : w.Orderly e) :
    ∃ w', w.step bits e = some w' ∧ Tracking bits w' := by
  obtain ⟨past, holder, releaser, hflows, halt, hcons⟩ := h
  cases e with
  | start t call =>
    obtain ⟨holder', releaser', hcons'⟩ := consistent_start hcons halw.1 halw.2
    refine ⟨_, if_pos halw.1, past, holder', releaser', ?_, halt, hcons'⟩
    simpa using hflows
  | libc t p =>
    obtain ⟨w', hlibc, hpip, holder', releaser', hcons'⟩ :=
      consistent_libc hcons halw hordly
    exact ⟨w', hlibc, past, holder', releaser', hpip ▸ hflows, halt, hcons'⟩
  | record t =>
    obtain ⟨r, hr⟩ := ne_none_iff_exists'.mp halw
    obtain ⟨pipeline, hrep, htrkg⟩ :=
      consistent_record hcons hflows halt hr (hfits r hr) hordly
    exact ⟨_, by simp [HookWorld.step, hr, hrep], htrkg⟩
  | consume =>
    obtain ⟨pipeline, hconsu, hflows'⟩ := hflows.step (x := .consume) trivial
    have hsent : ∀ p, Pipeline.sent p (past ++ [.consume]) = Pipeline.sent p past := fun p =>
      Pipeline.sent_append_consume p past
    refine ⟨{ w with pipeline := pipeline }, ?_, past ++ [.consume], holder, releaser, hflows',
      fun p => hsent p ▸ halt p, ?_⟩
    · simp [HookWorld.step, show w.pipeline.consume = some pipeline from hconsu]
    · rw [recordedBy_congr hsent]
      exact hcons.withPipeline pipeline

/-- When all calls have returned and all messages are processed, what has been applied records the
live blocks. -/
theorem Tracking.recorded_eq_live {w : HookWorld k} (h : Tracking bits w) (hcompl : w.Completed)
    (hdrai : w.Drained) (p : ℕ) :
    recordedSize (w.pipeline.applied.filter (·.ptr = p)) = w.live p := by
  obtain ⟨past, holder, releaser, ⟨pending, taken, htrks, hcanc⟩, halt, hcons⟩ := h
  obtain rfl : taken = [] := some.inj (htrks.taken_eq.symm.trans hdrai.1)
  have hpend : pending (memoryPtrHash p) = [] :=
    some.inj ((htrks.pending_eq _).symm.trans (hdrai.2 _))
  have hkept := hcanc p
  rw [hpend, append_nil, append_nil] at hkept
  rw [(recordedSize_of_cancels hkept (halt p)).2]
  -- no thread is responsible for a block or a release
  have hrelr : releaser p = none := by
    cases hr : releaser p with
    | none => rfl
    | some t =>
      have hrel := ((hcons.address p).release t).mpr hr
      rw [hcompl t] at hrel
      cases hrel
  refine ((hcons.address p).settled hrelr).trans ?_
  cases hh : holder p with
  | nobody | program => rfl
  | thread t =>
    have hblk := ((hcons.address p).block t).mpr hh
    rw [hcompl t] at hblk
    cases hblk

end HookWorld

/-! ## The meta container -/

/-- A report as `process_routine` applies it, with the block that `calloc` delivers. -/
def Report.update (block : Option ℕ) : Report → MetaContainer.Update
  | .allocMemory msg | .reallocMemory msg => .allocation msg false block
  | .mmapMemory msg => .allocation msg true block
  | .freeMemory ptr | .munmapMemory ptr => .deletion ptr

def UpdatesOf (rs : List Report) (us : List MetaContainer.Update) : Prop :=
  List.Forall₂ (fun r u => ∃ block, u = r.update block) rs us

theorem note_update (known : ℕ → Option AllocationMessage) (r : Report) (block : Option ℕ) :
    MetaContainer.note known (r.update block) = update known r.ptr r.message := by
  cases r <;> rfl

/-- What is known of a pointer is what its last report says. -/
theorem foldl_note {us : List MetaContainer.Update} (h : UpdatesOf rs us)
    (known : ℕ → Option AllocationMessage) (p : ℕ) :
    us.foldl MetaContainer.note known p =
      ((rs.filter (·.ptr = p)).getLast?.map Report.message).getD (known p) := by
  induction h generalizing known with
  | nil => rfl
  | @cons r u rs us hru _ ih =>
    obtain ⟨block, rfl⟩ := hru
    rw [foldl_cons, note_update, ih]
    by_cases hp : r.ptr = p
    · rw [hp, update_self, filter_cons_of_pos (by simpa using hp), getLast?_cons]
      cases (rs.filter (·.ptr = p)).getLast? <;> rfl
    · rw [update_of_ne (Ne.symm hp), filter_cons_of_neg (by simpa using hp)]

theorem latest_eq_recordedSize {us : List MetaContainer.Update} (h : UpdatesOf rs us) (p : ℕ) :
    (MetaContainer.latest us p).map AllocationMessage.size =
      recordedSize (rs.filter (·.ptr = p)) := by
  rw [MetaContainer.latest, foldl_note h, recordedSize]
  cases (rs.filter (·.ptr = p)).getLast? <;> rfl

namespace HookWorld

/-- **Live-set tracking**: in a run in which no `realloc` of a block fails and no allocation is reported
while the release of the same address is still to be reported, the meta container tracks exactly the
live allocations, with their requested sizes, once all calls have returned and all messages are
processed. -/
theorem tracked_eq_live {k : ℕ} (bits : ℕ) (env : MetaEnv) (henv : env.Ample)
    (es : List (HookEvent k))
    (hmeets : TryMeets (step bits) (fun w e => w.Allowed e ∧ w.Fits bits e ∧ w.Orderly e) init es) :
    ∃ w c₀, tryRun (step bits) init es = some w ∧ MetaContainer.init env = some c₀ ∧
      (w.Completed → w.Drained → ∀ us, UpdatesOf w.pipeline.applied us →
        TryMeets (fun c u => MetaContainer.apply c env u) (MetaContainer.Ready · env) c₀ us →
        ∃ c l, c₀.applyAll env us = some c ∧ c.tracked = some l ∧
          ∀ p n, (∃ t, (p, t) ∈ l ∧ t.size = n) ↔ w.live p = some n) := by
  have hstart : Tracking bits (init : HookWorld k) :=
    ⟨[], _, _, ⟨_, _, Tracks.init, fun _ => .nil⟩,
      fun _ l₁ r l₂ heq => by simp [Pipeline.sent] at heq, Consistent.init⟩
  obtain ⟨w, hrun, htrkg⟩ := @tryRun_of_invariant _ _ (step bits) _
    (fun _ w => Tracking bits w) (fun _ w e hinv hcond => hinv.step hcond.1 hcond.2.1 hcond.2.2) []
    es init hstart hmeets
  obtain ⟨c₀, hinit, happl⟩ := MetaContainer.attributed_applyAll henv
  refine ⟨w, c₀, hrun, hinit, fun hcompl hdrai us hus hready => ?_⟩
  obtain ⟨c, happ, b, hrep, -, hrec⟩ := happl us hready
  refine ⟨c, _, happ, hrep.ptrs.enumerate, fun p n => ?_⟩
  have hlive := htrkg.recorded_eq_live hcompl hdrai p
  rw [← latest_eq_recordedSize hus p, ← hrec p] at hlive
  rw [← hlive, map_eq_some_iff]
  simp

def someSite : Site := ⟨40, []⟩

local instance : NeZero (2 ^ 64) := inferInstance

/-- One thread moves a block with `realloc` while another one frees its block. -/
def reallocAndFree : List (HookEvent 2) :=
  [.start 0 (.malloc someSite 16), .libc 0 256, .record 0,
    .start 1 (.calloc someSite 2 8), .libc 1 512, .record 1,
    .start 0 (.realloc someSite 256 32), .libc 0 768, .start 1 (.free 512), .record 1, .record 0,
    .record 0, .libc 1 0] ++ List.replicate 10 .consume

def updatesWithBlocks (rs : List Report) : List MetaContainer.Update :=
  rs.map fun r => r.update (some (4096 + r.ptr))

theorem updatesOf_updatesWithBlocks (rs : List Report) : UpdatesOf rs (updatesWithBlocks rs) :=
  forall₂_map_right_iff.mpr (forall₂_same.mpr fun _ _ => ⟨_, rfl⟩)

theorem reallocAndFree_runs : (tryRun (step 56) init reallocAndFree).isSome := by decide +kernel

theorem tracked_eq_live_reallocAndFree :
    ∃ w c l, tryRun (step 56) init reallocAndFree = some w ∧ w.Completed ∧ w.Drained ∧
      MetaContainer.applyFresh MetaContainer.collidingEnv (updatesWithBlocks w.pipeline.applied) =
        some c ∧ c.tracked = some l ∧
      ∀ p n, (∃ t, (p, t) ∈ l ∧ t.size = n) ↔ w.live p = some n := by
  obtain ⟨w, c₀, hrun, hinit, htrk⟩ := tracked_eq_live 56 MetaContainer.collidingEnv
    MetaContainer.collidingEnv_ample reallocAndFree (by decide +kernel)
  obtain rfl : (tryRun (step 56) init reallocAndFree).get reallocAndFree_runs = w := by
    simp [hrun]
  obtain rfl : (MetaContainer.init MetaContainer.collidingEnv).get rfl = c₀ := by
    simp [hinit]
  have hcompl : ((tryRun (step 56) init reallocAndFree).get reallocAndFree_runs).Completed := by
    decide +kernel
  have hdrai : ((tryRun (step 56) init reallocAndFree).get reallocAndFree_runs).Drained := by
    decide +kernel
  obtain ⟨c, l, happ, hl, hlive⟩ := htrk hcompl hdrai _
    (updatesOf_updatesWithBlocks _) (by decide +kernel)
  refine ⟨_, c, l, hrun, hcompl, hdrai, ?_, hl, hlive⟩
  exact happ

/-- A `realloc` that finds no memory. -/
def failedRealloc : List (HookEvent 2) :=
  [.start 0 (.malloc someSite 16), .libc 0 256, .record 0, .start 0 (.realloc someSite 256 32),
    .libc 0 0, .record 0, .record 0] ++ List.replicate 10 .consume

/-- A `malloc` that gets, and reports, the address which a `realloc` has just given up. -/
def reusedAddress : List (HookEvent 2) :=
  [.start 0 (.malloc someSite 16), .libc 0 256, .record 0, .start 0 (.realloc someSite 256 32),
    .libc 0 768, .start 1 (.malloc someSite 24), .libc 1 256, .record 1, .record 0, .record 0] ++
    List.replicate 10 .consume

/-- What a run leaves: whether it has completed and is drained, the block at an address, and the
tracked pointers with their sizes. -/
def outcome (es : List (HookEvent 2)) (p : ℕ) :
    Option (Bool × Bool × Option ℕ × List (ℕ × ℕ)) := do
  let w ← tryRun (step 56) init es
  let c ← MetaContainer.applyFresh MetaContainer.collidingEnv (updatesWithBlocks w.pipeline.applied)
  let l ← c.tracked
  return (w.Completed, w.Drained, w.live p, l.map fun x => (x.1, x.2.size))

/-- At the end of the first run the block at 256 is live and not tracked; at the end of the second it
is tracked with the size of the block that was there before. -/
theorem outcome_misses_live :
    TryMeets (step 56) (fun w e => w.Allowed e ∧ w.Fits 56 e) init failedRealloc ∧
      outcome failedRealloc 256 = some (true, true, some 16, []) ∧
      TryMeets (step 56) (fun w e => w.Allowed e ∧ w.Fits 56 e) init reusedAddress ∧
      outcome reusedAddress 256 = some (true, true, some 24, [(256, 16), (768, 32)]) := by
  refine ⟨?_, ?_, ?_, ?_⟩ <;> decide +kernel

end HookWorld

end TraceHarbor.Hooks
