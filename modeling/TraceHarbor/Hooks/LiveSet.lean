import TraceHarbor.Hooks.MessagePipeline

/-!
# The Hooked Allocation Functions

Any number of threads call `malloc`, `calloc`, `realloc` and `free` through the hooks. A call is a
sequence of atomic steps: the effect in libc, and each report to the message pipeline; only `free`
reports before the effect. The program may pass a pointer to `realloc` or `free` once some call has
returned it and no other call has taken it since. Libc hands out addresses that are free.
-/

namespace TraceHarbor.Hooks

open Lib

/-! ## Calls -/

/-- What a report says about the place of the call. -/
structure Site where
  caller : ℕ
  backtrace : Backtrace
  deriving DecidableEq

/-- What `on_alloc_memory` is called with. -/
structure Allocation where
  site : Site
  ptr : ℕ
  byteCount : Fin (2 ^ 64)
  deriving DecidableEq

def Allocation.message (a : Allocation) : AllocationMessage :=
  ⟨a.ptr, a.site.caller, a.byteCount, a.site.backtrace, a.byteCount.isLt⟩

inductive HookCall where
  | malloc (site : Site) (byteCount : Fin (2 ^ 64))
  | calloc (site : Site) (itemCount itemSize : Fin (2 ^ 64))
  | realloc (site : Site) (ptr : ℕ) (byteCount : Fin (2 ^ 64))
  | free (ptr : ℕ)

/-- The pointer that a call takes from the program. -/
def HookCall.ptr : HookCall → ℕ
  | .malloc _ _ | .calloc _ _ _ => 0
  | .realloc _ ptr _ | .free ptr => ptr

/-- Where a thread is in a hook: before the effect in libc or before a report. `back` is the pointer
that the program holds after the call. -/
inductive HookState where
  | idle
  | acquiring (site : Site) (requested : ℕ) (byteCount : Fin (2 ^ 64))
  | reallocating (site : Site) (ptr : ℕ) (byteCount : Fin (2 ^ 64))
  | recordingFree (ptr : ℕ) (next : Option Allocation)
  | recordingAlloc (a : Allocation) (back : ℕ)
  | freeing (ptr : ℕ)
  | libcFreeing (ptr : ℕ)
  deriving DecidableEq

/-- The start of a hook. `calloc` reports a product of `size_t`; `realloc` of the null pointer is a
`malloc`. -/
def HookCall.enter : HookCall → HookState
  | .malloc site byteCount => .acquiring site byteCount byteCount
  | .calloc site itemCount itemSize =>
    .acquiring site (itemCount.val * itemSize.val) (itemCount * itemSize)
  | .realloc site ptr byteCount =>
    if ptr = 0 then .acquiring site byteCount byteCount else .reallocating site ptr byteCount
  | .free ptr => .freeing ptr

/-! ## The world of the hooks -/

/-- The blocks of libc with their requested sizes, the pointers that the program holds, `k` threads,
and the message pipeline. -/
structure HookWorld (k : ℕ) where
  live : ℕ → Option ℕ
  owned : ℕ → Bool
  threads : Fin k → HookState
  pipeline : Pipeline

/-- A step of a thread, with what libc returns, or of the consumer. -/
inductive HookEvent (k : ℕ) where
  | start (t : Fin k) (call : HookCall)
  | libc (t : Fin k) (result : ℕ)
  | record (t : Fin k)
  | consume

def nonNull (ptr : ℕ) : Option ℕ := if ptr = 0 then none else some ptr

def HookState.report : HookState → Option Report
  | .recordingFree ptr _ | .freeing ptr => some (.freeMemory ptr)
  | .recordingAlloc a _ => some (.allocMemory a.message)
  | _ => none

/-- The pointer whose release a thread is about to report. -/
def HookState.release : HookState → Option ℕ
  | .recordingFree ptr _ | .freeing ptr => nonNull ptr
  | _ => none

/-- The pointer whose allocation a thread is about to report. -/
def HookState.acquired : HookState → Option ℕ
  | .recordingAlloc a _ => nonNull a.ptr
  | _ => none

namespace HookWorld

variable {k : ℕ}

def init : HookWorld k := ⟨fun _ => none, fun _ => false, fun _ => .idle, .init⟩

variable (bits : ℕ) (w : HookWorld k)

def goto (t : Fin k) (x : HookState) : HookWorld k :=
  { w with threads := Function.update w.threads t x }

/-- A block appears in libc, unless the address is null. -/
def acquire (p requested : ℕ) : HookWorld k :=
  if p = 0 then w else { w with live := Function.update w.live p (some requested) }

/-- A block disappears from libc, unless the address is null. -/
def discard (p : ℕ) : HookWorld k :=
  if p = 0 then w else { w with live := Function.update w.live p none }

/-- The program gets or gives up a pointer, unless it is null. -/
def hold (p : ℕ) (held : Bool) : HookWorld k :=
  if p = 0 then w else { w with owned := Function.update w.owned p held }

section Fields

variable {w} {p : ℕ} (t : Fin k) (x : HookState) (n : ℕ) (held : Bool)

@[simp] theorem goto_live : (w.goto t x).live = w.live := rfl

@[simp] theorem goto_owned : (w.goto t x).owned = w.owned := rfl

@[simp] theorem goto_threads : (w.goto t x).threads = Function.update w.threads t x := rfl

@[simp] theorem goto_pipeline : (w.goto t x).pipeline = w.pipeline := rfl

@[simp] theorem acquire_pipeline : (w.acquire p n).pipeline = w.pipeline := by
  unfold acquire; split <;> rfl

@[simp] theorem discard_pipeline : (w.discard p).pipeline = w.pipeline := by
  unfold discard; split <;> rfl

@[simp] theorem hold_pipeline : (w.hold p held).pipeline = w.pipeline := by
  unfold hold; split <;> rfl

theorem goto_acquire_goto (y : HookState) :
    ((w.goto t y).acquire p n).goto t x = (w.acquire p n).goto t x := by
  unfold acquire; split <;> simp [goto]

@[simp] theorem acquire_owned : (w.acquire p n).owned = w.owned := by
  unfold acquire; split <;> rfl

@[simp] theorem acquire_threads : (w.acquire p n).threads = w.threads := by
  unfold acquire; split <;> rfl

@[simp] theorem discard_owned : (w.discard p).owned = w.owned := by
  unfold discard; split <;> rfl

@[simp] theorem discard_threads : (w.discard p).threads = w.threads := by
  unfold discard; split <;> rfl

@[simp] theorem hold_live : (w.hold p held).live = w.live := by
  unfold hold; split <;> rfl

@[simp] theorem hold_threads : (w.hold p held).threads = w.threads := by
  unfold hold; split <;> rfl

theorem acquire_live (hp : p ≠ 0) : (w.acquire p n).live = Function.update w.live p (some n) := by
  rw [acquire, if_neg hp]

theorem discard_live (hp : p ≠ 0) : (w.discard p).live = Function.update w.live p none := by
  rw [discard, if_neg hp]

theorem hold_owned (hp : p ≠ 0) : (w.hold p held).owned = Function.update w.owned p held := by
  rw [hold, if_neg hp]

end Fields

def libc (t : Fin k) (p : ℕ) : Option (HookWorld k) :=
  match w.threads t with
  | .acquiring site requested byteCount =>
    some ((w.acquire p requested).goto t (.recordingAlloc ⟨site, p, byteCount⟩ p))
  | .reallocating site ptr byteCount =>
    if byteCount = 0 then some ((w.discard ptr).goto t (.recordingFree ptr none))
    else if p = 0 then some (w.goto t (.recordingFree ptr (some ⟨site, 0, byteCount⟩)))
    else
      some (((w.discard ptr).acquire p byteCount).goto t
        (.recordingFree ptr (some ⟨site, p, byteCount⟩)))
  | .libcFreeing ptr => some ((w.discard ptr).goto t .idle)
  | _ => none

/-- What follows a report. A `realloc` that failed leaves the program with the old pointer. -/
def afterReport (t : Fin k) : HookWorld k :=
  match w.threads t with
  | .recordingFree _ none => w.goto t .idle
  | .recordingFree ptr (some a) => w.goto t (.recordingAlloc a (if a.ptr = 0 then ptr else a.ptr))
  | .recordingAlloc _ back => (w.hold back true).goto t .idle
  | .freeing ptr => w.goto t (.libcFreeing ptr)
  | _ => w

def step : HookEvent k → Option (HookWorld k)
  | .start t call =>
    if w.threads t = .idle then some ((w.hold call.ptr false).goto t call.enter) else none
  | .libc t p => w.libc t p
  | .record t => do
    let r ← (w.threads t).report
    let pipeline ← w.pipeline.report bits r
    return afterReport { w with pipeline := pipeline } t
  | .consume => do
    let pipeline ← w.pipeline.consume
    return { w with pipeline := pipeline }

/-! ## Runs -/

/-- What libc may return. -/
def mayReturn (x : HookState) (p : ℕ) : Bool :=
  match x with
  | .acquiring _ requested _ => p = 0 || w.live p = none && requested < 2 ^ 64
  | .reallocating _ ptr byteCount =>
    if byteCount = 0 then p = 0 else p = 0 || p = ptr || w.live p = none
  | .libcFreeing _ => true
  | _ => false

def Allowed : HookEvent k → Prop
  | .start t call => w.threads t = .idle ∧ (call.ptr = 0 ∨ w.owned call.ptr = true)
  | .libc t p => w.mayReturn (w.threads t) p = true
  | .record t => (w.threads t).report ≠ none
  | .consume => True

/-- What is reported fits a message. -/
def Fits : HookEvent k → Prop
  | .record t => ∀ r ∈ (w.threads t).report, w.pipeline.Fits bits (.report r)
  | _ => True

/-- A `realloc` of a block that returns null has failed. -/
def fails (x : HookState) (p : ℕ) : Bool :=
  match x with
  | .reallocating _ _ byteCount => byteCount ≠ 0 && p = 0
  | _ => false

/-- No `realloc` of a block fails, and no allocation is reported while the release of the same
address is still to be reported. -/
def Orderly : HookEvent k → Prop
  | .libc t p => fails (w.threads t) p = false
  | .record t =>
    ∀ t', (w.threads t).acquired = none ∨ (w.threads t').release ≠ (w.threads t).acquired
  | _ => True

def Completed : Prop := ∀ t, w.threads t = .idle

def Drained : Prop :=
  w.pipeline.taken = some [] ∧ ∀ slot, w.pipeline.pending slot = some []

instance : Decidable w.Completed := inferInstanceAs (Decidable (∀ t, w.threads t = .idle))

instance : Decidable w.Drained :=
  inferInstanceAs (Decidable (w.pipeline.taken = some [] ∧ ∀ slot, w.pipeline.pending slot = some []))

instance (e : HookEvent k) : Decidable (w.Allowed e) :=
  match e with
  | .start _ _ => inferInstanceAs (Decidable (_ ∧ _))
  | .libc _ _ => inferInstanceAs (Decidable (_ = true))
  | .record t => inferInstanceAs (Decidable ((w.threads t).report ≠ none))
  | .consume => isTrue trivial

instance (e : HookEvent k) : Decidable (w.Fits bits e) :=
  match e with
  | .record t =>
    show Decidable (∀ r ∈ (w.threads t).report, w.pipeline.Fits bits (.report r)) from
      match (w.threads t).report with
      | none => isTrue (by simp)
      | some r => decidable_of_iff (w.pipeline.Fits bits (.report r)) (by simp)
  | .start _ _ | .libc _ _ | .consume => isTrue trivial

instance (e : HookEvent k) : Decidable (w.Orderly e) :=
  match e with
  | .libc _ _ => inferInstanceAs (Decidable (_ = false))
  | .record t => inferInstanceAs (Decidable (∀ t', (w.threads t).acquired = none ∨
      (w.threads t').release ≠ (w.threads t).acquired))
  | .start _ _ | .consume => isTrue trivial

end HookWorld

end TraceHarbor.Hooks
