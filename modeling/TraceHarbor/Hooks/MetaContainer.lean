import TraceHarbor.Hooks.SplayMapRefines
import TraceHarbor.Lib.Chain
import TraceHarbor.Lib.Run

/-!
# The Meta Container of the Memory Hook

`memory_meta_container` keeps a `ptr_meta_t` for every live allocation and a `stack_meta_t` for every
allocating call stack. Stacks with one hash form a chain that starts at the entry of the map and goes on,
through `ext`, in blocks from `calloc`. An entry whose size drops to zero is dropped: unlinked and freed
in the chain, removed from the map at its head, or only blanked there while the chain goes on.

Both tables have one slot, so the slot hashes are zero. An operation is `none` when a `CRITICAL_CHECK`
fails or memory is touched that is not allocated.
-/

namespace TraceHarbor.Hooks

open Lib

/-! ## Data -/

/-- A frame of a call stack: an 8-bit attribute and the program counter. -/
structure Frame where
  attr : ℕ
  pc : ℕ
  deriving DecidableEq

/-- `memory_backtrace_t`: the first `frame_size` frames. -/
abbrev Backtrace := List Frame

/-- `allocation_message_t`; the size is a `size_t`. -/
structure AllocationMessage where
  ptr : ℕ
  caller : ℕ
  size : ℕ
  backtrace : Backtrace
  size_lt : size < 2 ^ 64
  deriving DecidableEq

/-- `ptr_meta_t`; `link` is the union of `caller`, `stack_idx` and `ext_stack_ptr`. -/
structure PtrMeta where
  ptr : ℕ
  size : ℕ
  stackHash : ℕ
  link : ℕ
  isStackIdx : Bool
  isMmap : Bool
  deriving DecidableEq, Inhabited

structure StackEntry where
  size : ℕ
  caller : ℕ
  backtrace : Backtrace
  deriving DecidableEq, Inhabited

/-- `stack_meta_t`: an entry and the address of the next one in the chain. -/
structure StackMeta extends StackEntry where
  ext : Option ℕ
  deriving DecidableEq, Inhabited

/-- The initialiser `{0}`. -/
def PtrMeta.zero : PtrMeta := ⟨0, 0, 0, 0, false, false⟩

/-- The entry of the initialiser `{0}`, to which an entry at the head of a chain is also reset. -/
def StackEntry.blank : StackEntry := ⟨0, 0, []⟩

/-- The initialiser `{0}`. -/
def StackMeta.zero : StackMeta := ⟨.blank, none⟩

/-- Where a stack entry lives: at an index of the map, or in a block of its own. -/
inductive StackRef where
  | top (idx : ℕ)
  | ext (addr : ℕ)
  deriving DecidableEq

/-- Where a tracked pointer finds its stack entry. -/
def PtrMeta.home (t : PtrMeta) : StackRef := if t.isStackIdx then .top t.link else .ext t.link

/-- The assignments to `stack_hash`, `is_stack_idx` and `stack_idx` or `ext_stack_ptr`. -/
def PtrMeta.linked (hash : ℕ) : StackRef → PtrMeta
  | .top idx => { PtrMeta.zero with stackHash := hash, link := idx, isStackIdx := true }
  | .ext addr => { PtrMeta.zero with stackHash := hash, link := addr, isStackIdx := false }

/-- `stacktrace_compare_common`: the attributes are not compared. -/
def stacktraceCompareCommon (a b : Backtrace) : Bool := a.map Frame.pc = b.map Frame.pc

def AllocationMessage.sameStack (msg : AllocationMessage) (e : StackEntry) : Bool :=
  msg.caller = e.caller ∧ stacktraceCompareCommon msg.backtrace e.backtrace

/-! ## The container -/

/-- The two maps, and the blocks that `calloc` has delivered and `free` has not taken back. -/
structure MetaContainer where
  ptrMetas : SplayMap ℕ PtrMeta
  stackMetas : SplayMap ℕ StackMeta
  heap : OrdMap ℕ StackMeta

/-- The two maps' memory, and `hash_frames`. -/
structure MetaEnv where
  ptrMemory : Platform
  stackMemory : Platform
  hashFrames : Backtrace → ℕ

def SplayMap.get {κ V : Type} (s : SplayMap κ V) (ptr : ℕ) : Option V :=
  if ptr < s.valBound then some (s.vBuff ptr) else none

/-- Assignment to `get(ptr)`. -/
def SplayMap.set {κ V : Type} (s : SplayMap κ V) (ptr : ℕ) (val : V) : SplayMap κ V :=
  { s with vBuff := Function.update s.vBuff ptr val }

/-- An insertion into the map asks for no block whose size overflows. -/
def SplayMap.Roomy {κ V : Type} (p : Platform) (s : SplayMap κ V) : Prop :=
  s.tSize + 1 = s.bSize → p.Fits (s.bSize + s.iSize)

instance {κ V : Type} (p : Platform) (s : SplayMap κ V) : Decidable (s.Roomy p) :=
  inferInstanceAs (Decidable (_ = _ → p.Fits _))

namespace MetaContainer

variable (c : MetaContainer)

def read : StackRef → Option StackMeta
  | .top idx => c.stackMetas.get idx
  | .ext addr => c.heap[addr]?

def write (r : StackRef) (m : StackMeta) : MetaContainer :=
  match r with
  | .top idx => { c with stackMetas := c.stackMetas.set idx m }
  | .ext addr => { c with heap := c.heap.insert addr m }

def cell (r : StackRef) : Option (Cell StackRef StackEntry) :=
  (c.read r).map fun m => ⟨m.ext.map .ext, m.toStackEntry⟩

/-- The cells of a chain: the one in the map, and those in blocks. -/
def chainBound : ℕ := c.heap.size + 1

/-! ## Insertion -/

/-- The branch of `insert` for a hash that is in the map: the reference for the pointer, the entry
to charge and the new container. `block` is the address that `calloc` delivers. -/
def locateLive (msg : AllocationMessage) (block : Option ℕ) :
    Option (StackRef × StackRef × MetaContainer) := do
  let top := StackRef.top c.stackMetas.lastPtr
  let lastPtr := c.stackMetas.rootPtr
  let stackMeta ← c.read top
  if lastPtr = 0 then none
  else
    let (same, target) ← seek c.cell (fun cell => msg.sameStack cell.data)
      c.chainBound top
    if same then
      match target with
      | .top _ => return (.top lastPtr, target, c)
      | .ext _ => return (target, target, c)
    else if stackMeta.size = 0 ∧ stackMeta.caller = 0 ∧ stackMeta.backtrace = [] then
      -- reuse the first entry
      return (.top lastPtr, top, c)
    else
      let last ← c.read target
      let addr ← block
      let c := c.write target { last with ext := some addr }
      return (.ext addr, .ext addr, { c with heap := c.heap.insert addr StackMeta.zero })

def locate (env : MetaEnv) (hash : ℕ) (msg : AllocationMessage) (block : Option ℕ) :
    Option (StackRef × StackRef × MetaContainer) := do
  let (live, stackMetas) ← c.stackMetas.exist hash
  if live then locateLive { c with stackMetas := stackMetas } msg block
  else
    let (inserted, stackMetas) ← stackMetas.insert env.stackMemory hash StackMeta.zero
    let idx ← inserted
    return (.top stackMetas.rootPtr, .top idx, { c with stackMetas := stackMetas })

/-- `insert`. A pointer for which the map has no memory is not tracked. -/
def insert (env : MetaEnv) (ptr hash : ℕ) (msg : AllocationMessage) (block : Option ℕ)
    (callback : PtrMeta → Option StackMeta → PtrMeta × Option StackMeta) :
    Option MetaContainer := do
  let (inserted, ptrMetas) ← c.ptrMetas.insert env.ptrMemory ptr PtrMeta.zero
  match inserted with
  | none => return { c with ptrMetas := ptrMetas }
  | some n =>
    if hash = 0 then
      return { c with ptrMetas := ptrMetas.set n (callback PtrMeta.zero none).1 }
    else
      let (home, target, c) ← c.locate env hash msg block
      let stackMeta ← c.read target
      let (ptrMeta, charged) := callback (PtrMeta.linked hash home) (some stackMeta)
      return { c.write target (charged.getD stackMeta) with ptrMetas := ptrMetas.set n ptrMeta }

/-! ## Removal -/

/-- The end of `erase`: the size of the pointer is taken off its stack entry, or the entry dropped. -/
def release (t : PtrMeta) : Option MetaContainer := do
  let top := StackRef.top c.stackMetas.lastPtr
  let topStackIdx := c.stackMetas.rootPtr
  let topMeta ← c.read top
  if t.isStackIdx ∧ t.link ≠ topStackIdx then none
  else
    let stackMeta ← c.read t.home
    if t.size < stackMeta.size then
      return c.write t.home { stackMeta with size := stackMeta.size - t.size }
    else if t.isStackIdx then
      if topMeta.ext = none then
        let (_, stackMetas) ← c.stackMetas.remove t.stackHash
        return { c with stackMetas := stackMetas }
      else
        return c.write top { topMeta with toStackEntry := .blank }
    else if topMeta.ext = none then none
    else
      -- `prev` is the entry whose `ext` is the one to be dropped
      let (found, prev) ← seek c.cell (fun cell => cell.next = some t.home) c.chainBound top
      if found then
        let prevMeta ← c.read prev
        let c := c.write prev { prevMeta with ext := stackMeta.ext }
        return { c with heap := c.heap.erase t.link }
      else none

def erase (ptr : ℕ) : Option (Bool × MetaContainer) := do
  let (removed, ptrMetas) ← c.ptrMetas.remove ptr
  match removed with
  | none => return (false, { c with ptrMetas := ptrMetas })
  | some n =>
    let t := ptrMetas.vBuff n
    if t.stackHash = 0 then return (true, { c with ptrMetas := ptrMetas })
    else
      let (live, stackMetas) ← c.stackMetas.exist t.stackHash
      let c : MetaContainer := { c with ptrMetas := ptrMetas, stackMetas := stackMetas }
      if live then
        let c ← c.release t
        return (true, c)
      else return (true, c)

/-! ## Processing messages -/

/-- The callback that `process_routine` passes to `insert`. -/
def recordAllocation (msg : AllocationMessage) (isMmap : Bool) (t : PtrMeta) :
    Option StackMeta → PtrMeta × Option StackMeta
  | none =>
    ({ t with ptr := msg.ptr, size := msg.size, isMmap := isMmap, link := msg.caller }, none)
  | some m =>
    let t := { t with ptr := msg.ptr, size := msg.size, isMmap := isMmap }
    let m := { m with size := (m.size + msg.size) % 2 ^ 64 }
    if m.backtrace = [] ∧ msg.backtrace ≠ [] then
      (t, some { m with backtrace := msg.backtrace, caller := msg.caller })
    else (t, some m)

/-- The hash that `process_routine` passes to `insert`. -/
def stackHash (env : MetaEnv) (msg : AllocationMessage) : ℕ :=
  if msg.size ≠ 0 ∧ msg.backtrace ≠ [] then env.hashFrames msg.backtrace else 0

/-- A message as `process_routine` applies it; for an allocation with the address that `calloc`
delivers, should it be called. -/
inductive Update where
  | allocation (msg : AllocationMessage) (isMmap : Bool) (block : Option ℕ)
  | deletion (ptr : ℕ)

def apply (env : MetaEnv) : Update → Option MetaContainer
  | .allocation msg isMmap block =>
    c.insert env msg.ptr (stackHash env msg) msg block (recordAllocation msg isMmap)
  | .deletion ptr => (c.erase ptr).map Prod.snd

/-- `memory_meta_container()`. -/
def init (env : MetaEnv) : Option MetaContainer := do
  let ptrMetas ← SplayMap.init env.ptrMemory 10240
  let stackMetas ← SplayMap.init env.stackMemory 1024
  return ⟨ptrMetas, stackMetas, ∅⟩

def applyAll (env : MetaEnv) (us : List Update) : Option MetaContainer :=
  tryRun (fun c u => apply c env u) c us

/-! ## Looking at the container -/

/-- The tracked pointers, as `for_each` visits them. -/
def tracked : Option (List (ℕ × PtrMeta)) := c.ptrMetas.enumerate

def lookup (ptr : ℕ) : Option PtrMeta := do
  let (live, ptrMetas) ← c.ptrMetas.exist ptr
  if live then ptrMetas.get ptrMetas.rootPtr else none

/-- The stack entry of a tracked pointer, when it is still allocated. -/
def resolve (t : PtrMeta) : Option StackMeta := do
  let (live, stackMetas) ← c.stackMetas.exist t.stackHash
  if ¬ live ∨ (t.isStackIdx ∧ t.link ≠ stackMetas.rootPtr) then none
  else c.read t.home

/-- The stack entry that an allocation adds to, when there is one with its stack already. -/
def stackFor (hash : ℕ) (msg : AllocationMessage) : Option StackMeta := do
  let (live, stackMetas) ← c.stackMetas.exist hash
  if live then
    let (same, r) ← seek c.cell (fun cell => msg.sameStack cell.data) c.chainBound
      (.top stackMetas.rootPtr)
    if same then c.read r else none
  else none

/-- What a message needs: memory for a new pointer, a new hash and a new block, and room in the size
of the entry that is charged. -/
def Ready (env : MetaEnv) : Update → Prop
  | .allocation msg _ block =>
    c.ptrMetas.Roomy env.ptrMemory ∧ c.stackMetas.Roomy env.stackMemory ∧
      (∃ a ∈ block, c.heap[a]? = none) ∧
      (∀ m ∈ c.stackFor (stackHash env msg) msg, m.size + msg.size < 2 ^ 64)
  | .deletion _ => True

instance (env : MetaEnv) (u : Update) : Decidable (c.Ready env u) :=
  match u with
  | .allocation msg _ block =>
    haveI : Decidable (∃ a ∈ block, c.heap[a]? = none) :=
      match block with
      | none => isFalse (by simp)
      | some a => decidable_of_iff (c.heap[a]? = none) (by simp)
    haveI : Decidable (∀ m ∈ c.stackFor (stackHash env msg) msg, m.size + msg.size < 2 ^ 64) :=
      match c.stackFor (stackHash env msg) msg with
      | none => isTrue (by simp)
      | some m => decidable_of_iff (m.size + msg.size < 2 ^ 64) (by simp)
    inferInstanceAs (Decidable (_ ∧ _ ∧ _ ∧ _))
  | .deletion _ => isTrue trivial

/-- The messages sent last for each pointer, after one more. -/
def note (known : ℕ → Option AllocationMessage) : Update → ℕ → Option AllocationMessage
  | .allocation msg _ _ => Function.update known msg.ptr (some msg)
  | .deletion ptr => Function.update known ptr none

/-- The message sent last for each pointer that has not been deleted since. -/
def latest (us : List Update) : ℕ → Option AllocationMessage := us.foldl note fun _ => none

end MetaContainer

end TraceHarbor.Hooks
