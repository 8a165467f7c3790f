import TraceHarbor.Hooks.MetaContainer

/-!
# The Message Queues of the Memory Hook

A report is a message in the queue of one of 256 containers, chosen by the pointer and locked for the
time it takes to enqueue. One consumer thread goes round the containers: it swaps a queue that is not
empty for a spare one, applies its messages to the meta container, resets it and keeps it as the next
spare.

A `BufferQueue` is modelled by the messages below the `idx_` of its two buffers, which grow without
failing, and named by the number of its creation. An operation is `none` when a `CRITICAL_CHECK` fails
or a message refers to an allocation that is not there.
-/

namespace TraceHarbor.Hooks

open Lib

/-! ## Messages -/

inductive MessageType where
  | nil
  | allocation
  | reallocation
  | deletion
  | mmap
  | munmap
  deriving DecidableEq

/-- `message_t`; `word` is the union of `index` and `ptr`. -/
structure Message where
  type : MessageType
  word : ℕ
  deriving DecidableEq

/-- What a hook reports, with the data that `on_acquire_memory` has collected. -/
inductive Report where
  | allocMemory (msg : AllocationMessage)
  | reallocMemory (msg : AllocationMessage)
  | mmapMemory (msg : AllocationMessage)
  | freeMemory (ptr : ℕ)
  | munmapMemory (ptr : ℕ)
  deriving DecidableEq

def Report.ptr : Report → ℕ
  | .allocMemory msg => msg.ptr
  | .reallocMemory msg => msg.ptr
  | .mmapMemory msg => msg.ptr
  | .freeMemory ptr => ptr
  | .munmapMemory ptr => ptr

/-- The deletion takes back the allocation. A reallocation is never taken back. -/
def Report.undoes : Report → Report → Bool
  | .freeMemory ptr, .allocMemory msg => msg.ptr = ptr
  | .munmapMemory ptr, .mmapMemory msg => msg.ptr = ptr
  | _, _ => false

def memoryPtrHash (key : ℕ) : Fin 256 :=
  ⟨(key ^^^ (key >>> 16)) &&& 255, Nat.lt_succ_of_le Nat.and_le_right⟩

/-! ## A queue -/

structure BufferQueue where
  messages : List Message
  allocations : List AllocationMessage
  deriving DecidableEq

namespace BufferQueue

/-- `BufferQueue(SIZE_AUGMENT)`, and what `reset` leaves. -/
def empty : BufferQueue := ⟨[], []⟩

variable (bits : ℕ) (q : BufferQueue)

/-- `enqueue_allocation_message`, with the data that is then stored in the allocation message. The
index is kept in `bits` bits. -/
def enqueueAllocationMessage (type : MessageType) (msg : AllocationMessage) : Option BufferQueue :=
  if type = .mmap ∨ type = .reallocation ∨ type = .allocation then
    some ⟨q.messages ++ [⟨type, q.allocations.length % 2 ^ bits⟩], q.allocations ++ [msg]⟩
  else none

/-- The end of `enqueue_deletion_message`. The pointer is kept in `bits` bits. -/
def appendDeletion (ptr : ℕ) (isMunmap : Bool) : BufferQueue :=
  { q with
    messages := q.messages ++ [⟨if isMunmap then .munmap else .deletion, ptr % 2 ^ bits⟩] }

/-- `enqueue_deletion_message`, with its fast path. -/
def enqueueDeletionMessage (ptr : ℕ) (isMunmap : Bool) : Option BufferQueue :=
  match q.messages.getLast? with
  | none => some (q.appendDeletion bits ptr isMunmap)
  | some last =>
    if (!isMunmap && last.type = .allocation) || (isMunmap && last.type = .mmap) then
      match q.allocations[last.word]? with
      | none => none
      | some msg =>
        if msg.ptr = ptr then some ⟨q.messages.dropLast, q.allocations.dropLast⟩
        else some (q.appendDeletion bits ptr isMunmap)
    else some (q.appendDeletion bits ptr isMunmap)

def enqueue : Report → Option BufferQueue
  | .allocMemory msg => q.enqueueAllocationMessage bits .allocation msg
  | .reallocMemory msg => q.enqueueAllocationMessage bits .reallocation msg
  | .mmapMemory msg => q.enqueueAllocationMessage bits .mmap msg
  | .freeMemory ptr => q.enqueueDeletionMessage bits ptr false
  | .munmapMemory ptr => q.enqueueDeletionMessage bits ptr true

/-- What the callback of `process` applies for a message, if anything. -/
def decode (m : Message) : Option (Option Report) :=
  match m.type with
  | .nil => some none
  | .allocation => q.allocations[m.word]?.map fun msg => some (.allocMemory msg)
  | .reallocation => q.allocations[m.word]?.map fun msg => some (.reallocMemory msg)
  | .mmap => q.allocations[m.word]?.map fun msg => some (.mmapMemory msg)
  | .deletion => some (some (.freeMemory m.word))
  | .munmap => some (some (.munmapMemory m.word))

/-- What `process` applies from the message `i` on. -/
def reportsFrom (i : ℕ) : Option (List Report) :=
  ((q.messages.drop i).mapM q.decode).map List.reduceOption

end BufferQueue

/-! ## The pipeline -/

/-- Where the consumer is in `process_routine`: at the head of the outer loop, before a container,
or before the message `i` of a queue. -/
inductive Consumer where
  | outer
  | visit (slot : ℕ)
  | processing (slot queue i : ℕ)
  deriving DecidableEq

/-- The queues, the containers, the consumer, and the log of what it has applied. -/
structure Pipeline where
  queues : ℕ → BufferQueue
  created : ℕ
  containers : Fin 256 → Option ℕ
  queueSwapped : Option ℕ
  consumer : Consumer
  applied : List Report

namespace Pipeline

/-- `BufferManagement`, before any report and any step of the consumer. -/
def init : Pipeline := ⟨fun _ => .empty, 0, fun _ => none, none, .outer, []⟩

variable (bits : ℕ) (s : Pipeline)

/-- `new BufferQueue`. -/
def newQueue : ℕ × Pipeline :=
  (s.created, { s with
    queues := Function.update s.queues s.created .empty, created := s.created + 1 })

/-- `lock`: the queue of a container, which is created when there is none. -/
def lock (slot : Fin 256) : ℕ × Pipeline :=
  match s.containers slot with
  | some q => (q, s)
  | none =>
    let (q, s) := s.newQueue
    (q, { s with containers := Function.update s.containers slot (some q) })

/-- `on_acquire_memory` and `on_release_memory`. -/
def report (r : Report) : Option Pipeline :=
  if r.ptr = 0 then some s
  else
    let (q, s) := s.lock (memoryPtrHash r.ptr)
    ((s.queues q).enqueue bits r).map fun queue =>
      { s with queues := Function.update s.queues q queue }

/-- One step of `process_routine`. -/
def consume : Option Pipeline :=
  match s.consumer with
  | .outer =>
    match s.queueSwapped with
    | some _ => some { s with consumer := .visit 0 }
    | none =>
      let (q, s) := s.newQueue
      some { s with queueSwapped := some q, consumer := .visit 0 }
  | .visit slot =>
    if h : slot < 256 then
      match s.containers ⟨slot, h⟩ with
      | none => some { s with consumer := .visit (slot + 1) }
      | some q =>
        if (s.queues q).messages = [] then some { s with consumer := .visit (slot + 1) }
        else
          -- the swap, under the lock of the container
          some { s with
            containers := Function.update s.containers ⟨slot, h⟩ s.queueSwapped
            consumer := .processing slot q 0 }
    else some { s with consumer := .outer }
  | .processing slot q i =>
    match (s.queues q).messages[i]? with
    | some m =>
      ((s.queues q).decode m).map fun r =>
        { s with applied := s.applied ++ r.toList, consumer := .processing slot q (i + 1) }
    | none =>
      some { s with
        queues := Function.update s.queues q .empty, queueSwapped := some q
        consumer := .visit (slot + 1) }

inductive Step where
  | report (r : Report)
  | consume

def step : Step → Option Pipeline
  | .report r => s.report bits r
  | .consume => s.consume

/-! ## Looking at the pipeline -/

/-- The queue that belongs to the consumer: the one it is processing, or the spare one. -/
def held : Option ℕ :=
  match s.consumer with
  | .processing _ q _ => some q
  | _ => s.queueSwapped

def pending (slot : Fin 256) : Option (List Report) :=
  match s.containers slot with
  | none => some []
  | some q => (s.queues q).reportsFrom 0

/-- The reports that the consumer has taken and not applied yet. -/
def taken : Option (List Report) :=
  match s.consumer with
  | .processing _ q i => (s.queues q).reportsFrom i
  | _ => some []

/-- The reports for a pointer that are on their way. -/
def waiting (ptr : ℕ) : Option (List Report) := do
  let taken ← s.taken
  let pending ← s.pending (memoryPtrHash ptr)
  return (taken ++ pending).filter (·.ptr = ptr)

/-- What is kept in `bits` bits fits: the pointer of a deletion, the index of an allocation. -/
def Fits : Step → Prop
  | .report (.freeMemory ptr) | .report (.munmapMemory ptr) => ptr < 2 ^ bits
  | .report r =>
    ((s.containers (memoryPtrHash r.ptr)).elim 0 fun q => (s.queues q).allocations.length) < 2 ^ bits
  | .consume => True

instance (x : Step) : Decidable (s.Fits bits x) :=
  match x with
  | .report (.freeMemory ptr) => inferInstanceAs (Decidable (ptr < 2 ^ bits))
  | .report (.munmapMemory ptr) => inferInstanceAs (Decidable (ptr < 2 ^ bits))
  | .report (.allocMemory _) => inferInstanceAs (Decidable (_ < 2 ^ bits))
  | .report (.reallocMemory _) => inferInstanceAs (Decidable (_ < 2 ^ bits))
  | .report (.mmapMemory _) => inferInstanceAs (Decidable (_ < 2 ^ bits))
  | .consume => isTrue trivial

end Pipeline

end TraceHarbor.Hooks
