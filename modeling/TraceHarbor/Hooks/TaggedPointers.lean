import TraceHarbor.Hooks.LiveSetTracking

/-!
# Tagged Pointers in a Message Queue

A deletion message keeps `bits` bits of the pointer: 56 on aarch64, where the top byte may be a tag. The
fast path of `enqueue_deletion_message` compares whole pointers, the meta container erases what the
message has kept. So the deletion of a tagged pointer is lost unless it directly follows its allocation
in the queue.
-/

namespace TraceHarbor.Hooks

open Lib List Option

/-! ## What the messages of a pointer say -/

/-- The last of the messages for a pointer is an allocation. -/
def Allocated (rs : List Report) (p : ℕ) : Prop :=
  ∃ msg, (rs.filter (·.ptr = p)).getLast?.bind Report.message = some msg

instance (rs : List Report) (p : ℕ) : Decidable (Allocated rs p) :=
  decidable_of_iff _ isSome_iff_exists

theorem allocated_snoc (rs : List Report) (r : Report) (p : ℕ) :
    Allocated (rs ++ [r]) p ↔ if r.ptr = p then r.message ≠ none else Allocated rs p := by
  by_cases hp : r.ptr = p
  · simp [Allocated, hp, ne_none_iff_exists']
  · simp [Allocated, hp]

variable {rs : List Report}

theorem allocated_append_congr {rs' : List Report} (h : ∀ p, Allocated rs p ↔ Allocated rs' p)
    (r : Report) (p : ℕ) : Allocated (rs ++ [r]) p ↔ Allocated (rs' ++ [r]) p := by
  rw [allocated_snoc, allocated_snoc, h p]

theorem latest_ne_none_iff {us : List MetaContainer.Update} (h : UpdatesOf rs us) (p : ℕ) :
    MetaContainer.latest us p ≠ none ↔ Allocated rs p := by
  rw [MetaContainer.latest, foldl_note h, Allocated, ne_none_iff_exists']
  cases (rs.filter (·.ptr = p)).getLast? <;> simp

/-! ## A queue and its batches -/

/-- A queue, the reports that `process_routine` has applied from it, and all reports so far. -/
structure QueueSession where
  queue : BufferQueue
  applied : List Report
  sent : List Report
  deriving DecidableEq

/-- A message is enqueued, or the queue is swapped, processed and reset. -/
inductive QueueStep where
  | enqueue (r : Report)
  | process
  deriving DecidableEq

namespace QueueSession

def init : QueueSession := ⟨.empty, [], []⟩

variable (bits : ℕ) (s : QueueSession)

/-- `process_routine` takes the queue: `process` with its callback, and `reset`. -/
def process : Option QueueSession := do
  let rs ← s.queue.reportsFrom 0
  return { s with queue := .empty, applied := s.applied ++ rs }

def step : QueueStep → Option QueueSession
  | .enqueue r => do
    let queue ← s.queue.enqueue bits r
    return { s with queue := queue, sent := s.sent ++ [r] }
  | .process => s.process

def pending : List Report := (s.queue.reportsFrom 0).getD []

/-- The deletion can be told from its message: the pointer is the part of it that is kept, or
neither of the two is allocated. -/
def Kept (p : ℕ) : Prop :=
  p < 2 ^ bits ∨ ¬ Allocated s.sent p ∧ ¬ Allocated s.sent (p % 2 ^ bits)

/-- A deletion which takes back the last message is for a pointer that was not allocated before; any
other deletion is kept; the index of an allocation fits. -/
def Matched : QueueStep → Prop
  | .process => True
  | .enqueue r =>
    if r.message = none then
      if s.pending.getLast?.any r.undoes then
        ¬ Allocated (s.applied ++ s.pending.dropLast) r.ptr
      else s.Kept bits r.ptr
    else s.queue.allocations.length < 2 ^ bits

instance (p : ℕ) : Decidable (s.Kept bits p) := inferInstanceAs (Decidable (_ ∨ _))

instance : ∀ x, Decidable (s.Matched bits x)
  | .process => isTrue trivial
  | .enqueue r => inferInstanceAs (Decidable (if r.message = none then _ else _))

end QueueSession

/-! ## What a message keeps of a report -/

/-- The report that the message of a report is read as. -/
def Report.stored (bits : ℕ) : Report → Report
  | .freeMemory ptr => .freeMemory (ptr % 2 ^ bits)
  | .munmapMemory ptr => .munmapMemory (ptr % 2 ^ bits)
  | r => r

section Stored

variable {bits : ℕ} {rs : List Report} {r : Report}

@[simp]
theorem Report.message_stored : (r.stored bits).message = r.message := by
  cases r <;> rfl

theorem Report.ptr_stored_of_message (h : r.message ≠ none) : (r.stored bits).ptr = r.ptr := by
  cases r <;> first | rfl | exact absurd rfl h

theorem Report.ptr_stored_of_deletion (h : r.message = none) :
    (r.stored bits).ptr = r.ptr % 2 ^ bits := by
  cases r <;> first | rfl | cases h

theorem encode_snoc_stored : encode bits (rs ++ [r]) = encode bits (rs ++ [r.stored bits]) := by
  rw [encode_snoc, encode_snoc]
  cases r <;>
    simp [BufferQueue.push, Report.stored, Report.message, Report.type, Report.ptr]

theorem Encodable.snoc_stored (h : Encodable bits rs)
    (hidx : r.message ≠ none → (encode bits rs).allocations.length < 2 ^ bits) :
    Encodable bits (rs ++ [r.stored bits]) := by
  refine h.snoc (by simpa using hidx) fun hdel => ?_
  rw [Report.message_stored] at hdel
  rw [Report.ptr_stored_of_deletion hdel]
  exact Nat.mod_lt _ (Nat.two_pow_pos bits)

theorem Report.of_undoes {a : Report} (h : r.undoes a = true) :
    r.message = none ∧ a.message ≠ none ∧ a.ptr = r.ptr := by
  cases r <;> cases a <;> simp_all [Report.undoes, Report.message, Report.ptr]

end Stored

/-! ## The invariant -/

namespace QueueSession

/-- The queue is the encoding of reports that, once applied, say of each pointer what the reports
so far say. -/
def Agrees (bits : ℕ) (s : QueueSession) : Prop :=
  ∃ rs, s.queue = encode bits rs ∧ Encodable bits rs ∧
    ∀ p, Allocated (s.applied ++ rs) p ↔ Allocated s.sent p

variable {bits : ℕ} {s : QueueSession}

theorem agrees_init : Agrees bits init := ⟨[], rfl, .nil, fun _ => .rfl⟩

theorem pending_of_encode (hqueue : s.queue = encode bits rs) (henc : Encodable bits rs) :
    s.pending = rs := by
  rw [pending, hqueue, reportsFrom_encode henc, drop_zero, getD_some]

theorem process_of_encode (hqueue : s.queue = encode bits rs) (henc : Encodable bits rs) :
    s.process = some { s with queue := .empty, applied := s.applied ++ rs } := by
  rw [process, hqueue, reportsFrom_encode henc]
  rfl

/-- **A batch** is applied, and the queue starts anew. -/
theorem Agrees.process (h : Agrees bits s) : ∃ s', s.process = some s' ∧ Agrees bits s' ∧
    s'.sent = s.sent ∧ ∀ p, Allocated s'.applied p ↔ Allocated s.sent p := by
  obtain ⟨rs, hqueue, henc, hagr⟩ := h
  refine ⟨_, process_of_encode hqueue henc, ⟨[], rfl, .nil, fun p => ?_⟩, rfl, hagr⟩
  rw [append_nil]
  exact hagr p

theorem allocated_stored {r : Report}
    (hagr : ∀ p, Allocated (s.applied ++ rs) p ↔ Allocated s.sent p)
    (hkept : r.message = none → s.Kept bits r.ptr) (p : ℕ) :
    Allocated (s.applied ++ (rs ++ [r.stored bits])) p ↔ Allocated (s.sent ++ [r]) p := by
  rw [← append_assoc, allocated_append_congr hagr]
  by_cases hmsg : r.message = none
  · rcases hkept hmsg with hlt | ⟨hwhole, hpart⟩
    · simp [allocated_snoc, Report.ptr_stored_of_deletion hmsg, Nat.mod_eq_of_lt hlt]
    · -- the deletion and its message both delete what is not allocated
      simp only [allocated_snoc, Report.ptr_stored_of_deletion hmsg, Report.message_stored, hmsg]
      split_ifs with hstor hrep hrep
      · rfl
      · simpa [← hstor] using hpart
      · simpa [← hrep] using hwhole
      · rfl
  · simp [allocated_snoc, Report.ptr_stored_of_message hmsg]

theorem allocated_undone {r a : Report} (hund : r.undoes a = true)
    (hagr : ∀ p, Allocated (s.applied ++ (rs ++ [a])) p ↔ Allocated s.sent p)
    (hbef : ¬ Allocated (s.applied ++ rs) r.ptr) (p : ℕ) :
    Allocated (s.applied ++ rs) p ↔ Allocated (s.sent ++ [r]) p := by
  obtain ⟨hdel, -, hptr⟩ := Report.of_undoes hund
  rw [allocated_snoc, hdel]
  split_ifs with hp
  · rw [← hp]
    simpa using hbef
  · rw [← hagr p, ← append_assoc, allocated_snoc, if_neg (hptr ▸ hp)]

/-- **A message** that is matched is enqueued, and says what its report says. -/
theorem Agrees.enqueue (h : Agrees bits s) {r : Report} (hmatc : s.Matched bits (.enqueue r)) :
    ∃ s', s.step bits (.enqueue r) = some s' ∧ Agrees bits s' ∧ s'.sent = s.sent ++ [r] := by
  obtain ⟨rs, hqueue, henc, hagr⟩ := h
  have hpend := pending_of_encode hqueue henc
  rw [Matched, hpend, hqueue] at hmatc
  refine ⟨{ s with queue := encode bits (enqueueReport rs r), sent := s.sent ++ [r] }, ?_, ?_, rfl⟩
  · rw [step, hqueue, enqueue_encode henc]
    rfl
  by_cases hlast : rs.getLast?.any r.undoes = true
  · -- the fast path
    cases rs using reverseRecOn with
    | nil => cases hlast
    | append_singleton rs a =>
      have hund : r.undoes a = true := by simpa using hlast
      rw [if_pos (Report.of_undoes hund).1, if_pos hlast, dropLast_concat] at hmatc
      exact ⟨rs, by simp [enqueueReport, hund], henc.of_snoc,
        allocated_undone hund hagr hmatc⟩
  · have happ : enqueueReport rs r = rs ++ [r] := by
      rcases enqueueReport_cases rs r with happ | ⟨rs', a, rfl, hund, -⟩
      · exact happ
      · simp [hund] at hlast
    rw [if_neg hlast] at hmatc
    refine ⟨rs ++ [r.stored bits], ?_, henc.snoc_stored fun hmsg => ?_,
      allocated_stored hagr fun hmsg => ?_⟩
    · rw [happ, encode_snoc_stored]
    · rwa [if_neg hmsg] at hmatc
    · rwa [if_pos hmsg] at hmatc

/-- The steps of a run, as the reports that they enqueue. -/
def reports (ops : List QueueStep) : List Report :=
  ops.filterMap fun
    | .enqueue r => some r
    | .process => none

/-- The invariant of a run, with the reports so far. -/
def Inv (bits : ℕ) (past : List QueueStep) (s : QueueSession) : Prop :=
  Agrees bits s ∧ s.sent = reports past

theorem Inv.step {past : List QueueStep} (h : Inv bits past s) {x : QueueStep}
    (hmatc : s.Matched bits x) :
    ∃ s', s.step bits x = some s' ∧ Inv bits (past ++ [x]) s' := by
  obtain ⟨hagr, hsent⟩ := h
  cases x with
  | enqueue r =>
    obtain ⟨s', hstep, hagr', hsent'⟩ := hagr.enqueue hmatc
    exact ⟨s', hstep, hagr', by simp [hsent', hsent, reports]⟩
  | process =>
    obtain ⟨s', hstep, hagr', hsent', -⟩ := hagr.process
    exact ⟨s', hstep, hagr', by simp [hsent', hsent, reports]⟩

/-- **Tracking**: take a run of messages and batches in which each deletion is matched. Once what is
left in the queue is processed, the meta container that has applied all batches tracks exactly the
pointers whose last message is an allocation. -/
theorem tracked_iff_allocated (bits : ℕ) (env : MetaEnv) (henv : env.Ample)
    (ops : List QueueStep) (hmeets : TryMeets (step bits) (Matched bits) init ops) :
    ∃ s s' c₀, tryRun (step bits) init ops = some s ∧ s.process = some s' ∧
      MetaContainer.init env = some c₀ ∧
      ∀ us, UpdatesOf s'.applied us →
        TryMeets (fun c u => MetaContainer.apply c env u) (MetaContainer.Ready · env) c₀ us →
        ∃ c l, c₀.applyAll env us = some c ∧ c.tracked = some l ∧
          ∀ p, (∃ t, (p, t) ∈ l) ↔ Allocated (reports ops) p := by
  have hstart : Inv bits [] init := ⟨agrees_init, rfl⟩
  obtain ⟨s, hrun, hagr, hsent⟩ := tryRun_of_invariant
    (fun past s x (hinv : Inv bits past s) hx => hinv.step hx) hstart hmeets
  obtain ⟨s', hproc, -, -, hallocd⟩ := hagr.process
  obtain ⟨c₀, hinit, happl⟩ := MetaContainer.attributed_applyAll henv
  refine ⟨s, s', c₀, hrun, hproc, hinit, fun us hus hready => ?_⟩
  obtain ⟨c, happ, b, hrep, -, hrec⟩ := happl us hready
  refine ⟨c, _, happ, hrep.ptrs.enumerate, fun p => ?_⟩
  rw [nil_append] at hsent
  have hknown : b.tracked[p]? = none ↔ MetaContainer.latest us p = none := by
    rw [← map_eq_none_iff, hrec p, map_eq_none_iff]
  rw [← hsent, ← hallocd p, ← latest_ne_none_iff hus p, Ne, ← hknown, ← Ne,
    ne_none_iff_exists']
  simp

/-- The message of an allocation of 16 bytes whose stack is not kept. -/
def allocationAt (p : ℕ) : Report := .allocMemory ⟨p, 40, 16, [], by decide⟩

def tagged : ℕ := 0xB4 * 2 ^ 56 + 4096

/-- A tagged pointer is deleted in the batch of its allocation, an untagged one in a later batch. -/
def matchedRun : List QueueStep :=
  [.enqueue (allocationAt 4096), .enqueue (allocationAt tagged), .enqueue (.freeMemory tagged),
    .process, .enqueue (allocationAt 8192), .enqueue (.freeMemory 4096)]

def outcome (ops : List QueueStep) : Option (List ℕ) := do
  let s ← tryRun (step 56) init ops
  let s' ← s.process
  let c ← MetaContainer.applyFresh MetaContainer.collidingEnv
    (HookWorld.updatesWithBlocks s'.applied)
  let l ← c.tracked
  return l.map (·.1)

theorem matchedRun_processed : ((tryRun (step 56) init matchedRun).bind process).isSome := by
  decide +kernel

theorem tracked_iff_allocated_matchedRun :
    TryMeets (step 56) (Matched 56) init matchedRun ∧
      ∃ s s' c l, tryRun (step 56) init matchedRun = some s ∧ s.process = some s' ∧
        MetaContainer.applyFresh MetaContainer.collidingEnv
          (HookWorld.updatesWithBlocks s'.applied) = some c ∧ c.tracked = some l ∧
        ∀ p, (∃ t, (p, t) ∈ l) ↔ Allocated (reports matchedRun) p := by
  have hmeets : TryMeets (step 56) (Matched 56) init matchedRun := by decide +kernel
  obtain ⟨s, s', c₀, hrun, hproc, hinit, htrk⟩ := tracked_iff_allocated 56
    MetaContainer.collidingEnv MetaContainer.collidingEnv_ample matchedRun hmeets
  obtain rfl : ((tryRun (step 56) init matchedRun).bind process).get matchedRun_processed = s' := by
    simp [hrun, hproc]
  obtain rfl : (MetaContainer.init MetaContainer.collidingEnv).get rfl = c₀ := by
    simp [hinit]
  obtain ⟨c, l, happ, hl, hiff⟩ := htrk _ (HookWorld.updatesOf_updatesWithBlocks _)
    (by decide +kernel)
  refine ⟨hmeets, s, _, c, l, hrun, hproc, ?_, hl, hiff⟩
  exact happ

/-- A tagged pointer that is deleted in a later batch. -/
def lateDeletion : List QueueStep :=
  [.enqueue (allocationAt tagged), .process, .enqueue (.freeMemory tagged)]

/-- A pointer whose deletion follows two allocations. -/
def secondAllocation : List QueueStep :=
  [.enqueue (allocationAt 4096), .enqueue (allocationAt 4096), .enqueue (.freeMemory 4096)]

/-- Both pointers stay tracked; without the batch in between, the deletion of the tagged one is
seen. -/
theorem deleted_pointers_stay_tracked :
    ¬ Allocated (reports lateDeletion) tagged ∧ outcome lateDeletion = some [tagged] ∧
      outcome (lateDeletion.filter (· ≠ .process)) = some [] ∧
      ¬ Allocated (reports secondAllocation) 4096 ∧ outcome secondAllocation = some [4096] := by
  refine ⟨?_, ?_, ?_, ?_, ?_⟩ <;> decide +kernel

end QueueSession

end TraceHarbor.Hooks
