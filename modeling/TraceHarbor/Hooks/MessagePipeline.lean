import TraceHarbor.Hooks.MessageQueue

/-!
# Ownership and Order in the Message Pipeline

The state of the pipeline as lists of reports: what is pending in each container, and what the consumer
has taken. Every queue is the encoding of such a list, no two containers share a queue, and none has the
queue of the consumer.
-/

namespace TraceHarbor.Hooks

open Lib List Option Function

/-! ## Queues as encoded reports -/

def Report.type : Report → MessageType
  | .allocMemory _ => .allocation
  | .reallocMemory _ => .reallocation
  | .mmapMemory _ => .mmap
  | .freeMemory _ => .deletion
  | .munmapMemory _ => .munmap

def Report.message : Report → Option AllocationMessage
  | .allocMemory msg | .reallocMemory msg | .mmapMemory msg => some msg
  | .freeMemory _ | .munmapMemory _ => none

def BufferQueue.push (bits : ℕ) (q : BufferQueue) (r : Report) : BufferQueue :=
  match r.message with
  | some msg =>
    ⟨q.messages ++ [⟨r.type, q.allocations.length % 2 ^ bits⟩], q.allocations ++ [msg]⟩
  | none => ⟨q.messages ++ [⟨r.type, r.ptr % 2 ^ bits⟩], q.allocations⟩

def encode (bits : ℕ) (rs : List Report) : BufferQueue := rs.foldl (BufferQueue.push bits) .empty

/-- The indices and pointers of the reports fit a message. -/
structure Encodable (bits : ℕ) (rs : List Report) : Prop where
  allocations : (rs.filterMap Report.message).length ≤ 2 ^ bits
  deletions : ∀ r ∈ rs, r.message = none → r.ptr < 2 ^ bits

/-- The reports after one more: a deletion takes back the allocation that it directly follows. -/
def enqueueReport (rs : List Report) (r : Report) : List Report :=
  match rs.getLast? with
  | none => rs ++ [r]
  | some a => if r.undoes a then rs.dropLast else rs ++ [r]

section Encode

variable {bits : ℕ} {rs : List Report} {r : Report}

theorem encode_snoc (rs : List Report) (r : Report) :
    encode bits (rs ++ [r]) = (encode bits rs).push bits r := by
  simp [encode]

theorem allocations_encode (rs : List Report) :
    (encode bits rs).allocations = rs.filterMap Report.message := by
  induction rs using reverseRecOn with
  | nil => rfl
  | append_singleton rs r ih =>
    rw [encode_snoc, filterMap_append, ← ih]
    cases r <;> simp [BufferQueue.push, Report.message]

namespace Encodable

theorem nil : Encodable bits [] := ⟨by simp, by simp⟩

theorem of_snoc (h : Encodable bits (rs ++ [r])) : Encodable bits rs := by
  obtain ⟨hcnt, hdel⟩ := h
  refine ⟨?_, fun r' hr' => hdel r' (mem_append_left _ hr')⟩
  rw [filterMap_append, length_append] at hcnt
  omega

theorem index_lt (h : Encodable bits (rs ++ [r])) (hmsg : r.message ≠ none) :
    (encode bits rs).allocations.length < 2 ^ bits := by
  have hcnt := h.allocations
  obtain ⟨msg, hmsg⟩ := ne_none_iff_exists'.mp hmsg
  simp only [filterMap_append, length_append, filterMap_cons, hmsg,
    filterMap_nil, length_cons, length_nil] at hcnt
  rw [allocations_encode]
  omega

theorem snoc (h : Encodable bits rs)
    (hidx : r.message ≠ none → (encode bits rs).allocations.length < 2 ^ bits)
    (hptr : r.message = none → r.ptr < 2 ^ bits) : Encodable bits (rs ++ [r]) := by
  refine ⟨?_, fun r' hr' hdel => ?_⟩
  · cases hmsg : r.message with
    | none => simpa [hmsg] using h.allocations
    | some msg =>
      have hlt := hidx (by simp [hmsg])
      rw [allocations_encode] at hlt
      simpa [hmsg] using hlt
  · rcases mem_append.mp hr' with hr' | hr'
    · exact h.deletions r' hr' hdel
    · obtain rfl := mem_singleton.mp hr'
      exact hptr hdel

end Encodable

/-- A report is appended, or takes back the last one. -/
theorem enqueueReport_cases (rs : List Report) (r : Report) :
    enqueueReport rs r = rs ++ [r] ∨
      ∃ rs' a, rs = rs' ++ [a] ∧ r.undoes a ∧ enqueueReport rs r = rs' := by
  cases rs using reverseRecOn with
  | nil => exact .inl rfl
  | append_singleton rs a =>
    by_cases hundoes : r.undoes a
    · exact .inr ⟨rs, a, rfl, hundoes, by simp [enqueueReport, hundoes]⟩
    · exact .inl (by simp [enqueueReport, hundoes])

theorem enqueueReport_of_message (rs : List Report) (hmsg : r.message ≠ none) :
    enqueueReport rs r = rs ++ [r] := by
  rcases enqueueReport_cases rs r with happ | ⟨rs', a, -, hundoes, -⟩
  · exact happ
  · cases r <;> simp [Report.undoes, Report.message] at hundoes hmsg

theorem last_encode {a : Report} (h : Encodable bits (rs ++ [a])) :
    ∃ word, (encode bits (rs ++ [a])).messages.getLast? = some ⟨a.type, word⟩ ∧
      ∀ msg, a.message = some msg → (encode bits (rs ++ [a])).allocations[word]? = some msg ∧
        ⟨(encode bits (rs ++ [a])).messages.dropLast,
          (encode bits (rs ++ [a])).allocations.dropLast⟩ = encode bits rs := by
  rw [encode_snoc, BufferQueue.push]
  cases hmsg : a.message with
  | none => exact ⟨a.ptr % 2 ^ bits, by simp, nofun⟩
  | some msg =>
    have hidx := h.index_lt (by simp [hmsg])
    refine ⟨(encode bits rs).allocations.length % 2 ^ bits, by simp, fun msg' heq => ?_⟩
    cases heq
    rw [Nat.mod_eq_of_lt hidx]
    simp

def deletionOf (ptr : ℕ) : Bool → Report
  | false => .freeMemory ptr
  | true => .munmapMemory ptr

/-- **`enqueue_deletion_message`** appends the deletion, or takes back the last allocation. -/
theorem enqueueDeletion_encode (h : Encodable bits rs) (ptr : ℕ) (isMunmap : Bool) :
    (encode bits rs).enqueueDeletionMessage bits ptr isMunmap =
      some (encode bits (enqueueReport rs (deletionOf ptr isMunmap))) := by
  have happ : ∀ rs, (encode bits rs).appendDeletion bits ptr isMunmap =
      encode bits (rs ++ [deletionOf ptr isMunmap]) := by
    intro rs
    rw [encode_snoc]
    cases isMunmap <;> rfl
  cases rs using reverseRecOn with
  | nil => exact congrArg some (happ [])
  | append_singleton rs a =>
    obtain ⟨word, hlast, hall⟩ := last_encode h
    simp only [BufferQueue.enqueueDeletionMessage, hlast]
    by_cases hfast : ((!isMunmap && a.type = .allocation) || (isMunmap && a.type = .mmap)) = true
    · -- the last message is an allocation of the right kind
      obtain ⟨msg, hmsg, hundoes⟩ : ∃ msg, a.message = some msg ∧
          (deletionOf ptr isMunmap).undoes a = decide (msg.ptr = ptr) := by
        cases isMunmap <;> cases a <;>
          simp_all [Report.type, Report.message, deletionOf, Report.undoes]
      obtain ⟨hget, hdrop⟩ := hall msg hmsg
      simp only [if_pos hfast, hget, enqueueReport, getLast?_append, getLast?_singleton,
        some_or, hundoes, decide_eq_true_eq, dropLast_concat]
      split_ifs with hptr
      · rw [hdrop]
      · rw [happ]
    · have hundoes : (deletionOf ptr isMunmap).undoes a = false := by
        cases isMunmap <;> cases a <;> simp_all [Report.type, deletionOf, Report.undoes]
      simp only [if_neg hfast, enqueueReport, getLast?_append, getLast?_singleton,
        some_or, hundoes, Bool.false_eq_true, if_false, happ]

/-- **Enqueueing** a report. -/
theorem enqueue_encode (h : Encodable bits rs) (r : Report) :
    (encode bits rs).enqueue bits r = some (encode bits (enqueueReport rs r)) := by
  cases r with
  | allocMemory msg | reallocMemory msg | mmapMemory msg =>
    rw [enqueueReport_of_message _ (by simp [Report.message]), encode_snoc]
    rfl
  | freeMemory ptr => exact enqueueDeletion_encode h ptr false
  | munmapMemory ptr => exact enqueueDeletion_encode h ptr true

theorem decode_append {q q' : BufferQueue} {l : List AllocationMessage}
    (hq' : q'.allocations = q.allocations ++ l) {m : Message} {r : Report}
    (h : q.decode m = some (some r)) : q'.decode m = some (some r) := by
  have hget : ∀ msg, q.allocations[m.word]? = some msg → q'.allocations[m.word]? = some msg := by
    intro msg hmsg
    rw [hq', List.getElem?_append_left (List.getElem?_eq_some_iff.mp hmsg).1, hmsg]
  obtain ⟨type, word⟩ := m
  cases type <;> simp only [BufferQueue.decode, map_eq_some_iff] at h ⊢
  case nil => exact h
  case deletion => exact h
  case munmap => exact h
  all_goals
    obtain ⟨msg, hmsg, heq⟩ := h
    exact ⟨msg, hget msg hmsg, heq⟩

theorem decode_encode (h : Encodable bits rs) :
    List.Forall₂ (fun m r => (encode bits rs).decode m = some (some r)) (encode bits rs).messages
      rs := by
  induction rs using reverseRecOn with
  | nil => exact .nil
  | append_singleton rs r ih =>
    have hall : (encode bits (rs ++ [r])).allocations =
        (encode bits rs).allocations ++ r.message.toList := by
      rw [allocations_encode, allocations_encode, filterMap_append]
      cases r <;> rfl
    have hold := (ih h.of_snoc).imp fun m r' hm => decode_append hall hm
    obtain ⟨m, hmsgs, hm⟩ : ∃ m, (encode bits (rs ++ [r])).messages =
        (encode bits rs).messages ++ [m] ∧ (encode bits (rs ++ [r])).decode m = some (some r) := by
      have hidx := h.index_lt
      have hptr := h.deletions r (by simp)
      rw [encode_snoc]
      cases r <;> refine ⟨_, rfl, ?_⟩ <;> simp_all [BufferQueue.decode, BufferQueue.push,
        Report.message, Report.type, Nat.mod_eq_of_lt, Report.ptr]
    rw [hmsgs]
    exact rel_append hold (.cons hm .nil)

theorem reportsFrom_encode (h : Encodable bits rs) (i : ℕ) :
    (encode bits rs).reportsFrom i = some (rs.drop i) := by
  have hall : ∀ {q : BufferQueue} {ms : List Message} {rs : List Report},
      List.Forall₂ (fun m r => q.decode m = some (some r)) ms rs →
        ms.mapM q.decode = some (rs.map some) := by
    intro q ms rs hrel
    induction hrel with
    | nil => rfl
    | cons hm _ ih => simp [mapM_cons, hm, ih]
  rw [BufferQueue.reportsFrom, hall (forall₂_drop i (decode_encode h)), map_some,
    reduceOption, filterMap_map]
  exact congrArg some filterMap_some

end Encode

/-! ## The invariant -/

theorem Pipeline.held_of_processing {s : Pipeline} {slot q i : ℕ}
    (h : s.consumer = .processing slot q i) : s.held = some q := by
  simp only [Pipeline.held, h]

theorem Pipeline.held_of_idle {s : Pipeline} (h : ∀ slot q i, s.consumer ≠ .processing slot q i) :
    s.held = s.queueSwapped := by
  cases hc : s.consumer with
  | processing slot q i => exact absurd hc (h slot q i)
  | outer | visit slot => simp only [Pipeline.held, hc]

/-- The pipeline has the given reports pending in its containers and taken by the consumer. -/
structure Tracks (bits : ℕ) (s : Pipeline) (pending : Fin 256 → List Report) (taken : List Report) :
    Prop where
  created : ∀ q, s.held = some q ∨ (∃ slot, s.containers slot = some q) → q < s.created
  container : ∀ slot q, s.containers slot = some q → s.queues q = encode bits (pending slot)
  noContainer : ∀ slot, s.containers slot = none → pending slot = []
  distinct : ∀ slot slot' q, s.containers slot = some q → s.containers slot' = some q → slot = slot'
  apart : ∀ slot q, s.containers slot = some q → s.held ≠ some q
  encodable : ∀ slot, Encodable bits (pending slot)
  hashed : ∀ slot, ∀ r ∈ pending slot, memoryPtrHash r.ptr = slot
  visiting : ∀ slot, s.consumer = .visit slot → s.queueSwapped ≠ none
  spare : (∀ slot q i, s.consumer ≠ .processing slot q i) →
    taken = [] ∧ ∀ q, s.queueSwapped = some q → s.queues q = .empty
  processing : ∀ slot q i, s.consumer = .processing slot q i →
    ∃ rs, s.queues q = encode bits rs ∧ Encodable bits rs ∧ taken = rs.drop i

namespace Tracks

variable {bits : ℕ} {s : Pipeline} {pending : Fin 256 → List Report} {taken : List Report}

theorem init : Tracks bits .init (fun _ => []) [] where
  created q h := by simp [Pipeline.init, Pipeline.held] at h
  container slot q h := by cases h
  noContainer _ _ := rfl
  distinct slot slot' q h := by cases h
  apart slot q h := by cases h
  encodable _ := .nil
  hashed _ r h := by cases h
  visiting slot h := by cases h
  spare _ := ⟨rfl, nofun⟩
  processing slot q i h := by cases h

section

variable (h : Tracks bits s pending taken)

include h

section Install

variable {s' : Pipeline} {slot : Fin 256} {q : ℕ} {rs taken' : List Report}
  (hcont : s'.containers = Function.update s.containers slot (some q))
  (hcre : s.created ≤ s'.created) (hlt : q < s'.created)
  (hother : ∀ slot', slot' ≠ slot → s.containers slot' ≠ some q)
  (hqueue : s'.queues q = encode bits rs) (hqueues : ∀ q', q' ≠ q → s'.queues q' = s.queues q')
  (henc : Encodable bits rs) (hhash : ∀ r ∈ rs, memoryPtrHash r.ptr = slot)

include hcont hcre hlt hother hqueue hqueues henc hhash

/-- **A queue is installed** in a container, for the reports `rs`. -/
theorem install
    (hheld : ∀ q', s'.held = some q' →
      q' < s'.created ∧ q' ≠ q ∧ ∀ slot', slot' ≠ slot → s.containers slot' ≠ some q')
    (hvisit : ∀ n, s'.consumer = .visit n → s'.queueSwapped ≠ none)
    (hspare : (∀ n q i, s'.consumer ≠ .processing n q i) →
      taken' = [] ∧ ∀ q', s'.queueSwapped = some q' → s'.queues q' = .empty)
    (hproc : ∀ n q' i, s'.consumer = .processing n q' i →
      ∃ rs, s'.queues q' = encode bits rs ∧ Encodable bits rs ∧ taken' = rs.drop i) :
    Tracks bits s' (update pending slot rs) taken' := by
  have hcas : ∀ slot' q', s'.containers slot' = some q' →
      slot' = slot ∧ q' = q ∨ slot' ≠ slot ∧ s.containers slot' = some q' := by
    intro slot' q' hq'
    by_cases heq : slot' = slot
    · rw [hcont, heq, update_self] at hq'
      exact .inl ⟨heq, (some.inj hq').symm⟩
    · rw [hcont, update_of_ne heq] at hq'
      exact .inr ⟨heq, hq'⟩
  refine
    { created := ?_, container := fun slot' q' hq' => ?_, noContainer := fun slot' hnone => ?_,
      distinct := fun a b q' ha hb => ?_, apart := fun slot' q' hq' hh => ?_,
      encodable := (forall_update_iff _ fun _ => Encodable bits).mpr ⟨henc, fun _ _ => h.encodable _⟩,
      hashed := (forall_update_iff _ fun slot rs => ∀ r ∈ rs, memoryPtrHash (Report.ptr r) = slot).mpr
        ⟨hhash, fun _ _ => h.hashed _⟩,
      visiting := hvisit, spare := hspare, processing := hproc }
  · rintro q' (hq' | ⟨slot', hq'⟩)
    · exact (hheld q' hq').1
    · rcases hcas slot' q' hq' with ⟨-, rfl⟩ | ⟨-, hold⟩
      · exact hlt
      · exact (h.created q' (.inr ⟨slot', hold⟩)).trans_le hcre
  · rcases hcas slot' q' hq' with ⟨rfl, rfl⟩ | ⟨hne, hold⟩
    · rw [update_self]
      exact hqueue
    · rw [update_of_ne hne, ← h.container slot' q' hold]
      exact hqueues q' fun heq => hother slot' hne (heq ▸ hold)
  · have hne : slot' ≠ slot := fun heq => by simp [hcont, heq] at hnone
    rw [hcont, update_of_ne hne] at hnone
    rw [update_of_ne hne]
    exact h.noContainer slot' hnone
  · rcases hcas a q' ha with ⟨rfl, rfl⟩ | ⟨hna, ha⟩ <;>
      rcases hcas b _ hb with ⟨rfl, hqb⟩ | ⟨hnb, hb⟩
    · rfl
    · exact absurd hb (hother b hnb)
    · exact absurd (hqb ▸ ha) (hother a hna)
    · exact h.distinct a b _ ha hb
  · obtain ⟨-, hne, hnone⟩ := hheld q' hh
    rcases hcas slot' q' hq' with ⟨-, heq⟩ | ⟨hne', hold⟩
    · exact hne heq
    · exact hnone slot' hne' hold

/-- The consumer does not notice what becomes of a queue that it does not hold. -/
theorem store (hfree : s.held ≠ some q) (hcons : s'.consumer = s.consumer)
    (hswap : s'.queueSwapped = s.queueSwapped) :
    Tracks bits s' (update pending slot rs) taken := by
  have hheld : s'.held = s.held := by simp only [Pipeline.held, hcons, hswap]
  have hkept : ∀ q', s.held = some q' → s'.queues q' = s.queues q' := fun q' hq' =>
    hqueues q' fun heq => hfree (heq ▸ hq')
  refine h.install hcont hcre hlt hother hqueue hqueues henc hhash (fun q' hq' => ?_) ?_ ?_ ?_
  · rw [hheld] at hq'
    exact ⟨(h.created q' (.inl hq')).trans_le hcre, fun heq => hfree (heq ▸ hq'),
      fun slot' _ hs => h.apart slot' q' hs hq'⟩
  · rw [hcons, hswap]
    exact h.visiting
  · rw [hcons, hswap]
    intro hidle
    refine ⟨(h.spare hidle).1, fun q' hq' => ?_⟩
    exact (hkept q' ((Pipeline.held_of_idle hidle).trans hq')).trans ((h.spare hidle).2 q' hq')
  · rw [hcons]
    intro n q' i hproc
    obtain ⟨rs, hrs, hrest⟩ := h.processing n q' i hproc
    exact ⟨rs, (hkept q' (Pipeline.held_of_processing hproc)).trans hrs, hrest⟩

end Install

theorem lock (slot : Fin 256) :
    ∃ q s₁, s.lock slot = (q, s₁) ∧ s₁.containers slot = some q ∧ Tracks bits s₁ pending taken ∧
      s₁.applied = s.applied := by
  cases hslot : s.containers slot with
  | some q => exact ⟨q, s, by simp [Pipeline.lock, hslot], hslot, h, rfl⟩
  | none =>
    -- the new queue is none of those in use
    have hfresh : ∀ q, (s.held = some q ∨ ∃ slot, s.containers slot = some q) → q ≠ s.created :=
      fun q hq => (h.created q hq).ne
    refine ⟨s.created, { s with
        queues := update s.queues s.created .empty, created := s.created + 1
        containers := update s.containers slot (some s.created) },
      by simp only [Pipeline.lock, hslot, Pipeline.newQueue], update_self .., ?_, rfl⟩
    have hpend : update pending slot [] = pending := by
      rw [← h.noContainer slot hslot, update_eq_self]
    rw [← hpend]
    exact h.store rfl (Nat.le_succ _) (Nat.lt_succ_self _)
      (fun slot' _ hs => hfresh _ (.inr ⟨slot', hs⟩) rfl) (update_self ..)
      (fun _ hne => update_of_ne hne ..) .nil (by simp) (fun hs => hfresh _ (.inl hs) rfl) rfl rfl

theorem index_lt {r : Report} (hfits : s.Fits bits (.report r)) (hmsg : r.message ≠ none) :
    (encode bits (pending (memoryPtrHash r.ptr))).allocations.length < 2 ^ bits := by
  have hlt : ((s.containers (memoryPtrHash r.ptr)).elim 0 fun q => (s.queues q).allocations.length) <
      2 ^ bits := by
    cases r with
    | allocMemory msg | reallocMemory msg | mmapMemory msg => exact hfits
    | freeMemory ptr | munmapMemory ptr => exact absurd rfl hmsg
  cases hslot : s.containers (memoryPtrHash r.ptr) with
  | none =>
    rw [h.noContainer _ hslot]
    exact Nat.two_pow_pos bits
  | some q =>
    rw [hslot] at hlt
    rw [← h.container _ q hslot]
    exact hlt

theorem encodable_enqueueReport {r : Report} (hfits : s.Fits bits (.report r)) :
    Encodable bits (enqueueReport (pending (memoryPtrHash r.ptr)) r) := by
  have hold := h.encodable (memoryPtrHash r.ptr)
  rcases enqueueReport_cases (pending (memoryPtrHash r.ptr)) r with
    happ | ⟨rs, a, hrs, -, hdrop⟩
  · rw [happ]
    refine hold.snoc (h.index_lt hfits) fun hmsg => ?_
    cases r with
    | allocMemory msg | reallocMemory msg | mmapMemory msg => cases hmsg
    | freeMemory ptr | munmapMemory ptr => exact hfits
  · rw [hdrop]
    rw [hrs] at hold
    exact hold.of_snoc

/-- **A report** is enqueued in the container of its pointer. -/
theorem report {r : Report} (hptr : r.ptr ≠ 0) (hfits : s.Fits bits (.report r)) :
    ∃ s', s.report bits r = some s' ∧ s'.applied = s.applied ∧
      Tracks bits s' (update pending (memoryPtrHash r.ptr)
        (enqueueReport (pending (memoryPtrHash r.ptr)) r)) taken := by
  have henc := h.encodable_enqueueReport hfits
  generalize hslot : memoryPtrHash r.ptr = slot at *
  obtain ⟨q, s₁, hlock, hq, h₁, happd⟩ := h.lock slot
  have henq := enqueue_encode (h₁.encodable slot) r
  rw [← h₁.container slot q hq] at henq
  refine ⟨{ s₁ with
      queues := update s₁.queues q (encode bits (enqueueReport (pending slot) r)) }, ?_,
    happd, ?_⟩
  · simp [Pipeline.report, hptr, hslot, hlock, henq]
  refine h₁.store (by rw [← hq, update_eq_self]) le_rfl (h₁.created q (.inr ⟨slot, hq⟩))
    (fun slot' hne hs => hne (h₁.distinct slot' slot q hs hq)) (update_self ..)
    (fun _ hne => update_of_ne hne ..) henc (fun r' hr' => ?_) (h₁.apart slot q hq) rfl rfl
  rcases enqueueReport_cases (pending slot) r with happ | ⟨rs, a, hrs, -, hdrop⟩
  · rw [happ] at hr'
    rcases mem_append.mp hr' with hr' | hr'
    · exact h₁.hashed slot r' hr'
    · rw [mem_singleton.mp hr', hslot]
  · rw [hdrop] at hr'
    exact h₁.hashed slot r' (hrs ▸ mem_append_left _ hr')

theorem withConsumer (consumer : Consumer) (hidle : ∀ slot q i, s.consumer ≠ .processing slot q i)
    (hidle' : ∀ slot q i, consumer ≠ .processing slot q i)
    (hswap : ∀ slot, consumer = .visit slot → s.queueSwapped ≠ none) :
    Tracks bits { s with consumer := consumer } pending taken := by
  have hheld : Pipeline.held { s with consumer := consumer } = s.held :=
    (Pipeline.held_of_idle hidle').trans (Pipeline.held_of_idle hidle).symm
  refine { h with
    created := fun q hq => h.created q (hheld ▸ hq)
    apart := fun slot q hq => hheld ▸ h.apart slot q hq
    visiting := hswap
    spare := fun _ => h.spare hidle
    processing := fun slot q i hproc => absurd hproc (hidle' slot q i) }

theorem newSpare (hidle : ∀ slot q i, s.consumer ≠ .processing slot q i) :
    Tracks bits { s with
      queues := update s.queues s.created .empty, created := s.created + 1
      queueSwapped := some s.created, consumer := .visit 0 } pending taken := by
  have hold : ∀ slot q, s.containers slot = some q → q < s.created := fun slot q hq =>
    h.created q (.inr ⟨slot, hq⟩)
  refine { h with
    created := fun q hq => ?_, container := fun slot q hq => ?_, apart := fun slot q hq hheld => ?_
    visiting := fun _ _ => by simp
    spare := fun _ => ⟨(h.spare hidle).1, fun q hq => ?_⟩
    processing := nofun }
  · rcases hq with hheld | ⟨slot, hq⟩
    · cases hheld
      exact Nat.lt_succ_self _
    · exact Nat.lt_succ_of_lt (hold slot q hq)
  · rw [← h.container slot q hq]
    exact update_of_ne (hold slot q hq).ne ..
  · cases hheld
    exact absurd (hold slot _ hq) (lt_irrefl _)
  · cases hq
    exact update_self ..

theorem swap {n : ℕ} (hc : s.consumer = .visit n) {slot : Fin 256} {q : ℕ}
    (hq : s.containers slot = some q) :
    Tracks bits { s with
        containers := update s.containers slot s.queueSwapped
        consumer := .processing n q 0 }
      (update pending slot []) (pending slot) := by
  have hidle : ∀ slot q i, s.consumer ≠ .processing slot q i := by simp [hc]
  obtain ⟨spare, hspare⟩ := ne_none_iff_exists'.mp (h.visiting n hc)
  have hheld : s.held = some spare := (Pipeline.held_of_idle hidle).trans hspare
  refine h.install (congrArg (update s.containers slot) hspare) le_rfl
    (h.created _ (.inl hheld)) (fun slot' _ hs => h.apart slot' spare hs hheld)
    ((h.spare hidle).2 _ hspare) (fun _ _ => rfl) .nil (by simp) (fun q' hq' => ?_)
    (nofun) (fun hidle' => absurd rfl (hidle' n q 0)) fun n' q' i hproc => ?_
  · cases hq'
    exact ⟨h.created q (.inr ⟨slot, hq⟩), fun heq => h.apart slot q hq (heq ▸ hheld),
      fun slot' hne hs => hne (h.distinct slot' slot q hs hq)⟩
  · cases hproc
    exact ⟨pending slot, h.container slot q hq, h.encodable slot, rfl⟩

theorem applyNext {slot q i : ℕ} (hc : s.consumer = .processing slot q i) {m : Message}
    (hm : (s.queues q).messages[i]? = some m) :
    ∃ r rest, (s.queues q).decode m = some (some r) ∧ taken = r :: rest ∧
      Tracks bits { s with applied := s.applied ++ [r], consumer := .processing slot q (i + 1) }
        pending rest := by
  obtain ⟨rs, hqueue, henc, rfl⟩ := h.processing slot q i hc
  have hdec := decode_encode henc
  rw [← hqueue] at hdec
  obtain ⟨hi, rfl⟩ := List.getElem?_eq_some_iff.mp hm
  have hi' : i < rs.length := hdec.length_eq ▸ hi
  have hheld : s.held = some q := Pipeline.held_of_processing hc
  refine ⟨rs[i], rs.drop (i + 1), hdec.get hi hi', drop_eq_getElem_cons hi', ?_⟩
  refine { h with
    created := fun q' hq' => h.created q' (hq'.imp_left hheld.trans)
    apart := fun slot' q' hq' heq => h.apart slot' q' hq' (hheld.trans heq)
    visiting := nofun
    spare := fun hidle => absurd rfl (hidle slot q (i + 1))
    processing := fun slot' q' i' hproc => ?_ }
  cases hproc
  exact ⟨rs, hqueue, henc, rfl⟩

theorem finish {slot q i : ℕ} (hc : s.consumer = .processing slot q i)
    (hm : (s.queues q).messages[i]? = none) :
    taken = [] ∧ Tracks bits { s with
      queues := update s.queues q .empty, queueSwapped := some q
      consumer := .visit (slot + 1) } pending taken := by
  obtain ⟨rs, hqueue, henc, rfl⟩ := h.processing slot q i hc
  have hlen := (decode_encode henc).length_eq
  rw [hqueue] at hm
  have hdrop : rs.drop i = [] :=
    drop_eq_nil_of_le (hlen ▸ getElem?_eq_none_iff.mp hm)
  have hheld : s.held = some q := Pipeline.held_of_processing hc
  refine ⟨hdrop, { h with
    created := fun q' hq' => h.created q' (hq'.imp_left hheld.trans)
    container := fun slot' q' hq' => ?_
    apart := fun slot' q' hq' heq => h.apart slot' q' hq' (hheld.trans heq)
    visiting := fun _ _ => by simp
    spare := fun _ => ⟨hdrop, fun q' hq' => ?_⟩
    processing := nofun }⟩
  · have hne : q' ≠ q := fun heq => h.apart slot' q' hq' (heq ▸ hheld)
    rw [← h.container slot' q' hq']
    exact update_of_ne hne ..
  · cases hq'
    exact update_self ..

theorem filter_pending_of_ne {slot : Fin 256} {p : ℕ} (hne : memoryPtrHash p ≠ slot) :
    (pending slot).filter (·.ptr = p) = [] := by
  refine filter_eq_nil_iff.mpr fun r hr hrp => hne ?_
  rw [← h.hashed slot r hr, of_decide_eq_true hrp]

/-- **A step of the consumer**: reports move from a container to the consumer, or from the consumer
to the log. -/
theorem consume :
    ∃ s' pending' taken', s.consume = some s' ∧ Tracks bits s' pending' taken' ∧
      (∀ p, ((s'.applied ++ taken') ++ pending' (memoryPtrHash p)).filter (·.ptr = p) =
        ((s.applied ++ taken) ++ pending (memoryPtrHash p)).filter (·.ptr = p)) ∧
      ∀ slot, s'.containers slot ≠ s.containers slot →
        ∃ q, s'.containers slot = some q ∧ s'.queues q = .empty := by
  cases hc : s.consumer with
  | outer =>
    have hidle : ∀ slot q i, s.consumer ≠ .processing slot q i := by simp [hc]
    cases hswap : s.queueSwapped with
    | some q =>
      exact ⟨{ s with consumer := .visit 0 }, pending, taken,
        by simp only [Pipeline.consume, hc, hswap],
        h.withConsumer (.visit 0) hidle (by simp) (by simp [hswap]), fun _ => rfl, fun _ hne => absurd rfl hne⟩
    | none =>
      exact ⟨_, pending, taken, by simp only [Pipeline.consume, hc, hswap, Pipeline.newQueue],
        h.newSpare hidle, fun _ => rfl, fun _ hne => absurd rfl hne⟩
  | visit n =>
    have hidle : ∀ slot q i, s.consumer ≠ .processing slot q i := by simp [hc]
    have hspare := h.visiting n hc
    by_cases hn : n < 256
    · have hnext := h.withConsumer (.visit (n + 1)) hidle (by simp) fun _ _ => hspare
      cases hq : s.containers ⟨n, hn⟩ with
      | none =>
        exact ⟨_, pending, taken, by simp [Pipeline.consume, hc, hn, hq], hnext,
          fun _ => rfl, fun _ hne => absurd rfl hne⟩
      | some q =>
        by_cases hemp : (s.queues q).messages = []
        · exact ⟨_, pending, taken, by simp [Pipeline.consume, hc, hn, hq, hemp], hnext,
            fun _ => rfl, fun _ hne => absurd rfl hne⟩
        · refine ⟨_, _, _, by simp [Pipeline.consume, hc, hn, hq, hemp],
            h.swap hc hq, fun p => ?_, fun slot hne => ?_⟩
          · rw [(h.spare hidle).1]
            by_cases hp : memoryPtrHash p = ⟨n, hn⟩
            · rw [hp]
              simp
            · rw [update_of_ne hp]
              simp [h.filter_pending_of_ne hp]
          · by_cases heq : slot = ⟨n, hn⟩
            · obtain ⟨spare, hswap⟩ := ne_none_iff_exists'.mp hspare
              refine ⟨spare, ?_, (h.spare hidle).2 spare hswap⟩
              rw [heq]
              exact (update_self ..).trans hswap
            · exact absurd (update_of_ne heq ..) hne
    · exact ⟨{ s with consumer := .outer }, pending, taken,
        by simp [Pipeline.consume, hc, hn],
        h.withConsumer .outer hidle (by simp) (by simp), fun _ => rfl, fun _ hne => absurd rfl hne⟩
  | processing n q i =>
    cases hm : (s.queues q).messages[i]? with
    | some m =>
      obtain ⟨r, rest, hdec, rfl, hnext⟩ := h.applyNext hc hm
      exact ⟨_, pending, rest, by simp [Pipeline.consume, hc, hm, hdec], hnext, fun p => by simp,
        fun _ hne => absurd rfl hne⟩
    | none =>
      obtain ⟨rfl, hnext⟩ := h.finish hc hm
      exact ⟨_, pending, [], by simp only [Pipeline.consume, hc, hm], hnext, fun _ => rfl,
        fun _ hne => absurd rfl hne⟩

theorem pending_eq (slot : Fin 256) : s.pending slot = some (pending slot) := by
  cases hq : s.containers slot with
  | none => simp only [Pipeline.pending, hq, h.noContainer slot hq]
  | some q =>
    simp [Pipeline.pending, hq, h.container slot q hq, reportsFrom_encode (h.encodable slot)]

theorem taken_eq : s.taken = some taken := by
  cases hc : s.consumer with
  | processing slot q i =>
    obtain ⟨rs, hqueue, henc, rfl⟩ := h.processing slot q i hc
    simp only [Pipeline.taken, hc, hqueue, reportsFrom_encode henc]
  | outer | visit slot =>
    obtain ⟨rfl, -⟩ := h.spare (by simp [hc])
    simp only [Pipeline.taken, hc]

end

end Tracks

/-! ## Runs -/

namespace Pipeline

/-- The reports for a pointer in a run. The null pointer is not reported. -/
def sent (ptr : ℕ) (xs : List Step) : List Report :=
  xs.filterMap fun
    | .report r => if r.ptr = ptr ∧ ptr ≠ 0 then some r else none
    | .consume => none

theorem sent_append_report (p : ℕ) (xs : List Step) (r : Report) (hptr : r.ptr ≠ 0) :
    sent p (xs ++ [.report r]) = sent p xs ++ if r.ptr = p then [r] else [] := by
  by_cases hp : r.ptr = p
  · have hne : r.ptr = p ∧ p ≠ 0 := ⟨hp, hp ▸ hptr⟩
    simp [sent, hne]
  · simp [sent, hp]

theorem sent_append_null (p : ℕ) (xs : List Step) (r : Report) (hptr : r.ptr = 0) :
    sent p (xs ++ [.report r]) = sent p xs := by
  have hnot : ¬ (r.ptr = p ∧ p ≠ 0) := fun hp => hp.2 (hp.1.symm.trans hptr)
  simp [sent, hnot]

theorem sent_append_consume (p : ℕ) (xs : List Step) : sent p (xs ++ [.consume]) = sent p xs := by
  simp [sent]

/-- The second list is the first without pairs of an allocation and the deletion that took it back.
-/
inductive Cancels : List Report → List Report → Prop
  | nil : Cancels [] []
  | keep {sent kept : List Report} {r : Report} (h : Cancels sent kept) :
      Cancels (sent ++ [r]) (kept ++ [r])
  | cancel {sent kept : List Report} {a d : Report} (h : Cancels sent (kept ++ [a]))
      (hundoes : d.undoes a) : Cancels (sent ++ [d]) kept

/-- The pipeline has lost and added nothing but cancelled pairs, pointer by pointer. -/
def Flows (bits : ℕ) (past : List Step) (s : Pipeline) : Prop :=
  ∃ pending taken, Tracks bits s pending taken ∧
    ∀ p, Cancels (sent p past) (((s.applied ++ taken) ++ pending (memoryPtrHash p)).filter (·.ptr = p))

theorem ptr_eq_of_undoes {d a : Report} (h : d.undoes a) : a.ptr = d.ptr := by
  cases d <;> cases a <;> simp_all [Report.undoes, Report.ptr]

theorem cancels_enqueueReport {before rs : List Report} {r : Report} {p : ℕ}
    {sent : List Report} (h : Cancels sent ((before ++ rs).filter (·.ptr = p))) :
    Cancels (sent ++ if r.ptr = p then [r] else [])
      ((before ++ enqueueReport rs r).filter (·.ptr = p)) := by
  rcases enqueueReport_cases rs r with happ | ⟨rs', a, rfl, hundoes, hdrop⟩
  · rw [happ]
    by_cases hp : r.ptr = p
    · simpa [hp] using h.keep
    · simpa [hp] using h
  · rw [hdrop]
    rw [← append_assoc, filter_append] at h
    have hptr := ptr_eq_of_undoes hundoes
    by_cases hp : r.ptr = p
    · rw [if_pos hp]
      have ha : [a].filter (·.ptr = p) = [a] := by simp [hptr, hp]
      rw [ha] at h
      exact h.cancel hundoes
    · have ha : [a].filter (·.ptr = p) = [] := by simp [hptr, hp]
      rw [ha] at h
      simpa [hp] using h

/-- **One step** of a producer or the consumer. -/
theorem Flows.step {bits : ℕ} {past : List Step} {s : Pipeline} (h : Flows bits past s) {x : Step}
    (hfits : s.Fits bits x) : ∃ s', s.step bits x = some s' ∧ Flows bits (past ++ [x]) s' := by
  obtain ⟨pending, taken, htrks, hcanc⟩ := h
  cases x with
  | consume =>
    obtain ⟨s', pending', taken', hcons, htrks', hflow, -⟩ := htrks.consume
    refine ⟨s', hcons, pending', taken', htrks', fun p => ?_⟩
    rw [hflow p, sent_append_consume]
    exact hcanc p
  | report r =>
    by_cases hptr : r.ptr = 0
    · refine ⟨s, if_pos hptr, pending, taken, htrks, fun p => ?_⟩
      rw [sent_append_null p past r hptr]
      exact hcanc p
    · obtain ⟨s', hrep, happd, htrks'⟩ := htrks.report hptr hfits
      refine ⟨s', hrep, _, taken, htrks', fun p => ?_⟩
      rw [sent_append_report p past r hptr, happd]
      by_cases hslot : memoryPtrHash p = memoryPtrHash r.ptr
      · rw [hslot, update_self]
        exact cancels_enqueueReport (hslot ▸ hcanc p)
      · rw [update_of_ne hslot, if_neg fun hp : r.ptr = p => hslot (by rw [hp]),
          append_nil]
        exact hcanc p

/-- No two containers share a queue, and none has the queue of the consumer. -/
def QueuesDistinct (s : Pipeline) : Prop :=
  ∀ slot q, s.containers slot = some q →
    (∀ slot', s.containers slot' = some q → slot' = slot) ∧ s.held ≠ some q

/-- **The message pipeline**: in every interleaving in which pointers and indices fit their messages, no
message refers to a missing allocation. All queues are distinct, and one that the consumer installs
is empty; a report is appended to the queue of its container unless it takes back the allocation it
directly follows; and for every pointer, what has been applied and is still waiting is what has been
reported, in order, without the pairs that were taken back. -/
theorem run_applies_in_order (bits : ℕ) (xs : List Step)
    (hfits : TryMeets (step bits) (Fits bits) init xs) :
    ∃ s, tryRun (step bits) init xs = some s ∧ s.QueuesDistinct ∧
      (∃ s', s.consume = some s' ∧ ∀ slot, s'.containers slot ≠ s.containers slot →
        ∃ q, s'.containers slot = some q ∧ s'.queues q = .empty) ∧
      (∀ r : Report, r.ptr ≠ 0 → s.Fits bits (.report r) →
        ∃ s' before, s.report bits r = some s' ∧ s.pending (memoryPtrHash r.ptr) = some before ∧
          s'.pending (memoryPtrHash r.ptr) = some (enqueueReport before r)) ∧
      ∀ p, ∃ waiting, s.waiting p = some waiting ∧
        Cancels (sent p xs) (s.applied.filter (·.ptr = p) ++ waiting) := by
  have hstart : Flows bits [] init := ⟨_, _, Tracks.init, fun p => .nil⟩
  obtain ⟨s, hrun, pending, taken, htrks, hcanc⟩ :=
    tryRun_of_invariant (fun past s x (hinv : Flows bits past s) hx => hinv.step hx) hstart hfits
  refine ⟨s, hrun, fun slot q hq => ⟨fun slot' hq' => htrks.distinct slot' slot q hq' hq,
    htrks.apart slot q hq⟩, ?_, fun r hptr hr => ?_, fun p => ?_⟩
  · obtain ⟨s', -, -, hcons, -, -, hinst⟩ := htrks.consume
    exact ⟨s', hcons, hinst⟩
  · obtain ⟨s', hrep, -, htrks'⟩ := htrks.report hptr hr
    refine ⟨s', _, hrep, htrks.pending_eq _, ?_⟩
    rw [htrks'.pending_eq, update_self]
  · refine ⟨(taken ++ pending (memoryPtrHash p)).filter (·.ptr = p), ?_, ?_⟩
    · simp [waiting, htrks.taken_eq, htrks.pending_eq]
    · have hall := hcanc p
      rwa [append_assoc, filter_append] at hall

/-- An allocation at an address of the first container. -/
def sampleAllocation (ptr : ℕ) : Report := .allocMemory ⟨ptr, 40, 8, [], by decide⟩

/-- Two allocations of the first container, the second taken back while the consumer holds the queue
with the first, and the deletion of the first after that. -/
def interleaved : List Step :=
  [.consume, .report (sampleAllocation 256), .consume, .report (sampleAllocation 512), .consume,
    .report (.freeMemory 512), .report (.freeMemory 256)]

theorem run_applies_in_order_interleaved :
    ∃ s, TryMeets (step 56) (Fits 56) init interleaved ∧ tryRun (step 56) init interleaved = some s ∧
      s.QueuesDistinct ∧ ∀ p, ∃ waiting, s.waiting p = some waiting ∧
        Cancels (sent p interleaved) (s.applied.filter (·.ptr = p) ++ waiting) := by
  have hfits : TryMeets (step 56) (Fits 56) init interleaved := by decide +kernel
  obtain ⟨s, hrun, hdist, -, -, hcanc⟩ := run_applies_in_order 56 interleaved hfits
  exact ⟨s, hfits, hrun, hdist, hcanc⟩

/-- A pointer with a tag in its top byte, and its address. -/
def taggedAllocation : List Step :=
  [.consume, .report (sampleAllocation (2 ^ 56 + 256)), .consume,
    .report (.freeMemory (2 ^ 56 + 256))] ++ List.replicate 270 .consume

/-- Between the swap and the reset, `queue_swapped_` is the queue of the container; and the deletion
of a tagged pointer is applied to another one. -/
theorem run_aliases_queueSwapped :
    ((tryRun (step 56) init [.consume, .report (sampleAllocation 256), .consume]).map fun s =>
      (s.containers 0, s.queueSwapped)) = some (some 0, some 0) ∧
    ((tryRun (step 56) init taggedAllocation).map fun s => s.applied) =
      some [sampleAllocation (2 ^ 56 + 256), .freeMemory 256] := by
  decide +kernel

end Pipeline

end TraceHarbor.Hooks
