import TraceHarbor.Lib.Run

/-!
# Stateful Owners and Their Observers

A `StatefulOwner` has a state and tells its observers when the state changes. What an asynchronous owner
has to say to a serial observer is posted to the handler of the lifecycle thread, which runs its messages
in their order; for another observer it is given to the executor, whose tasks run in any order.
-/

namespace TraceHarbor.Lifecycle

open Lib List

/-! ## Owners -/

/-- What an observer is told: one of its two functions is called. -/
inductive Signal where
  | on
  | off
deriving DecidableEq

inductive State where
  | init
  | on
  | off
deriving DecidableEq

/-- The function of an observer that goes with the state; none for the first state. -/
def State.dispatch : State → Option Signal
  | .init => none
  | .on => some .on
  | .off => some .off

/-- A state, and the keys of `observerMap`. -/
structure StatefulOwner (ο : Type*) where
  state : State
  observers : List ο

namespace StatefulOwner

variable {ο : Type*} [DecidableEq ο] (owner : StatefulOwner ο)

def new : StatefulOwner ο := ⟨.init, []⟩

def active : Bool := owner.state = .on

/-- What the observers are told, in the order in which the map enumerates them. -/
def dispatchStateChanged (enumerate : List ο → List ο) : List (ο × Signal) :=
  match owner.state.dispatch with
  | none => []
  | some signal => (enumerate owner.observers).map fun observer => (observer, signal)

def turn (enumerate : List ο → List ο) (state : State) : StatefulOwner ο × List (ο × Signal) :=
  if owner.state = state then (owner, [])
  else ({ owner with state }, dispatchStateChanged { owner with state } enumerate)

def turnOn (enumerate : List ο → List ο) : StatefulOwner ο × List (ο × Signal) :=
  owner.turn enumerate .on

def turnOff (enumerate : List ο → List ο) : StatefulOwner ο × List (ο × Signal) :=
  owner.turn enumerate .off

/-- An observer that is not known yet is told the state. -/
def observeForever (observer : ο) : StatefulOwner ο × List (ο × Signal) :=
  if observer ∈ owner.observers then (owner, [])
  else ({ owner with observers := owner.observers ++ [observer] },
    owner.state.dispatch.toList.map fun signal => (observer, signal))

def removeObserver (observer : ο) : StatefulOwner ο :=
  { owner with observers := owner.observers.filter (· ≠ observer) }

end StatefulOwner

/-! ## Asynchronous dispatch -/

/-- Which observers are serial, and in which order a map enumerates its keys. -/
structure Observation (ο : Type*) where
  serial : ο → Bool
  enumerate : List ο → List ο
  perm : ∀ keys, (enumerate keys).Perm keys

/-- The calls of threads, and the steps of the handler and of the executor, which may run any of its
tasks. -/
inductive OwnerOp (ο : Type*) where
  | turnOn
  | turnOff
  | observeForever (observer : ο)
  | removeObserver (observer : ο)
  | handle
  | execute (task : ℕ)

/-- An owner, the messages of the handler, the tasks of the executor, and what the observers have
been told. -/
structure AsyncOwner (ο : Type*) where
  owner : StatefulOwner ο
  handler : List (ο × Signal)
  executor : List (ο × Signal)
  received : ο → List Signal

namespace AsyncOwner

variable {ο : Type*} [DecidableEq ο] (world : Observation ο) (s : AsyncOwner ο)

def new : AsyncOwner ο := ⟨.new, [], [], fun _ => []⟩

/-- `invokeAsync` for everything that an operation dispatches. -/
def invokeAsync (result : StatefulOwner ο × List (ο × Signal)) : AsyncOwner ο :=
  { s with
    owner := result.1
    handler := s.handler ++ result.2.filter fun message => world.serial message.1
    executor := s.executor ++ result.2.filter fun message => ¬ world.serial message.1 }

def deliver (message : ο × Signal) : AsyncOwner ο :=
  { s with received := Function.update s.received message.1 (s.received message.1 ++ [message.2]) }

def step : OwnerOp ο → AsyncOwner ο
  | .turnOn => s.invokeAsync world (s.owner.turnOn world.enumerate)
  | .turnOff => s.invokeAsync world (s.owner.turnOff world.enumerate)
  | .observeForever observer => s.invokeAsync world (s.owner.observeForever observer)
  | .removeObserver observer => { s with owner := s.owner.removeObserver observer }
  | .handle =>
    match s.handler with
    | [] => s
    | message :: messages => deliver { s with handler := messages } message
  | .execute task =>
    match s.executor[task]? with
    | none => s
    | some message => deliver { s with executor := s.executor.eraseIdx task } message

def pending (observer : ο) (messages : List (ο × Signal)) : List Signal :=
  (messages.filter fun message => message.1 = observer).map Prod.snd

end AsyncOwner

/-! ## Histories -/

section History

variable {ο : Type*}

def State.next (state : State) : OwnerOp ο → State
  | .turnOn => .on
  | .turnOff => .off
  | _ => state

/-- The state changes of operations, from a state. -/
def changes : State → List (OwnerOp ο) → List Signal
  | _, [] => []
  | state, op :: ops =>
    (if state.next op = state then [] else (state.next op).dispatch.toList) ++
      changes (state.next op) ops

def history (state : State) (ops : List (OwnerOp ο)) : List Signal :=
  state.dispatch.toList ++ changes state ops

end History

namespace AsyncOwner

variable {ο : Type*} [DecidableEq ο] {world : Observation ο} {s : AsyncOwner ο} {observer : ο}

/-! ## What is told to one observer -/

section Pending

theorem pending_append (messages messages' : List (ο × Signal)) :
    pending observer (messages ++ messages') =
      pending observer messages ++ pending observer messages' := by
  rw [pending, filter_append, map_append]
  rfl

theorem pending_cons_self (signal : Signal) (messages : List (ο × Signal)) :
    pending observer ((observer, signal) :: messages) = signal :: pending observer messages := by
  rw [pending, filter_cons_of_pos (by simp)]
  rfl

theorem pending_cons_of_ne {message : ο × Signal} (h : message.1 ≠ observer)
    (messages : List (ο × Signal)) :
    pending observer (message :: messages) = pending observer messages := by
  rw [pending, filter_cons_of_neg (by simpa using h)]
  rfl

theorem pending_filter_serial (hserial : world.serial observer = true)
    (messages : List (ο × Signal)) :
    pending observer (messages.filter fun message => world.serial message.1) =
      pending observer messages := by
  rw [pending, filter_filter]
  refine congrArg (map Prod.snd) (filter_congr fun message _ => ?_)
  by_cases hto : message.1 = observer
  · simp [hto, hserial]
  · simp [hto]

theorem pending_dispatch {observers : List ο} (hnd : observers.Nodup)
    (hmem : observer ∈ observers) (signal : Signal) :
    pending observer ((world.enumerate observers).map fun o => (o, signal)) = [signal] := by
  have hperm := world.perm observers
  have hfilt : (world.enumerate observers).filter (· = observer) = [observer] := by
    rw [filter_eq, count_eq_one_of_mem (hperm.nodup_iff.mpr hnd)
      (hperm.mem_iff.mpr hmem), replicate_one]
  rw [pending, filter_map, map_map]
  change ((world.enumerate observers).filter (· = observer)).map (fun _ => signal) = [signal]
  rw [hfilt]
  rfl

end Pending

/-! ## Invariants of the steps -/

section Steps

omit [DecidableEq ο] in
theorem turn_eq (owner : StatefulOwner ο) (state : State) :
    owner.turn world.enumerate state = (⟨state, owner.observers⟩,
      if owner.state = state then [] else
        match state.dispatch with
        | none => []
        | some signal => (world.enumerate owner.observers).map fun o => (o, signal)) := by
  rw [StatefulOwner.turn]
  split_ifs with hstate
  · rw [← hstate]
  · rfl

theorem state_step (op : OwnerOp ο) : (s.step world op).owner.state = s.owner.state.next op := by
  cases op with
  | turnOn => rw [step, StatefulOwner.turnOn, turn_eq]; rfl
  | turnOff => rw [step, StatefulOwner.turnOff, turn_eq]; rfl
  | observeForever o =>
    rw [step, StatefulOwner.observeForever]
    split_ifs <;> rfl
  | removeObserver o => rfl
  | handle | execute task =>
    rw [step]
    split <;> rfl

/-- Keys come once, and tasks are for observers that are not serial. -/
structure Sound (world : Observation ο) (s : AsyncOwner ο) : Prop where
  nodup : s.owner.observers.Nodup
  tasks : ∀ message ∈ s.executor, world.serial message.1 = false

omit [DecidableEq ο] in
theorem sound_invokeAsync (h : Sound world s) {result : StatefulOwner ο × List (ο × Signal)}
    (hnd : result.1.observers.Nodup) : Sound world (s.invokeAsync world result) := by
  refine ⟨hnd, fun message hmsg => ?_⟩
  rcases mem_append.mp hmsg with hold | hnew
  · exact h.tasks message hold
  · simpa using (mem_filter.mp hnew).2

theorem sound_step (h : Sound world s) (op : OwnerOp ο) : Sound world (s.step world op) := by
  cases op with
  | turnOn =>
    refine sound_invokeAsync h ?_
    rw [StatefulOwner.turnOn, turn_eq]
    exact h.nodup
  | turnOff =>
    refine sound_invokeAsync h ?_
    rw [StatefulOwner.turnOff, turn_eq]
    exact h.nodup
  | observeForever o =>
    refine sound_invokeAsync h ?_
    rw [StatefulOwner.observeForever]
    split_ifs with hmem
    · exact h.nodup
    · exact nodup_append.mpr ⟨h.nodup, nodup_singleton o, by
        rintro a ha b hb rfl
        exact hmem (mem_singleton.mp hb ▸ ha)⟩
  | removeObserver o => exact ⟨h.nodup.filter _, h.tasks⟩
  | handle =>
    rw [step]
    split
    · exact h
    · exact ⟨h.nodup, h.tasks⟩
  | execute task =>
    rw [step]
    split
    · exact h
    · exact ⟨h.nodup, fun message hmsg => h.tasks message (mem_of_mem_eraseIdx hmsg)⟩

end Steps

/-! ## What a serial observer has been told and will be told -/

section Told

/-- What the observer has been told, and what is posted for it. -/
def told (observer : ο) (s : AsyncOwner ο) : List Signal :=
  s.received observer ++ pending observer s.handler

theorem told_invokeAsync (hserial : world.serial observer = true)
    (result : StatefulOwner ο × List (ο × Signal)) :
    told observer (s.invokeAsync world result) = told observer s ++ pending observer result.2 := by
  rw [told, invokeAsync, pending_append, pending_filter_serial hserial, ← append_assoc]
  rfl

theorem told_handle : told observer (s.step world .handle) = told observer s := by
  rw [step]
  split
  · rfl
  · rename_i message messages hhand
    rw [told, told, hhand]
    by_cases hto : message.1 = observer
    · subst hto
      rw [pending_cons_self]
      simp [deliver]
    · rw [pending_cons_of_ne hto]
      simp [deliver, Function.update_of_ne (Ne.symm hto)]

theorem told_execute (hserial : world.serial observer = true) (h : Sound world s) (task : ℕ) :
    told observer (s.step world (.execute task)) = told observer s := by
  rw [step]
  split
  · rfl
  · rename_i message hmsg
    have hto : observer ≠ message.1 := by
      rintro rfl
      have htask := h.tasks message (mem_of_getElem? hmsg)
      exact absurd (hserial.symm.trans htask) (by decide)
    rw [told, told]
    simp [deliver, Function.update_of_ne hto]

theorem pending_turn (h : Sound world s) (state : State) :
    pending observer (s.owner.turn world.enumerate state).2 =
      if observer ∈ s.owner.observers ∧ s.owner.state ≠ state then state.dispatch.toList else [] := by
  rw [turn_eq]
  by_cases hstate : s.owner.state = state
  · simp [hstate, pending]
  · by_cases hmem : observer ∈ s.owner.observers
    · simp only [if_neg hstate]
      rw [if_pos ⟨hmem, hstate⟩]
      cases state with
      | init => rfl
      | on => exact pending_dispatch h.nodup hmem .on
      | off => exact pending_dispatch h.nodup hmem .off
    · have hnone : ∀ signal, pending observer
          ((world.enumerate s.owner.observers).map fun o => (o, signal)) = [] := by
        intro signal
        rw [pending, map_eq_nil_iff, filter_eq_nil_iff]
        intro message hmsg
        obtain ⟨o, ho, rfl⟩ := mem_map.mp hmsg
        have ho' := (world.perm _).mem_iff.mp ho
        simpa using fun heq : o = observer => hmem (heq ▸ ho')
      simp only [if_neg hstate]
      rw [if_neg fun hboth => hmem hboth.1]
      cases state with
      | init => rfl
      | on => exact hnone .on
      | off => exact hnone .off

theorem pending_observeForever (o : ο) :
    pending observer (s.owner.observeForever o).2 =
      if o = observer ∧ observer ∉ s.owner.observers then s.owner.state.dispatch.toList else [] := by
  rw [StatefulOwner.observeForever]
  by_cases ho : o = observer
  · subst ho
    split_ifs with hmem hnot hnot
    · exact absurd hmem hnot.2
    · rfl
    · cases s.owner.state.dispatch with
      | none => rfl
      | some signal => exact pending_cons_self signal []
    · exact absurd ⟨rfl, hmem⟩ hnot
  · have hnot : ¬ (o = observer ∧ observer ∉ s.owner.observers) := fun hboth => ho hboth.1
    split_ifs
    · rfl
    · cases s.owner.state.dispatch with
      | none => rfl
      | some signal => exact @pending_cons_of_ne _ _ observer (o, signal) ho []

end Told

/-! ## Before and after the registration -/

section Registration

/-- The observer is unknown to the owner, and nothing is told to it. -/
structure Unknown (world : Observation ο) (observer : ο) (s : AsyncOwner ο) : Prop where
  sound : Sound world s
  not_observing : observer ∉ s.owner.observers
  told_nil : told observer s = []

/-- The observer is registered, and it is told `past`. -/
structure Registered (world : Observation ο) (observer : ο) (past : List Signal)
    (s : AsyncOwner ο) : Prop where
  sound : Sound world s
  observing : observer ∈ s.owner.observers
  told_eq : told observer s = past

variable (hserial : world.serial observer = true)
include hserial

theorem unknown_step (h : Unknown world observer s) {op : OwnerOp ο}
    (hop : op ≠ .observeForever observer) : Unknown world observer (s.step world op) := by
  have hturn : ∀ state, Unknown world observer
      (s.invokeAsync world (s.owner.turn world.enumerate state)) := by
    intro state
    refine ⟨sound_invokeAsync h.sound (by rw [turn_eq]; exact h.sound.nodup), ?_, ?_⟩
    · rw [turn_eq]
      exact h.not_observing
    · rw [told_invokeAsync hserial, pending_turn h.sound, if_neg fun hboth =>
        h.not_observing hboth.1, h.told_nil]
      rfl
  cases op with
  | turnOn => exact hturn .on
  | turnOff => exact hturn .off
  | observeForever o =>
    have ho : o ≠ observer := fun heq => hop (by rw [heq])
    refine ⟨sound_step h.sound _, ?_, ?_⟩
    · rw [step, invokeAsync, StatefulOwner.observeForever]
      split_ifs
      · exact h.not_observing
      · simpa [Ne.symm ho] using h.not_observing
    · rw [step, told_invokeAsync hserial, pending_observeForever, if_neg fun hboth => ho hboth.1,
        h.told_nil]
      rfl
  | removeObserver o =>
    exact ⟨sound_step h.sound _, fun hmem => h.not_observing (mem_filter.mp hmem).1, h.told_nil⟩
  | handle =>
    refine ⟨sound_step h.sound _, ?_, by rw [told_handle, h.told_nil]⟩
    rw [step]
    split <;> exact h.not_observing
  | execute task =>
    refine ⟨sound_step h.sound _, ?_, by rw [told_execute hserial h.sound, h.told_nil]⟩
    rw [step]
    split <;> exact h.not_observing

theorem registered_observeForever (h : Unknown world observer s) :
    Registered world observer s.owner.state.dispatch.toList
      (s.step world (.observeForever observer)) := by
  refine ⟨sound_step h.sound _, ?_, ?_⟩
  · rw [step, invokeAsync, StatefulOwner.observeForever, if_neg h.not_observing]
    simp
  · rw [step, told_invokeAsync hserial, pending_observeForever, if_pos ⟨rfl, h.not_observing⟩,
      h.told_nil, nil_append]

/-- **One step** tells a registered observer the change of the state, if there is one. -/
theorem registered_step {past : List Signal} (h : Registered world observer past s)
    {op : OwnerOp ο} (hop : op ≠ .removeObserver observer) :
    Registered world observer (past ++ if s.owner.state.next op = s.owner.state then [] else
      (s.owner.state.next op).dispatch.toList) (s.step world op) := by
  have hturn : ∀ state, Registered world observer
      (past ++ if state = s.owner.state then [] else state.dispatch.toList)
      (s.invokeAsync world (s.owner.turn world.enumerate state)) := by
    intro state
    refine ⟨sound_invokeAsync h.sound (by rw [turn_eq]; exact h.sound.nodup), ?_, ?_⟩
    · rw [turn_eq]
      exact h.observing
    · rw [told_invokeAsync hserial, pending_turn h.sound, h.told_eq]
      by_cases hstate : s.owner.state = state
      · rw [if_neg fun hboth => hboth.2 hstate, if_pos hstate.symm]
      · rw [if_pos ⟨h.observing, hstate⟩, if_neg fun heq => hstate heq.symm]
  have hsame : ∀ s', Sound world s' → observer ∈ s'.owner.observers → told observer s' = past →
      Registered world observer (past ++ if s.owner.state = s.owner.state then [] else
        s.owner.state.dispatch.toList) s' := by
    intro s' hsound hmem htold
    rw [if_pos rfl, append_nil]
    exact ⟨hsound, hmem, htold⟩
  cases op with
  | turnOn => exact hturn .on
  | turnOff => exact hturn .off
  | observeForever o =>
    refine hsame _ (sound_step h.sound _) ?_ ?_
    · rw [step, StatefulOwner.observeForever]
      split_ifs
      · exact h.observing
      · exact mem_append_left _ h.observing
    · rw [step, told_invokeAsync hserial, pending_observeForever, if_neg fun hboth =>
        hboth.2 h.observing, h.told_eq, append_nil]
  | removeObserver o =>
    have ho : observer ≠ o := fun heq => hop (by rw [heq])
    exact hsame _ (sound_step h.sound _)
      (mem_filter.mpr ⟨h.observing, by simpa using ho⟩) h.told_eq
  | handle =>
    refine hsame _ (sound_step h.sound _) ?_ (by rw [told_handle, h.told_eq])
    rw [step]
    split <;> exact h.observing
  | execute task =>
    refine hsame _ (sound_step h.sound _) ?_ (by rw [told_execute hserial h.sound, h.told_eq])
    rw [step]
    split <;> exact h.observing

/-- **A whole run** without the registration leaves the observer unknown. -/
theorem unknown_run (ops : List (OwnerOp ο)) (h : Unknown world observer s)
    (hops : OwnerOp.observeForever observer ∉ ops) :
    Unknown world observer (run (step world) s ops) := by
  induction ops generalizing s with
  | nil => exact h
  | cons op ops ih =>
    have hop := ne_of_not_mem_cons hops
    exact ih (unknown_step hserial h (Ne.symm hop)) (not_mem_of_not_mem_cons hops)

/-- **A whole run** tells a registered observer all changes. -/
theorem registered_run (ops : List (OwnerOp ο)) {past : List Signal}
    (h : Registered world observer past s) (hops : OwnerOp.removeObserver observer ∉ ops) :
    Registered world observer (past ++ changes s.owner.state ops) (run (step world) s ops) := by
  induction ops generalizing s past with
  | nil =>
    rw [changes, append_nil]
    exact h
  | cons op ops ih =>
    have hop := ne_of_not_mem_cons hops
    have hrest := ih (registered_step hserial h (Ne.symm hop)) (not_mem_of_not_mem_cons hops)
    rw [state_step, append_assoc] at hrest
    exact hrest

end Registration

end AsyncOwner

/-! ## Histories -/

section Histories

variable {ο : Type*}

variable {op : OwnerOp ο}

theorem exists_signal_of_change {state : State} (h : state.next op ≠ state) :
    ∃ signal, (state.next op).dispatch = some signal ∧ state.dispatch ≠ some signal := by
  cases op with
  | turnOn =>
    refine ⟨.on, rfl, ?_⟩
    cases state with
    | on => exact absurd rfl h
    | init => nofun
    | off => nofun
  | turnOff =>
    refine ⟨.off, rfl, ?_⟩
    cases state with
    | off => exact absurd rfl h
    | init => nofun
    | on => nofun
  | _ => exact absurd rfl h

theorem history_cons_of_same {state : State} (h : state.next op = state)
    (ops : List (OwnerOp ο)) : history state (op :: ops) = history state ops := by
  rw [history, changes, if_pos h, h]
  rfl

theorem history_cons_of_change {state : State} (h : state.next op ≠ state)
    (ops : List (OwnerOp ο)) :
    history state (op :: ops) = state.dispatch.toList ++ history (state.next op) ops := by
  rw [history, changes, if_neg h]
  rfl

theorem getLast?_history (state : State) (ops : List (OwnerOp ο)) :
    (history state ops).getLast? = (ops.foldl State.next state).dispatch := by
  induction ops generalizing state with
  | nil =>
    cases state <;> rfl
  | cons op ops ih =>
    by_cases hsame : state.next op = state
    · rw [history_cons_of_same hsame, ih, foldl_cons, hsame]
    · obtain ⟨signal, hsign, -⟩ := exists_signal_of_change hsame
      have hne : history (state.next op) ops ≠ [] := by
        rw [history, hsign]
        nofun
      rw [history_cons_of_change hsame, getLast?_append_of_ne_nil _ hne, ih, foldl_cons]

theorem isChain_history (state : State) (ops : List (OwnerOp ο)) :
    (history state ops).IsChain (· ≠ ·) := by
  induction ops generalizing state with
  | nil =>
    rw [history, changes]
    cases state <;> simp [State.dispatch]
  | cons op ops ih =>
    by_cases hsame : state.next op = state
    · rw [history_cons_of_same hsame]
      exact ih state
    · obtain ⟨signal, hsign, hoth⟩ := exists_signal_of_change hsame
      rw [history_cons_of_change hsame]
      cases hstate : state.dispatch with
      | none => exact ih _
      | some before =>
        have hfst : history (state.next op) ops = signal :: changes (state.next op) ops := by
          rw [history, hsign]
          rfl
        have hrest := ih (state.next op)
        rw [hfst] at hrest ⊢
        refine isChain_cons_cons.mpr ⟨?_, hrest⟩
        rintro rfl
        exact hoth hstate

end Histories

namespace AsyncOwner

variable {ο : Type*} [DecidableEq ο]

theorem state_run (world : Observation ο) (s : AsyncOwner ο) (ops : List (OwnerOp ο)) :
    (run (step world) s ops).owner.state = ops.foldl State.next s.owner.state := by
  induction ops generalizing s with
  | nil => rfl
  | cons op ops ih => exact (ih _).trans (congrArg (ops.foldl State.next) (state_step op))

/-- **A serial observer is told the exact history**: the state at its registration and every later
change in order. What it has been told is the history but for the messages that the handler still
has for it; the history alternates, and its last signal is the state of the owner. -/
theorem serial_observer_history (world : Observation ο) (observer : ο)
    (hserial : world.serial observer = true) (before after : List (OwnerOp ο))
    (hfirst : OwnerOp.observeForever observer ∉ before)
    (hkept : OwnerOp.removeObserver observer ∉ after) :
    let registered := run (step world) new before
    let final := run (step world) new (before ++ .observeForever observer :: after)
    let told := history registered.owner.state after
    final.received observer ++ pending observer final.handler = told ∧
      told.IsChain (· ≠ ·) ∧
      (final.handler = [] → final.received observer = told ∧
        (final.received observer).getLast? = final.owner.state.dispatch) := by
  have hnew : Unknown world observer new := ⟨⟨nodup_nil, nofun⟩, not_mem_nil, rfl⟩
  have hreg := registered_observeForever hserial (unknown_run hserial before hnew hfirst)
  have hfin := registered_run hserial after hreg hkept
  have hrun : run (step world) new (before ++ .observeForever observer :: after) =
      run (step world) ((run (step world) new before).step world (.observeForever observer)) after :=
    run_append ..
  have htold : AsyncOwner.told observer
      (run (step world) new (before ++ .observeForever observer :: after)) =
      history (run (step world) new before).owner.state after := by
    rw [hrun, hfin.told_eq, state_step]
    rfl
  refine ⟨htold, isChain_history _ _, fun hemp => ?_⟩
  have hrec : (run (step world) new (before ++ .observeForever observer :: after)).received
      observer = history (run (step world) new before).owner.state after := by
    rw [AsyncOwner.told, hemp] at htold
    simpa [pending] using htold
  refine ⟨hrec, ?_⟩
  rw [hrec, getLast?_history, hrun, state_run world (step world _ _) after, state_step]
  rfl

/-- An observer that is registered between changes. -/
theorem serial_observer_history_sample :
    let world : Observation ℕ := ⟨fun _ => true, id, fun _ => .refl _⟩
    let final := run (step world) new [.turnOn, .observeForever 7, .turnOff, .handle, .handle]
    final.received 7 = [.on, .off] ∧ final.owner.state = .off := by
  have htold := @serial_observer_history ℕ _ ⟨fun _ => true, id, fun _ => .refl _⟩ 7 rfl
    [.turnOn] [.turnOff, .handle, .handle] nofun nofun
  exact ⟨(htold.2.2 rfl).1, rfl⟩

end AsyncOwner

end TraceHarbor.Lifecycle
