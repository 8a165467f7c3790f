import TraceHarbor.Lifecycle.StatefulOwner

/-!
# Combined Owners

A `MultiSourceStatefulOwner` observes its source owners and goes with what a reduce function makes of
their states. The function is evaluated by tasks of the executor and by the threads that call the
owner, and the owner is turned on or off in a later step, so sources can change in between.
-/

namespace TraceHarbor.Lifecycle

open Lib List

/-- What a call or a task has still to do. -/
inductive Activity (ι : Type*) where
  | evaluate
  | apply (value : Bool)
  | observe (owner : ι)
  | unobserve (owner : ι)
deriving DecidableEq

/-- Changes of sources, calls, and the next step of something that is still to be done. -/
inductive SourceOp (ι : Type*) where
  | turn (owner : ι) (signal : Signal)
  | addSourceOwner (owner : ι)
  | removeSourceOwner (owner : ι)
  | active
  | proceed (task : ℕ)

/-- The states of the owners, those observed and those that are sources, the combined state, what
its observers were told, and what is still to be done. -/
structure MultiSource (ι : Type*) where
  states : ι → State
  observed : Finset ι
  sourceOwners : List ι
  state : State
  dispatched : List Signal
  pending : List (Activity ι)

def Signal.state : Signal → State
  | .on => .on
  | .off => .off

/-- The signal for a value of the reduce function. -/
def Signal.ofBool (value : Bool) : Signal := if value then .on else .off

namespace MultiSource

variable {ι : Type*} [DecidableEq ι]

def new : MultiSource ι := ⟨fun _ => .init, ∅, [], .init, [], []⟩

/-- The value of the reduce function for the sources, of which it sees whether they are active. -/
def reduced (reduceOperator : List (ι × Bool) → Bool) (s : MultiSource ι) : Bool :=
  reduceOperator (s.sourceOwners.map fun owner => (owner, decide (s.states owner = .on)))

def await (s : MultiSource ι) (activity : Activity ι) : MultiSource ι :=
  { s with pending := s.pending ++ [activity] }

/-- A source is turned on or off; the combined owner is told by a task. -/
def turnSource (s : MultiSource ι) (owner : ι) (signal : Signal) : MultiSource ι :=
  if s.states owner = signal.state then s
  else
    let s' := { s with states := Function.update s.states owner signal.state }
    if owner ∈ s.observed then s'.await .evaluate else s'

/-- `observeForever` of a source: a state that it has is told by a task. -/
def observe (s : MultiSource ι) (owner : ι) : MultiSource ι :=
  if owner ∈ s.observed then s
  else
    let s' := { s with observed := insert owner s.observed }
    if s.states owner = .init then s' else s'.await .evaluate

/-- `turnOn` or `turnOff` of the combined owner. -/
def turn (s : MultiSource ι) (signal : Signal) : MultiSource ι :=
  if s.state = signal.state then s
  else { s with state := signal.state, dispatched := s.dispatched ++ [signal] }

def proceed (reduceOperator : List (ι × Bool) → Bool) (s : MultiSource ι) :
    Activity ι → MultiSource ι
  | .evaluate => s.await (.apply (s.reduced reduceOperator))
  | .apply value => s.turn (Signal.ofBool value)
  | .observe owner => s.observe owner
  | .unobserve owner => await { s with observed := s.observed.erase owner } .evaluate

def step (reduceOperator : List (ι × Bool) → Bool) (s : MultiSource ι) : SourceOp ι → MultiSource ι
  | .turn owner signal => s.turnSource owner signal
  | .addSourceOwner owner =>
    await { s with sourceOwners := s.sourceOwners ++ [owner] } (.observe owner)
  | .removeSourceOwner owner =>
    await { s with sourceOwners := s.sourceOwners.erase owner } (.unobserve owner)
  | .active => if s.sourceOwners = [] then s else s.await .evaluate
  | .proceed task =>
    match s.pending[task]? with
    | none => s
    | some activity => proceed reduceOperator { s with pending := s.pending.eraseIdx task } activity

/-- The observers were told the value of the reduce function last, if all calls and tasks have
finished and there is a source. -/
def Converged (reduceOperator : List (ι × Bool) → Bool) (s : MultiSource ι) : Prop :=
  s.pending = [] → s.sourceOwners ≠ [] →
    s.dispatched.getLast? = some (Signal.ofBool (s.reduced reduceOperator))

def current (s : MultiSource ι) : SourceOp ι → Option (Activity ι)
  | .proceed task => s.pending[task]?
  | _ => none

/-- The value that is applied is still the reduced one; an owner that begins to be observed has a
state and is not observed; an owner that is added is no source and is not being removed. -/
structure Careful (reduceOperator : List (ι × Bool) → Bool) (s : MultiSource ι) (op : SourceOp ι) :
    Prop where
  apply : ∀ value, s.current op = some (.apply value) → value = s.reduced reduceOperator
  observe : ∀ owner, s.current op = some (.observe owner) →
    owner ∉ s.observed ∧ s.states owner ≠ .init
  add : ∀ owner, op = .addSourceOwner owner →
    owner ∉ s.sourceOwners ∧ Activity.unobserve owner ∉ s.pending

/-! ## The invariant -/

/-- Every source is observed or about to be, and the state goes with the reduced value unless
something is still to be done. -/
structure Sound (reduceOperator : List (ι × Bool) → Bool) (s : MultiSource ι) : Prop where
  observing : ∀ owner ∈ s.sourceOwners, owner ∈ s.observed ∨ Activity.observe owner ∈ s.pending
  nodup : s.sourceOwners.Nodup
  removing : ∀ owner, Activity.unobserve owner ∈ s.pending → owner ∉ s.sourceOwners
  dispatched : s.dispatched.getLast? = s.state.dispatch
  settled : s.pending = [] → s.sourceOwners = [] ∨
    s.state = (Signal.ofBool (s.reduced reduceOperator)).state

variable {reduceOperator : List (ι × Bool) → Bool} {s : MultiSource ι}

omit [DecidableEq ι] in
theorem sound_new : Sound reduceOperator (new : MultiSource ι) :=
  ⟨nofun, nodup_nil, nofun, rfl, fun _ => .inl rfl⟩

theorem reduced_update {owner : ι} (h : owner ∉ s.sourceOwners) (state : State) :
    reduced reduceOperator { s with states := Function.update s.states owner state } =
      s.reduced reduceOperator := by
  refine congrArg reduceOperator (map_congr_left fun other hoth => ?_)
  have hne : other ≠ owner := fun heq => h (heq ▸ hoth)
  simp only [Function.update_of_ne hne]

omit [DecidableEq ι] in
theorem sound_await {activity : Activity ι} (hact : ∀ owner, activity ≠ .unobserve owner)
    (hobs : ∀ owner ∈ s.sourceOwners, owner ∈ s.observed ∨
      Activity.observe owner ∈ s.pending) (hnd : s.sourceOwners.Nodup)
    (hrmv : ∀ owner, Activity.unobserve owner ∈ s.pending → owner ∉ s.sourceOwners)
    (hdisp : s.dispatched.getLast? = s.state.dispatch) :
    Sound reduceOperator (s.await activity) := by
  refine ⟨fun owner hown => ?_, hnd, fun owner hown => ?_, hdisp,
    fun hnil => absurd hnil (by simp [await])⟩
  · exact (hobs owner hown).imp id (mem_append_left _)
  · rcases mem_append.mp hown with hold | hnew
    · exact hrmv owner hold
    · exact absurd (mem_singleton.mp hnew).symm (hact owner)

omit [DecidableEq ι] in
theorem mem_eraseIdx_of_ne {pending : List (Activity ι)} {task : ℕ} {activity other : Activity ι}
    (htask : pending[task]? = some activity) (hoth : other ∈ pending) (hne : other ≠ activity) :
    other ∈ pending.eraseIdx task := by
  obtain ⟨i, hi⟩ := mem_iff_getElem?.mp hoth
  refine mem_eraseIdx_iff_getElem?.mpr ⟨i, fun heq => ?_, hi⟩
  rw [heq, htask] at hi
  exact hne (Option.some.inj hi).symm

theorem sound_turnSource (h : Sound reduceOperator s) (owner : ι) (signal : Signal) :
    Sound reduceOperator (s.turnSource owner signal) := by
  rw [turnSource]
  split_ifs with hsame hobse
  · exact h
  · exact sound_await nofun h.observing h.nodup h.removing h.dispatched
  · refine ⟨h.observing, h.nodup, h.removing, h.dispatched, fun hnil => ?_⟩
    -- A source that is not observed is about to be, so something is still to be done.
    have hnone : s.pending = [] := hnil
    have hsrc : owner ∉ s.sourceOwners := by
      intro hsrc
      have hobs := (h.observing owner hsrc).resolve_left hobse
      rw [hnone] at hobs
      cases hobs
    rw [reduced_update hsrc]
    exact h.settled hnone

theorem sound_proceed (h : Sound reduceOperator s) {task : ℕ} {activity : Activity ι}
    (htask : s.pending[task]? = some activity)
    (hcar : Careful reduceOperator s (.proceed task)) :
    Sound reduceOperator
      (proceed reduceOperator { s with pending := s.pending.eraseIdx task } activity) := by
  have hrmv : ∀ owner, Activity.unobserve owner ∈ s.pending.eraseIdx task →
      owner ∉ s.sourceOwners := fun owner hown =>
    h.removing owner (mem_of_mem_eraseIdx hown)
  have hobs : ∀ owner ∈ s.sourceOwners, activity ≠ .observe owner →
      owner ∈ s.observed ∨ Activity.observe owner ∈ s.pending.eraseIdx task :=
    fun owner hown hne => (h.observing owner hown).imp id fun hobser =>
      mem_eraseIdx_of_ne htask hobser (Ne.symm hne)
  cases activity with
  | evaluate =>
    exact sound_await nofun (fun owner hown => hobs owner hown nofun) h.nodup hrmv
      h.dispatched
  | apply value =>
    obtain rfl := hcar.apply value htask
    rw [proceed, turn]
    split_ifs with hsame
    · exact ⟨fun owner hown => hobs owner hown nofun, h.nodup, hrmv, h.dispatched,
        fun _ => .inr hsame⟩
    · refine ⟨fun owner hown => hobs owner hown nofun, h.nodup, hrmv, ?_,
        fun _ => .inr rfl⟩
      rw [getLast?_concat]
      cases Signal.ofBool (s.reduced reduceOperator) <;> rfl
  | observe owner =>
    obtain ⟨hobse, hstate⟩ := hcar.observe owner htask
    rw [proceed, observe, if_neg hobse, if_neg hstate]
    refine sound_await nofun (fun other hoth => ?_) h.nodup hrmv h.dispatched
    by_cases hoth' : other = owner
    · exact .inl (hoth' ▸ Finset.mem_insert_self _ _)
    · exact (hobs other hoth fun heq => hoth' (Activity.observe.inj heq).symm).imp
        (Finset.mem_insert_of_mem) id
  | unobserve owner =>
    have hsrc : owner ∉ s.sourceOwners := h.removing owner (mem_of_getElem? htask)
    refine sound_await nofun (fun other hoth => ?_) h.nodup hrmv h.dispatched
    have hne : other ≠ owner := fun heq => hsrc (heq ▸ hoth)
    exact (hobs other hoth nofun).imp (Finset.mem_erase_of_ne_of_mem hne) id

/-- **One step** that meets the condition. -/
theorem sound_step (h : Sound reduceOperator s) {op : SourceOp ι}
    (hop : Careful reduceOperator s op) : Sound reduceOperator (s.step reduceOperator op) := by
  cases op with
  | turn owner signal => exact sound_turnSource h owner signal
  | addSourceOwner owner =>
    obtain ⟨hnew, hrmv⟩ := hop.add owner rfl
    refine ⟨fun other hoth => ?_, ?_, fun other hoth => ?_, h.dispatched,
      fun hnil => absurd hnil (by simp [step, await])⟩
    · rcases mem_append.mp hoth with hold | hadd
      · exact (h.observing other hold).imp id (mem_append_left _)
      · rw [mem_singleton.mp hadd]
        exact .inr (mem_append_right _ mem_cons_self)
    · exact nodup_append.mpr ⟨h.nodup, nodup_singleton owner, by
        rintro a ha b hb rfl
        exact hnew (mem_singleton.mp hb ▸ ha)⟩
    · have hold : Activity.unobserve other ∈ s.pending :=
        (mem_append.mp hoth).resolve_right (by simp)
      intro hmem
      rcases mem_append.mp hmem with hsrc | hadd
      · exact h.removing other hold hsrc
      · rw [mem_singleton.mp hadd] at hold
        exact hrmv hold
  | removeSourceOwner owner =>
    refine ⟨fun other hoth => ?_, h.nodup.erase owner, fun other hoth => ?_, h.dispatched,
      fun hnil => absurd hnil (by simp [step, await])⟩
    · exact (h.observing other (mem_of_mem_erase hoth)).imp id (mem_append_left _)
    · rcases mem_append.mp hoth with hold | hrmd
      · exact fun hmem => h.removing other hold (mem_of_mem_erase hmem)
      · obtain rfl : other = owner := Activity.unobserve.inj (mem_singleton.mp hrmd)
        exact h.nodup.not_mem_erase
  | active =>
    rw [step]
    split_ifs
    · exact h
    · exact sound_await nofun h.observing h.nodup h.removing h.dispatched
  | proceed task =>
    rw [step]
    split
    · exact h
    · exact sound_proceed h ‹_› hop

omit [DecidableEq ι] in
theorem converged_of_sound (h : Sound reduceOperator s) : s.Converged reduceOperator := by
  intro hnil hsrcs
  have hstate := (h.settled hnil).resolve_left hsrcs
  rw [h.dispatched, hstate]
  cases Signal.ofBool (s.reduced reduceOperator) <;> rfl

/-- **The combined owner converges** in every run with careful steps. -/
theorem combined_converges (reduceOperator : List (ι × Bool) → Bool) (ops : List (SourceOp ι))
    (h : Meets (step reduceOperator) (Careful reduceOperator) (new : MultiSource ι) ops) :
    Always (step reduceOperator) (Converged reduceOperator) (new : MultiSource ι) ops :=
  Always.of_invariant (fun _ _ hs hop => sound_step hs hop) (fun _ hs => converged_of_sound hs)
    sound_new h

def or (statefuls : List (ι × Bool)) : Bool := statefuls.any Prod.snd

/-- A source with a state is added, and its task runs. -/
theorem combined_converges_added :
    let ops : List (SourceOp ℕ) :=
      [.turn 0 .on, .addSourceOwner 0, .proceed 0, .proceed 0, .proceed 0]
    Always (step or) (Converged or) (new : MultiSource ℕ) ops ∧
      (run (step or) (new : MultiSource ℕ) ops).dispatched = [.on] := by
  refine ⟨combined_converges or _ ⟨⟨nofun, nofun, nofun⟩, ⟨nofun, nofun, ?_⟩, ⟨nofun, ?_, nofun⟩,
    ⟨nofun, nofun, nofun⟩, ⟨?_, nofun, nofun⟩, trivial⟩, rfl⟩
  · rintro _ ⟨⟩
    exact ⟨not_mem_nil, not_mem_nil⟩
  · rintro _ ⟨⟩
    exact ⟨Finset.notMem_empty 0, nofun⟩
  · rintro _ ⟨⟩
    rfl

/-- **An outdated value is applied**: the source is turned off between the two parts of a task, and
what the task has found before is applied after what the next task has found. -/
theorem stale_value_is_applied :
    let s := run (step or) (new : MultiSource ℕ) [.turn 0 .on, .addSourceOwner 0, .proceed 0,
      .proceed 0, .turn 0 .off, .proceed 1, .proceed 1, .proceed 0]
    s.pending = [] ∧ s.sourceOwners = [0] ∧ s.dispatched = [.off, .on] ∧ s.reduced or = false :=
  ⟨rfl, rfl, rfl, rfl⟩

end MultiSource

end TraceHarbor.Lifecycle
