import TraceHarbor.Lifecycle.StatefulOwner

/-!
# The Foreground Flag

`DefaultLifecycleObserver` compares what it is told with the flag `isProcessForeground`, and when they
differ it gives the executor a block that sets the flag and calls the listeners. The block runs later, so
the flag that the observer looks at may not be the one that the blocks before it will leave behind.
-/

namespace TraceHarbor.Lifecycle

open Lib List Option

/-- Changes of the owner, and the steps of the handler and of the executor, which may run any of its
blocks. -/
inductive FlagOp where
  | turnOn
  | turnOff
  | handle
  | execute (task : ℕ)

/-- The owner, what the handler has to tell the observer, the values that the blocks of the executor
hold, the flag, and what each listener was called with since the last change. -/
structure ForegroundFlag (ℓ : Type*) where
  owner : State
  handler : List Signal
  executor : List Bool
  isProcessForeground : Bool
  received : ℓ → List Bool

/-- The value of the flag that goes with a signal. -/
def Signal.foreground : Signal → Bool
  | .on => true
  | .off => false

namespace ForegroundFlag

variable {ℓ : Type*} [DecidableEq ℓ]

def new : ForegroundFlag ℓ := ⟨.init, [], [], false, fun _ => []⟩

/-- A change of the owner posts what the observer is to be told. -/
def turn (s : ForegroundFlag ℓ) (state : State) : ForegroundFlag ℓ :=
  if s.owner = state then s
  else { s with
    owner := state, handler := s.handler ++ state.dispatch.toList, received := fun _ => [] }

/-- `onDispatchForeground` and `onDispatchBackground`. -/
def onDispatch (s : ForegroundFlag ℓ) (value : Bool) : ForegroundFlag ℓ :=
  if s.isProcessForeground = value then s else { s with executor := s.executor ++ [value] }

/-- A block of the executor sets the flag and calls the listeners. -/
def runBlock (mListeners : Finset ℓ) (s : ForegroundFlag ℓ) (value : Bool) : ForegroundFlag ℓ :=
  { s with
    isProcessForeground := value
    received := fun l => if l ∈ mListeners then s.received l ++ [value] else s.received l }

def step (mListeners : Finset ℓ) (s : ForegroundFlag ℓ) : FlagOp → ForegroundFlag ℓ
  | .turnOn => s.turn .on
  | .turnOff => s.turn .off
  | .handle =>
    match s.handler with
    | [] => s
    | signal :: signals => onDispatch { s with handler := signals } signal.foreground
  | .execute task =>
    match s.executor[task]? with
    | none => s
    | some value => runBlock mListeners { s with executor := s.executor.eraseIdx task } value

/-- The handler and the executor have nothing left to run. -/
def Quiet (s : ForegroundFlag ℓ) : Prop := s.handler = [] ∧ s.executor = []

/-- The flag and the last calls of the listeners since the last change go with the owner. An owner
that is on has had them called. -/
def Converged (mListeners : Finset ℓ) (s : ForegroundFlag ℓ) : Prop :=
  s.isProcessForeground = decide (s.owner = .on) ∧
    ∀ l ∈ mListeners, (∀ value ∈ (s.received l).getLast?, value = decide (s.owner = .on)) ∧
      (s.owner = .on → s.received l ≠ [])

/-- The observer is told a change when the blocks it has given to the executor have run. -/
def Settled (s : ForegroundFlag ℓ) : FlagOp → Prop
  | .handle => s.executor = []
  | _ => True

/-! ## The invariant -/

/-- The value that the flag will have when the blocks have run. -/
def coming (s : ForegroundFlag ℓ) : Bool := s.executor.getLast?.getD s.isProcessForeground

/-- The values that the observer is still to be told. -/
def queued (s : ForegroundFlag ℓ) : List Bool := s.handler.map Signal.foreground

/-- Nothing has happened to the flag and the listeners. -/
structure Untouched (s : ForegroundFlag ℓ) : Prop where
  executor : s.executor = []
  flag : s.isProcessForeground = false
  received : ∀ l, s.received l = []

/-- At most one block waits. The values that are still to come alternate and end with the state of
the owner. -/
structure Tracking (mListeners : Finset ℓ) (s : ForegroundFlag ℓ) : Prop where
  one_block : s.executor.length ≤ 1
  last : s.queued.getLast?.getD s.coming = decide (s.owner = .on)
  alternate : (s.coming :: s.queued).IsChain (· ≠ ·) ∨
    s.Untouched ∧ s.queued.head? = some false ∧ s.queued.IsChain (· ≠ ·)
  initial : s.owner = .init → s.Untouched ∧ s.handler = []
  converged : s.Quiet → s.Converged mListeners

omit [DecidableEq ℓ] in
theorem tracking_new (mListeners : Finset ℓ) : Tracking mListeners (new : ForegroundFlag ℓ) := by
  refine ⟨Nat.zero_le 1, rfl, .inl (by simp [queued, new]), fun _ => ⟨⟨rfl, rfl, fun _ => rfl⟩, rfl⟩,
    fun _ => ⟨rfl, fun l _ => ⟨nofun, nofun⟩⟩⟩

variable {mListeners : Finset ℓ} {s : ForegroundFlag ℓ}

theorem isChain_concat {values : List Bool} {value : Bool} (h : values.IsChain (· ≠ ·))
    (hlast : ∀ last ∈ values.getLast?, last ≠ value) : (values ++ [value]).IsChain (· ≠ ·) := by
  refine isChain_append.mpr ⟨h, isChain_singleton _, fun last hmem next hnext => ?_⟩
  obtain rfl : value = next := by simpa using hnext
  exact hlast last hmem

omit [DecidableEq ℓ] in
theorem tracking_turn (h : Tracking mListeners s) {state : State} {signal : Signal}
    (hsign : state.dispatch = some signal) (hon : signal.foreground = decide (state = .on)) :
    Tracking mListeners (s.turn state) := by
  rw [turn]
  split_ifs with hsame
  · exact h
  generalize hs' : ({ s with
    owner := state, handler := s.handler ++ state.dispatch.toList
    received := fun _ => [] } : ForegroundFlag ℓ) = s'
  have hqueu : s'.queued = s.queued ++ [signal.foreground] := by
    rw [← hs', queued, hsign, map_append]
    rfl
  have hcom : s'.coming = s.coming := by
    rw [← hs']
    rfl
  have hown : s'.owner = state := by rw [← hs']
  have hunt : s.Untouched → s'.Untouched := by
    rw [← hs']
    exact fun hu => ⟨hu.executor, hu.flag, fun _ => rfl⟩
  -- From one of the two other states the owner changes to the opposite value.
  have hstate : state ≠ .init := by
    rintro rfl
    exact absurd hsign nofun
  have hopp : s.owner ≠ .init → decide (s.owner = .on) ≠ signal.foreground := by
    rw [hon]
    clear hs' hown hsign hon
    cases hown : s.owner <;> cases state <;> simp_all
  refine ⟨by rw [← hs']; exact h.one_block, ?_, ?_, ?_, ?_⟩
  · rw [hqueu, getLast?_concat, hown]
    exact hon
  · by_cases hinit : s.owner = .init
    · obtain ⟨hu, hnil⟩ := h.initial hinit
      have hemp : s.queued = [] := by rw [queued, hnil]; rfl
      rw [hqueu, hemp, hcom]
      cases signal with
      | on =>
        have hfalse : s.coming = false := by rw [coming, hu.executor, hu.flag]; rfl
        exact .inl (by simp [hfalse, Signal.foreground])
      | off => exact .inr ⟨hunt hu, rfl, isChain_singleton _⟩
    · rw [hqueu, hcom]
      rcases h.alternate with halt | ⟨hu, hhead, halt⟩
      · refine .inl (@isChain_concat (s.coming :: s.queued) _ halt fun last hlast => ?_)
        rw [getLast?_cons, mem_some_iff, h.last] at hlast
        exact hlast ▸ hopp hinit
      · obtain ⟨rest, hrest⟩ : ∃ rest, s.queued = false :: rest := by
          cases hq : s.queued with
          | nil => rw [hq] at hhead; exact absurd hhead nofun
          | cons first rest => rw [hq] at hhead; exact ⟨rest, by rw [some.inj hhead]⟩
        refine .inr ⟨hunt hu, by rw [hrest]; rfl, isChain_concat halt fun last hlast => ?_⟩
        have hlast' := h.last
        rw [mem_def.mp hlast, getD_some] at hlast'
        exact hlast' ▸ hopp hinit
  · rw [hown]
    exact fun hinit => absurd hinit hstate
  · intro hquiet
    have hnil : s'.queued = [] := by rw [queued, hquiet.1]; rfl
    rw [hqueu] at hnil
    exact absurd hnil (by simp)

theorem tracking_handle (h : Tracking mListeners s) (hsett : s.executor = []) :
    Tracking mListeners (s.step mListeners .handle) := by
  rw [step]
  split
  · exact h
  rename_i signal signals hhand
  have hqueu : s.queued = signal.foreground :: signals.map Signal.foreground := by
    rw [queued, hhand]
    rfl
  have hcom : s.coming = s.isProcessForeground := by rw [coming, hsett]; rfl
  have hinit : s.owner ≠ .init := fun hinit => by
    rw [(h.initial hinit).2] at hhand
    exact absurd hhand nofun
  have hlast := h.last
  rw [hqueu, getLast?_cons] at hlast
  rw [onDispatch]
  split_ifs with hflag
  · -- The flag has the value already: this is the first change, to a state that is not on.
    rcases h.alternate with halt | ⟨hu, hhead, halt⟩
    · rw [hqueu, hcom, hflag] at halt
      exact absurd rfl (isChain_cons_cons.mp halt).1
    rw [hqueu] at hhead halt
    have hfalse : signal.foreground = false := some.inj hhead
    refine ⟨h.one_block, ?_, .inl ?_, fun hi => absurd hi hinit, fun hquiet => ?_⟩
    · change (signals.map Signal.foreground).getLast?.getD s.coming = _
      rw [hcom, hflag]
      exact hlast
    · change (s.coming :: signals.map Signal.foreground).IsChain (· ≠ ·)
      rwa [hcom, hflag]
    · have hnil : signals = [] := hquiet.1
      rw [hnil] at hlast
      refine ⟨hflag.trans hlast, fun l _ => ⟨fun value hval => ?_, fun hon => ?_⟩⟩
      · have hnone : (s.received l).getLast? = some value := hval
        rw [hu.received l] at hnone
        exact absurd hnone nofun
      · have htrue : false = decide (s.owner = .on) := hfalse ▸ hlast
        exact absurd (htrue.trans (decide_eq_true hon)) (by decide)
  · have hcom' : coming { s with handler := signals, executor := s.executor ++ [signal.foreground] } =
        signal.foreground := by
      rw [coming, getLast?_concat]
      rfl
    have hchain : (signal.foreground :: signals.map Signal.foreground).IsChain (· ≠ ·) := by
      rcases h.alternate with halt | ⟨-, -, halt⟩
      · rw [hqueu] at halt
        exact (isChain_cons_cons.mp halt).2
      · rwa [hqueu] at halt
    refine ⟨by simp [hsett], ?_, .inl ?_, fun hi => absurd hi hinit, fun hquiet => ?_⟩
    · rw [hcom']
      exact hlast
    · rw [hcom']
      exact hchain
    · exact absurd hquiet.2 (by simp)

theorem tracking_execute (h : Tracking mListeners s) (task : ℕ) :
    Tracking mListeners (s.step mListeners (.execute task)) := by
  rw [step]
  split
  · exact h
  rename_i value hval
  -- The block is the only one that waits.
  have hexec : s.executor = [value] := by
    have hone := h.one_block
    cases hex : s.executor with
    | nil => rw [hex] at hval; exact absurd hval nofun
    | cons first rest =>
      rw [hex, length_cons] at hone
      obtain rfl : rest = [] := length_eq_zero_iff.mp (by omega)
      obtain ⟨rfl, hfst⟩ : task = 0 ∧ first = value := by
        rw [hex] at hval
        cases task with
        | zero => exact ⟨rfl, some.inj hval⟩
        | succ task => exact absurd hval nofun
      rw [hfst]
  have hrest : s.executor.eraseIdx task = [] := by
    rw [hexec] at hval ⊢
    cases task with
    | zero => rfl
    | succ task => exact absurd hval nofun
  have hcom : s.coming = value := by rw [coming, hexec]; rfl
  have hbusy : ¬ s.Untouched := fun hu => by
    rw [hu.executor] at hexec
    exact absurd hexec nofun
  have hlast := h.last
  rw [hcom] at hlast
  rw [hrest]
  refine ⟨Nat.zero_le 1, hlast, .inl ?_, fun hinit => absurd (h.initial hinit).1 hbusy,
    fun hquiet => ?_⟩
  · have halt := h.alternate.resolve_right fun hright => hbusy hright.1
    rw [hcom] at halt
    exact halt
  · have hnil : s.queued = [] := by
      have hhand : s.handler = [] := hquiet.1
      rw [queued, hhand]
      rfl
    rw [hnil] at hlast
    refine ⟨hlast, fun l hl => ?_⟩
    have hrec : (runBlock mListeners { s with executor := [] } value).received l =
        s.received l ++ [value] := if_pos hl
    rw [hrec]
    refine ⟨fun v hv => ?_, fun _ => by simp⟩
    rw [getLast?_concat, mem_some_iff] at hv
    exact hv ▸ hlast

/-! ## Runs -/

theorem tracking_step (h : Tracking mListeners s) {op : FlagOp} (hop : s.Settled op) :
    Tracking mListeners (s.step mListeners op) := by
  cases op with
  | turnOn => exact tracking_turn h (show State.on.dispatch = some .on from rfl) rfl
  | turnOff => exact tracking_turn h (show State.off.dispatch = some .off from rfl) rfl
  | handle => exact tracking_handle h hop
  | execute task => exact tracking_execute h task

/-- **The flag converges**: in every run in which the observer is told a change only after the blocks
before it have run, the flag and the listeners go with the owner whenever nothing is left to run. -/
theorem flag_converges (mListeners : Finset ℓ) (ops : List FlagOp)
    (h : Meets (step mListeners) Settled (new : ForegroundFlag ℓ) ops) :
    Always (step mListeners) (fun s => s.Quiet → s.Converged mListeners) (new : ForegroundFlag ℓ)
      ops :=
  Always.of_invariant (fun _ _ hs hop => tracking_step hs hop) (fun _ hs => hs.converged)
    (tracking_new mListeners) h

/-- Activities are started and stopped, and the blocks run at once. -/
theorem flag_converges_started :
    let ops : List FlagOp := [.turnOn, .handle, .execute 0, .turnOff, .handle, .execute 0]
    Always (step {0}) (fun s => s.Quiet → s.Converged {0}) (new : ForegroundFlag ℕ) ops ∧
      (run (step {0}) (new : ForegroundFlag ℕ) ops).received 0 = [false] :=
  ⟨flag_converges {0} _ ⟨trivial, rfl, trivial, trivial, rfl, trivial, trivial⟩, rfl⟩

/-- **The flag stays foreground**: the owner is turned off before the block for its being on has run,
the observer finds the flag as it should be, and then the block runs. -/
theorem flag_stays_foreground :
    let s := run (step {0}) (new : ForegroundFlag ℕ)
      [.turnOn, .turnOff, .handle, .handle, .execute 0]
    s.Quiet ∧ s.owner = .off ∧ s.isProcessForeground = true ∧ s.received 0 = [true] :=
  ⟨⟨rfl, rfl⟩, rfl, rfl, rfl⟩

end ForegroundFlag

end TraceHarbor.Lifecycle
