import TraceHarbor.Hooks.MetaSteps

/-!
# Attribution of Tracked Pointers

Every run of messages through the meta container succeeds and leaves each tracked pointer attributed to
the stack of its latest allocation message. `stacktrace_compare_common` compares the program counters
only, so that is what the attribution is exact about.
-/

namespace TraceHarbor.Hooks

open Lib

/-- The memory of both maps grows when asked to, and has room for the initial capacities. -/
structure MetaEnv.Ample (env : MetaEnv) : Prop where
  ptrRealloc : ∀ bytes, env.ptrMemory.realloc bytes = true
  stackRealloc : ∀ bytes, env.stackMemory.realloc bytes = true
  ptrFits : env.ptrMemory.Fits 10240
  stackFits : env.stackMemory.Fits 1024

namespace MetaContainer

/-! ## The latest messages -/

@[simp]
theorem latest_append_allocation (us : List Update) (msg : AllocationMessage) (isMmap : Bool)
    (block : Option ℕ) : latest (us ++ [.allocation msg isMmap block]) =
      Function.update (latest us) msg.ptr (some msg) := by
  simp [latest, note]

@[simp]
theorem latest_append_deletion (us : List Update) (ptr : ℕ) :
    latest (us ++ [.deletion ptr]) = Function.update (latest us) ptr none := by
  simp [latest, note]

/-! ## The invariant -/

/-- The container represents a book that is sound for the messages so far. -/
def Attributed (past : List Update) (c : MetaContainer) : Prop :=
  ∃ b, Represents c b ∧ Sound b (latest past) ∧ Recorded b (latest past)

theorem init_represents {env : MetaEnv} (henv : env.Ample) :
    ∃ c₀, init env = some c₀ ∧ Represents c₀ ⟨∅, fun _ => none⟩ := by
  obtain ⟨ptrs, hptrs, idx, free, hmod, hvals⟩ :
      ∃ s : SplayMap ℕ PtrMeta, SplayMap.init env.ptrMemory 10240 = some s ∧
        Refines ⟨s, 0⟩ (∅ : OrdMap ℕ PtrMeta) :=
    Refines.init henv.ptrRealloc (by decide) henv.ptrFits
  obtain ⟨stackMap, hstackMap, idx', free', hmod', hvals'⟩ :
      ∃ s : SplayMap ℕ StackMeta, SplayMap.init env.stackMemory 1024 = some s ∧
        Refines ⟨s, 0⟩ (∅ : OrdMap ℕ StackMeta) :=
    Refines.init henv.stackRealloc (by decide) henv.stackFits
  have hemp : ∀ k : ℕ, idx'[k]? = none := by
    intro k
    have hk := hvals' k
    exact Option.map_eq_none_iff.mp hk.symm
  refine ⟨⟨ptrs, stackMap, ∅⟩, by simp [init, hptrs, hstackMap],
    ⟨idx, ⟨free, 0, hmod⟩, hvals⟩, idx', fun _ => [], ⟨free', 0, hmod'⟩, ?_, ?_, ?_, ?_⟩
  · intro hash i hi
    rw [hemp] at hi
    cases hi
  · exact fun _ _ => rfl
  · simp
  · simp

theorem sound_empty : Sound ⟨∅, fun _ => none⟩ (latest []) :=
  ⟨fun ptr t hget => by simp at hget, fun ptr t hget => by simp at hget,
    nofun⟩

theorem recorded_empty : Recorded ⟨∅, fun _ => none⟩ (latest []) := fun ptr => by simp [latest]

theorem size_pos_of_stackHash {env : MetaEnv} {msg : AllocationMessage}
    (hhash : stackHash env msg ≠ 0) : 0 < msg.size := by
  rcases Nat.eq_zero_or_pos msg.size with hzero | hpos
  · exact absurd (if_neg fun hboth => hboth.1 hzero) hhash
  · exact hpos

def Fresh (c : MetaContainer) : Update → Prop
  | .allocation msg _ _ => c.lookup msg.ptr = none
  | .deletion _ => True

instance (c : MetaContainer) (u : Update) : Decidable (c.Fresh u) :=
  match u with
  | .allocation msg _ _ => inferInstanceAs (Decidable (c.lookup msg.ptr = none))
  | .deletion _ => isTrue trivial

/-- A deletion empties the head of a chain that goes on. -/
def blanks (c : MetaContainer) : Update → Bool
  | .allocation _ _ _ => false
  | .deletion ptr =>
    match c.lookup ptr with
    | none => false
    | some t => t.stackHash ≠ 0 && t.isStackIdx && match c.resolve t with
      | none => false
      | some m => m.size ≤ t.size && m.ext ≠ none

/-- **One message** is applied, and keeps every property of the books. A pointer that is not tracked
keeps the balance. -/
theorem apply_represents {env : MetaEnv} (henv : env.Ample) {past : List Update} {c : MetaContainer}
    {b : Book} (hrep : Represents c b) (hsound : Sound b (latest past)) {u : Update}
    (hready : c.Ready env u) :
    ∃ c' b', c.apply env u = some c' ∧ Represents c' b' ∧ Sound b' (latest (past ++ [u])) ∧
      (Recorded b (latest past) → Recorded b' (latest (past ++ [u]))) ∧
      (Balanced b → c.Fresh u → Balanced b' ∧ (Full b → c.blanks u = false → Full b')) := by
  cases u with
  | allocation msg isMmap block =>
    have huntr : c.Fresh (.allocation msg isMmap block) → b.tracked[msg.ptr]? = none :=
      (hrep.lookup msg.ptr).symm.trans
    rw [latest_append_allocation]
    by_cases hhash : stackHash env msg = 0
    · obtain ⟨c', happ, hrep'⟩ := hrep.allocateBare henv.ptrRealloc hready hhash
      exact ⟨c', _, happ, hrep', hsound.allocateBare msg isMmap, fun hrec => hrec.insert rfl _,
        fun hbal hfresh => ⟨hbal.allocateBare isMmap (huntr hfresh), fun hfull _ => hfull⟩⟩
    · obtain ⟨c', r, e, happ, hrep', hchar, hfits⟩ :=
        hrep.allocate henv.ptrRealloc henv.stackRealloc hready hhash
      have hpos := size_pos_of_stackHash hhash
      refine ⟨c', _, happ, hrep', hsound.allocate hhash hpos hchar hfits,
        fun hrec => hrec.insert rfl _, fun hbal hfresh =>
          ⟨hbal.allocate hsound hhash hpos hchar hfits (huntr hfresh), fun hfull _ => ?_⟩⟩
      have hsize := hbal.size_of_charged hsound hchar hfits
      exact hfull.allocate (by omega)
  | deletion ptr =>
    rw [latest_append_deletion]
    by_cases hbare : ∀ t : PtrMeta, b.tracked[ptr]? = some t → t.stackHash = 0
    · obtain ⟨c', happ, hrep'⟩ := hrep.deleteBare hbare
      exact ⟨c', _, happ, hrep', hsound.deleteBare ptr, fun hrec => hrec.erase ptr _,
        fun hbal _ => ⟨hbal.deleteBare hbare, fun hfull _ => hfull⟩⟩
    · push Not at hbare
      obtain ⟨t, hget, hstk⟩ := hbare
      obtain ⟨msg, e₀, -, hent, -⟩ := hsound.attributed ptr t hget hstk
      obtain ⟨c', e, happ, hrep', hreld, hblank⟩ := hrep.delete hget hstk hent
      refine ⟨c', _, happ, hrep', hsound.delete hget hstk hreld, fun hrec => hrec.erase ptr _,
        fun hbal _ => ⟨hbal.delete hget hstk hreld,
          fun hfull hno => hfull.delete hreld fun he => ?_⟩⟩
      -- a blanked entry is one of which `blanks` warned
      obtain ⟨m, hrslv, htop, hle, hext⟩ := hblank he
      simp [blanks, (hrep.lookup ptr).trans hget, hstk, htop, hrslv, hle, hext] at hno

theorem Attributed.resolves {past : List Update} {c : MetaContainer} (h : Attributed past c) :
    ∃ l, c.tracked = some l ∧ ∀ ptr t, (ptr, t) ∈ l → t.stackHash ≠ 0 →
      ∃ msg m, latest past ptr = some msg ∧ c.resolve t = some m ∧ m.caller = msg.caller ∧
        m.backtrace.map Frame.pc = msg.backtrace.map Frame.pc := by
  obtain ⟨b, hrep, hsound, -⟩ := h
  refine ⟨_, hrep.ptrs.enumerate, fun ptr t hmem hstk => ?_⟩
  obtain ⟨msg, e, hlat, hent, hsame⟩ :=
    hsound.attributed ptr t (OrdMap.mem_toList.mp hmem) hstk
  obtain ⟨idx, chains, hfil⟩ := hrep.files
  obtain ⟨m, hrslv, -, rfl⟩ := hfil.resolve hent
  obtain ⟨hcall, hfrs⟩ : msg.caller = m.caller ∧
      msg.backtrace.map Frame.pc = m.backtrace.map Frame.pc := by
    simpa [AllocationMessage.sameStack, stacktraceCompareCommon] using hsame
  exact ⟨msg, m, hlat, hrslv, hcall.symm, hfrs.symm⟩

theorem attributed_applyAll {env : MetaEnv} (henv : env.Ample) : ∃ c₀, init env = some c₀ ∧
    ∀ us, TryMeets (fun c u => apply c env u) (Ready · env) c₀ us →
      ∃ c, c₀.applyAll env us = some c ∧ Attributed us c := by
  obtain ⟨c₀, hinit, hrep⟩ := init_represents henv
  have hstart : Attributed [] c₀ := ⟨_, hrep, sound_empty, recorded_empty⟩
  refine ⟨c₀, hinit, fun us hmeets => tryRun_of_invariant
    (fun past c u (hinv : Attributed past c) hready => ?_) hstart hmeets⟩
  obtain ⟨b, hrep, hsound, hrec⟩ := hinv
  obtain ⟨c', b', happ, hrep', hsound', hrec', -⟩ := apply_represents henv hrep hsound hready
  exact ⟨c', happ, b', hrep', hsound', hrec' hrec⟩

/-- **Attribution**: a run of messages that finds the memory it needs is applied, and leaves each tracked
pointer with a stack hash with a live stack entry that has the caller and the program counters of the
pointer's latest allocation. -/
theorem applyAll_attributes_stacks (env : MetaEnv) (henv : env.Ample) :
    ∃ c₀, init env = some c₀ ∧ ∀ us, TryMeets (fun c u => apply c env u) (Ready · env) c₀ us →
      ∃ c l, c₀.applyAll env us = some c ∧ c.tracked = some l ∧
        ∀ ptr t, (ptr, t) ∈ l → t.stackHash ≠ 0 →
          ∃ msg m, latest us ptr = some msg ∧ c.resolve t = some m ∧ m.caller = msg.caller ∧
            m.backtrace.map Frame.pc = msg.backtrace.map Frame.pc := by
  obtain ⟨c₀, hinit, happ⟩ := attributed_applyAll henv
  refine ⟨c₀, hinit, fun us hmeets => ?_⟩
  obtain ⟨c, hrun, hattr⟩ := happ us hmeets
  obtain ⟨l, htrk, hrslvs⟩ := hattr.resolves
  exact ⟨c, l, hrun, htrk, hrslvs⟩

/-- Maps with ample memory, and a hash under which all stacks collide. -/
def collidingEnv : MetaEnv := ⟨ampleMemory, ampleMemory, fun _ => 7⟩

theorem collidingEnv_ample : collidingEnv.Ample :=
  ⟨fun _ => rfl, fun _ => rfl, by decide, by decide⟩

/-- An allocation from a stack of one frame, with a block at `0x1000 + ptr` should it need one. -/
def allocationAt (ptr size attr pc : ℕ) : Update :=
  .allocation ⟨ptr, 40, size % 2 ^ 64, [⟨attr, pc⟩], Nat.mod_lt _ (by decide)⟩ false
    (some (4096 + ptr))

/-- Two colliding stacks; a live pointer changes its stack, and the pointer it shares that stack with
is deleted. -/
def collidingUpdates : List Update :=
  [allocationAt 16 8 0 1, allocationAt 32 8 0 2, allocationAt 16 24 0 2, .deletion 32]

theorem applyAll_attributes_stacks_colliding :
    ∃ c₀ c l, init collidingEnv = some c₀ ∧
      TryMeets (fun c u => apply c collidingEnv u) (Ready · collidingEnv) c₀ collidingUpdates ∧
      c₀.applyAll collidingEnv collidingUpdates = some c ∧ c.tracked = some l ∧
      ∀ ptr t, (ptr, t) ∈ l → t.stackHash ≠ 0 →
        ∃ msg m, latest collidingUpdates ptr = some msg ∧ c.resolve t = some m ∧
          m.caller = msg.caller ∧ m.backtrace.map Frame.pc = msg.backtrace.map Frame.pc := by
  obtain ⟨c₀, hinit, hall⟩ := applyAll_attributes_stacks collidingEnv collidingEnv_ample
  obtain rfl : (init collidingEnv).get rfl = c₀ := by simp [hinit]
  have hready : TryMeets (fun c u => apply c collidingEnv u) (Ready · collidingEnv)
      ((init collidingEnv).get rfl) collidingUpdates := by
    decide +kernel
  obtain ⟨c, l, hrun, htrk, hrslvs⟩ := hall collidingUpdates hready
  exact ⟨_, c, l, hinit, hready, hrun, htrk, hrslvs⟩

/-- Every tracked pointer with a stack hash resolves to an entry with the caller and the frames of
its latest message, attributes included. -/
def exactlyAttributed (us : List Update) (c : MetaContainer) : Bool :=
  (c.tracked.getD []).all fun (ptr, t) =>
    t.stackHash = 0 || match latest us ptr, c.resolve t with
      | some msg, some m => m.caller = msg.caller && m.backtrace = msg.backtrace
      | _, _ => false

def applyFresh (env : MetaEnv) (us : List Update) : Option MetaContainer :=
  (init env).bind fun c => c.applyAll env us

/-- Two stacks whose frames differ in their attributes only. -/
def sameCounters : List Update := [allocationAt 16 8 0 1, allocationAt 32 8 3 1]

def wrappedSize : List Update :=
  [allocationAt 16 (2 ^ 63) 0 1, allocationAt 32 (2 ^ 63) 0 1, .deletion 16]

theorem eight_lt : 8 < 2 ^ 64 := by decide

/-- A collision for which `calloc` has no memory. -/
def noBlock : List Update :=
  [allocationAt 16 8 0 1, .allocation ⟨32, 40, 8, [⟨0, 2⟩], eight_lt⟩ false none]

/-- Frames that differ in their attributes only share an entry. Sizes that wrap let the deletion of
one pointer take the entry from another. Without a block, a `CRITICAL_CHECK` fails. -/
theorem exactlyAttributed_fails :
    (applyFresh collidingEnv sameCounters).map (exactlyAttributed sameCounters) = some false ∧
      (applyFresh collidingEnv wrappedSize).map (exactlyAttributed wrappedSize) = some false ∧
      (applyFresh collidingEnv noBlock).isNone := by
  decide +kernel

end MetaContainer

end TraceHarbor.Hooks
