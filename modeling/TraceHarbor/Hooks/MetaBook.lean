import TraceHarbor.Hooks.MetaContainer

/-!
# The Books of the Meta Container

What the meta container is for, without its maps and chains: a book of the tracked pointers and of the
stack entries. An allocation charges its size to an entry with its stack, a new or a blank one; a
deletion takes the size of its pointer off again and drops the entry that it empties.
-/

namespace TraceHarbor.Hooks

open Lib Option Function

/-! ## Books -/

/-- The tracked pointers, and the stack entries with their hashes. -/
structure Book where
  tracked : OrdMap ℕ PtrMeta
  entry : StackRef → Option (ℕ × StackEntry)

def PtrMeta.weight (r : StackRef) (t : PtrMeta) : ℕ :=
  if t.stackHash ≠ 0 ∧ t.home = r then t.size else 0

/-- The sum of the sizes of the pointers that resolve to an entry. -/
def charge (tracked : OrdMap ℕ PtrMeta) (r : StackRef) : ℕ :=
  OrdMap.total (fun _ t => t.weight r) tracked

/-- The meta of a pointer after `process_routine` has recorded its allocation. -/
def allocated (msg : AllocationMessage) (isMmap : Bool) (hash : ℕ) (r : StackRef) : PtrMeta :=
  { PtrMeta.linked hash r with ptr := msg.ptr, size := msg.size, isMmap := isMmap }

/-- The meta of a pointer whose stack is not kept. -/
def allocatedBare (msg : AllocationMessage) (isMmap : Bool) : PtrMeta :=
  { PtrMeta.zero with ptr := msg.ptr, size := msg.size, isMmap := isMmap, link := msg.caller }

/-- The entry of a stack that is charged for the first time. -/
def AllocationMessage.newEntry (msg : AllocationMessage) : StackEntry :=
  ⟨msg.size, msg.caller, msg.backtrace⟩

/-- The entries that an allocation may charge, and what becomes of them. -/
inductive Charged (b : Book) (hash : ℕ) (msg : AllocationMessage) : StackRef → StackEntry → Prop
  | new {r : StackRef} (hnone : b.entry r = none) : Charged b hash msg r msg.newEntry
  | same {r : StackRef} {e : StackEntry} (hentry : b.entry r = some (hash, e))
      (hsame : msg.sameStack e) :
      Charged b hash msg r { e with size := (e.size + msg.size) % 2 ^ 64 }
  | blank {r : StackRef} (hentry : b.entry r = some (hash, .blank)) :
      Charged b hash msg r msg.newEntry

/-- What becomes of the entry of a deleted pointer. -/
inductive Released (b : Book) (t : PtrMeta) : Option (ℕ × StackEntry) → Prop
  | less {e : StackEntry} (hentry : b.entry t.home = some (t.stackHash, e)) (hlt : t.size < e.size) :
      Released b t (some (t.stackHash, { e with size := e.size - t.size }))
  | dropped {e : StackEntry} (hentry : b.entry t.home = some (t.stackHash, e))
      (hle : e.size ≤ t.size) : Released b t none
  | blanked {e : StackEntry} (hentry : b.entry t.home = some (t.stackHash, e))
      (hle : e.size ≤ t.size) (htop : t.isStackIdx) : Released b t (some (t.stackHash, .blank))

namespace Book

/-- An allocation charged to `r`, which then holds `e`. -/
def allocate (b : Book) (msg : AllocationMessage) (isMmap : Bool) (hash : ℕ) (r : StackRef)
    (e : StackEntry) : Book :=
  ⟨b.tracked.insert msg.ptr (allocated msg isMmap hash r),
    Function.update b.entry r (some (hash, e))⟩

def allocateBare (b : Book) (msg : AllocationMessage) (isMmap : Bool) : Book :=
  { b with tracked := b.tracked.insert msg.ptr (allocatedBare msg isMmap) }

def deleteBare (b : Book) (ptr : ℕ) : Book := { b with tracked := b.tracked.erase ptr }

/-- A pointer is deleted, and its entry becomes `e`. -/
def delete (b : Book) (ptr : ℕ) (t : PtrMeta) (e : Option (ℕ × StackEntry)) : Book :=
  ⟨b.tracked.erase ptr, Function.update b.entry t.home e⟩

end Book

/-! ## Charges -/

variable {ptr : ℕ} {t : PtrMeta}

section Charges

variable (tracked : OrdMap ℕ PtrMeta) (r : StackRef)

theorem charge_insert (ptr : ℕ) (t : PtrMeta) :
    charge (tracked.insert ptr t) r = t.weight r + charge (tracked.erase ptr) r :=
  OrdMap.total_insert ..

variable {tracked}

theorem charge_of_get (h : tracked[ptr]? = some t) :
    charge tracked r = t.weight r + charge (tracked.erase ptr) r :=
  OrdMap.total_of_get h

theorem charge_erase_le (ptr : ℕ) : charge (tracked.erase ptr) r ≤ charge tracked r := by
  cases h : tracked[ptr]? with
  | none => rw [OrdMap.erase_of_get_none h]
  | some t =>
    rw [charge_of_get r h]
    exact Nat.le_add_left ..

variable {r}

theorem size_le_charge (h : tracked[ptr]? = some t) (hhash : t.stackHash ≠ 0) (hhome : t.home = r) :
    t.size ≤ charge tracked r := by
  rw [charge_of_get r h, PtrMeta.weight, if_pos ⟨hhash, hhome⟩]
  exact Nat.le_add_right ..

theorem charge_eq_zero (h : ∀ (ptr : ℕ) (t : PtrMeta),
    tracked[ptr]? = some t → t.stackHash ≠ 0 → t.home ≠ r) :
    charge tracked r = 0 := by
  refine OrdMap.total_eq_zero_iff.mpr fun ptr t hget => if_neg ?_
  rintro ⟨hhash, hhome⟩
  exact h ptr t hget hhash hhome

end Charges

@[simp]
theorem home_linked (hash : ℕ) (r : StackRef) : (PtrMeta.linked hash r).home = r := by
  cases r <;> rfl

@[simp]
theorem stackHash_linked (hash : ℕ) (r : StackRef) : (PtrMeta.linked hash r).stackHash = hash := by
  cases r <;> rfl

section Allocated

variable (msg : AllocationMessage) (isMmap : Bool) (hash : ℕ) (r : StackRef)

theorem home_allocated : (allocated msg isMmap hash r).home = r := home_linked hash r

theorem stackHash_allocated : (allocated msg isMmap hash r).stackHash = hash :=
  stackHash_linked hash r

theorem weight_allocated {hash : ℕ} (hhash : hash ≠ 0) :
    (allocated msg isMmap hash r).weight r = msg.size := by
  rw [PtrMeta.weight, if_pos ⟨by rwa [stackHash_allocated], home_allocated ..⟩]
  rfl

theorem weight_allocated_of_ne {r' : StackRef} (hne : r' ≠ r) :
    (allocated msg isMmap hash r).weight r' = 0 := by
  rw [PtrMeta.weight, if_neg]
  rintro ⟨-, hhome⟩
  exact hne (hhome.symm.trans (home_allocated ..))

theorem weight_allocatedBare : (allocatedBare msg isMmap).weight r = 0 :=
  if_neg fun h => h.1 rfl

end Allocated

/-! ## Entries after a step -/

section Entries

variable {b : Book} {P : StackRef → ℕ → StackEntry → Prop}

theorem forall_entry_allocate {msg : AllocationMessage} {isMmap : Bool} {hash : ℕ} {r : StackRef}
    {e : StackEntry} (hnew : P r hash e)
    (hold : ∀ r' hash' e', r' ≠ r → b.entry r' = some (hash', e') → P r' hash' e') :
    ∀ r' hash' e', (b.allocate msg isMmap hash r e).entry r' = some (hash', e') → P r' hash' e' := by
  intro r' hash' e' hentry
  simp only [Book.allocate] at hentry
  rcases eq_or_ne r' r with rfl | hr
  · rw [update_self] at hentry
    cases hentry
    exact hnew
  · rw [update_of_ne hr] at hentry
    exact hold r' hash' e' hr hentry

theorem forall_entry_delete {e : Option (ℕ × StackEntry)} (hreld : Released b t e)
    (hless : ∀ e, b.entry t.home = some (t.stackHash, e) → t.size < e.size →
      P t.home t.stackHash { e with size := e.size - t.size })
    (hblank : ∀ f, b.entry t.home = some (t.stackHash, f) → f.size ≤ t.size → t.isStackIdx →
      e = some (t.stackHash, .blank) → P t.home t.stackHash .blank)
    (hold : ∀ r hash e, r ≠ t.home → b.entry r = some (hash, e) → P r hash e) :
    ∀ r hash e', (b.delete ptr t e).entry r = some (hash, e') → P r hash e' := by
  intro r hash e' hentry
  simp only [Book.delete] at hentry
  rcases eq_or_ne r t.home with rfl | hr
  · rw [update_self] at hentry
    cases hreld with
    | less hf hlt =>
      cases hentry
      exact hless _ hf hlt
    | dropped _ _ => cases hentry
    | blanked hf hle htop =>
      cases hentry
      exact hblank _ hf hle htop rfl
  · rw [update_of_ne hr] at hentry
    exact hold r hash e' hr hentry

end Entries

/-! ## Sound books -/

/-- Every tracked pointer with a stack finds it, and no entry is charged with more than its size. -/
structure Sound (b : Book) (latest : ℕ → Option AllocationMessage) : Prop where
  attributed : ∀ (ptr : ℕ) (t : PtrMeta), b.tracked[ptr]? = some t → t.stackHash ≠ 0 →
    ∃ msg e, latest ptr = some msg ∧ b.entry t.home = some (t.stackHash, e) ∧ msg.sameStack e
  positive : ∀ (ptr : ℕ) (t : PtrMeta), b.tracked[ptr]? = some t → t.stackHash ≠ 0 → 0 < t.size
  covered : ∀ r hash e, b.entry r = some (hash, e) → charge b.tracked r ≤ e.size

variable {r : StackRef} {e : StackEntry} {msg : AllocationMessage}

namespace Sound

variable {b : Book} {latest : ℕ → Option AllocationMessage}

theorem charge_of_none (h : Sound b latest) (hnone : b.entry r = none) :
    charge b.tracked r = 0 := by
  refine charge_eq_zero fun ptr t hget hhash hhome => ?_
  obtain ⟨msg, e, -, hentry, -⟩ := h.attributed ptr t hget hhash
  rw [hhome, hnone] at hentry
  cases hentry

theorem home_ne_of_size_zero (h : Sound b latest) {hash : ℕ} (hentry : b.entry r = some (hash, e))
    (hzero : e.size = 0) (hget : b.tracked[ptr]? = some t) (hhash : t.stackHash ≠ 0) :
    t.home ≠ r := by
  intro hhome
  have hpos := h.positive ptr t hget hhash
  have hle := size_le_charge hget hhash hhome
  have hcov := h.covered r hash e hentry
  omega

theorem sameStack_of_charged (h : Sound b latest) {hash : ℕ} (hchar : Charged b hash msg r e)
    (hget : b.tracked[ptr]? = some t) (hhash : t.stackHash ≠ 0) (hhome : t.home = r) :
    t.stackHash = hash ∧ ∃ msg', latest ptr = some msg' ∧ msg'.sameStack e := by
  obtain ⟨msg', e', hlat, hent', hsame'⟩ := h.attributed ptr t hget hhash
  rw [hhome] at hent'
  cases hchar with
  | new hnone => rw [hnone] at hent'; cases hent'
  | same hentry hsame =>
    cases hentry.symm.trans hent'
    exact ⟨rfl, msg', hlat, hsame'⟩
  | blank hentry => exact absurd hhome (h.home_ne_of_size_zero hentry rfl hget hhash)

theorem charge_add_le (h : Sound b latest) {hash : ℕ} (hchar : Charged b hash msg r e)
    (hfits : ∀ e, b.entry r = some (hash, e) → msg.sameStack e → e.size + msg.size < 2 ^ 64) :
    charge b.tracked r + msg.size ≤ e.size := by
  cases hchar with
  | new hnone => rw [h.charge_of_none hnone, Nat.zero_add]; exact le_rfl
  | same hentry hsame =>
    rw [Nat.mod_eq_of_lt (hfits _ hentry hsame)]
    exact Nat.add_le_add_right (h.covered _ _ _ hentry) _
  | blank hentry =>
    have hcov : charge b.tracked r ≤ 0 := h.covered _ _ _ hentry
    rw [Nat.le_zero.mp hcov, Nat.zero_add]
    exact le_rfl

theorem sameStack_of_charged_self {hash : ℕ} (hchar : Charged b hash msg r e) :
    msg.sameStack e := by
  cases hchar with
  | new _ => simp [AllocationMessage.sameStack, AllocationMessage.newEntry, stacktraceCompareCommon]
  | same _ hsame => exact hsame
  | blank _ =>
    simp [AllocationMessage.sameStack, AllocationMessage.newEntry, stacktraceCompareCommon]

/-- **An allocation** keeps the book sound, unless the size of the entry overflows. -/
theorem allocate (h : Sound b latest) {isMmap : Bool} {hash : ℕ} (hhash : hash ≠ 0)
    (hpos : 0 < msg.size) (hchar : Charged b hash msg r e)
    (hfits : ∀ e, b.entry r = some (hash, e) → msg.sameStack e → e.size + msg.size < 2 ^ 64) :
    Sound (b.allocate msg isMmap hash r e) (update latest msg.ptr (some msg)) := by
  have hle : ∀ r', charge (b.tracked.erase msg.ptr) r' ≤ charge b.tracked r' := fun r' =>
    charge_erase_le r' msg.ptr
  refine ⟨fun ptr t hget hstk => ?_, fun ptr t hget hstk => ?_,
    forall_entry_allocate ?_ fun r' hash' e' hr hentry => ?_⟩
  · simp only [Book.allocate, OrdMap.get_insert] at hget ⊢
    split_ifs at hget with hptr
    · -- the pointer of the message
      subst hptr
      cases hget
      refine ⟨msg, e, update_self .., ?_, sameStack_of_charged_self hchar⟩
      rw [home_allocated, stackHash_allocated, update_self]
    · rw [update_of_ne hptr]
      by_cases hhome : t.home = r
      · obtain ⟨rfl, msg', hlat, hsame⟩ := h.sameStack_of_charged hchar hget hstk hhome
        exact ⟨msg', e, hlat, by rw [hhome, update_self], hsame⟩
      · rw [update_of_ne hhome]
        exact h.attributed ptr t hget hstk
  · simp only [Book.allocate, OrdMap.get_insert] at hget
    split_ifs at hget with hptr
    · cases hget
      exact hpos
    · exact h.positive ptr t hget hstk
  · have hsum := h.charge_add_le hchar hfits
    rw [Book.allocate, charge_insert, weight_allocated msg isMmap r hhash, Nat.add_comm]
    exact (Nat.add_le_add_right (hle r) _).trans hsum
  · rw [Book.allocate, charge_insert, weight_allocated_of_ne msg isMmap hash r hr, Nat.zero_add]
    exact (hle r').trans (h.covered r' hash' e' hentry)

/-- **An allocation without a stack** keeps the book sound. -/
theorem allocateBare (h : Sound b latest) (msg : AllocationMessage) (isMmap : Bool) :
    Sound (b.allocateBare msg isMmap) (update latest msg.ptr (some msg)) := by
  refine ⟨fun ptr t hget hstk => ?_, fun ptr t hget hstk => ?_, fun r hash e hentry => ?_⟩
  · simp only [Book.allocateBare, OrdMap.get_insert] at hget ⊢
    split_ifs at hget with hptr
    · cases hget
      exact absurd rfl hstk
    · rw [update_of_ne hptr]
      exact h.attributed ptr t hget hstk
  · simp only [Book.allocateBare, OrdMap.get_insert] at hget
    split_ifs at hget with hptr
    · cases hget
      exact absurd rfl hstk
    · exact h.positive ptr t hget hstk
  · simp only [Book.allocateBare]
    rw [charge_insert, weight_allocatedBare, Nat.zero_add]
    exact (charge_erase_le r msg.ptr).trans (h.covered r hash e hentry)

theorem home_ne_of_emptied (h : Sound b latest) (hget : b.tracked[ptr]? = some t)
    (hstk : t.stackHash ≠ 0) (hentry : b.entry t.home = some (t.stackHash, e))
    (hle : e.size ≤ t.size) {ptr' : ℕ} {t' : PtrMeta} (hget' : b.tracked[ptr']? = some t')
    (hstk' : t'.stackHash ≠ 0) (hne : ptr' ≠ ptr) : t'.home ≠ t.home := by
  intro hhome
  have hcov := h.covered t.home t.stackHash e hentry
  have hpos := h.positive ptr' t' hget' hstk'
  have her : (b.tracked.erase ptr)[ptr']? = some t' := by
    rw [OrdMap.get_erase, if_neg hne, hget']
  have hoth := size_le_charge her hstk' hhome
  rw [charge_of_get t.home hget, PtrMeta.weight, if_pos ⟨hstk, rfl⟩] at hcov
  omega

/-- **A deletion** keeps the book sound. -/
theorem delete (h : Sound b latest) (hget : b.tracked[ptr]? = some t) (hstk : t.stackHash ≠ 0)
    {e : Option (ℕ × StackEntry)} (hreld : Released b t e) :
    Sound (b.delete ptr t e) (update latest ptr none) := by
  have hsplit := charge_of_get t.home hget
  rw [PtrMeta.weight, if_pos ⟨hstk, rfl⟩] at hsplit
  refine ⟨fun ptr' t' hget' hstk' => ?_, fun ptr' t' hget' hstk' => ?_,
    forall_entry_delete hreld (fun e hentry hlt => ?_) (fun e hentry hle _ _ => ?_)
      fun r hash e' _ hentry => (charge_erase_le r ptr).trans (h.covered r hash e' hentry)⟩
  · simp only [Book.delete, OrdMap.get_erase] at hget' ⊢
    split_ifs at hget' with hptr
    rw [update_of_ne hptr]
    obtain ⟨msg, f, hlat, hf, hsame⟩ := h.attributed ptr' t' hget' hstk'
    by_cases hhome : t'.home = t.home
    · -- another pointer of the entry, which therefore stays
      cases hreld with
      | less hentry hlt =>
        rw [hhome] at hf ⊢
        obtain ⟨hhash, rfl⟩ := Prod.mk.inj (some.inj (hentry.symm.trans hf))
        rw [update_self, hhash]
        exact ⟨msg, _, hlat, rfl, hsame⟩
      | dropped hentry hle | blanked hentry hle _ =>
        exact absurd hhome (h.home_ne_of_emptied hget hstk hentry hle hget' hstk' hptr)
    · exact ⟨msg, f, hlat, by rw [update_of_ne hhome, hf], hsame⟩
  · simp only [Book.delete, OrdMap.get_erase] at hget'
    split_ifs at hget' with hptr
    exact h.positive ptr' t' hget' hstk'
  · have hcov := h.covered _ _ _ hentry
    show charge (b.tracked.erase ptr) t.home ≤ e.size - t.size
    omega
  · have hcov := h.covered _ _ _ hentry
    show charge (b.tracked.erase ptr) t.home ≤ 0
    omega

/-- **A deletion without a stack** keeps the book sound. -/
theorem deleteBare (h : Sound b latest) (ptr : ℕ) :
    Sound (b.deleteBare ptr) (update latest ptr none) := by
  refine ⟨fun ptr' t' hget' hstk' => ?_, fun ptr' t' hget' hstk' => ?_,
    fun r hash e' hentry => ?_⟩
  · simp only [Book.deleteBare, OrdMap.get_erase] at hget' ⊢
    split_ifs at hget' with hptr
    rw [update_of_ne hptr]
    exact h.attributed ptr' t' hget' hstk'
  · simp only [Book.deleteBare, OrdMap.get_erase] at hget'
    split_ifs at hget' with hptr
    exact h.positive ptr' t' hget' hstk'
  · exact (charge_erase_le r ptr).trans (h.covered r hash e' hentry)

end Sound

/-! ## Recorded sizes -/

/-- The tracked pointers and their sizes are those of the latest messages. -/
def Recorded (b : Book) (latest : ℕ → Option AllocationMessage) : Prop :=
  ∀ ptr : ℕ, b.tracked[ptr]?.map PtrMeta.size = (latest ptr).map AllocationMessage.size

namespace Recorded

variable {b : Book} {latest : ℕ → Option AllocationMessage}

theorem insert (h : Recorded b latest) (hsize : t.size = msg.size)
    (entry : StackRef → Option (ℕ × StackEntry)) :
    Recorded ⟨b.tracked.insert msg.ptr t, entry⟩ (update latest msg.ptr (some msg)) := by
  intro ptr
  rw [OrdMap.get_insert]
  split_ifs with hptr
  · rw [hptr, update_self]
    exact congrArg some hsize
  · rw [update_of_ne hptr]
    exact h ptr

theorem erase (h : Recorded b latest) (ptr : ℕ) (entry : StackRef → Option (ℕ × StackEntry)) :
    Recorded ⟨b.tracked.erase ptr, entry⟩ (update latest ptr none) := by
  intro ptr'
  rw [OrdMap.get_erase]
  split_ifs with hptr
  · rw [hptr, update_self]
    rfl
  · rw [update_of_ne hptr]
    exact h ptr'

end Recorded

/-! ## Balanced books -/

/-- Every entry is charged with its size; without a charge it is a blank entry of the map. -/
structure Balanced (b : Book) : Prop where
  charged : ∀ r hash e, b.entry r = some (hash, e) → charge b.tracked r = e.size
  blank : ∀ r hash e, b.entry r = some (hash, e) → e.size = 0 → ∃ i, r = .top i ∧ e = .blank

namespace Balanced

variable {b : Book} {latest : ℕ → Option AllocationMessage}

theorem size_of_charged (h : Balanced b) (hsound : Sound b latest) {hash : ℕ}
    (hchar : Charged b hash msg r e)
    (hfits : ∀ e, b.entry r = some (hash, e) → msg.sameStack e → e.size + msg.size < 2 ^ 64) :
    e.size = msg.size + charge b.tracked r := by
  cases hchar with
  | new hnone =>
    rw [hsound.charge_of_none hnone]
    rfl
  | same hentry hsame =>
    rw [h.charged _ _ _ hentry]
    exact (Nat.mod_eq_of_lt (hfits _ hentry hsame)).trans (Nat.add_comm ..)
  | blank hentry =>
    rw [h.charged _ _ _ hentry]
    rfl

/-- **An allocation** of an untracked pointer keeps the book balanced. -/
theorem allocate (h : Balanced b) (hsound : Sound b latest) {isMmap : Bool} {hash : ℕ}
    (hhash : hash ≠ 0) (hpos : 0 < msg.size) (hcharg : Charged b hash msg r e)
    (hfits : ∀ e, b.entry r = some (hash, e) → msg.sameStack e → e.size + msg.size < 2 ^ 64)
    (huntr : b.tracked[msg.ptr]? = none) : Balanced (b.allocate msg isMmap hash r e) := by
  have hsize := h.size_of_charged hsound hcharg hfits
  have hchar : ∀ r', charge (b.allocate msg isMmap hash r e).tracked r' =
      (allocated msg isMmap hash r).weight r' + charge b.tracked r' := fun r' => by
    rw [Book.allocate, charge_insert, OrdMap.erase_of_get_none huntr]
  refine ⟨forall_entry_allocate ?_ fun r' hash' e' hr hentry => ?_,
    forall_entry_allocate (fun hzero => ?_) fun r' hash' e' _ => h.blank r' hash' e'⟩
  · rw [hchar, weight_allocated msg isMmap r hhash, hsize]
  · rw [hchar, weight_allocated_of_ne msg isMmap hash r hr, Nat.zero_add]
    exact h.charged r' hash' e' hentry
  · omega

theorem allocateBare (h : Balanced b) (isMmap : Bool) (huntr : b.tracked[msg.ptr]? = none) :
    Balanced (b.allocateBare msg isMmap) := by
  refine ⟨fun r hash e hentry => ?_, h.blank⟩
  simp only [Book.allocateBare]
  rw [charge_insert, OrdMap.erase_of_get_none huntr, weight_allocatedBare, Nat.zero_add]
  exact h.charged r hash e hentry

/-- **A deletion** keeps the book balanced. -/
theorem delete (h : Balanced b) (hget : b.tracked[ptr]? = some t) (hstk : t.stackHash ≠ 0)
    {e : Option (ℕ × StackEntry)} (hreld : Released b t e) : Balanced (b.delete ptr t e) := by
  have hsplit := charge_of_get t.home hget
  rw [PtrMeta.weight, if_pos ⟨hstk, rfl⟩] at hsplit
  refine ⟨forall_entry_delete hreld (fun e hentry hlt => ?_) (fun e hentry hle _ _ => ?_)
    fun r hash e' hr hentry => ?_, forall_entry_delete hreld
      (fun e _ hlt hzero => absurd hzero (Nat.sub_ne_zero_of_lt hlt))
      (fun _ _ _ htop _ _ => ⟨t.link, if_pos htop, rfl⟩) fun r hash e' _ => h.blank r hash e'⟩
  · have hsize := h.charged _ _ _ hentry
    show charge (b.tracked.erase ptr) t.home = e.size - t.size
    omega
  · have hsize := h.charged _ _ _ hentry
    show charge (b.tracked.erase ptr) t.home = 0
    omega
  · have hoth := charge_of_get r hget
    rw [PtrMeta.weight, if_neg fun hw => hr hw.2.symm, Nat.zero_add] at hoth
    exact hoth.symm.trans (h.charged r hash e' hentry)

theorem deleteBare (h : Balanced b)
    (hbare : ∀ t : PtrMeta, b.tracked[ptr]? = some t → t.stackHash = 0) :
    Balanced (b.deleteBare ptr) := by
  refine ⟨fun r hash e hentry => ?_, h.blank⟩
  have hsame : charge (b.tracked.erase ptr) r = charge b.tracked r := by
    cases hget : b.tracked[ptr]? with
    | none => rw [OrdMap.erase_of_get_none hget]
    | some t =>
      rw [charge_of_get r hget, PtrMeta.weight, if_neg fun hw => hw.1 (hbare t hget), Nat.zero_add]
  simp only [Book.deleteBare]
  rw [hsame]
  exact h.charged r hash e hentry

end Balanced

/-! ## Books without blank entries -/

/-- No entry has the size zero. -/
def Full (b : Book) : Prop := ∀ r hash e, b.entry r = some (hash, e) → e.size ≠ 0

namespace Full

variable {b : Book}

theorem allocate (h : Full b) {isMmap : Bool} {hash : ℕ} (hsize : e.size ≠ 0) :
    Full (b.allocate msg isMmap hash r e) :=
  forall_entry_allocate hsize fun r' hash' e' _ => h r' hash' e'

/-- **A deletion** blanks no entry, or leaves one of size zero. -/
theorem delete (h : Full b) {e : Option (ℕ × StackEntry)} (hreld : Released b t e)
    (hblank : e ≠ some (t.stackHash, .blank)) : Full (b.delete ptr t e) :=
  forall_entry_delete hreld (fun _ _ hlt => Nat.sub_ne_zero_of_lt hlt)
    (fun _ _ _ _ he => absurd he hblank) fun r hash e' _ => h r hash e'

end Full

end TraceHarbor.Hooks
