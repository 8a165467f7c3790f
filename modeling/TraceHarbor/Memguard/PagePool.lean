import TraceHarbor.Lib.Run

/-!
# Guarded Blocks and Their Slots

The page pool of the memory guard hands out blocks at the left or the right end of a slot. Slots are
separated by one guard page each, so a slot does not start at a multiple of more than the page size, and
neither does a block in it. A slot is lent to one block at a time. Thread names, stack traces and page
protection are left out.
-/

namespace TraceHarbor.Memguard

/-- `size_t` and `uint64_t`. -/
abbrev Word := BitVec 64

def isPowOf2 (value : Word) : Bool := value &&& (value - 1) = 0

def alignUpTo (value align : Word) : Word :=
  if isPowOf2 align then (value + align - 1) &&& ~~~(align - 1)
  else (value + align - 1) / align * align

def alignDownTo (value align : Word) : Word :=
  if isPowOf2 align then value &&& ~~~(align - 1) else value / align * align

inductive GuardSide where
  | onLeft
  | onRight

structure PagePool where
  maxAllocationSize : Word
  maxDetectableAllocationCount : ℕ
  perfectRightSideGuard : Bool
  pageSize : Word
  slotAreaStart : Word
  lentPageCount : ℕ
  freeSlots : List ℕ
  deriving DecidableEq

namespace PagePool

variable (p : PagePool)

def slotSize : Word := alignUpTo p.maxAllocationSize p.pageSize

def getGuardedPageStart (slot : ℕ) : Word :=
  p.slotAreaStart + p.pageSize + (p.slotSize + p.pageSize) * BitVec.ofNat 64 slot

/-- The slot that `BorrowSlot` takes: a new one, or a free one by a random number. -/
def takeSlot (random : ℕ) : Option (ℕ × PagePool) :=
  if p.lentPageCount < p.maxDetectableAllocationCount then
    some (p.lentPageCount, { p with lentPageCount := p.lentPageCount + 1 })
  else do
    let slot ← p.freeSlots[random % p.freeSlots.length]?
    let last ← p.freeSlots.getLast?
    return (slot, { p with
      freeSlots := (p.freeSlots.set (random % p.freeSlots.length) last).dropLast })

/-- Where `BorrowSlot` puts a block in its slot. -/
def allocatedStart (size alignment : Word) : GuardSide → Word
  | .onLeft => 0
  | .onRight =>
    let padding := p.slotSize - size
    if p.perfectRightSideGuard then padding else alignDownTo padding alignment

/-- `BorrowSlot`, with the address of the block. -/
def borrowSlot (size alignment : Word) (guardSide : GuardSide) (random : ℕ) :
    Option (ℕ × Word × PagePool) :=
  if p.slotSize < size then none
  else if p.slotSize < alignUpTo size alignment then none
  else do
    let (slot, p') ← p.takeSlot random
    return (slot, p.getGuardedPageStart slot + p.allocatedStart size alignment guardSide, p')

/-- What an allocation draws: whether it is guarded, on which side, and a free slot. -/
structure Draw where
  guarded : Bool
  guardSide : GuardSide
  random : ℕ

variable (draw : Draw)

def alignedAllocate (size alignment : Word) : Option (ℕ × Word × PagePool) :=
  if !draw.guarded then none
  else if p.slotSize < alignment then none
  else if !isPowOf2 alignment then none
  else if p.slotSize < alignUpTo size alignment then none
  else p.borrowSlot size alignment draw.guardSide draw.random

/-! ## The wrappers

They return `none` for an error, and for what the original functions return. -/

def handleMemAlign (alignment byteCount : Word) : Option (ℕ × Word × PagePool) :=
  if !isPowOf2 alignment then none else p.alignedAllocate draw byteCount alignment

def handlePosixMemAlign (alignment size : Word) : Option (ℕ × Word × PagePool) :=
  if alignment &&& 7 ≠ 0 then none else p.alignedAllocate draw size alignment

def handleAlignedAlloc (alignment size : Word) : Option (ℕ × Word × PagePool) :=
  if size % alignment ≠ 0 then none else p.handleMemAlign draw alignment size

end PagePool

/-! ## Alignment -/

theorem dvd_alignDownTo (value : Word) {k : ℕ} (hk : k < 64) :
    2 ^ k ∣ (alignDownTo value (BitVec.twoPow 64 k)).toNat := by
  have hpow : (BitVec.twoPow 64 k).toNat = 2 ^ k := by
    rw [BitVec.toNat_twoPow, Nat.mod_eq_of_lt (Nat.pow_lt_pow_right (by decide) hk)]
  have hmask : (BitVec.twoPow 64 k - 1).toNat = 2 ^ k - 1 := by
    rw [BitVec.toNat_sub_of_le (BitVec.le_def.mpr (hpow ▸ Nat.two_pow_pos k)), hpow]
    rfl
  have hpow : isPowOf2 (BitVec.twoPow 64 k) = true := by
    refine decide_eq_true (BitVec.eq_of_toNat_eq ?_)
    rw [BitVec.toNat_and, hmask, Nat.and_two_pow_sub_one_eq_mod, hpow, Nat.mod_self]
    rfl
  rw [alignDownTo, if_pos hpow, Nat.dvd_iff_mod_eq_zero, ← Nat.and_two_pow_sub_one_eq_mod, ← hmask,
    ← BitVec.toNat_and, BitVec.and_assoc]
  simp

theorem dvd_allocatedStart {p : PagePool} (hguard : p.perfectRightSideGuard = false) (size : Word)
    {k : ℕ} (hk : k < 64) (guardSide : GuardSide) :
    2 ^ k ∣ (p.allocatedStart size (BitVec.twoPow 64 k) guardSide).toNat := by
  cases guardSide with
  | onLeft => exact ⟨0, rfl⟩
  | onRight =>
    rw [PagePool.allocatedStart, hguard]
    exact dvd_alignDownTo _ hk

/-- **Alignment of guarded blocks**: a block is aligned exactly if its slot is, which is so for
alignments up to the page size. -/
theorem aligned_iff_slot (p : PagePool) (draw : PagePool.Draw) (size : Word) (k : ℕ) (hk : k < 64)
    (hguard : p.perfectRightSideGuard = false) (slot : ℕ) (addr : Word) (p' : PagePool)
    (h : p.alignedAllocate draw size (BitVec.twoPow 64 k) = some (slot, addr, p') ∨
      p.handleMemAlign draw (BitVec.twoPow 64 k) size = some (slot, addr, p') ∨
      p.handlePosixMemAlign draw (BitVec.twoPow 64 k) size = some (slot, addr, p') ∨
      p.handleAlignedAlloc draw (BitVec.twoPow 64 k) size = some (slot, addr, p')) :
    2 ^ k ∣ addr.toNat ↔ 2 ^ k ∣ (p.getGuardedPageStart slot).toNat := by
  have hall : p.alignedAllocate draw size (BitVec.twoPow 64 k) = some (slot, addr, p') := by
    simp only [PagePool.handleMemAlign, PagePool.handlePosixMemAlign, PagePool.handleAlignedAlloc] at h
    rcases h with h | h
    · exact h
    · rcases h with h | h | h <;> split_ifs at h <;> exact h
  rw [PagePool.alignedAllocate] at hall
  split_ifs at hall
  rw [PagePool.borrowSlot] at hall
  split_ifs at hall
  obtain ⟨⟨taken, p''⟩, -, hres⟩ := Option.bind_eq_some_iff.mp hall
  cases hres
  -- the sum wraps around at a multiple of the alignment
  rw [BitVec.toNat_add, Nat.dvd_mod_iff (Nat.pow_dvd_pow 2 hk.le),
    Nat.dvd_add_left (dvd_allocatedStart hguard size hk _)]

theorem aligned_iff_slot_left : 2 ^ 4 ∣ (0x11000 : Word).toNat ↔
    2 ^ 4 ∣ (PagePool.getGuardedPageStart ⟨4096, 1, false, 4096, 0x10000, 0, []⟩ 0).toNat :=
  aligned_iff_slot ⟨4096, 1, false, 4096, 0x10000, 0, []⟩ ⟨true, .onLeft, 0⟩ 100 4 (by decide) rfl 0
    0x11000 ⟨4096, 1, false, 4096, 0x10000, 1, []⟩ (.inl (by decide))

/-- A block of two pages is not aligned to two pages. -/
theorem block_of_two_pages :
    (PagePool.alignedAllocate ⟨8192, 1, false, 4096, 0x10000, 0, []⟩ ⟨true, .onRight, 0⟩ 8192
      8192).map (fun r => (r.2.1, r.2.1 % 8192)) = some (0x11000, 4096) := by
  decide

/-! ## Lending slots -/

open Lib List

/-- The pool and the `isBorrowed` flags of its slots. -/
structure Lending where
  pool : PagePool
  isBorrowed : ℕ → Bool

inductive SlotCall where
  | borrowSlot (size alignment : Word) (guardSide : GuardSide) (random : ℕ)
  | returnSlot (slot : ℕ)

namespace Lending

/-- `ReturnSlot`: `none` where the assertion fails, or where the report of a double free faults. -/
def returnSlot (s : Lending) (slot : ℕ) : Option Lending :=
  if s.pool.maxDetectableAllocationCount ≤ slot then none
  else if !s.isBorrowed slot then none
  else
    let isBorrowed := Function.update s.isBorrowed slot false
    if s.pool.maxDetectableAllocationCount ≤ s.pool.freeSlots.length then some ⟨s.pool, isBorrowed⟩
    else some ⟨{ s.pool with freeSlots := s.pool.freeSlots ++ [slot] }, isBorrowed⟩

def step (s : Lending) : SlotCall → Option Lending
  | .borrowSlot size alignment guardSide random =>
    match s.pool.borrowSlot size alignment guardSide random with
    | none => some s
    | some (slot, _, pool) => some ⟨pool, Function.update s.isBorrowed slot true⟩
  | .returnSlot slot => s.returnSlot slot

/-- The free slots are those that were lent once and are not borrowed. -/
structure Conserved (s : Lending) : Prop where
  nodup : s.pool.freeSlots.Nodup
  mem_iff : ∀ slot, slot ∈ s.pool.freeSlots ↔ slot < s.pool.lentPageCount ∧ s.isBorrowed slot = false
  lent : ∀ slot, s.isBorrowed slot = true → slot < s.pool.lentPageCount
  lent_le : s.pool.lentPageCount ≤ s.pool.maxDetectableAllocationCount

/-- No slot is lent that is borrowed, and only a double free faults. -/
def Sound (s : Lending) : SlotCall → Prop
  | .borrowSlot size alignment guardSide random =>
    ∀ lent ∈ s.pool.borrowSlot size alignment guardSide random, s.isBorrowed lent.1 = false
  | .returnSlot slot => s.returnSlot slot = none ↔ s.isBorrowed slot = false

theorem perm_takeSlot {l : List ℕ} {i slot last : ℕ} (hslot : l[i]? = some slot)
    (hlast : l.getLast? = some last) : slot :: (l.set i last).dropLast ~ l := by
  obtain ⟨hlt, rfl⟩ := List.getElem?_eq_some_iff.mp hslot
  have hset : (l.set i last).getLast? = some last := by grind
  obtain ⟨rest, hrest⟩ := getLast?_eq_some_iff.mp hset
  have hperm := set_perm_cons_eraseIdx hlt last
  rw [hrest] at hperm
  rw [hrest, dropLast_concat]
  calc l[i] :: rest ~ l[i] :: l.eraseIdx i :=
        ((perm_append_singleton ..).symm.trans hperm).cons_inv.cons _
    _ ~ l := getElem_cons_eraseIdx_perm hlt

variable {s : Lending} {slot : ℕ}

theorem Conserved.takeSlot (h : s.Conserved) {random : ℕ} {pool : PagePool}
    (htake : s.pool.takeSlot random = some (slot, pool)) :
    s.isBorrowed slot = false ∧ Conserved ⟨pool, Function.update s.isBorrowed slot true⟩ := by
  obtain ⟨hnodup, hmem, hlent, hle⟩ := h
  rw [PagePool.takeSlot] at htake
  split_ifs at htake with hnew
  · cases htake
    refine ⟨?_, hnodup, ?_, ?_, hnew⟩ <;> grind
  · obtain ⟨slot, hslot, hrest⟩ := Option.bind_eq_some_iff.mp htake
    obtain ⟨last, hlast, heq⟩ := Option.bind_eq_some_iff.mp hrest
    cases heq
    have hperm := perm_takeSlot hslot hlast
    have hcons := hperm.nodup_iff.mpr hnodup
    have htaken := (hmem slot).mp (mem_of_getElem? hslot)
    refine ⟨htaken.2, hcons.of_cons, fun other => ?_, ?_, hle⟩
    · have := hperm.mem_iff (a := other)
      grind
    · grind

theorem Conserved.returnSlot (h : s.Conserved) (hslot : s.isBorrowed slot = true) :
    ∃ s', s.returnSlot slot = some s' ∧ s'.Conserved := by
  obtain ⟨hnodup, hmem, hlent, hle⟩ := h
  have hlt := hlent slot hslot
  -- the free slots and this one are different slots, so there is room
  have hroom : (slot :: s.pool.freeSlots).length ≤ (range s.pool.lentPageCount).length := by
    refine (Nodup.subperm ?_ fun other => ?_).length_le <;> grind
  rw [length_cons, length_range] at hroom
  rw [Lending.returnSlot, if_neg (by omega), if_neg (by simp [hslot]), if_neg (by omega)]
  refine ⟨_, rfl, ?_, ?_, ?_, hle⟩ <;> grind

theorem Conserved.step (h : s.Conserved) (call : SlotCall) :
    (s.Conserved ∧ s.Sound call) ∧ ∀ s', s.step call = some s' → s'.Conserved := by
  cases call with
  | borrowSlot size alignment guardSide random =>
    rw [Sound, Lending.step]
    cases hres : s.pool.borrowSlot size alignment guardSide random with
    | none => simp [h]
    | some lent =>
      rw [PagePool.borrowSlot] at hres
      split_ifs at hres
      obtain ⟨⟨slot, pool⟩, htake, heq⟩ := Option.bind_eq_some_iff.mp hres
      cases heq
      simp [h, h.takeSlot htake]
  | returnSlot slot =>
    rw [Sound, Lending.step]
    cases hslot : s.isBorrowed slot with
    | false => simp [h, Lending.returnSlot, hslot]
    | true =>
      obtain ⟨_, hres, hcons⟩ := h.returnSlot hslot
      simp [h, hres, hcons]

/-- **Lending**: in every run from a fresh pool, whatever is drawn, no slot is lent twice or lost. -/
theorem sound_of_fresh (p : PagePool) (calls : List SlotCall) :
    TryMeets step (fun s call => s.Conserved ∧ s.Sound call)
      ⟨{ p with lentPageCount := 0, freeSlots := [] }, fun _ => false⟩ calls :=
  .of_invariant (fun _ call h => Conserved.step h call) ⟨nodup_nil, by simp, by simp, Nat.zero_le _⟩ calls

end Lending

end TraceHarbor.Memguard
