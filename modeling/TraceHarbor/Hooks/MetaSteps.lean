import TraceHarbor.Hooks.MetaChains

/-!
# The Meta Container Keeps Its Books

Every message that `process_routine` applies to the container is a step of the book that the
container represents: the maps and chains find the entry to charge or to release, and no
`CRITICAL_CHECK` fails on the way.
-/

namespace TraceHarbor.Hooks

open Lib Option Function

/-! ## The pointer map -/

def HoldsPtrs (s : SplayMap ℕ PtrMeta) (tracked : OrdMap ℕ PtrMeta) : Prop :=
  ∃ idx, s.Indexes idx ∧ ∀ k : ℕ, tracked[k]? = idx[k]?.map s.vBuff

variable {t : PtrMeta}

namespace HoldsPtrs

variable {s : SplayMap ℕ PtrMeta} {tracked : OrdMap ℕ PtrMeta}

theorem insert (h : HoldsPtrs s tracked) {p : Platform} (hreal : ∀ bytes, p.realloc bytes = true)
    (hroom : s.Roomy p) (ptr : ℕ) :
    ∃ n s', s.insert p ptr PtrMeta.zero = some (some n, s') ∧
      ∀ t, HoldsPtrs (s'.set n t) (tracked.insert ptr t) := by
  obtain ⟨idx, ⟨free, high, hmod⟩, htrk⟩ := h
  obtain ⟨n, s', heq, hins⟩ := hmod.insert hreal hroom ptr PtrMeta.zero
  obtain ⟨free', hmod'⟩ := hins.models
  have hidxs : s'.Indexes (idx.insert ptr n) := ⟨free', _, hmod'⟩
  refine ⟨n, s', heq, fun t => ⟨_, hidxs.set n t, fun k => ?_⟩⟩
  rw [OrdMap.get_insert, OrdMap.get_insert]
  by_cases hk : k = ptr
  · rw [if_pos hk, if_pos hk]
    exact congrArg some (update_self n t s'.vBuff).symm
  · rw [if_neg hk, if_neg hk, htrk]
    cases hi : idx[k]? with
    | none => rfl
    | some i =>
      -- the entry of another pointer lies elsewhere and keeps its value
      have hne : i ≠ n := by
        rintro rfl
        have hi' : (idx.insert ptr i)[k]? = some i := by rw [OrdMap.get_insert_of_ne _ _ hk, hi]
        exact hk (hmod'.index_inj hi' (OrdMap.get_insert_self ..))
      refine congrArg some ?_
      exact (hins.value_of_ne hmod hi hk).symm.trans (update_of_ne hne ..).symm

theorem remove_of_none (h : HoldsPtrs s tracked) {ptr : ℕ} (hptr : tracked[ptr]? = none) :
    ∃ s', s.remove ptr = some (none, s') ∧ HoldsPtrs s' tracked := by
  obtain ⟨idx, ⟨free, high, hmod⟩, htrk⟩ := h
  have hidx : idx[ptr]? = none := by
    rw [htrk] at hptr
    exact map_eq_none_iff.mp hptr
  obtain ⟨s', heq, hmod', hsame⟩ := hmod.remove_of_none hidx
  exact ⟨s', heq, idx, ⟨free, high, hmod'⟩, fun k => by rw [htrk, hsame.vBuff]⟩

theorem remove_of_some (h : HoldsPtrs s tracked) {ptr : ℕ} (hptr : tracked[ptr]? = some t) :
    ∃ n s', s.remove ptr = some (some n, s') ∧ s'.vBuff n = t ∧
      HoldsPtrs s' (tracked.erase ptr) := by
  obtain ⟨idx, ⟨free, high, hmod⟩, htrk⟩ := h
  rw [htrk] at hptr
  obtain ⟨n, hidx, rfl⟩ := map_eq_some_iff.mp hptr
  obtain ⟨s', heq, hmod', hvBuff, -⟩ := hmod.remove_of_some hidx
  refine ⟨n, s', heq, by rw [hvBuff], idx.erase ptr, ⟨_, high, hmod'⟩, fun k => ?_⟩
  rw [OrdMap.get_erase, OrdMap.get_erase, hvBuff]
  split_ifs with hk
  · rfl
  · exact htrk k

theorem enumerate (h : HoldsPtrs s tracked) : s.enumerate = some tracked.toList := by
  obtain ⟨idx, ⟨free, high, hmod⟩, htrk⟩ := h
  rw [hmod.enumerate, Refines.toList_eq htrk]

end HoldsPtrs

/-! ## Finding an entry -/

/-- The entry that an allocation finds, and the filed entries with it in place. -/
inductive Located (entry : StackRef → Option (ℕ × StackEntry)) (hash : ℕ) (msg : AllocationMessage)
    (r : StackRef) : (StackRef → Option (ℕ × StackEntry)) → Prop
  | same {e : StackEntry} (hentry : entry r = some (hash, e)) (hsame : msg.sameStack e) :
      Located entry hash msg r entry
  | blank (hentry : entry r = some (hash, .blank)) : Located entry hash msg r entry
  | new (hentry : entry r = none) :
      Located entry hash msg r (Function.update entry r (some (hash, .blank)))

namespace Files

variable {c : MetaContainer} {entry : StackRef → Option (ℕ × StackEntry)} {idx : OrdMap ℕ ℕ}
  {chains : ℕ → List (StackRef × StackEntry)}

section

variable (h : Files c entry idx chains)

include h

theorem exist_spec (hash : ℕ) :
    ∃ s, c.stackMetas.exist hash = some (idx[hash]?.isSome, s) ∧
      Files { c with stackMetas := s } entry idx chains ∧ SplayMap.SameValues c.stackMetas s ∧
      MetaContainer.read { c with stackMetas := s } = c.read ∧
      ∀ i, idx[hash]? = some i → s.rootPtr = i ∧ s.lastPtr = i := by
  obtain ⟨s, heq, hidxs, hsame, hget, hroot⟩ := h.indexes.exist hash
  refine ⟨s, heq, h.exist hidxs hget, hsame, funext fun r => ?_, hroot⟩
  cases r with
  | top i => simp only [MetaContainer.read, hget]
  | ext a => rfl

theorem locateLive {hash i : ℕ} (hi : idx[hash]? = some i) (hroot : c.stackMetas.rootPtr = i)
    (hlast : c.stackMetas.lastPtr = i) (msg : AllocationMessage) {a : ℕ} (hfree : c.heap[a]? =
      none) :
    ∃ r c₁ entry₁ chains₁, c.locateLive msg (some a) = some (r, r, c₁) ∧
      c₁.ptrMetas = c.ptrMetas ∧ Files c₁ entry₁ idx chains₁ ∧ Located entry hash msg r entry₁ ∧
      (∀ e, entry r = some (hash, e) → msg.sameStack e →
        ∃ m, seek c.cell (fun cell => msg.sameStack cell.data) c.chainBound (.top i) =
          some (true, r) ∧ c.read r = some m ∧ m.toStackEntry = e) := by
  obtain ⟨top, exts, htop, hl, -⟩ := h.chain_cons hi
  have hne : c.stackMetas.rootPtr ≠ 0 := hroot ▸ h.indexes.index_ne_zero hi
  have hchain := h.chain hash i hi
  rcases seek_of_chain (fun cell => msg.sameStack cell.data) hchain (h.length_le hash) with
    ⟨l₁, r, e, n, l₂, hsplit, hcell, hstop, hseek⟩ | ⟨l₁, r, e, hsplit, hcell, hseek, hnone⟩
  · -- an entry with the stack of the message
    have hmem : (r, e) ∈ chains hash := by simp [hsplit]
    have hentry := (h.filed r hash e).mpr hmem
    obtain ⟨m, hread, -, hme⟩ := MetaContainer.read_of_cell hcell
    have heq : c.locateLive msg (some a) = some (r, r, c) := by
      have htgt : r = .top i ∨ ∃ b, r = .ext b := by
        cases r with
        | top j =>
          have hj := h.index_of_top_mem hmem
          rw [hi] at hj
          exact .inl (congrArg StackRef.top (some.inj hj).symm)
        | ext b => exact .inr ⟨b, rfl⟩
      rcases htgt with rfl | ⟨b, rfl⟩ <;>
        simp [MetaContainer.locateLive, hlast, hroot, htop, hseek, hroot ▸ hne]
    refine ⟨r, c, entry, chains, heq, rfl, h, .same hentry hstop, fun e' he' _ => ?_⟩
    rw [hentry] at he'
    cases he'
    exact ⟨m, hseek, hread, hme⟩
  · obtain ⟨last, hread, hext, hme⟩ := MetaContainer.read_of_cell hcell
    by_cases hblank : top.size = 0 ∧ top.caller = 0 ∧ top.backtrace = []
    · -- the first entry is blank and is used again
      have htopBlank : top.toStackEntry = .blank := by
        obtain ⟨⟨size, caller, backtrace⟩, ext⟩ := top
        obtain ⟨rfl, rfl, rfl⟩ := hblank
        rfl
      have hentry : entry (.top i) = some (hash, .blank) := by
        rw [h.filed, hl, htopBlank]
        exact List.mem_cons_self ..
      refine ⟨.top i, c, entry, chains, ?_, rfl, h, .blank hentry, fun e' he' hsame => ?_⟩
      · simp [MetaContainer.locateLive, hlast, hroot, htop, hseek, hroot ▸ hne, hblank]
      · have hmem' := (h.filed _ _ _).mp he'
        obtain ⟨n, hcell'⟩ := hchain.cell_of_mem hmem'
        rw [hnone _ _ hmem' n hcell'] at hsame
        cases hsame
    · -- a new block at the end of the chain
      subst hme
      obtain ⟨chains₁, hfil⟩ := h.append hsplit hread hfree
      have hnew : entry (.ext a) = none := by
        cases hsome : entry (.ext a) with
        | none => rfl
        | some v =>
          obtain ⟨m, hm, -⟩ := h.read_of_mem ((h.filed _ _ _).mp hsome)
          rw [show c.read (.ext a) = none from hfree] at hm
          cases hm
      refine ⟨.ext a, _, _, chains₁, ?_, ?_, hfil, .new hnew, fun e' he' => ?_⟩
      · simp only [MetaContainer.locateLive, hlast, hroot, htop, bind_eq_bind,
          bind_some, hroot ▸ hne, if_false, hseek, Bool.false_eq_true, hblank, hread]
        rfl
      · cases r <;> rfl
      · rw [hnew] at he'
        cases he'

/-- **`locate`**: the entry to charge is found, or put in place. -/
theorem locate {env : MetaEnv} (hreal : ∀ bytes, env.stackMemory.realloc bytes = true)
    (hroom : c.stackMetas.Roomy env.stackMemory) (hash : ℕ) (msg : AllocationMessage) {a : ℕ}
    (hfree : c.heap[a]? = none) :
    ∃ r c₁ entry₁ idx₁ chains₁, c.locate env hash msg (some a) = some (r, r, c₁) ∧
      c₁.ptrMetas = c.ptrMetas ∧ Files c₁ entry₁ idx₁ chains₁ ∧ Located entry hash msg r entry₁ ∧
      (∀ e, entry r = some (hash, e) → msg.sameStack e →
        ∃ m, c.stackFor hash msg = some m ∧ m.toStackEntry = e) := by
  obtain ⟨s, heq, hfil, hsame, hread, hroot⟩ := h.exist_spec hash
  cases hi : idx[hash]? with
  | some i =>
    obtain ⟨hrootPtr, hlastPtr⟩ := hroot i hi
    rw [hi] at heq
    obtain ⟨r, c₁, entry₁, chains₁, hloca, hptrs, hfil₁, hloc, hfound⟩ :=
      hfil.locateLive hi hrootPtr hlastPtr msg hfree
    refine ⟨r, c₁, entry₁, idx, chains₁, ?_, hptrs, hfil₁, hloc, fun e he hsameStack => ?_⟩
    · simp [MetaContainer.locate, heq, hloca]
    · obtain ⟨m, hseek, hm, hme⟩ := hfound e he hsameStack
      refine ⟨m, ?_, hme⟩
      have hcell : MetaContainer.cell { c with stackMetas := s } = c.cell := by
        funext r
        rw [MetaContainer.cell, hread]
        rfl
      rw [hcell] at hseek
      rw [hread] at hm
      have hbd : MetaContainer.chainBound { c with stackMetas := s } = c.chainBound := rfl
      rw [hbd] at hseek
      simp [MetaContainer.stackFor, heq, hrootPtr, hseek, hm]
  | none =>
    rw [hi] at heq
    obtain ⟨free, high, hmod⟩ := hfil.indexes
    have hroom' : s.Roomy env.stackMemory := by
      rw [SplayMap.Roomy, hsame.tSize, hsame.bSize, hsame.iSize]
      exact hroom
    obtain ⟨n, s', hinse, hins⟩ := hmod.insert hreal hroom' hash StackMeta.zero
    obtain ⟨chains₁, hfil₁⟩ := hfil.newTop hmod hins hi
    have hnew : entry (.top n) = none := by
      cases hsome : entry (.top n) with
      | none => rfl
      | some v =>
        obtain ⟨hash', e⟩ := v
        exact absurd (h.index_of_top_mem ((h.filed _ _ _).mp hsome)) (hins.fresh hi hash')
    refine ⟨.top n, { c with stackMetas := s' }, _, _, chains₁, ?_, rfl, hfil₁, .new hnew, fun e he => ?_⟩
    · simp [MetaContainer.locate, heq, hinse, hins.root]
    · rw [hnew] at he
      cases he

theorem resolve {e : StackEntry} (hentry : entry t.home = some (t.stackHash, e)) :
    ∃ m, c.resolve t = some m ∧ c.read t.home = some m ∧ m.toStackEntry = e := by
  have hmem := (h.filed _ _ _).mp hentry
  obtain ⟨m, hread, hm⟩ := h.read_of_mem hmem
  obtain ⟨i, hi⟩ := h.index_of_mem hmem
  obtain ⟨s, heq, -, -, -, hroot⟩ := h.exist_spec t.stackHash
  have hlink : t.isStackIdx → t.link = s.rootPtr := by
    intro htop
    rw [PtrMeta.home, if_pos htop] at hmem
    have hlinked := h.index_of_top_mem hmem
    exact (hroot _ hlinked).1.symm
  refine ⟨m, ?_, hread, hm⟩
  rw [hi] at heq
  simp only [MetaContainer.resolve, heq, bind_eq_bind, bind_some, isSome_some,
    not_true, false_or]
  rw [if_neg fun hne => hne.2 (hlink hne.1), hread]

end

end Files

/-! ## Steps of the container -/

/-- The container holds the tracked pointers and files the entries of a book. -/
structure Represents (c : MetaContainer) (b : Book) : Prop where
  ptrs : HoldsPtrs c.ptrMetas b.tracked
  files : ∃ idx chains, Files c b.entry idx chains

/-- What the callback of `process_routine` makes of the entry that it charges. -/
def AllocationMessage.chargeTo (msg : AllocationMessage) (e : StackEntry) : StackEntry :=
  let size := (e.size + msg.size) % 2 ^ 64
  if e.backtrace = [] then ⟨size, msg.caller, msg.backtrace⟩ else { e with size := size }

variable {msg : AllocationMessage}

theorem recordAllocation_some (hfrs : msg.backtrace ≠ []) (isMmap : Bool) (hash : ℕ)
    (r : StackRef) (m : StackMeta) :
    MetaContainer.recordAllocation msg isMmap (PtrMeta.linked hash r) (some m) =
      (allocated msg isMmap hash r, some { m with toStackEntry := msg.chargeTo m.toStackEntry }) := by
  by_cases hnil : m.backtrace = []
  · simp [MetaContainer.recordAllocation, AllocationMessage.chargeTo, hnil, hfrs, allocated]
  · simp [MetaContainer.recordAllocation, AllocationMessage.chargeTo, hnil, allocated]

theorem Located.charged {b : Book} {hash : ℕ} {r : StackRef}
    {entry₁ : StackRef → Option (ℕ × StackEntry)} (h : Located b.entry hash msg r entry₁)
    (hfrs : msg.backtrace ≠ []) :
    ∃ e, entry₁ r = some (hash, e) ∧ Charged b hash msg r (msg.chargeTo e) ∧
      ∀ v, update entry₁ r v = update b.entry r v := by
  have hblank : msg.chargeTo .blank = msg.newEntry := by
    simp only [AllocationMessage.chargeTo, StackEntry.blank, AllocationMessage.newEntry,
      Nat.zero_add, Nat.mod_eq_of_lt msg.size_lt, if_true]
  cases h with
  | same hentry hsame =>
    rename_i e
    have hkept : e.backtrace ≠ [] := by
      intro hnil
      simp [AllocationMessage.sameStack, stacktraceCompareCommon, hnil, hfrs] at hsame
    have hchar : msg.chargeTo e = { e with size := (e.size + msg.size) % 2 ^ 64 } := if_neg hkept
    exact ⟨e, hentry, hchar ▸ .same hentry hsame, fun _ => rfl⟩
  | blank hentry => exact ⟨.blank, hentry, hblank ▸ .blank hentry, fun _ => rfl⟩
  | new hentry =>
    exact ⟨.blank, update_self .., hblank ▸ .new hentry, fun v => update_idem ..⟩

namespace Represents

variable {c : MetaContainer} {b : Book} {env : MetaEnv}

theorem lookup (h : Represents c b) (ptr : ℕ) : c.lookup ptr = b.tracked[ptr]? := by
  obtain ⟨idx, hidxs, htrk⟩ := h.ptrs
  obtain ⟨s, heq, hidxs', hsame, -, hroot⟩ := hidxs.exist ptr
  rw [MetaContainer.lookup, heq, htrk]
  cases hi : idx[ptr]? with
  | none => rfl
  | some i =>
    obtain ⟨hrootPtr, -⟩ := hroot i hi
    simp [hrootPtr, hidxs'.get_eq hi, hsame.vBuff]

/-- **An allocation message without a stack**. -/
theorem allocateBare (h : Represents c b) (hptrs : ∀ bytes, env.ptrMemory.realloc bytes = true)
    {isMmap : Bool} {block : Option ℕ} (hready : c.Ready env (.allocation msg isMmap block))
    (hhash : MetaContainer.stackHash env msg = 0) :
    ∃ c', c.apply env (.allocation msg isMmap block) = some c' ∧
      Represents c' (b.allocateBare msg isMmap) := by
  obtain ⟨n, s, hins, hholds⟩ := h.ptrs.insert hptrs hready.1 msg.ptr
  obtain ⟨idx, chains, hfil⟩ := h.files
  refine ⟨{ c with ptrMetas := s.set n (allocatedBare msg isMmap) }, ?_, hholds _, idx, chains,
    hfil.withPtrMetas _⟩
  simp [MetaContainer.apply, MetaContainer.insert, hins, hhash, MetaContainer.recordAllocation,
    allocatedBare]

/-- **An allocation message with a stack** charges an entry with its stack. -/
theorem allocate (h : Represents c b) (hptrs : ∀ bytes, env.ptrMemory.realloc bytes = true)
    (hstac : ∀ bytes, env.stackMemory.realloc bytes = true) {isMmap : Bool} {block : Option ℕ}
    (hready : c.Ready env (.allocation msg isMmap block))
    (hhash : MetaContainer.stackHash env msg ≠ 0) :
    ∃ c' r e, c.apply env (.allocation msg isMmap block) = some c' ∧
      Represents c' (b.allocate msg isMmap (MetaContainer.stackHash env msg) r e) ∧
      Charged b (MetaContainer.stackHash env msg) msg r e ∧
      ∀ e, b.entry r = some (MetaContainer.stackHash env msg, e) → msg.sameStack e →
        e.size + msg.size < 2 ^ 64 := by
  obtain ⟨hptrRoom, hstackRoom, ⟨a, rfl, hfree⟩, hfits⟩ := hready
  have hfrs : msg.backtrace ≠ [] := by
    intro hnil
    exact hhash (if_neg fun hboth => hboth.2 hnil)
  generalize hgen : MetaContainer.stackHash env msg = hash at *
  obtain ⟨n, s, hins, hholds⟩ := h.ptrs.insert hptrs hptrRoom msg.ptr
  obtain ⟨idx, chains, hfil⟩ := h.files
  obtain ⟨r, c₁, entry₁, idx₁, chains₁, hloca, -, hfil₁, hloc, hfound⟩ :=
    hfil.locate hstac hstackRoom hash msg hfree
  obtain ⟨e, hentry, hchar, hupd⟩ := hloc.charged hfrs
  have hmem := (hfil₁.filed _ _ _).mp hentry
  obtain ⟨m, hread, rfl⟩ := hfil₁.read_of_mem hmem
  obtain ⟨chains₂, hfil₂⟩ := hfil₁.setEntry hread hmem (msg.chargeTo m.toStackEntry)
  rw [hupd] at hfil₂
  refine ⟨{ c₁.write r { m with toStackEntry := msg.chargeTo m.toStackEntry } with
      ptrMetas := s.set n (allocated msg isMmap hash r) }, r, msg.chargeTo m.toStackEntry, ?_,
    ⟨hholds _, idx₁, chains₂, hfil₂.withPtrMetas _⟩, hchar, fun e' he' hsame => ?_⟩
  · simp [MetaContainer.apply, MetaContainer.insert, hins, hgen, hhash, hloca, hread,
      recordAllocation_some hfrs]
  · obtain ⟨m', hm', rfl⟩ := hfound e' he' hsame
    exact hfits m' hm'

/-- **A deletion message** for a pointer that is not tracked, or has no stack. -/
theorem deleteBare (h : Represents c b) {ptr : ℕ}
    (hbare : ∀ t : PtrMeta, b.tracked[ptr]? = some t → t.stackHash = 0) :
    ∃ c', c.apply env (.deletion ptr) = some c' ∧ Represents c' (b.deleteBare ptr) := by
  obtain ⟨idx, chains, hfil⟩ := h.files
  cases hget : b.tracked[ptr]? with
  | none =>
    obtain ⟨s, hrm, hholds⟩ := h.ptrs.remove_of_none hget
    refine ⟨{ c with ptrMetas := s }, ?_, ?_, idx, chains, hfil.withPtrMetas s⟩
    · simp [MetaContainer.apply, MetaContainer.erase, hrm]
    · rw [Book.deleteBare, OrdMap.erase_of_get_none hget]
      exact hholds
  | some t =>
    obtain ⟨n, s, hrm, hval, hholds⟩ := h.ptrs.remove_of_some hget
    refine ⟨{ c with ptrMetas := s }, ?_, hholds, idx, chains, hfil.withPtrMetas s⟩
    simp [MetaContainer.apply, MetaContainer.erase, hrm, hval, hbare t hget]

end Represents

theorem Files.release {c : MetaContainer} {b : Book} {idx : OrdMap ℕ ℕ}
    {chains : ℕ → List (StackRef × StackEntry)} (h : Files c b.entry idx chains) {i : ℕ}
    (hi : idx[t.stackHash]? = some i) (hroot : c.stackMetas.rootPtr = i)
    (hlast : c.stackMetas.lastPtr = i) {m : StackMeta} (hread : c.read t.home = some m)
    (hentry : b.entry t.home = some (t.stackHash, m.toStackEntry)) :
    ∃ c' e idx' chains', c.release t = some c' ∧ c'.ptrMetas = c.ptrMetas ∧
      Files c' (Function.update b.entry t.home e) idx' chains' ∧ Released b t e ∧
      (e = some (t.stackHash, .blank) → t.isStackIdx ∧ m.size ≤ t.size ∧ m.ext ≠ none) := by
  have hmem := (h.filed _ _ _).mp hentry
  obtain ⟨top, exts, htop, hl, hexts⟩ := h.chain_cons hi
  have hlink : ¬ (t.isStackIdx ∧ t.link ≠ i) := by
    rintro ⟨hidx, hne⟩
    rw [PtrMeta.home, if_pos hidx] at hmem
    exact hne (some.inj ((h.index_of_top_mem hmem).symm.trans hi))
  have htopMeta : t.isStackIdx → top = m ∧ t.link = i ∧ t.home = .top i := by
    intro hidx
    have hi : t.link = i := of_not_not fun hne => hlink ⟨hidx, hne⟩
    have hhome : t.home = .top i := by rw [PtrMeta.home, if_pos hidx, hi]
    rw [hhome, htop] at hread
    exact ⟨some.inj hread, hi, hhome⟩
  by_cases hlt : t.size < m.size
  · -- other bytes of the entry are left
    obtain ⟨chains', hfil⟩ := h.setEntry hread hmem { m.toStackEntry with size := m.size - t.size }
    refine ⟨_, _, idx, chains', ?_, MetaContainer.ptrMetas_write .., hfil, .less hentry hlt,
      fun hblank => ?_⟩
    · simp [MetaContainer.release, hlast, hroot, htop, hlink, hread, hlt]
    · have hzero : m.size - t.size = 0 :=
        congrArg StackEntry.size (Prod.mk.inj (some.inj hblank)).2
      omega
  have hle : m.size ≤ t.size := Nat.le_of_not_lt hlt
  by_cases hidx : t.isStackIdx
  · obtain ⟨rfl, hlinkEq, hhome⟩ := htopMeta hidx
    by_cases hext : top.ext = none
    · -- the only entry of its hash
      rw [hext] at hexts
      have hsing : chains t.stackHash = [(.top i, top.toStackEntry)] := by
        rw [hl, hexts.eq_nil]
      obtain ⟨free, high, hmod⟩ := h.indexes
      obtain ⟨s, hrm, hmod', hvBuff, -⟩ := hmod.remove_of_some hi
      obtain ⟨chains', hfil⟩ := h.removeTop hsing ⟨_, _, hmod'⟩ hvBuff
      rw [← hhome] at hfil
      refine ⟨{ c with stackMetas := s }, none, _, chains', ?_, rfl, hfil, .dropped hentry hle,
        fun hblank => ?_⟩
      · simp [MetaContainer.release, hlast, hroot, htop, hlinkEq, hread, hlt, hidx, hext, hrm]
      · cases hblank
    · -- the head of a chain
      rw [hhome] at hmem
      obtain ⟨chains', hfil⟩ := h.setEntry htop hmem .blank
      rw [← hhome] at hfil
      refine ⟨_, _, idx, chains', ?_, MetaContainer.ptrMetas_write .., hfil,
        .blanked hentry hle hidx, fun _ => ⟨hidx, hle, hext⟩⟩
      simp [MetaContainer.release, hlast, hroot, htop, hlinkEq, hlt, hidx, hext, hhome]
  · -- an entry in a block
    have hhome : t.home = .ext t.link := if_neg hidx
    have hinChain : (StackRef.ext t.link, m.toStackEntry) ∈ exts := by
      rw [hhome, hl] at hmem
      rcases List.mem_cons.mp hmem with heq | hin
      · cases heq
      · exact hin
    have hext : top.ext ≠ none := by
      intro hnone
      rw [hnone] at hexts
      rw [hexts.eq_nil] at hinChain
      cases hinChain
    have hchain := h.chain _ i hi
    rcases seek_of_chain (fun cell => cell.next = some t.home) hchain (h.length_le t.stackHash) with
      ⟨l₁, prev, e, n, l₂, hsplit, hcell, hstop, hseek⟩ | ⟨-, -, -, -, -, -, hnone⟩
    · -- `prev` is followed by the entry
      obtain rfl : n = some t.home := by simpa using hstop
      obtain ⟨prevMeta, hprev, -, rfl⟩ := MetaContainer.read_of_cell hcell
      rw [hsplit] at hchain
      obtain ⟨-, -, n', hcell', hrest⟩ := hchain.suffix
      cases hcell.symm.trans hcell'
      obtain ⟨⟨r, e⟩, l₂, rfl⟩ : ∃ x l, l₂ = x :: l := by
        cases l₂ with
        | nil => exact absurd hrest (by simp [Chain])
        | cons x l => exact ⟨x, l, rfl⟩
      cases hrest.1
      have he : e = m.toStackEntry := by
        have hmem' : (t.home, e) ∈ chains t.stackHash := by simp [hsplit]
        exact (h.mem_unique hmem' hmem).2
      rw [he, hhome] at hsplit
      rw [hhome] at hread
      obtain ⟨chains', hfil⟩ := h.unlink hsplit hprev hread
      rw [← hhome] at hfil hread
      refine ⟨_, none, idx, chains', ?_, ?_, hfil, .dropped hentry hle, fun hblank => ?_⟩
      · simp [MetaContainer.release, hlast, hroot, htop, hread, hlt, hidx, hext, hseek, hprev]
      · exact MetaContainer.ptrMetas_write ..
      · cases hblank
    · -- the entry is the next of some cell of its chain
      rw [hl] at hchain
      obtain ⟨a, e, hin, hcell⟩ := hchain.exists_pred hinChain
      rw [← hl] at hin
      have hstop := hnone a e hin _ hcell
      simp [hhome] at hstop

/-- **A deletion message** for a pointer with a stack releases its entry. -/
theorem Represents.delete {c : MetaContainer} {b : Book} {env : MetaEnv} (h : Represents c b)
    {ptr : ℕ} (hget : b.tracked[ptr]? = some t) (hstk : t.stackHash ≠ 0) {e₀ : StackEntry}
    (hentry : b.entry t.home = some (t.stackHash, e₀)) :
    ∃ c' e, c.apply env (.deletion ptr) = some c' ∧ Represents c' (b.delete ptr t e) ∧
      Released b t e ∧
      (e = some (t.stackHash, .blank) →
        ∃ m, c.resolve t = some m ∧ t.isStackIdx ∧ m.size ≤ t.size ∧ m.ext ≠ none) := by
  obtain ⟨n, ptrMetas, hrm, hval, hholds⟩ := h.ptrs.remove_of_some hget
  obtain ⟨idx, chains, hfil⟩ := h.files
  obtain ⟨m, hrslv, hread, rfl⟩ := hfil.resolve hentry
  obtain ⟨i, hi⟩ := hfil.index_of_mem ((hfil.filed _ _ _).mp hentry)
  obtain ⟨s, heq, hfil₁, -, hread₁, hroot⟩ := hfil.exist_spec t.stackHash
  obtain ⟨hrootPtr, hlastPtr⟩ := hroot i hi
  rw [hi] at heq
  have hread₂ : MetaContainer.read { c with ptrMetas := ptrMetas, stackMetas := s } t.home =
      some m := (congrFun hread₁ t.home).trans hread
  obtain ⟨c', e, idx', chains', hrel, hptrs, hfil', hreld, hblank⟩ :=
    (hfil₁.withPtrMetas ptrMetas).release hi hrootPtr hlastPtr hread₂ hentry
  refine ⟨c', e, ?_, ⟨?_, idx', chains', hfil'⟩, hreld, fun he => ⟨m, hrslv, hblank he⟩⟩
  · simp [MetaContainer.apply, MetaContainer.erase, hrm, hval, hstk, heq, hrel]
  · rw [hptrs]
    exact hholds

end TraceHarbor.Hooks
