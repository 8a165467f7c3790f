import TraceHarbor.Hooks.MetaBook

/-!
# The Chains of the Meta Container

How the stack entries of a book lie in the memory of the container: the entries with one hash are a
chain that starts at the index the map has for the hash and goes on in blocks, every block belongs to
one chain, and nothing else is allocated.
-/

namespace TraceHarbor.Hooks

open Lib List Option Function

/-! ## Maps by their indices -/

variable {i : ℕ}

section Indexes

variable {V : Type}

def SplayMap.Indexes (s : SplayMap ℕ V) (idx : OrdMap ℕ ℕ) : Prop :=
  ∃ free high, s.Models idx free high

namespace SplayMap.Indexes

variable {s : SplayMap ℕ V} {idx : OrdMap ℕ ℕ}

theorem valBound_eq (h : s.Indexes idx) : s.valBound = s.bSize := by
  obtain ⟨free, high, T, hval, -⟩ := h
  exact hval.valBound_eq

theorem get_eq (h : s.Indexes idx) {k : ℕ} (hi : idx[k]? = some i) :
    s.get i = some (s.vBuff i) := by
  have hlt : i < s.valBound := by
    rw [h.valBound_eq]
    obtain ⟨free, high, hmod⟩ := h
    exact hmod.lt_bSize hi
  exact if_pos hlt

theorem set (h : s.Indexes idx) (ptr : ℕ) (val : V) : (s.set ptr val).Indexes idx := by
  obtain ⟨free, high, T, hval, hidx⟩ := h
  exact ⟨free, high, T, { hval with }, hidx⟩

theorem get_set (s : SplayMap ℕ V) {ptr : ℕ} (val : V) (hptr : s.get ptr ≠ none) (i : ℕ) :
    (s.set ptr val).get i = if i = ptr then some val else s.get i := by
  have hlt : ptr < s.valBound := by
    by_contra hge
    exact hptr (if_neg hge)
  have hbd : (s.set ptr val).valBound = s.valBound := rfl
  simp only [SplayMap.get, hbd]
  by_cases hi : i = ptr
  · rw [if_pos hi, if_pos (hi ▸ hlt), hi]
    exact congrArg some (update_self ..)
  · rw [if_neg hi]
    simp only [SplayMap.set, update_of_ne hi]

theorem index_ne_zero (h : s.Indexes idx) {k : ℕ} (hi : idx[k]? = some i) : i ≠ 0 := by
  obtain ⟨free, high, T, hval, hidx⟩ := h
  exact (hval.pos ((hidx k i).mp hi).1).ne'

/-- `exist` leaves all values where they are. -/
theorem exist (h : s.Indexes idx) (key : ℕ) :
    ∃ s', s.exist key = some (idx[key]?.isSome, s') ∧ s'.Indexes idx ∧ SameValues s s' ∧
      s'.get = s.get ∧ ∀ i, idx[key]? = some i → s'.rootPtr = i ∧ s'.lastPtr = i := by
  have hbd := h.valBound_eq
  obtain ⟨free, high, hmod⟩ := h
  obtain ⟨s', heq, hmod', hsame, hroot⟩ := hmod.exist key
  have h' : s'.Indexes idx := ⟨free, high, hmod'⟩
  refine ⟨s', heq, h', hsame, funext fun i => ?_, hroot⟩
  rw [SplayMap.get, SplayMap.get, h'.valBound_eq, hbd, hsame.vBuff, hsame.bSize]

end SplayMap.Indexes

end Indexes

/-! ## Cells -/

variable {r : StackRef} {m : StackMeta} {e : StackEntry}

namespace MetaContainer

variable {c : MetaContainer}

theorem cell_of_read (h : c.read r = some m) :
    c.cell r = some ⟨m.ext.map .ext, m.toStackEntry⟩ := by
  rw [cell, h]
  rfl

theorem read_of_cell {n : Option StackRef} (h : c.cell r = some ⟨n, e⟩) :
    ∃ m, c.read r = some m ∧ m.ext.map .ext = n ∧ m.toStackEntry = e := by
  obtain ⟨m, hread, hm⟩ := map_eq_some_iff.mp h
  obtain ⟨hn, he⟩ := (Cell.mk.injEq ..).mp hm
  exact ⟨m, hread, hn, he⟩

theorem read_write (hr : c.read r ≠ none) (m : StackMeta) (r' : StackRef) :
    (c.write r m).read r' = if r' = r then some m else c.read r' := by
  cases r with
  | top idx =>
    cases r' with
    | top idx' =>
      simp only [write, read, StackRef.top.injEq]
      exact SplayMap.Indexes.get_set _ _ hr idx'
    | ext addr' => simp [write, read]
  | ext addr =>
    cases r' with
    | top idx' => simp [write, read]
    | ext addr' =>
      simp only [write, read, StackRef.ext.injEq]
      exact OrdMap.get_insert ..

theorem cell_write (hr : c.read r ≠ none) (m : StackMeta) :
    (c.write r m).cell =
      update c.cell r (some ⟨m.ext.map .ext, m.toStackEntry⟩) := by
  funext r'
  rw [cell, read_write hr]
  split_ifs with h
  · rw [h, update_self]
    rfl
  · rw [update_of_ne h]
    rfl

theorem cell_insert_heap (a : ℕ) (m : StackMeta) :
    cell { c with heap := c.heap.insert a m } =
      update c.cell (.ext a) (some ⟨m.ext.map .ext, m.toStackEntry⟩) := by
  funext r
  by_cases h : r = .ext a
  · subst h
    rw [update_self]
    exact cell_of_read (OrdMap.get_insert_self ..)
  · rw [update_of_ne h]
    cases r with
    | top i => rfl
    | ext a' => simp [cell, read, OrdMap.get_insert_of_ne _ _ fun ha => h (congrArg StackRef.ext ha)]

theorem cell_erase_heap (a : ℕ) :
    cell { c with heap := c.heap.erase a } = update c.cell (.ext a) none := by
  funext r
  by_cases h : r = .ext a
  · subst h
    simp [cell, read]
  · rw [update_of_ne h]
    cases r with
    | top i => rfl
    | ext a' =>
      simp [cell, read, OrdMap.get_erase, if_neg fun ha => h (congrArg StackRef.ext ha)]

theorem heap_write (hr : c.read r ≠ none) (m : StackMeta) {a : ℕ}
    (ha : (c.write r m).heap[a]? ≠ none) : c.heap[a]? ≠ none := by
  cases r with
  | top i => exact ha
  | ext a' =>
    by_cases h : a = a'
    · rw [h]
      exact hr
    · rwa [write, OrdMap.get_insert_of_ne _ _ h] at ha

@[simp]
theorem ptrMetas_write (r : StackRef) (m : StackMeta) : (c.write r m).ptrMetas = c.ptrMetas := by
  cases r <;> rfl

theorem indexes_write {idx : OrdMap ℕ ℕ} (h : c.stackMetas.Indexes idx) (r : StackRef)
    (m : StackMeta) : (c.write r m).stackMetas.Indexes idx := by
  cases r with
  | top i => exact h.set i m
  | ext a => exact h

theorem exists_ext_of_mem {p : Option ℕ} {l : List (StackRef × StackEntry)}
    (h : Chain c.cell (p.map .ext) l) (hmem : (r, e) ∈ l) :
    ∃ a, r = .ext a ∧ c.heap[a]? ≠ none := by
  induction l generalizing p with
  | nil => cases hmem
  | cons x l ih =>
    obtain ⟨r', e'⟩ := x
    obtain ⟨hp, n, hcell, hrest⟩ := h
    obtain ⟨a, -, rfl⟩ := map_eq_some_iff.mp hp
    obtain ⟨m, hread, rfl, -⟩ := read_of_cell hcell
    rcases mem_cons.mp hmem with heq | hmem
    · cases heq
      refine ⟨a, rfl, ?_⟩
      rw [show c.heap[a]? = some m from hread]
      simp
    · exact ih hrest hmem

end MetaContainer

/-! ## Filed entries -/

/-- The entries of a book are filed in chains, one for every hash of the map. -/
structure Files (c : MetaContainer) (entry : StackRef → Option (ℕ × StackEntry)) (idx : OrdMap ℕ ℕ)
    (chains : ℕ → List (StackRef × StackEntry)) : Prop where
  indexes : c.stackMetas.Indexes idx
  chain : ∀ hash i, idx[hash]? = some i → Chain c.cell (some (.top i)) (chains hash)
  noChain : ∀ hash : ℕ, idx[hash]? = none → chains hash = []
  filed : ∀ r hash e, entry r = some (hash, e) ↔ (r, e) ∈ chains hash
  allocated : ∀ a : ℕ, c.heap[a]? ≠ none → entry (.ext a) ≠ none

namespace Files

variable {c : MetaContainer} {entry : StackRef → Option (ℕ × StackEntry)} {idx : OrdMap ℕ ℕ}
  {chains : ℕ → List (StackRef × StackEntry)}

variable {hash : ℕ}

section

variable (h : Files c entry idx chains)

include h

theorem index_of_mem (hmem : (r, e) ∈ chains hash) : ∃ i, idx[hash]? = some i := by
  cases hi : idx[hash]? with
  | some i => exact ⟨i, rfl⟩
  | none =>
    rw [h.noChain hash hi] at hmem
    cases hmem

theorem read_of_mem (hmem : (r, e) ∈ chains hash) :
    ∃ m, c.read r = some m ∧ m.toStackEntry = e := by
  obtain ⟨i, hi⟩ := h.index_of_mem hmem
  obtain ⟨n, hcell⟩ := (h.chain hash i hi).cell_of_mem hmem
  obtain ⟨m, hread, -, he⟩ := MetaContainer.read_of_cell hcell
  exact ⟨m, hread, he⟩

theorem chain_cons (hi : idx[hash]? = some i) :
    ∃ m exts, c.read (.top i) = some m ∧ chains hash = (.top i, m.toStackEntry) :: exts ∧
      Chain c.cell (m.ext.map .ext) exts := by
  have hchain := h.chain hash i hi
  cases hl : chains hash with
  | nil =>
    rw [hl] at hchain
    cases hchain
  | cons x exts =>
    obtain ⟨r, e⟩ := x
    rw [hl] at hchain
    obtain ⟨hr, n, hcell, hrest⟩ := hchain
    cases hr
    obtain ⟨m, hread, rfl, rfl⟩ := MetaContainer.read_of_cell hcell
    exact ⟨m, exts, hread, rfl, hrest⟩

theorem mem_unique {hash' : ℕ} {e' : StackEntry} (hmem : (r, e) ∈ chains hash)
    (hmem' : (r, e') ∈ chains hash') : hash = hash' ∧ e = e' := by
  have heq := ((h.filed r hash e).mpr hmem).symm.trans ((h.filed r hash' e').mpr hmem')
  exact Prod.mk.inj (some.inj heq)

theorem index_of_top_mem (hmem : (StackRef.top i, e) ∈ chains hash) : idx[hash]? = some i := by
  obtain ⟨j, hj⟩ := h.index_of_mem hmem
  obtain ⟨m, exts, -, hl, hexts⟩ := h.chain_cons hj
  rw [hl] at hmem
  rcases mem_cons.mp hmem with heq | hmem
  · have hij : i = j := by simpa using congrArg Prod.fst heq
    rw [hj, hij]
  · obtain ⟨a, ha, -⟩ := MetaContainer.exists_ext_of_mem hexts hmem
    cases ha

theorem length_le (hash : ℕ) : (chains hash).length ≤ c.chainBound := by
  cases hi : idx[hash]? with
  | none => simp [h.noChain hash hi]
  | some i =>
    obtain ⟨m, exts, -, hl, hexts⟩ := h.chain_cons hi
    let addr : StackRef → ℕ := fun r => r.casesOn id id
    have hnd : (exts.map fun x => addr x.1).Nodup := by
      rw [show (exts.map fun x => addr x.1) = (exts.map Prod.fst).map addr by simp]
      refine List.Nodup.map_on (fun r hr r' hr' heq => ?_) hexts.nodup
      obtain ⟨⟨r, e⟩, hx, rfl⟩ := mem_map.mp hr
      obtain ⟨⟨r', e'⟩, hx', rfl⟩ := mem_map.mp hr'
      obtain ⟨a, rfl, -⟩ := MetaContainer.exists_ext_of_mem hexts hx
      obtain ⟨a', rfl, -⟩ := MetaContainer.exists_ext_of_mem hexts hx'
      exact congrArg StackRef.ext heq
    have hsub : (exts.map fun x => addr x.1) ⊆ c.heap.keys := by
      intro a ha
      obtain ⟨⟨r, e⟩, hmem, rfl⟩ := mem_map.mp ha
      obtain ⟨a, rfl, hheap⟩ := MetaContainer.exists_ext_of_mem hexts hmem
      rw [Std.ExtTreeMap.mem_keys, Std.ExtTreeMap.mem_iff_isSome_getElem?]
      exact isSome_iff_ne_none.mpr hheap
    have hle := (hnd.subperm hsub).length_le
    rw [length_map, Std.ExtTreeMap.length_keys] at hle
    rw [hl, length_cons, MetaContainer.chainBound]
    omega

/-! ### Updates -/

variable {l : List (StackRef × StackEntry)}

/-- **One entry changes**: the entry with reference `r` in the chain of `hash` becomes `v`, the chain
becomes `l`, and the cells of the other chains stay. -/
theorem update {c' : MetaContainer} {idx' : OrdMap ℕ ℕ} {v : Option StackEntry}
    (hidxs : c'.stackMetas.Indexes idx')
    (hidx : ∀ hash', hash' ≠ hash → idx'[hash']? = idx[hash']?)
    (hchain : ∀ i, idx'[hash]? = some i → Chain c'.cell (some (.top i)) l)
    (hnone : idx'[hash]? = none → l = [])
    (hcell : ∀ hash' r' e, hash' ≠ hash → (r', e) ∈ chains hash' → c'.cell r' = c.cell r')
    (hoths : ∀ r' e, r' ≠ r → ((r', e) ∈ l ↔ (r', e) ∈ chains hash))
    (hself : ∀ e, (r, e) ∈ l ↔ v = some e) (hold : ∀ hash' e, (r, e) ∈ chains hash' → hash' = hash)
    (hheap : ∀ a : ℕ, c'.heap[a]? ≠ none → if r = .ext a then v ≠ none else c.heap[a]? ≠ none) :
    Files c' (update entry r (v.map fun e => (hash, e))) idx'
      (update chains hash l) := by
  refine ⟨hidxs, fun hash' i hi => ?_, fun hash' hno => ?_, fun r' hash' e => ?_, fun a ha => ?_⟩
  · by_cases hne : hash' = hash
    · subst hne
      rw [update_self]
      exact hchain i hi
    · rw [update_of_ne hne]
      rw [hidx hash' hne] at hi
      refine (h.chain hash' i hi).frame fun r' hr' => ?_
      obtain ⟨⟨r', e⟩, hmem, rfl⟩ := mem_map.mp hr'
      exact hcell hash' r' e hne hmem
  · by_cases hne : hash' = hash
    · subst hne
      rw [update_self]
      exact hnone hno
    · rw [update_of_ne hne]
      rw [hidx hash' hne] at hno
      exact h.noChain hash' hno
  · by_cases hr : r' = r
    · subst hr
      rw [update_self, map_eq_some_iff]
      by_cases hne : hash' = hash
      · rw [hne, update_self, hself]
        simp
      · rw [update_of_ne hne]
        refine ⟨?_, fun hmem => absurd (hold hash' e hmem) hne⟩
        rintro ⟨e', -, heq⟩
        exact absurd (Prod.mk.inj heq).1.symm hne
    · rw [update_of_ne hr, h.filed]
      by_cases hne : hash' = hash
      · rw [hne, update_self, hoths r' e hr]
      · rw [update_of_ne hne]
  · have hcase := hheap a ha
    by_cases hr : r = .ext a
    · rw [if_pos hr] at hcase
      rw [← hr]
      simpa using hcase
    · rw [if_neg hr] at hcase
      rw [update_of_ne (Ne.symm hr)]
      exact h.allocated a hcase

/-- An update along a chain: the cell of `r` gets the data `v`, and beside it only the one of `q` is
written. -/
theorem updateLinked {c' : MetaContainer} {v : Option StackEntry} {q : StackRef}
    (hq : (q, e) ∈ chains hash)
    (hidxs : c'.stackMetas.Indexes idx)
    (hchain : ∀ i, Chain c.cell (some (.top i)) (chains hash) → Chain c'.cell (some (.top i)) l)
    (hcell : ∀ r', r' ≠ q → r' ≠ r → c'.cell r' = c.cell r')
    (hself : (c'.cell r).map Cell.data = v) (hin : ∀ e, v = some e → (r, e) ∈ l)
    (hoths : ∀ r' e, r' ≠ r → ((r', e) ∈ l ↔ (r', e) ∈ chains hash))
    (hold : ∀ hash' e, (r, e) ∈ chains hash' → hash' = hash)
    (hheap : ∀ a : ℕ, r ≠ .ext a → c'.heap[a]? ≠ none → c.heap[a]? ≠ none) :
    ∃ chains', Files c' (Function.update entry r (v.map fun e => (hash, e))) idx chains' := by
  obtain ⟨i, hi⟩ := h.index_of_mem hq
  have hnew : Chain c'.cell (some (.top i)) l := hchain i (h.chain hash i hi)
  refine ⟨_, h.update hidxs (fun _ _ => rfl) (fun j hj => ?_) (fun hno => ?_)
    (fun hash' r' f hne hmem => hcell r' ?_ ?_) hoths (fun f => ⟨fun hmem => ?_, hin f⟩) hold
    fun a ha => ?_⟩
  · rwa [← some.inj (hi.symm.trans hj)]
  · rw [hi] at hno
    cases hno
  · rintro rfl
    exact hne (h.mem_unique hmem hq).1
  · rintro rfl
    exact hne (hold hash' f hmem)
  · obtain ⟨n, hn⟩ := hnew.cell_of_mem hmem
    rw [← hself, hn]
    rfl
  · split_ifs with hr
    · rw [← hself, hr]
      simpa [MetaContainer.cell, MetaContainer.read] using ha
    · exact hheap a hr ha

theorem setEntry (hread : c.read r = some m) (hmem : (r, m.toStackEntry) ∈ chains hash)
    (e' : StackEntry) :
    ∃ chains', Files (c.write r { m with toStackEntry := e' })
      (Function.update entry r (some (hash, e'))) idx chains' := by
  have hr : c.read r ≠ none := by simp [hread]
  have hcell := MetaContainer.cell_write hr { m with toStackEntry := e' }
  obtain ⟨l₁, l₂, hl⟩ := append_of_mem hmem
  refine h.updateLinked (v := some e') (l := l₁ ++ (r, e') :: l₂) hmem
    (MetaContainer.indexes_write h.indexes r _) (fun i hchain => ?_) (fun r' _ hne => ?_) ?_
    (fun f hf => ?_) (fun r' f hne => ?_) (fun hash' f hmem' => (h.mem_unique hmem' hmem).1)
    fun a _ => MetaContainer.heap_write hr _
  · rw [hl] at hchain
    rw [hcell]
    exact hchain.setData (MetaContainer.cell_of_read hread)
  · rw [hcell, update_of_ne hne]
  · rw [hcell, update_self]
    rfl
  · simp [some.inj hf]
  · rw [hl]
    simp [hne]

theorem append {a : ℕ}
    (hl : chains hash = l ++ [(r, m.toStackEntry)]) (hread : c.read r = some m)
    (hfree : c.heap[a]? = none) :
    ∃ chains', Files { c.write r { m with ext := some a } with
        heap := (c.write r { m with ext := some a }).heap.insert a StackMeta.zero }
      (Function.update entry (.ext a) (some (hash, .blank))) idx chains' := by
  have hr : c.read r ≠ none := by simp [hread]
  -- a block that is not allocated is in no chain
  have hnew : ∀ hash' e, (StackRef.ext a, e) ∉ chains hash' := by
    intro hash' e hmem'
    obtain ⟨m', hread', -⟩ := h.read_of_mem hmem'
    rw [show c.read (.ext a) = none from hfree] at hread'
    cases hread'
  have hcell := @MetaContainer.cell_insert_heap (c.write r { m with ext := some a }) a .zero
  rw [MetaContainer.cell_write hr] at hcell
  refine h.updateLinked (v := some .blank) (l := l ++ [(r, m.toStackEntry), (.ext a, .blank)])
    (q := r) (e := m.toStackEntry) (by simp [hl]) (MetaContainer.indexes_write h.indexes r _)
    (fun i hchain => ?_) (fun r' hne hne' => ?_) ?_ (fun f hf => ?_) (fun r' f hne => ?_)
    (fun hash' f hmem' => absurd hmem' (hnew hash' f)) fun a' hne ha' => ?_
  · rw [hl] at hchain
    rw [hcell]
    refine hchain.snoc fun hin => ?_
    obtain ⟨⟨r', e⟩, hx, rfl⟩ := mem_map.mp hin
    rw [← hl] at hx
    exact hnew hash e hx
  · rw [hcell, update_of_ne hne', update_of_ne hne]
  · rw [hcell, update_self]
    rfl
  · simp [← some.inj hf]
  · rw [hl]
    simp [hne]
  · rw [OrdMap.get_insert_of_ne _ _ fun haa => hne (by rw [haa])] at ha'
    exact MetaContainer.heap_write hr _ ha'

theorem unlink {a : ℕ} {n : StackMeta} {l₁ l₂ : List (StackRef × StackEntry)}
    (hl : chains hash = l₁ ++ (r, m.toStackEntry) :: (.ext a, n.toStackEntry) :: l₂)
    (hread : c.read r = some m) (hext : c.heap[a]? = some n) :
    ∃ chains', Files { c.write r { m with ext := n.ext } with
        heap := (c.write r { m with ext := n.ext }).heap.erase a }
      (Function.update entry (.ext a) none) idx chains' := by
  have hr : c.read r ≠ none := by simp [hread]
  have hmem : (StackRef.ext a, n.toStackEntry) ∈ chains hash := by simp [hl]
  have hcell := @MetaContainer.cell_erase_heap (c.write r { m with ext := n.ext }) a
  rw [MetaContainer.cell_write hr] at hcell
  refine h.updateLinked (v := none) (l := l₁ ++ (r, m.toStackEntry) :: l₂) (q := r)
    (e := m.toStackEntry) (by simp [hl]) (MetaContainer.indexes_write h.indexes r _)
    (fun i hchain => ?_) (fun r' hne hne' => ?_) ?_ nofun (fun r' f hne => ?_)
    (fun hash' f hmem' => (h.mem_unique hmem' hmem).1) fun a' hne ha' => ?_
  · rw [hl] at hchain
    rw [hcell]
    have hextRead : c.read (.ext a) = some n := hext
    exact hchain.unlink (MetaContainer.cell_of_read hextRead)
  · rw [hcell, update_of_ne hne', update_of_ne hne]
  · rw [hcell, update_self]
    rfl
  · rw [hl]
    simp [hne]
  · rw [OrdMap.get_erase, if_neg fun haa => hne (by rw [haa])] at ha'
    exact MetaContainer.heap_write hr _ ha'

theorem cell_of_indexes {s : SplayMap ℕ StackMeta} {idx' : OrdMap ℕ ℕ} (hidxs : s.Indexes idx')
    (hidx : idx'[hash]? = idx[hash]?)
    (hvBuff : ∀ i, idx[hash]? = some i → s.vBuff i = c.stackMetas.vBuff i)
    (hmem : (r, e) ∈ chains hash) : MetaContainer.cell { c with stackMetas := s } r = c.cell r := by
  cases r with
  | ext a => rfl
  | top i =>
    have hi := h.index_of_top_mem hmem
    have hget : s.get i = c.stackMetas.get i := by
      rw [hidxs.get_eq (hidx.trans hi), h.indexes.get_eq hi, hvBuff i hi]
    simp only [MetaContainer.cell, MetaContainer.read, hget]

theorem newTop {n : ℕ} {s : SplayMap ℕ StackMeta} {free : List ℕ} {high : ℕ}
    (hmod : c.stackMetas.Models idx free high)
    (hins : SplayMap.Inserted c.stackMetas idx high hash StackMeta.zero n s)
    (hnone : idx[hash]? = none) :
    ∃ chains', Files { c with stackMetas := s }
      (Function.update entry (.top n) (some (hash, .blank))) (idx.insert hash n) chains' := by
  obtain ⟨free', hmod'⟩ := hins.models
  have hidxs : s.Indexes (idx.insert hash n) := ⟨free', _, hmod'⟩
  have hfresh := hins.fresh hnone
  have hnew : ∀ hash' e, (StackRef.top n, e) ∉ chains hash' := fun hash' e hmem =>
    hfresh hash' (h.index_of_top_mem hmem)
  refine ⟨_, h.update (v := some StackEntry.blank) (l := [(.top n, .blank)]) hidxs
    (fun hash' hne => OrdMap.get_insert_of_ne _ _ hne) (fun i hi => ?_) (fun hno => ?_)
    (fun hash' r' f hne => h.cell_of_indexes hidxs (OrdMap.get_insert_of_ne _ _ hne)
      fun j hj => hins.value_of_ne hmod hj hne) (fun r' f hne => ?_) (fun f => ?_)
    (fun hash' f hmem' => absurd hmem' (hnew hash' f)) fun a ha => ?_⟩
  · obtain rfl : n = i := by simpa using hi
    have hread : MetaContainer.read { c with stackMetas := s } (.top n) = some StackMeta.zero := by
      rw [← hins.value]
      exact hidxs.get_eq (OrdMap.get_insert_self ..)
    exact ⟨rfl, none, MetaContainer.cell_of_read hread, rfl⟩
  · simp at hno
  · rw [h.noChain hash hnone]
    simp [hne]
  · simp [eq_comm]
  · exact ha

theorem removeTop {s : SplayMap ℕ StackMeta} (hl : chains hash = [(.top i, e)])
    (hidxs : s.Indexes (idx.erase hash)) (hvBuff : s.vBuff = c.stackMetas.vBuff) :
    ∃ chains', Files { c with stackMetas := s } (Function.update entry (.top i) none)
      (idx.erase hash) chains' := by
  have hmem : (StackRef.top i, e) ∈ chains hash := by simp [hl]
  have hoths : ∀ hash', hash' ≠ hash → (idx.erase hash)[hash']? = idx[hash']? := fun hash' hne => by
    rw [OrdMap.get_erase, if_neg hne]
  refine ⟨_, h.update (v := none) (l := []) hidxs hoths (fun j hj => ?_) (fun _ => rfl)
    (fun hash' r' f hne => h.cell_of_indexes hidxs (hoths hash' hne) fun j _ => by rw [hvBuff])
    (fun r' f hne => ?_) (fun f => by simp) (fun hash' f hmem' => (h.mem_unique hmem' hmem).1)
    fun a ha => ?_⟩
  · simp at hj
  · rw [hl]
    simp [hne]
  · exact ha

/-- `exist` reorders the map and moves no entry. -/
theorem exist {s : SplayMap ℕ StackMeta} (hidxs : s.Indexes idx)
    (hget : s.get = c.stackMetas.get) : Files { c with stackMetas := s } entry idx chains := by
  have hcell : MetaContainer.cell { c with stackMetas := s } = c.cell := by
    funext r
    cases r with
    | top i => simp only [MetaContainer.cell, MetaContainer.read, hget]
    | ext a => rfl
  exact ⟨hidxs, fun hash i hi => hcell ▸ h.chain hash i hi, h.noChain, h.filed, h.allocated⟩

theorem withPtrMetas (s : SplayMap ℕ PtrMeta) :
    Files { c with ptrMetas := s } entry idx chains :=
  ⟨h.indexes, h.chain, h.noChain, h.filed, h.allocated⟩

end

end Files

end TraceHarbor.Hooks
