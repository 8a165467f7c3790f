import TraceHarbor.Hooks.SplayWalk
import TraceHarbor.Lib.OrdMap

/-!
# The Operations of the Splay Map

`Models s idx free high` says that the live nodes of a map are exactly the entries of `idx`, that the
free list is `free`, and that both together are the indices from 1 to `high`. The specification of every
operation says that it does answer: no index leaves the buffers.
-/

namespace TraceHarbor.Hooks

open Lib BinTree List Option Function

/-- The byte sizes of both blocks for `n` entries fit the 32 bits they are computed in. -/
def Platform.Fits (p : Platform) (n : ℕ) : Prop :=
  sizeofTreeInfo + n * p.sizeofNode < 2 ^ 32 ∧ n * p.sizeofVal < 2 ^ 32

namespace SplayMap

variable {κ V : Type} [LinearOrder κ]

/-! ## The invariant -/

/-- The nodes in use form the search tree `T` and the unused ones the free list; together they are
the indices from 1 to `high`. -/
structure Valid (s : SplayMap κ V) (T : BinTree ℕ) (free : List ℕ) (high : ℕ) : Prop where
  root : Rep s.kBuff.child s.rootPtr T
  freeList : RepList s.kBuff.child .left s.freePtr free
  cover : (T.inorder ++ free).Perm (List.range' 1 high)
  ascending : Ascending s.kBuff T.inorder
  size : s.tSize = T.inorder.length
  room : high < s.bSize
  nodeRoom : s.bSize ≤ s.kCap
  valRoom : s.bSize ≤ s.vCap
  grows : 0 < s.iSize

namespace Valid

variable {s : SplayMap κ V} {T : BinTree ℕ} {free : List ℕ} {high : ℕ}

section

variable (h : Valid s T free high)

include h

theorem nodeBound_eq : s.nodeBound = s.bSize := min_eq_left h.nodeRoom

theorem valBound_eq : s.valBound = s.bSize := min_eq_left h.valRoom

theorem nodup : (T.inorder ++ free).Nodup :=
  h.cover.nodup_iff.mpr nodup_range'

theorem notMem_free {i : ℕ} (hi : i ∈ T.inorder) : i ∉ free :=
  fun hfree => (nodup_append.mp h.nodup).2.2 i hi i hfree rfl

theorem mem_iff {i : ℕ} : i ∈ T.inorder ∨ i ∈ free ↔ 0 < i ∧ i ≤ high := by
  rw [← mem_append, h.cover.mem_iff, mem_range'_1]
  omega

theorem pos {i : ℕ} (hi : i ∈ T.inorder) : 0 < i :=
  (h.mem_iff.mp (.inl hi)).1

theorem lt_bSize {i : ℕ} (hi : i ∈ T.inorder) : i < s.bSize :=
  lt_of_le_of_lt (h.mem_iff.mp (.inl hi)).2 h.room

theorem length_eq : T.inorder.length + free.length = high := by
  simpa using h.cover.length_eq

theorem bounded : ∀ i ∈ 0 :: T.inorder, i < s.nodeBound := by
  intro i hi
  rw [h.nodeBound_eq]
  rcases mem_cons.mp hi with rfl | hi
  · exact lt_of_le_of_lt (Nat.zero_le _) h.room
  · exact h.lt_bSize hi

theorem of_splayed {key : κ} {ret : Bool} {k' : NodeBuffer κ} {r : ℕ} {A B : BinTree ℕ}
    (hs : Splayed s.kBuff T.inorder key ret k' r A B) :
    Valid { s with kBuff := k', rootPtr := r } (.node A r B) free high where
  root := hs.rep
  freeList := by
    refine h.freeList.congr fun i hi => NodeBuffer.child_congr (hs.frame i fun hmem => ?_)
    rcases mem_cons.mp hmem with rfl | hmem
    · exact absurd (h.mem_iff.mp (.inr hi)).1 (lt_irrefl 0)
    · exact h.notMem_free hmem hi
  cover := by
    rw [hs.order]
    exact h.cover
  ascending := by
    rw [hs.order]
    exact h.ascending.congr fun i _ => hs.keys i
  size := by
    rw [hs.order]
    exact h.size
  __ := h

end

end Valid

variable {s : SplayMap κ V} {T : BinTree ℕ} {idx : OrdMap κ ℕ} {free : List ℕ} {high : ℕ} {key : κ}

/-- The live keys and their indices are the entries of `idx`. -/
def Models (s : SplayMap κ V) (idx : OrdMap κ ℕ) (free : List ℕ) (high : ℕ) : Prop :=
  ∃ T, Valid s T free high ∧
    ∀ k i, idx[k]? = some i ↔ i ∈ T.inorder ∧ (s.kBuff i).key = k

/-! ## Splaying the root -/

/-- What an operation finds at the root once it has splayed: the node of the key, or a neighbour. -/
def AtRoot (s : SplayMap κ V) (idx : OrdMap κ ℕ) (T : BinTree ℕ) (key : κ) : Bool → Prop
  | true => idx[key]? = some s.rootPtr ∧ ∃ A B, T = .node A s.rootPtr B
  | false => idx[key]? = none ∧ (s.rootPtr ≠ 0 → ∃ d near far, T = branch d near s.rootPtr far ∧
      Passes key d (s.kBuff s.rootPtr).key ∧ ∀ i ∈ near.inorder, Passes key d.other (s.kBuff i).key)

/-- **Splaying the root** keeps the entries and answers whether the key is live. -/
theorem Models.splay (h : Models s idx free high) (key : κ) :
    ∃ found k' r T, SplayMap.splay s.nodeBound s.kBuff key s.rootPtr = some (found, k', r) ∧
      Valid { s with kBuff := k', rootPtr := r } T free high ∧
      (∀ k i, idx[k]? = some i ↔ i ∈ T.inorder ∧ (k' i).key = k) ∧
      (s.rootPtr ≠ 0 → r ≠ 0) ∧ AtRoot { s with kBuff := k', rootPtr := r } idx T key found := by
  obtain ⟨T, hval, hidx⟩ := h
  by_cases hroot : s.rootPtr = 0
  · have hT : T = .nil := by
      have hrep := hval.root
      rw [hroot] at hrep
      exact hrep.eq_nil
    refine ⟨false, s.kBuff, s.rootPtr, T, if_pos hroot, hval, hidx, id, ?_,
      fun hne => absurd hroot hne⟩
    refine eq_none_iff_forall_ne_some.mpr fun i hi => ?_
    have hmem := ((hidx key i).mp hi).1
    simp [hT] at hmem
  · obtain ⟨found, k', r, A, B, hsplay, hs⟩ :=
      splay_spec hval.root hroot hval.ascending hval.bounded key
    have hidx' : ∀ k i, idx[k]? = some i ↔ i ∈ (BinTree.node A r B).inorder ∧ (k' i).key = k := by
      intro k i
      rw [hidx, hs.order, hs.keys]
    refine ⟨found, k', r, .node A r B, hsplay, hval.of_splayed hs, hidx', fun _ => hs.rep.2.1, ?_⟩
    cases found with
    | true =>
      refine ⟨(hidx' key r).mpr ⟨by simp, ?_⟩, A, B, rfl⟩
      rw [hs.keys]
      exact hs.found rfl
    | false =>
      refine ⟨eq_none_iff_forall_ne_some.mpr fun i hi => ?_, fun _ => ?_⟩
      · obtain ⟨hmem, hkey⟩ := (hidx key i).mp hi
        exact hs.key_ne hval.ascending i hmem hkey
      · obtain ⟨d, near, far, hT, hr, hnear⟩ := hs.missed rfl
        refine ⟨d, near, far, hT, ?_, fun i hi => ?_⟩
        · rw [hs.keys]
          exact hr
        · rw [hs.keys]
          exact hnear i hi

/-! ## `exist` and `find` -/

/-- The fields of a map that splaying does not touch. -/
structure SameValues (s s' : SplayMap κ V) : Prop where
  vBuff : s'.vBuff = s.vBuff
  bSize : s'.bSize = s.bSize
  tSize : s'.tSize = s.tSize
  iSize : s'.iSize = s.iSize

/-- **`exist`** answers whether the key is live and leaves its index at the root. -/
theorem Models.exist (h : Models s idx free high) (key : κ) :
    ∃ s', s.exist key = some (idx[key]?.isSome, s') ∧ Models s' idx free high ∧ SameValues s s' ∧
      ∀ i, idx[key]? = some i → s'.rootPtr = i ∧ s'.lastPtr = i := by
  obtain ⟨found, k', r, T, hsplay, hval, hidx, -, hroot⟩ := h.splay key
  cases found with
  | true =>
    obtain ⟨hkey, A, B, rfl⟩ := hroot
    have hr : r ≠ 0 := hval.root.2.1
    refine ⟨{ s with kBuff := k', rootPtr := r, lastPtr := r }, ?_, ?_, ⟨rfl, rfl, rfl, rfl⟩, ?_⟩
    · simp [SplayMap.exist, hsplay, hkey, hr]
    · exact ⟨_, { hval with }, hidx⟩
    · intro i hi
      exact ⟨some.inj (hkey.symm.trans hi), some.inj (hkey.symm.trans hi)⟩
  | false =>
    refine ⟨{ s with kBuff := k', rootPtr := r, lastPtr := 0 }, ?_, ?_, ⟨rfl, rfl, rfl, rfl⟩, ?_⟩
    · simp [SplayMap.exist, hsplay, hroot.1]
    · exact ⟨_, { hval with }, hidx⟩
    · intro i hi
      cases hroot.1.symm.trans hi

/-! ## `remove` -/

theorem Valid.joinChildren {A B : BinTree ℕ} (h : Valid s (.node A s.rootPtr B) free high) :
    ∃ k' x T, s.joinChildren (s.kBuff s.rootPtr).key = some (k', x) ∧ Rep k'.child x T ∧
      T.inorder = A.inorder ++ B.inorder ∧ (∀ i, (k' i).key = (s.kBuff i).key) ∧
      ∀ y, y ∉ 0 :: A.inorder → k' y = s.kBuff y := by
  obtain ⟨-, -, hA, hB⟩ := h.root
  have hsort := h.ascending
  rw [inorder_node, Ascending, pairwise_append] at hsort
  obtain ⟨hascA, -, hAB⟩ := hsort
  by_cases hleft : s.kBuff.child s.rootPtr .left = 0
  · rw [hleft] at hA
    obtain rfl := hA.eq_nil
    refine ⟨s.kBuff, s.kBuff.child s.rootPtr .right, B, ?_, hB, rfl, fun _ => rfl, fun _ _ => rfl⟩
    simp [SplayMap.joinChildren, hleft]
  have hbd : ∀ i ∈ 0 :: A.inorder, i < s.nodeBound := by
    intro i hi
    apply h.bounded i
    exact mem_append_left _ hi
  obtain ⟨ret, k₁, x, A', B', hsplay, hs⟩ :=
    splay_spec hA hleft hascA hbd (s.kBuff s.rootPtr).key
  have hbel : ∀ i ∈ A.inorder, (s.kBuff i).key < (s.kBuff s.rootPtr).key :=
    fun i hi => hAB i hi s.rootPtr (mem_cons_self ..)
  have hx : x ∈ A.inorder := by
    rw [← hs.order]
    simp
  -- all keys on the left are smaller, so the largest comes up and has no right child
  have hB' : B' = .nil := by
    cases ret with
    | true => exact absurd (hs.found rfl) (hbel x hx).ne
    | false =>
      obtain ⟨d, near, far, hT, hr, hnear⟩ := hs.missed rfl
      cases d with
      | left => exact absurd hr (hbel x hx).not_gt
      | right =>
        cases hT
        apply eq_nil_of_inorder
        refine eq_nil_iff_forall_not_mem.mpr fun i hi => ?_
        have hmem : i ∈ A.inorder := by
          rw [← hs.order]
          simp [hi]
        exact absurd (hnear i hi) (hbel i hmem).not_gt
  subst hB'
  have hnd := h.ascending.nodup
  rw [inorder_node, nodup_append] at hnd
  obtain ⟨hnodupA, ⟨hrB, hnodupB⟩, hdisj⟩ := hnd
  have hrA : s.rootPtr ∉ 0 :: A.inorder := by
    intro hmem
    rcases mem_cons.mp hmem with hr | hr
    · exact h.root.2.1 hr
    · exact hdisj _ hr _ (mem_cons_self ..) rfl
  have hkeep : ∀ y ∈ B.inorder, y ∉ 0 :: A.inorder := by
    intro y hy hmem
    rcases mem_cons.mp hmem with rfl | hmem
    · exact hB.zero_notMem hy
    · exact hdisj y hmem y (mem_cons_of_mem _ hy) rfl
  obtain ⟨-, hx0, hA', -⟩ := hs.rep
  have hxA' : x ∉ A'.inorder := by
    rw [← hs.order, inorder_node, nodup_append] at hnodupA
    exact fun hmem => hnodupA.2.2 x hmem x (mem_cons_self ..) rfl
  refine ⟨k₁.setChild x .right (k₁.child s.rootPtr .right), x, .node A' x B, ?_,
    ⟨rfl, hx0, ?_, ?_⟩, ?_, fun i => ?_, fun y hy => ?_⟩
  · simp [SplayMap.joinChildren, hleft, hsplay]
  · rw [NodeBuffer.setChild_child, Links.set_of_ne _ _ (by simp)]
    exact hA'.congr fun i hi => Links.set_of_ne_cell _ _ _ (ne_of_mem_of_not_mem hi hxA')
  · rw [NodeBuffer.setChild_child, Links.set_self, NodeBuffer.child_congr (hs.frame _ hrA)]
    refine hB.congr fun y hy => ?_
    rw [Links.set_of_ne_cell _ _ _, NodeBuffer.child_congr (hs.frame y (hkeep y hy))]
    rintro rfl
    exact hkeep y hy (mem_cons_of_mem _ hx)
  · rw [← hs.order]
    simp
  · rw [NodeBuffer.setChild_key, hs.keys]
  · rw [NodeBuffer.setChild_of_ne, hs.frame y hy]
    rintro rfl
    exact hy (mem_cons_of_mem _ hx)

theorem Valid.release {A B : BinTree ℕ} {x : ℕ} {k' : NodeBuffer κ}
    (h : Valid s (.node A s.rootPtr B) free high) (hrep : Rep k'.child x T)
    (hord : T.inorder = A.inorder ++ B.inorder) (hkeys : ∀ i, (k' i).key = (s.kBuff i).key)
    (hfr : ∀ y, y ∉ 0 :: A.inorder → k' y = s.kBuff y) :
    Valid { s with
      kBuff := k'.setChild s.rootPtr .left s.freePtr
      freePtr := s.rootPtr
      tSize := s.tSize - 1
      rootPtr := x } T (s.rootPtr :: free) high := by
  have hnd := h.ascending.nodup
  rw [inorder_node, nodup_middle, nodup_cons, ← hord] at hnd
  have hsub : T.inorder.Sublist (BinTree.node A s.rootPtr B).inorder := by
    rw [hord]
    exact (List.Sublist.refl _).append (sublist_cons_self ..)
  refine ⟨?_, ⟨rfl, h.root.2.1, ?_⟩, ?_, ?_, ?_, h.room, h.nodeRoom, h.valRoom, h.grows⟩
  · show Rep (k'.setChild s.rootPtr .left s.freePtr).child x T
    rw [NodeBuffer.setChild_child]
    exact hrep.congr fun i hi => Links.set_of_ne_cell _ _ _ (ne_of_mem_of_not_mem hi hnd.1)
  · show RepList (k'.setChild s.rootPtr .left s.freePtr).child .left
      ((k'.setChild s.rootPtr .left s.freePtr).child s.rootPtr .left) free
    rw [NodeBuffer.setChild_child, Links.set_self]
    refine h.freeList.congr fun i hi => ?_
    have hlive : i ∉ (BinTree.node A s.rootPtr B).inorder := fun hmem => h.notMem_free hmem hi
    rw [inorder_node, mem_append, mem_cons, not_or, not_or] at hlive
    rw [Links.set_of_ne_cell _ _ _ hlive.2.1]
    refine NodeBuffer.child_congr (hfr i fun hmem => ?_)
    rcases mem_cons.mp hmem with rfl | hmem
    · exact absurd (h.mem_iff.mp (.inr hi)).1 (lt_irrefl 0)
    · exact hlive.1 hmem
  · refine List.Perm.trans ?_ h.cover
    rw [hord]
    refine perm_middle.trans ?_
    exact (perm_middle.symm).append_right free
  · refine Ascending.congr (List.Pairwise.sublist hsub h.ascending) fun i _ => ?_
    rw [NodeBuffer.setChild_key, hkeys]
  · show s.tSize - 1 = T.inorder.length
    rw [h.size, hord]
    simp

/-- **`remove`** of a key that is not live only splays. -/
theorem Models.remove_of_none (h : Models s idx free high) (hkey : idx[key]? = none) :
    ∃ s', s.remove key = some (none, s') ∧ Models s' idx free high ∧ SameValues s s' := by
  obtain ⟨found, k', r, T, hsplay, hval, hidx, -, hroot⟩ := h.splay key
  cases found with
  | true => cases hkey.symm.trans hroot.1
  | false =>
    refine ⟨{ s with kBuff := k', rootPtr := r }, ?_, ⟨T, hval, hidx⟩, ⟨rfl, rfl, rfl, rfl⟩⟩
    simp [SplayMap.remove, hsplay]

/-- **`remove`** of a live key returns its index, which goes to the free list. -/
theorem Models.remove_of_some (h : Models s idx free high) {r : ℕ} (hkey : idx[key]? = some r) :
    ∃ s', s.remove key = some (some r, s') ∧ Models s' (idx.erase key) (r :: free) high ∧
      s'.vBuff = s.vBuff ∧ s'.iSize = s.iSize := by
  obtain ⟨found, k', r', T, hsplay, hval, hidx, -, hroot⟩ := h.splay key
  cases found with
  | false => cases hroot.1.symm.trans hkey
  | true =>
    obtain ⟨hr, A, B, rfl⟩ := hroot
    obtain rfl : r' = r := some.inj (hr.symm.trans hkey)
    have hrkey : (k' r').key = key := ((hidx key r').mp hr).2
    obtain ⟨k₂, x, T', hjoin, hrep, hord, hkeys, hfr⟩ := hval.joinChildren
    have hval' := hval.release hrep hord hkeys hfr
    rw [hrkey] at hjoin
    have hr0 : r' ≠ 0 := hval.root.2.1
    have hbd : r' < min s.bSize s.kCap := hval.bounded r' (by simp)
    have hvbou : r' < min s.bSize s.vCap := by
      have hlt := hval.lt_bSize (i := r') (by simp)
      rw [← hval.valBound_eq] at hlt
      exact hlt
    refine ⟨_, ?_, ⟨T', hval', fun k i => ?_⟩, rfl, rfl⟩
    · simp only [SplayMap.remove, hsplay, bind_eq_bind, bind_some]
      refine (if_neg (by simp)).trans ((if_neg (not_not.mpr hbd)).trans ?_)
      rw [hjoin, bind_some, freeNode, if_neg hr0]
      exact (congrArg (Option.bind · _) (if_pos hbd)).trans (if_pos hvbou)
    · show (idx.erase key)[k]? = some i ↔
        i ∈ T'.inorder ∧ (k₂.setChild r' .left s.freePtr i).key = k
      rw [OrdMap.get_erase, NodeBuffer.setChild_key, hkeys, hord]
      have hnd := hval.ascending.nodup
      rw [inorder_node, nodup_middle, nodup_cons] at hnd
      by_cases hk : k = key
      · -- the only node with the key was the root
        rw [if_pos hk]
        refine ⟨fun hno => absurd hno (by simp), fun ⟨hi, hik⟩ => ?_⟩
        have hmem : i ∈ (BinTree.node A r' B).inorder := by
          rw [inorder_node, mem_append, mem_cons]
          exact (mem_append.mp hi).imp_right .inr
        have hi' := (hidx key i).mpr ⟨hmem, hik.trans hk⟩
        rw [some.inj (hi'.symm.trans hr)] at hi
        exact absurd hi hnd.1
      · rw [if_neg hk, hidx, inorder_node, mem_append, mem_append, mem_cons]
        refine and_congr_left fun hik => or_congr_right (or_iff_right ?_)
        rintro rfl
        exact hk (hik.symm.trans hrkey)

/-! ## Growing the buffers -/

section Growth

variable [Inhabited κ] [Inhabited V]

omit [LinearOrder κ] in
theorem reallocateMemory_eq {p : Platform} (hreal : ∀ bytes, p.realloc bytes = true)
    (hfits : p.Fits (s.bSize + s.iSize)) :
    s.reallocateMemory p = some (true, { s with
      kBuff := zeroed s.kBuff s.bSize s.iSize
      kCap := s.bSize + s.iSize
      vBuff := zeroed s.vBuff s.bSize s.iSize
      vCap := s.bSize + s.iSize
      bSize := s.bSize + s.iSize }) := by
  obtain ⟨hkey, hval⟩ := hfits
  have hsize : (s.bSize + s.iSize) % 2 ^ 32 = s.bSize + s.iSize := by
    apply Nat.mod_eq_of_lt
    have hle := Nat.le_mul_of_pos_right (s.bSize + s.iSize) p.sizeofNode_pos
    omega
  have hkeyBytes : p.keyBytes (s.bSize + s.iSize) =
      sizeofTreeInfo + (s.bSize + s.iSize) * p.sizeofNode := Nat.mod_eq_of_lt hkey
  have hvalBytes : p.valBytes (s.bSize + s.iSize) = (s.bSize + s.iSize) * p.sizeofVal :=
    Nat.mod_eq_of_lt hval
  simp only [reallocateMemory, hsize, hreal, hkeyBytes, hvalBytes, not_true_eq_false,
    lt_self_iff_false, if_false, Nat.add_sub_cancel_left, Nat.mul_div_cancel _ p.sizeofNode_pos,
    Nat.mul_div_cancel _ p.sizeofVal_pos]

/-- **Room for one more entry**: the head of `insert`. -/
theorem Models.makeRoom {p : Platform} (hreal : ∀ bytes, p.realloc bytes = true)
    (h : Models s idx free high) (hfits : s.tSize + 1 = s.bSize → p.Fits (s.bSize + s.iSize)) :
    ∃ s', s.makeRoom p = some (true, s') ∧ Models s' idx free high ∧ s'.tSize + 1 < s'.bSize ∧
      s.bSize ≤ s'.bSize ∧ s'.iSize = s.iSize ∧ ∀ i, i < s.bSize → s'.vBuff i = s.vBuff i := by
  obtain ⟨T, hval, hidx⟩ := h
  have htight : s.tSize < s.bSize := by
    have hlen := hval.length_eq
    have hroom := hval.room
    rw [hval.size]
    omega
  by_cases hfull : s.tSize + 1 = s.bSize
  · have hold : ∀ {α : Type} [Inhabited α] (buff : ℕ → α) (i : ℕ), i < s.bSize →
        zeroed buff s.bSize s.iSize i = buff i := by
      intro α _ buff i hi
      exact if_neg fun hin => absurd hin.1 (not_le.mpr hi)
    have hlive : ∀ i ∈ T.inorder, zeroed s.kBuff s.bSize s.iSize i = s.kBuff i :=
      fun i hi => hold s.kBuff i (hval.lt_bSize hi)
    have hgrow := hval.grows
    refine ⟨_, (if_pos hfull).trans (reallocateMemory_eq hreal (hfits hfull)),
      ⟨T, ⟨?_, ?_, hval.cover, ?_, hval.size, ?_, le_rfl, le_rfl, hgrow⟩, fun k i => ?_⟩, ?_,
      Nat.le_add_right .., rfl, hold s.vBuff⟩
    · exact hval.root.congr fun i hi => NodeBuffer.child_congr (hlive i hi)
    · refine hval.freeList.congr fun i hi => NodeBuffer.child_congr (hold s.kBuff i ?_)
      exact lt_of_le_of_lt (hval.mem_iff.mp (.inr hi)).2 hval.room
    · exact hval.ascending.congr fun i hi => congrArg Node.key (hlive i hi)
    · exact lt_of_lt_of_le hval.room (Nat.le_add_right ..)
    · rw [hidx]
      refine and_congr_right fun hi => ?_
      show _ ↔ (zeroed s.kBuff s.bSize s.iSize i).key = k
      rw [hlive i hi]
    · show s.tSize + 1 < s.bSize + s.iSize
      omega
  · refine ⟨s, if_neg hfull, ⟨T, hval, hidx⟩, ?_, le_rfl, rfl, fun _ _ => rfl⟩
    omega

end Growth

/-! ## `insert` -/

theorem Valid.nextFreeNode (h : Valid s T free high) (hroom : s.tSize + 1 < s.bSize) :
    ∃ n ptr rest, SplayMap.nextFreeNode { s with tSize := s.tSize + 1 } =
        some (n, { s with tSize := s.tSize + 1, freePtr := ptr }) ∧
      RepList s.kBuff.child .left ptr rest ∧ n ∉ T.inorder ∧
      (n :: (T.inorder ++ rest)).Perm (range' 1 (max high n)) ∧ max high n < s.bSize := by
  have hlen := h.length_eq
  cases free with
  | nil =>
    -- nothing to reuse: the live nodes are all of 1 .. t_size
    have hptr : s.freePtr = 0 := h.freeList
    have hhigh : high = s.tSize := by
      rw [h.size, ← hlen]
      rfl
    have hnew : s.tSize + 1 ∉ T.inorder := fun hmem => by
      have hle := (h.mem_iff.mp (.inl hmem)).2
      omega
    have hmax : max high (s.tSize + 1) = high + 1 := by omega
    refine ⟨s.tSize + 1, 0, [], ?_, rfl, hnew, ?_, by omega⟩
    · rw [SplayMap.nextFreeNode, if_pos hptr, ← hptr]
    · rw [hmax, append_nil, range'_concat, Nat.one_mul, hhigh, Nat.add_comm 1]
      refine (perm_append_singleton _ _).symm.trans (List.Perm.append_right _ ?_)
      have hcov := h.cover
      rw [append_nil, hhigh] at hcov
      exact hcov
  | cons n rest =>
    obtain ⟨hptr, hn0, hrest⟩ := h.freeList
    have hnhigh := (h.mem_iff.mp (.inr (mem_cons_self (a := n) (l := rest)))).2
    have hnd := nodup_middle.mp h.nodup
    rw [nodup_cons, mem_append, not_or] at hnd
    have hmax : max high n = high := max_eq_left hnhigh
    refine ⟨n, s.kBuff.child n .left, rest, ?_, hrest, hnd.1.1, ?_, ?_⟩
    · have hbd : s.freePtr < min s.bSize s.kCap := by
        have hlt := lt_of_le_of_lt hnhigh h.room
        rw [hptr]
        exact lt_min hlt (lt_of_lt_of_le hlt h.nodeRoom)
      rw [SplayMap.nextFreeNode, if_neg (by rw [hptr]; exact hn0)]
      refine (if_pos hbd).trans ?_
      rw [hptr]
    · rw [hmax]
      exact perm_middle.symm.trans h.cover
    · rw [hmax]
      exact h.room

theorem Valid.extend {T' : BinTree ℕ} {rest : List ℕ} {n ptr : ℕ} {k' : NodeBuffer κ}
    (h : Valid s T free high) (v' : ℕ → V) (hrest : RepList s.kBuff.child .left ptr rest)
    (hcov : (n :: (T.inorder ++ rest)).Perm (range' 1 (max high n)))
    (hroom : max high n < s.bSize) (hrep : Rep k'.child n T')
    (hperm : T'.inorder.Perm (n :: T.inorder)) (hasc : Ascending k' T'.inorder)
    (hfr : ∀ y, y ∉ n :: T.inorder → k' y = s.kBuff y) :
    Valid { s with tSize := s.tSize + 1, freePtr := ptr, kBuff := k', vBuff := v', rootPtr := n }
      T' rest (max high n) where
  root := hrep
  freeList := by
    have hnd := hcov.nodup_iff.mpr nodup_range'
    rw [← cons_append, nodup_append] at hnd
    refine hrest.congr fun i hi => NodeBuffer.child_congr (hfr i fun hmem => ?_)
    exact hnd.2.2 i hmem i hi rfl
  cover := (hperm.append_right rest).trans hcov
  ascending := hasc
  size := by
    rw [hperm.length_eq, length_cons, ← h.size]
  room := hroom
  __ := h

theorem Ascending.insert {k k' : NodeBuffer κ} {d : Side} {near far : BinTree ℕ} {r n : ℕ}
    (h : Ascending k (branch d near r far).inorder) (hr : Passes key d (k r).key)
    (hnear : ∀ i ∈ near.inorder, Passes key d.other (k i).key) (hn : (k' n).key = key)
    (hkeys : ∀ i ∈ (branch d near r far).inorder, (k' i).key = (k i).key) :
    Ascending k' (branch d near n (branch d .nil r far)).inorder := by
  have hfar := passes_far h hr
  replace h := h.congr hkeys
  have hmem := fun i => (inorder_branch_perm d near r far).mem_iff (a := i)
  simp only [mem_cons, mem_append] at hmem
  have hr' := hkeys r ((hmem r).mpr (.inl rfl))
  have hnear' : ∀ i ∈ near.inorder, Passes key d.other (k' i).key := fun i hi => by
    rw [hkeys i ((hmem i).mpr (.inr (.inl hi)))]
    exact hnear i hi
  have hfar' : ∀ i ∈ far.inorder, Passes key d (k' i).key := fun i hi => by
    rw [hkeys i ((hmem i).mpr (.inr (.inr hi)))]
    exact hfar i hi
  rw [← hr'] at hr
  subst hn
  cases d with
  | left =>
    simp only [branch, inorder_node, inorder_nil, nil_append, Ascending,
      pairwise_append, pairwise_cons, mem_cons] at h ⊢
    refine ⟨h.1, ⟨?_, h.2.1⟩, ?_⟩
    · rintro j (rfl | hj)
      · exact hr
      · exact hfar' j hj
    · rintro i hi j (rfl | hj)
      · exact hnear' i hi
      · exact h.2.2 i hi j hj
  | right =>
    simp only [branch, inorder_node, inorder_nil, Ascending, pairwise_append,
      pairwise_cons, mem_cons, mem_append, not_mem_nil, or_false] at h ⊢
    refine ⟨⟨h.1, ⟨by simp, List.Pairwise.nil⟩, ?_⟩, ⟨hnear', h.2.1.2⟩, ?_⟩
    · rintro i hi j rfl
      exact h.2.2 i hi j (.inl rfl)
    · rintro i (hi | rfl) j (rfl | hj)
      · exact hfar' i hi
      · exact h.2.2 i hi j (.inr hj)
      · exact hr
      · exact h.2.1.1 j hj

theorem insert_entries {k k' : NodeBuffer κ} {T' : BinTree ℕ} {n : ℕ}
    (hidx : ∀ a i, idx[a]? = some i ↔ i ∈ T.inorder ∧ (k i).key = a) (hkey : idx[key]? = none)
    (hperm : T'.inorder.Perm (n :: T.inorder)) (hnew : n ∉ T.inorder) (hn : (k' n).key = key)
    (hkeys : ∀ i ∈ T.inorder, (k' i).key = (k i).key) (a : κ) (i : ℕ) :
    (idx.insert key n)[a]? = some i ↔ i ∈ T'.inorder ∧ (k' i).key = a := by
  rw [OrdMap.get_insert, hperm.mem_iff, mem_cons]
  by_cases ha : a = key
  · subst ha
    rw [if_pos rfl]
    constructor
    · rintro hi
      cases hi
      exact ⟨.inl rfl, hn⟩
    · rintro ⟨rfl | hi, hia⟩
      · rfl
      · rw [hkeys i hi] at hia
        exact absurd (hkey.symm.trans ((hidx a i).mpr ⟨hi, hia⟩)) (by simp)
  · rw [if_neg ha, hidx]
    constructor
    · rintro ⟨hi, hia⟩
      exact ⟨.inr hi, (hkeys i hi).trans hia⟩
    · rintro ⟨rfl | hi, hia⟩
      · exact absurd (hia.symm.trans hn) ha
      · exact ⟨hi, (hkeys i hi).symm.trans hia⟩

/-- What `insert` leaves: the entry has the index `n`, at the root, and holds the value. -/
structure Inserted (s : SplayMap κ V) (idx : OrdMap κ ℕ) (high : ℕ) (key : κ) (val : V) (n : ℕ)
    (s' : SplayMap κ V) : Prop where
  models : ∃ free, Models s' (idx.insert key n) free (max high n)
  root : s'.rootPtr = n
  value : s'.vBuff n = val
  others : ∀ i, i < s.bSize → i ≠ n → s'.vBuff i = s.vBuff i
  iSize : s'.iSize = s.iSize
  old : ∀ i, idx[key]? = some i → n = i
  fresh : idx[key]? = none → ∀ a : κ, idx[a]? ≠ some n

theorem Models.insertFirst (h : Models s idx free high) (hroom : s.tSize + 1 < s.bSize)
    (hroot : s.rootPtr = 0) (key : κ) (val : V) :
    ∃ n s', s.insertFirst key val = some (some n, s') ∧
      Inserted s idx high key val n s' := by
  obtain ⟨T, hval, hidx⟩ := h
  have hT : T = .nil := by
    have hrep := hval.root
    rw [hroot] at hrep
    exact hrep.eq_nil
  subst hT
  have hsize : s.tSize = 0 := hval.size
  obtain ⟨n, ptr, rest, hnext, hrest, hnew, hcov, hmax⟩ := hval.nextFreeNode hroom
  have hn : n < s.bSize := lt_of_le_of_lt (le_max_right ..) hmax
  have hn0 : n ≠ 0 := by
    have hmem := hcov.mem_iff.mp (mem_cons_self (a := n))
    rw [mem_range'_1] at hmem
    omega
  have hemp : ∀ a : κ, idx[a]? = none := fun a =>
    eq_none_iff_forall_ne_some.mpr fun i hi => by simpa using ((hidx a i).mp hi).1
  have hplac : ∀ y, y ∉ n :: (BinTree.nil : BinTree ℕ).inorder →
      s.kBuff.setNode n key 0 0 y = s.kBuff y :=
    fun y hy => NodeBuffer.setNode_of_ne _ _ _ _ fun heq => hy (by simp [heq])
  have hrep : Rep (s.kBuff.setNode n key 0 0).child n (.node .nil n .nil) := by
    have hchild : ∀ d, (s.kBuff.setNode n key 0 0).child n d = 0 := by
      intro d
      cases d <;> simp [NodeBuffer.child]
    exact ⟨rfl, hn0, hchild .left, hchild .right⟩
  have hext := hval.extend (update s.vBuff n val) hrest hcov hmax hrep
    (List.Perm.refl _) (pairwise_singleton _ _) hplac
  refine ⟨n, _, ?_, ⟨⟨rest, _, hext, ?_⟩, rfl, update_self .., fun i _ hi => update_of_ne hi ..,
    rfl, ?_, ?_⟩⟩
  · rw [hsize] at hnext
    simp only [SplayMap.insertFirst, hnext, bind_eq_bind, bind_some, hsize]
    exact if_pos ⟨lt_min hn (lt_of_lt_of_le hn hval.nodeRoom),
      lt_min hn (lt_of_lt_of_le hn hval.valRoom)⟩
  · exact insert_entries hidx (hemp key) (List.Perm.refl _) hnew (by simp) (by simp)
  · intro i hi
    exact absurd ((hemp key).symm.trans hi) (by simp)
  · intro _ a
    rw [hemp a]
    simp

omit [LinearOrder κ] in
theorem insertAbove_eq {n ptr : ℕ} (d : Side) (key : κ) (val : V)
    (hnext : nextFreeNode { s with tSize := s.tSize + 1 } =
      some (n, { s with tSize := s.tSize + 1, freePtr := ptr })) (hnode : n < s.nodeBound)
    (hval : n < s.valBound) :
    ∃ k' : NodeBuffer κ, s.insertAbove d key val = some (some n, { s with
        tSize := s.tSize + 1, freePtr := ptr, kBuff := k'.setChild s.rootPtr d 0
        vBuff := update s.vBuff n val, rootPtr := n }) ∧
      k'.child n d = s.kBuff.child s.rootPtr d ∧ k'.child n d.other = s.rootPtr ∧
      (k' n).key = key ∧ ∀ y, y ≠ n → k' y = s.kBuff y := by
  have hplace : ∀ left right, place { s with tSize := s.tSize + 1, freePtr := ptr } n key val left
      right = some (some n, { s with
        tSize := s.tSize + 1, freePtr := ptr, kBuff := s.kBuff.setNode n key left right
        vBuff := update s.vBuff n val, rootPtr := n }) :=
    fun _ _ => if_pos ⟨hnode, hval⟩
  cases d with
  | left =>
    refine ⟨s.kBuff.setNode n key (s.kBuff.child s.rootPtr .left) s.rootPtr, ?_, ?_, ?_, ?_,
      fun y hy => NodeBuffer.setNode_of_ne _ _ _ _ hy⟩
    · simp only [SplayMap.insertAbove, hnext, bind_eq_bind, bind_some, hplace]
      rfl
    all_goals simp [NodeBuffer.child, Side.other]
  | right =>
    refine ⟨s.kBuff.setNode n key s.rootPtr (s.kBuff.child s.rootPtr .right), ?_, ?_, ?_, ?_,
      fun y hy => NodeBuffer.setNode_of_ne _ _ _ _ hy⟩
    · simp only [SplayMap.insertAbove, hnext, bind_eq_bind, bind_some, hplace]
      rfl
    all_goals simp [NodeBuffer.child, Side.other]

theorem Valid.insertAbove {d : Side} {near far : BinTree ℕ}
    (h : Valid s (branch d near s.rootPtr far) free high)
    (hidx : ∀ a i, idx[a]? = some i ↔ i ∈ (branch d near s.rootPtr far).inorder ∧ (s.kBuff i).key =
      a)
    (hkey : idx[key]? = none) (hroom : s.tSize + 1 < s.bSize)
    (hr : Passes key d (s.kBuff s.rootPtr).key)
    (hnear : ∀ i ∈ near.inorder, Passes key d.other (s.kBuff i).key) (val : V) :
    ∃ n s', s.insertAbove d key val = some (some n, s') ∧ Inserted s idx high key val n s' := by
  obtain ⟨n, ptr, rest, hnext, hrest, hnew, hcov, hmax⟩ := h.nextFreeNode hroom
  have hn : n < s.bSize := lt_of_le_of_lt (le_max_right ..) hmax
  have hn0 : n ≠ 0 := by
    have hmem := hcov.mem_iff.mp (mem_cons_self (a := n))
    rw [mem_range'_1] at hmem
    omega
  have hmem := fun i => (inorder_branch_perm d near s.rootPtr far).mem_iff (a := i)
  simp only [mem_cons, mem_append] at hmem
  have hnr : s.rootPtr ≠ n := by
    rintro heq
    exact hnew ((hmem n).mpr (.inl heq.symm))
  have hroot : s.rootPtr ∈ (branch d near s.rootPtr far).inorder := (hmem _).mpr (.inl rfl)
  obtain ⟨-, hr0, hnearRep, hfarRep⟩ := rep_branch.mp h.root
  have hnd := (inorder_branch_perm d near s.rootPtr far).nodup_iff.mp h.ascending.nodup
  rw [nodup_cons, mem_append, not_or] at hnd
  obtain ⟨k', heq, hchild, hoth, hn', hfr⟩ := insertAbove_eq d key val hnext
    (lt_min hn (lt_of_lt_of_le hn h.nodeRoom)) (lt_min hn (lt_of_lt_of_le hn h.valRoom))
  -- outside the new node and the link that the old root loses, nothing changes
  have hlinks : ∀ y, y ≠ n → y ≠ s.rootPtr →
      Links.set k'.child s.rootPtr d 0 y = s.kBuff.child y := fun y hyn hyr => by
    rw [Links.set_of_ne_cell _ _ _ hyr, NodeBuffer.child_congr (hfr y hyn)]
  have hsub : ∀ U : BinTree ℕ, (∀ y ∈ U.inorder, y ∈ (branch d near s.rootPtr far).inorder) →
      s.rootPtr ∉ U.inorder → ∀ y ∈ U.inorder,
        Links.set k'.child s.rootPtr d 0 y = s.kBuff.child y := by
    intro U hU hrU y hy
    refine hlinks y ?_ ?_
    · rintro rfl
      exact hnew (hU y hy)
    · rintro rfl
      exact hrU hy
  have hrep : Rep (k'.setChild s.rootPtr d 0).child n
      (branch d near n (branch d .nil s.rootPtr far)) := by
    rw [NodeBuffer.setChild_child]
    refine rep_branch.mpr ⟨rfl, hn0, ?_, rep_branch.mpr ⟨?_, hr0, ?_, ?_⟩⟩
    · rw [Links.set_of_ne_cell _ _ _ hnr.symm, hchild]
      exact hnearRep.congr (hsub near (fun y hy => (hmem y).mpr (.inr (.inl hy))) hnd.1.1)
    · rw [Links.set_of_ne_cell _ _ _ hnr.symm, hoth]
    · exact Links.set_self ..
    · rw [Links.set_of_ne _ _ (by simp), NodeBuffer.child_congr (hfr _ hnr)]
      exact hfarRep.congr (hsub far (fun y hy => (hmem y).mpr (.inr (.inr hy))) hnd.1.2)
  have hperm : (branch d near n (branch d .nil s.rootPtr far)).inorder.Perm
      (n :: (branch d near s.rootPtr far).inorder) := by
    refine (inorder_branch_perm d _ _ _).trans (List.Perm.cons n ?_)
    refine List.Perm.trans ?_ (inorder_branch_perm d near s.rootPtr far).symm
    refine ((inorder_branch_perm d _ _ _).append_left _).trans ?_
    exact perm_middle
  have hkeys : ∀ i ∈ (branch d near s.rootPtr far).inorder,
      (k'.setChild s.rootPtr d 0 i).key = (s.kBuff i).key := by
    intro i hi
    rw [NodeBuffer.setChild_key, hfr i]
    rintro rfl
    exact hnew hi
  have hnkey : (k'.setChild s.rootPtr d 0 n).key = key := by rw [NodeBuffer.setChild_key, hn']
  have hext := h.extend (update s.vBuff n val) hrest hcov hmax hrep hperm
    (h.ascending.insert hr hnear hnkey hkeys) fun y hy => by
      rw [mem_cons, not_or] at hy
      have hyr : y ≠ s.rootPtr := by
        rintro rfl
        exact hy.2 hroot
      rw [NodeBuffer.setChild_of_ne _ _ _ hyr, hfr y hy.1]
  refine ⟨n, _, heq, ⟨⟨rest, _, hext, insert_entries hidx hkey hperm hnew hnkey hkeys⟩, rfl,
    update_self .., fun i _ hi => update_of_ne hi .., rfl,
    fun i hi => absurd (hkey.symm.trans hi) (by simp), fun _ a ha => ?_⟩⟩
  exact hnew ((hidx a n).mp ha).1

theorem Valid.overwrite (h : Valid s T free high) (v' : ℕ → V) :
    Valid { s with vBuff := v' } T free high :=
  { h with }

/-- **`insert`** once there is room. -/
theorem Models.insertRoom (h : Models s idx free high) (hroom : s.tSize + 1 < s.bSize) (key : κ)
    (val : V) :
    ∃ n s', s.insertRoom key val = some (some n, s') ∧ Inserted s idx high key val n s' := by
  by_cases hroot : s.rootPtr = 0
  · rw [SplayMap.insertRoom, if_pos hroot]
    exact h.insertFirst hroom hroot key val
  obtain ⟨found, k', r, T, hsplay, hval, hidx, hne, hr⟩ := h.splay key
  have heq : s.insertRoom key val = _ := if_neg hroot
  simp only [hsplay, bind_eq_bind, bind_some] at heq
  cases found with
  | true =>
    obtain ⟨hkey, A, B, rfl⟩ := hr
    have hmem : r ∈ (BinTree.node A r B).inorder := by simp
    have hlt : r < min s.bSize s.vCap := by
      have hlt := hval.lt_bSize hmem
      exact lt_min hlt (lt_of_lt_of_le hlt hval.valRoom)
    have hle : max high r = high := max_eq_left (hval.mem_iff.mp (.inl hmem)).2
    refine ⟨r, _, heq.trans ((if_pos rfl).trans (if_pos hlt)), ⟨⟨free, .node A r B, ?_, fun a i => ?_⟩,
      rfl, update_self .., fun i _ hi => update_of_ne hi .., rfl,
      fun i hi => some.inj (hkey.symm.trans hi), fun hno => ?_⟩⟩
    · rw [hle]
      exact hval.overwrite _
    · rw [← hidx, OrdMap.get_insert]
      split_ifs with ha
      · rw [ha, hkey]
      · rfl
    · cases hno.symm.trans hkey
  | false =>
    obtain ⟨hkey, hside⟩ := hr
    obtain ⟨d, near, far, rfl, hpass, hnear⟩ := hside (hne hroot)
    have hbd : r < min s.bSize s.kCap := by
      refine hval.bounded r (mem_cons_of_mem _ ?_)
      exact (inorder_branch_perm d near r far).mem_iff.mpr (mem_cons_self ..)
    obtain ⟨n, s', hab, hins⟩ := hval.insertAbove hidx hkey hroom hpass hnear val
    refine ⟨n, s', heq.trans ((if_neg (by simp)).trans ((if_neg (not_not.mpr hbd)).trans ?_)),
      { hins with }⟩
    cases d with
    | left => exact (if_pos hpass).trans hab
    | right => exact (if_neg (lt_asymm hpass)).trans hab

/-- **`insert`** stores the value under an index of the key, growing the buffers when they are full. -/
theorem Models.insert [Inhabited κ] [Inhabited V] {p : Platform}
    (hreal : ∀ bytes, p.realloc bytes = true) (h : Models s idx free high)
    (hfits : s.tSize + 1 = s.bSize → p.Fits (s.bSize + s.iSize)) (key : κ) (val : V) :
    ∃ n s', s.insert p key val = some (some n, s') ∧ Inserted s idx high key val n s' := by
  obtain ⟨s₁, hmake, hmod, hroom, hle, hiSize, hvBuff⟩ := h.makeRoom hreal hfits
  obtain ⟨n, s', heq, hins⟩ := hmod.insertRoom hroom key val
  refine ⟨n, s', ?_, { hins with others := fun i hi hn => ?_, iSize := hins.iSize.trans hiSize }⟩
  · simp [SplayMap.insert, hmake, heq]
  · rw [hins.others i (lt_of_lt_of_le hi hle) hn, hvBuff i hi]

/-! ## `enumerate` -/

def entry (s : SplayMap κ V) (i : ℕ) : κ × V := ((s.kBuff i).key, s.vBuff i)

/-- The invariant of `inter_enumerate`: what was visited, what is below `root` and what the stack
stands for make up the tree in order. -/
structure Visiting (s : SplayMap κ V) (nodes : List ℕ) (n : ℕ) (v : Visit κ V) (done : List ℕ)
    (U : BinTree ℕ) (ctx : List (ℕ × BinTree ℕ)) : Prop where
  focus : Rep s.kBuff.child v.root U
  stack : v.stack = ctx.map Prod.fst
  pending : ∀ cell ∈ ctx, Rep s.kBuff.child (s.kBuff.child cell.1 .right) cell.2
  visited : v.visited = done.map s.entry
  count : v.count = done.length
  order : done ++ (U.inorder ++ spineLabels ctx) = nodes
  -- two rounds for a node below `root`, one for a node on the stack
  rounds : 2 * (U.inorder.length + (spineLabels ctx).length) = n + ctx.length

omit [LinearOrder κ] in
theorem length_le_spineLabels (ctx : List (ℕ × BinTree ℕ)) : ctx.length ≤ (spineLabels ctx).length := by
  induction ctx with
  | nil => exact le_rfl
  | cons cell ctx ih =>
    obtain ⟨i, R⟩ := cell
    simp only [spineLabels_cons, length_cons, length_append]
    omega

theorem visitStep_spec (h : Valid s T free high) (n : ℕ) (v : Visit κ V)
    (hv : ∃ done U ctx, Visiting s T.inorder n v done U ctx) :
    (∃ v', s.visitStep v = .inl v' ∧ ∃ n' < n, ∃ done U ctx, Visiting s T.inorder n' v' done U ctx) ∨
    ∃ r, s.visitStep v = .inr r ∧ r = some (T.inorder.map s.entry) := by
  obtain ⟨done, U, ctx, hv⟩ := hv
  have hlen := congrArg length hv.order
  have hctx := length_le_spineLabels ctx
  have hroun := hv.rounds
  by_cases hroot : v.root = 0
  · -- nothing left below `root`: the top of the stack is next
    have hU := hv.focus
    rw [hroot] at hU
    obtain rfl := hU.eq_nil
    cases ctx with
    | nil =>
      refine .inr ⟨_, ?_, rfl⟩
      have hdone : done = T.inorder := by simpa using hv.order
      simp [visitStep, hroot, hv.stack, hv.visited, hdone]
    | cons cell ctx =>
      obtain ⟨i, R⟩ := cell
      have hi : i ∈ T.inorder := by
        rw [← hv.order]
        simp
      have hbd : i < s.nodeBound ∧ i < s.valBound := by
        rw [h.nodeBound_eq, h.valBound_eq]
        exact ⟨h.lt_bSize hi, h.lt_bSize hi⟩
      simp only [spineLabels_cons, inorder_nil, length_nil, length_cons,
        length_append] at hlen hroun hctx
      have hcnt : ¬ s.tSize < v.count + 1 := by
        rw [h.size, hv.count]
        omega
      have hstep : s.visitStep v = .inl {
          root := s.kBuff.child i .right
          stack := ctx.map Prod.fst
          count := v.count + 1
          visited := v.visited ++ [s.entry i] } := by
        simp only [visitStep, hroot, ne_eq, not_true_eq_false, if_false, hv.stack, map_cons]
        rw [if_pos hbd, if_neg hcnt]
        rfl
      refine .inl ⟨_, hstep, n - 1, by omega, done ++ [i], R, ctx, ⟨?_, rfl, ?_, ?_, ?_, ?_, ?_⟩⟩
      · exact hv.pending (i, R) (mem_cons_self ..)
      · exact fun cell hcell => hv.pending cell (mem_cons_of_mem _ hcell)
      · simp [hv.visited]
      · simp [hv.count]
      · rw [← hv.order]
        simp
      · omega
  · obtain ⟨l, r, rfl⟩ := hv.focus.exists_branch hroot .left
    obtain ⟨-, -, hl, hr⟩ := rep_branch.mp hv.focus
    simp only [branch, inorder_node, length_append, length_cons] at hlen hroun
    have hmem : v.root ∈ T.inorder := by
      rw [← hv.order]
      simp [branch]
    have hsize : ¬ s.tSize < (v.root :: v.stack).length := by
      rw [h.size, hv.stack, length_cons, length_map]
      omega
    have hbd : v.root < s.nodeBound := by
      rw [h.nodeBound_eq]
      exact h.lt_bSize hmem
    have hstep : s.visitStep v = .inl { v with
        root := s.kBuff.child v.root .left, stack := v.root :: v.stack } := by
      simp only [visitStep, ne_eq, hroot, not_false_eq_true, if_true]
      rw [if_neg hsize, if_pos hbd]
    refine .inl ⟨_, hstep, n - 1, by omega, done, l, (v.root, r) :: ctx, ⟨hl, ?_, ?_, hv.visited,
      hv.count, ?_, ?_⟩⟩
    · simp [hv.stack]
    · intro cell hcell
      rcases mem_cons.mp hcell with rfl | hcell
      · exact hr
      · exact hv.pending cell hcell
    · rw [← hv.order]
      simp [branch]
    · simp only [spineLabels_cons, length_cons, length_append]
      omega

theorem toList_eq {k : NodeBuffer κ}
    (hidx : ∀ a i, idx[a]? = some i ↔ i ∈ T.inorder ∧ (k i).key = a)
    (hsort : Ascending k T.inorder) : idx.toList = T.inorder.map fun i => ((k i).key, i) := by
  refine OrdMap.toList_eq_of_sorted (pairwise_map.mpr hsort) fun a i => ?_
  rw [hidx, List.mem_map]
  constructor
  · rintro ⟨j, hj, heq⟩
    cases heq
    exact ⟨hj, rfl⟩
  · rintro ⟨hi, rfl⟩
    exact ⟨i, hi, rfl⟩

/-- **`size`** is the number of live keys. -/
theorem Models.size_eq (h : Models s idx free high) : s.tSize = idx.size := by
  obtain ⟨T, hval, hidx⟩ := h
  rw [hval.size, ← Std.ExtTreeMap.length_toList, toList_eq hidx hval.ascending, length_map]

/-- **`enumerate`** visits every live key once, in ascending order, with its value. -/
theorem Models.enumerate (h : Models s idx free high) :
    s.enumerate = some (idx.toList.map fun e => (e.1, s.vBuff e.2)) := by
  obtain ⟨T, hval, hidx⟩ := h
  have hstart : ∃ done U ctx, Visiting s T.inorder (2 * T.inorder.length)
      { root := s.rootPtr, stack := [], count := 0, visited := [] } done U ctx :=
    ⟨[], T, [], hval.root, rfl, by simp, rfl, rfl, by simp, by simp⟩
  obtain ⟨r, hloop, rfl⟩ := loop_of_variant (visitStep_spec hval) hstart
  have hroun : 2 * T.inorder.length + 1 ≤ 2 * s.bSize := by
    have hlen := hval.length_eq
    have hroom := hval.room
    omega
  rw [SplayMap.enumerate, loop_eq_some_of_le hloop hroun, toList_eq hidx hval.ascending,
    List.map_map]
  rfl

end SplayMap

end TraceHarbor.Hooks
