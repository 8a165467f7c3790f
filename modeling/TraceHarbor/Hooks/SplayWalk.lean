import TraceHarbor.Hooks.SplayMap

/-!
# Correctness of the Top-Down Splay

`splay` takes the tree below its root apart on the way to a key and puts it together again around the
node where it stopped: the nodes stay the same, in the same order, and the nodes on either spine have
been passed on their side.
-/

namespace TraceHarbor.Hooks

open Lib BinTree List

/-! ## Node buffers as link tables -/

variable {x : ℕ}

namespace NodeBuffer

variable {κ : Type} (k : NodeBuffer κ)

theorem setChild_child (ptr : ℕ) (d : Side) (v : ℕ) :
    (k.setChild ptr d v).child = Links.set k.child ptr d v := by
  funext x e
  by_cases hx : x = ptr
  · subst hx
    cases d <;> cases e <;> simp [setChild, child, Links.set]
  · rw [Links.set_of_ne _ _ fun h => hx h.1]
    cases e <;> simp [setChild, child, hx]

@[simp]
theorem setChild_key (ptr : ℕ) (d : Side) (v x : ℕ) : (k.setChild ptr d v x).key = (k x).key := by
  by_cases hx : x = ptr
  · subst hx
    cases d <;> simp [setChild]
  · simp [setChild, hx]

theorem child_congr {k k' : NodeBuffer κ} (h : k' x = k x) : k'.child x = k.child x := by
  funext d
  cases d <;> simp [child, h]

theorem setChild_of_ne {ptr : ℕ} (d : Side) (v : ℕ) (hx : x ≠ ptr) :
    k.setChild ptr d v x = k x := by
  simp [setChild, hx]

theorem setNode_of_ne {ptr : ℕ} (key : κ) (left right : ℕ) (hx : x ≠ ptr) :
    k.setNode ptr key left right x = k x := by
  simp [setNode, hx]

@[simp]
theorem setNode_self (ptr : ℕ) (key : κ) (left right : ℕ) :
    k.setNode ptr key left right ptr = { key := key, left := left, right := right } := by
  simp [setNode]

end NodeBuffer

namespace SplayMap

variable {κ : Type} [LinearOrder κ]

/-! ## Order -/

def Ascending (k : NodeBuffer κ) (nodes : List ℕ) : Prop :=
  nodes.Pairwise fun i j => (k i).key < (k j).key

variable {nodes : List ℕ}

theorem Ascending.congr {k k' : NodeBuffer κ} (h : Ascending k nodes)
    (hkey : ∀ i ∈ nodes, (k' i).key = (k i).key) : Ascending k' nodes := by
  refine List.Pairwise.imp_of_mem ?_ h
  intro i j hi hj hlt
  rw [hkey i hi, hkey j hj]
  exact hlt

theorem Ascending.nodup {k : NodeBuffer κ} (h : Ascending k nodes) : nodes.Nodup := by
  refine List.Pairwise.imp ?_ h
  rintro i j hlt rfl
  exact lt_irrefl _ hlt

variable {d : Side}

theorem passes_far {k : NodeBuffer κ} {near far : BinTree ℕ} {t : ℕ}
    (hsort : Ascending k (branch d near t far).inorder) {key : κ} (ht : Passes key d (k t).key) :
    ∀ x ∈ far.inorder, Passes key d (k x).key := by
  intro x hx
  cases d with
  | left =>
    rw [branch, inorder_node, Ascending, pairwise_append, pairwise_cons] at hsort
    exact lt_trans ht (hsort.2.1.1 x hx)
  | right =>
    rw [branch, inorder_node, Ascending, pairwise_append] at hsort
    exact lt_trans (hsort.2.2 x hx t (mem_cons_self ..)) ht

/-! ## The loop -/

/-- The invariant of the loop of `splay`, with the spines and the focus it has reached. -/
structure Walking (k₀ : NodeBuffer κ) (nodes : List ℕ) (key : κ) (w : Walk κ)
    (S : Side → List (ℕ × BinTree ℕ)) (T : BinTree ℕ) : Prop where
  zipped : Zipped w.kBuff.child w.tail w.t S T
  order : orderedCells S T = nodes
  keys : ∀ i, (w.kBuff i).key = (k₀ i).key
  frame : ∀ x, x ∉ 0 :: nodes → w.kBuff x = k₀ x
  passed : ∀ d, ∀ x ∈ spineLabels (S d), Passes key d (k₀ x).key

/-- Where the walk may stop: at the key, or at a node without a child on the side of the key. -/
def Settled (k₀ : NodeBuffer κ) (key : κ) (ret : Bool) (A : BinTree ℕ) (t : ℕ) (B : BinTree ℕ) :
    Prop :=
  match ret with
  | true => (k₀ t).key = key
  | false => (key < (k₀ t).key ∧ A = .nil) ∨ ((k₀ t).key < key ∧ B = .nil)

/-- What the loop leaves with. -/
def Stops (k₀ : NodeBuffer κ) (nodes : List ℕ) (key : κ) (r : Option (Bool × Walk κ)) : Prop :=
  ∃ ret w S A B, r = some (ret, w) ∧ Walking k₀ nodes key w S (.node A w.t B) ∧
    Settled k₀ key ret A w.t B

/-- What the loop goes on with, its focus having `n` nodes. -/
def GoesOn (k₀ : NodeBuffer κ) (nodes : List ℕ) (key : κ) (n : ℕ) (w : Walk κ) : Prop :=
  ∃ S T, Walking k₀ nodes key w S T ∧ w.t ≠ 0 ∧ T.inorder.length = n

variable {A B : BinTree ℕ}

namespace Walking

variable {k₀ : NodeBuffer κ} {nodes : List ℕ} {key : κ} {w : Walk κ}
  {S : Side → List (ℕ × BinTree ℕ)} {T : BinTree ℕ} {bound : ℕ}

section

variable (h : Walking k₀ nodes key w S T)

include h

theorem mem_nodes : x ∈ cells S T ↔ x ∈ nodes := by
  rw [← h.order, (orderedCells_perm S T).mem_iff]

theorem focus_mem (hx : x ∈ T.inorder) : x ∈ nodes :=
  h.mem_nodes.mp (mem_append_right _ hx)

theorem focus_ascending (hsort : Ascending k₀ nodes) : Ascending k₀ T.inorder := by
  rw [← h.order, orderedCells, Ascending, pairwise_append, pairwise_append] at hsort
  exact hsort.1.2.1

theorem tail_mem (d : Side) : w.tail d ∈ 0 :: nodes := by
  have hmem := h.zipped.tail_mem d
  rw [mem_cons, h.mem_nodes] at hmem
  exact mem_cons.mpr hmem

end

theorem stops {far : BinTree ℕ} (h : Walking k₀ nodes key w S (branch d .nil w.t far))
    (ht : Passes key d (k₀ w.t).key) : Stops k₀ nodes key (some (false, w)) := by
  cases d with
  | left => exact ⟨false, w, S, .nil, far, rfl, h, .inl ⟨ht, rfl⟩⟩
  | right => exact ⟨false, w, S, far, .nil, rfl, h, .inr ⟨ht, rfl⟩⟩

theorem link {near far : BinTree ℕ} (h : Walking k₀ nodes key w S (branch d near w.t far))
    (hsort : Ascending k₀ nodes) (hbd : ∀ i ∈ 0 :: nodes, i < bound)
    (ht : Passes key d (k₀ w.t).key) (hchild : w.kBuff.child w.t d ≠ 0) :
    ∃ w', SplayMap.link bound d w = .inl w' ∧ GoesOn k₀ nodes key near.inorder.length w' := by
  have hmem : w.t ∈ (branch d near w.t far).inorder :=
    (inorder_branch_perm d near w.t far).mem_iff.mpr (mem_cons_self ..)
  have hlink : (w.kBuff.setChild (w.tail d) d w.t).child w.t = w.kBuff.child w.t := by
    rw [NodeBuffer.setChild_child]
    exact Links.set_of_ne_cell _ _ _ (h.zipped.ne_tail hmem d)
  refine ⟨_, if_pos (hbd _ (h.tail_mem d)), Function.update S d (S d ++ [(w.t, far)]), near,
    ⟨?_, ?_, ?_, ?_, ?_⟩, ?_, rfl⟩
  · show Zipped (w.kBuff.setChild (w.tail d) d w.t).child _ _ _ near
    rw [hlink, NodeBuffer.setChild_child]
    exact h.zipped.link
  · rw [Zipped.orderedCells_link]
    exact h.order
  · intro i
    rw [← h.keys i]
    exact NodeBuffer.setChild_key ..
  · intro x hx
    rw [← h.frame x hx]
    exact NodeBuffer.setChild_of_ne _ _ _ fun htail => hx (htail ▸ h.tail_mem d)
  · -- the spine on side `d` gains the focus and what lies behind it
    intro e x hx
    rcases Side.eq_or_eq_other d e with rfl | rfl
    · rw [Function.update_self, spineLabels_append, mem_append] at hx
      rcases hx with hx | hx
      · exact h.passed e x hx
      · simp only [spineLabels_cons, spineLabels_nil, append_nil, mem_cons] at hx
        rcases hx with rfl | hx
        · exact ht
        · exact passes_far (h.focus_ascending hsort) ht x hx
    · rw [Function.update_of_ne (Side.other_ne d)] at hx
      exact h.passed _ x hx
  · show (w.kBuff.setChild (w.tail d) d w.t).child w.t d ≠ 0
    rw [hlink]
    exact hchild

theorem rotate {X : BinTree ℕ} {c : ℕ}
    (h : Walking k₀ nodes key w S (branch d (branch d A c X) w.t B)) :
    Walking k₀ nodes key
      { w with
        kBuff := (w.kBuff.setChild w.t d (w.kBuff.child c d.other)).setChild c d.other w.t
        t := c } S (branch d A c (branch d X w.t B)) := by
  have hperm := inorder_branch_perm d (branch d A c X) w.t B
  have ht : w.t ∈ nodes := h.focus_mem (hperm.mem_iff.mpr (mem_cons_self ..))
  have hc : c ∈ nodes := by
    refine h.focus_mem (hperm.mem_iff.mpr (mem_cons_of_mem _ (mem_append_left _ ?_)))
    exact (inorder_branch_perm d A c X).mem_iff.mpr (mem_cons_self ..)
  refine ⟨?_, ?_, fun i => ?_, fun x hx => ?_, h.passed⟩
  · show Zipped ((w.kBuff.setChild w.t d (w.kBuff.child c d.other)).setChild c d.other w.t).child
      _ _ _ _
    rw [NodeBuffer.setChild_child, NodeBuffer.setChild_child]
    exact h.zipped.rotate
  · rw [Zipped.orderedCells_rotate]
    exact h.order
  · rw [← h.keys i]
    simp
  · have hxt : x ≠ w.t := fun heq => hx (heq ▸ mem_cons_of_mem _ ht)
    have hxc : x ≠ c := fun heq => hx (heq ▸ mem_cons_of_mem _ hc)
    rw [← h.frame x hx]
    exact (NodeBuffer.setChild_of_ne _ _ _ hxc).trans (NodeBuffer.setChild_of_ne _ _ _ hxt)

theorem turn (h : Walking k₀ nodes key w S T) (ht0 : w.t ≠ 0) (hsort : Ascending k₀ nodes)
    (hbd : ∀ i ∈ 0 :: nodes, i < bound) (ht : Passes key d (k₀ w.t).key) :
    (∃ w', SplayMap.turn bound key d w = .inl w' ∧
      ∃ n < T.inorder.length, GoesOn k₀ nodes key n w') ∨
    ∃ r, SplayMap.turn bound key d w = .inr r ∧ Stops k₀ nodes key r := by
  obtain ⟨near, far, rfl⟩ := h.zipped.focus.exists_branch ht0 d
  have hlen : (branch d near w.t far).inorder.length =
      near.inorder.length + far.inorder.length + 1 := by
    rw [(inorder_branch_perm d near w.t far).length_eq]
    simp
  obtain ⟨-, -, hnear, -⟩ := rep_branch.mp h.zipped.focus
  by_cases hc : w.kBuff.child w.t d = 0
  · rw [hc] at hnear
    obtain rfl := hnear.eq_nil
    exact .inr ⟨_, if_pos hc, h.stops ht⟩
  obtain ⟨A, X, rfl⟩ := hnear.exists_branch hc d
  have hlengthNear := (inorder_branch_perm d A (w.kBuff.child w.t d) X).length_eq
  simp only [length_cons, length_append] at hlengthNear
  have hmem : w.kBuff.child w.t d ∈ nodes := by
    refine h.focus_mem ((inorder_branch_perm d _ _ far).mem_iff.mpr ?_)
    refine mem_cons_of_mem _ (mem_append_left _ ?_)
    exact (inorder_branch_perm d A _ X).mem_iff.mpr (mem_cons_self ..)
  have hcbou : ¬ ¬ w.kBuff.child w.t d < bound :=
    not_not.mpr (hbd _ (mem_cons_of_mem _ hmem))
  rw [SplayMap.turn, if_neg hc, if_neg hcbou]
  by_cases hpass : Passes key d (w.kBuff (w.kBuff.child w.t d)).key
  · -- zig-zig: the child is lifted above the focus before the walk goes on
    rw [if_pos hpass]
    have hrot := h.rotate
    rw [h.keys] at hpass
    dsimp only
    split_ifs with hend
    · refine .inr ⟨_, rfl, ?_⟩
      have hA := (rep_branch.mp hrot.zipped.focus).2.2.1
      rw [hend] at hA
      obtain rfl := hA.eq_nil
      exact hrot.stops hpass
    · obtain ⟨w', hw', hgo⟩ := hrot.link hsort hbd hpass hend
      exact .inl ⟨w', hw', _, by omega, hgo⟩
  · rw [if_neg hpass]
    obtain ⟨w', hw', hgo⟩ := h.link hsort hbd ht hc
    exact .inl ⟨w', hw', _, by omega, hgo⟩

end Walking

/-- **One round of the loop** settles or goes on with a smaller focus. -/
theorem splayStep_spec {k₀ : NodeBuffer κ} {key : κ} {bound : ℕ} (hsort : Ascending k₀ nodes)
    (hbd : ∀ i ∈ 0 :: nodes, i < bound) (n : ℕ) (w : Walk κ) (h : GoesOn k₀ nodes key n w) :
    (∃ w', splayStep bound key w = .inl w' ∧ ∃ n' < n, GoesOn k₀ nodes key n' w') ∨
    ∃ r, splayStep bound key w = .inr r ∧ Stops k₀ nodes key r := by
  obtain ⟨S, T, hwalk, ht0, rfl⟩ := h
  obtain ⟨A, B, hT⟩ := hwalk.zipped.focus.exists_branch ht0 .left
  have ht : w.t ∈ nodes := hwalk.focus_mem (by simp [hT, branch])
  rw [splayStep, if_neg (not_not.mpr (hbd _ (mem_cons_of_mem _ ht))), hwalk.keys]
  split_ifs with hlt hgt
  · exact hwalk.turn (d := .left) ht0 hsort hbd hlt
  · exact hwalk.turn (d := .right) ht0 hsort hbd hgt
  · subst hT
    exact .inr ⟨_, rfl, true, w, S, A, B, rfl, hwalk, le_antisymm (not_lt.mp hlt) (not_lt.mp hgt)⟩

/-! ## Assembly and the whole splay -/

omit [LinearOrder κ] in
theorem rep_assemble {w : Walk κ} {S : Side → List (ℕ × BinTree ℕ)}
    (h : Zipped w.kBuff.child w.tail w.t S (.node A w.t B)) :
    Rep (assemble w).child w.t (Zipped.assembled S A w.t B) := by
  have ht0 : w.t ≠ 0 := h.focus.2.1
  have htail : w.t ≠ w.tail .right := h.ne_tail (by simp) .right
  have hsnd : (w.kBuff.setChild (w.tail .right) .right (w.kBuff.child w.t .left)).child w.t .right =
      w.kBuff.child w.t .right := by
    rw [NodeBuffer.setChild_child, Links.set_of_ne_cell _ _ _ htail]
  refine h.assemble rfl ?_ ?_ fun x hxt hx0 => ?_
  · simp only [assemble, NodeBuffer.setChild_child, hsnd]
    rw [Links.set_of_ne_cell _ _ _ ht0, Links.set_of_ne_cell _ _ _ ht0,
      Links.set_of_ne _ _ (by simp), Links.set_self]
  · simp only [assemble, NodeBuffer.setChild_child, hsnd]
    rw [Links.set_of_ne_cell _ _ _ ht0, Links.set_of_ne_cell _ _ _ ht0, Links.set_self,
      Links.set_of_ne_cell _ _ _ (Ne.symm ht0)]
  · simp only [assemble, NodeBuffer.setChild_child, hsnd]
    rw [Links.set_of_ne_cell _ _ _ hx0, Links.set_of_ne_cell _ _ _ hx0,
      Links.set_of_ne_cell _ _ _ hxt, Links.set_of_ne_cell _ _ _ hxt]

omit [LinearOrder κ] in
@[simp]
theorem assemble_key (w : Walk κ) (x : ℕ) : (assemble w x).key = (w.kBuff x).key := by
  simp [assemble]

omit [LinearOrder κ] in
theorem assemble_of_ne (w : Walk κ) (ht : x ≠ w.t) (htail : ∀ d, x ≠ w.tail d) (hx0 : x ≠ 0) :
    assemble w x = w.kBuff x := by
  simp only [assemble]
  rw [NodeBuffer.setChild_of_ne _ _ _ hx0, NodeBuffer.setChild_of_ne _ _ _ hx0,
    NodeBuffer.setChild_of_ne _ _ _ ht, NodeBuffer.setChild_of_ne _ _ _ ht,
    NodeBuffer.setChild_of_ne _ _ _ (htail _), NodeBuffer.setChild_of_ne _ _ _ (htail _)]

/-- The outcome of splaying the nodes of a tree for a key: the same nodes below the root `r`, with
the subtrees `A` and `B`. -/
structure Splayed (k : NodeBuffer κ) (nodes : List ℕ) (key : κ) (ret : Bool) (k' : NodeBuffer κ)
    (r : ℕ) (A B : BinTree ℕ) : Prop where
  rep : Rep k'.child r (.node A r B)
  order : (BinTree.node A r B).inorder = nodes
  keys : ∀ i, (k' i).key = (k i).key
  frame : ∀ x, x ∉ 0 :: nodes → k' x = k x
  found : ret = true → (k r).key = key
  missed : ret = false → ∃ d near far, BinTree.node A r B = branch d near r far ∧
    Passes key d (k r).key ∧ ∀ i ∈ near.inorder, Passes key d.other (k i).key

theorem Splayed.of_walking {k : NodeBuffer κ} {key : κ} {w : Walk κ}
    {S : Side → List (ℕ × BinTree ℕ)} {ret : Bool} (h : Walking k nodes key w S (.node A w.t B))
    (hsett : Settled k key ret A w.t B) :
    Splayed k nodes key ret (assemble w) w.t (hang .right (S .right) A)
      (hang .left (S .left) B) where
  rep := rep_assemble h.zipped
  order := (Zipped.inorder_assembled S A B w.t).trans h.order
  keys i := (assemble_key w i).trans (h.keys i)
  frame x hx := by
    refine (assemble_of_ne w ?_ ?_ ?_).trans (h.frame x hx)
    · rintro rfl
      exact hx (mem_cons_of_mem _ (h.focus_mem (by simp)))
    · rintro d rfl
      exact hx (h.tail_mem d)
    · rintro rfl
      exact hx (mem_cons_self ..)
  found hret := by
    subst hret
    exact hsett
  missed hret := by
    subst hret
    -- the subtree on the side of the key is the spine that was passed, with nothing in its hole
    rcases hsett with ⟨hlt, rfl⟩ | ⟨hlt, rfl⟩
    · refine ⟨.left, _, _, rfl, hlt, fun i hi => h.passed .right i ?_⟩
      exact (inorder_hang_perm _ _).mem_iff.mp hi
    · refine ⟨.right, _, _, rfl, hlt, fun i hi => h.passed .left i ?_⟩
      exact (inorder_hang_perm _ _).mem_iff.mp hi

theorem Passes.ne {key k : κ} (h : Passes key d k) : k ≠ key := by
  cases d with
  | left => exact ne_of_gt h
  | right => exact ne_of_lt h

theorem Splayed.key_ne {k : NodeBuffer κ} {key : κ} {k' : NodeBuffer κ} {r : ℕ}
    (h : Splayed k nodes key false k' r A B) (hsort : Ascending k nodes) :
    ∀ i ∈ nodes, (k i).key ≠ key := by
  obtain ⟨d, near, far, hT, hr, hnear⟩ := h.missed rfl
  rw [← h.order, hT] at hsort ⊢
  intro i hi
  rw [(inorder_branch_perm d near r far).mem_iff, mem_cons, mem_append] at hi
  rcases hi with rfl | hi | hi
  · exact hr.ne
  · exact (hnear i hi).ne
  · exact (passes_far hsort hr i hi).ne

theorem length_le_of_lt {xs : List ℕ} {bound : ℕ} (hnd : xs.Nodup) (h : ∀ i ∈ xs, i < bound) :
    xs.length ≤ bound := by
  have hsub : xs ⊆ range bound := fun i hi => mem_range.mpr (h i hi)
  simpa using (subperm_of_subset hnd hsub).length_le

/-- **Correctness of `splay`**: on a search tree whose nodes lie in the buffer it ends, keeps the
nodes and their order, and leaves at the root the node with the key, if there is one, and otherwise
a neighbour of the key. -/
theorem splay_spec {k : NodeBuffer κ} {root bound : ℕ} {T : BinTree ℕ} (hrep : Rep k.child root T)
    (hroot : root ≠ 0) (hsort : Ascending k T.inorder)
    (hbd : ∀ i ∈ 0 :: T.inorder, i < bound) (key : κ) :
    ∃ ret k' r A B, splay bound k key root = some (ret, k', r) ∧
      Splayed k T.inorder key ret k' r A B := by
  have hstart : GoesOn k T.inorder key T.inorder.length
      { kBuff := k, tail := fun _ => 0, t := root } := by
    refine ⟨fun _ => [], T, ⟨Zipped.start hrep hsort.nodup, Zipped.orderedCells_start,
      fun _ => rfl, fun _ _ => rfl, ?_⟩, hroot, rfl⟩
    intro d x hx
    simp at hx
  obtain ⟨r, hloop, ret, w, S, A, B, rfl, hwalk, hsett⟩ :=
    loop_of_variant (splayStep_spec hsort hbd) hstart
  have hroun : T.inorder.length + 1 ≤ bound :=
    length_le_of_lt (nodup_cons.mpr ⟨hrep.zero_notMem, hsort.nodup⟩) hbd
  have hlast : w.t < bound ∧ w.tail .left < bound ∧ w.tail .right < bound :=
    ⟨hbd _ (mem_cons_of_mem _ (hwalk.focus_mem (by simp))),
      hbd _ (hwalk.tail_mem .left), hbd _ (hwalk.tail_mem .right)⟩
  refine ⟨ret, assemble w, w.t, _, _, ?_, Splayed.of_walking hwalk hsett⟩
  rw [splay, if_neg hroot, loop_eq_some_of_le hloop hroun]
  exact if_pos hlast

end SplayMap

end TraceHarbor.Hooks
