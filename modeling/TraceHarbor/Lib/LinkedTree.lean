import Mathlib

/-!
# Binary Trees in Linked Cells

A link table gives every cell a left and a right successor; cell `0` is the null pointer. `Rep m p T`
says that the pointer `p` represents the tree `T`. A top-down walk takes a tree apart on the way to a
cell: `Zipped m tail t S T` says that the part still in focus hangs at `t`, and that the cells passed on
either side form spines hanging off cell `0`.

Everything is stated for a side `d : Side`, so that a mirrored pair of updates is one lemma.
-/

namespace TraceHarbor.Lib

open List Function

/-! ## Sides -/

/-- The two sides of a binary node. -/
inductive Side where
  | left
  | right
  deriving DecidableEq, Repr

namespace Side

/-- The opposite side. -/
def other : Side → Side
  | left => right
  | right => left

@[simp]
theorem other_ne (d : Side) : d.other ≠ d := by cases d <;> decide

theorem eq_or_eq_other (d e : Side) : e = d ∨ e = d.other := by
  cases d <;> cases e <;> simp [other]

end Side

/-! ## Trees and their in-order sequence -/

/-- Binary trees with labels at the inner nodes. -/
inductive BinTree (α : Type*) where
  | nil
  | node (l : BinTree α) (a : α) (r : BinTree α)

namespace BinTree

variable {α : Type*}

/-- The labels from left to right. -/
def inorder : BinTree α → List α
  | nil => []
  | node l a r => l.inorder ++ a :: r.inorder

@[simp]
theorem inorder_nil : (nil : BinTree α).inorder = [] := rfl

@[simp]
theorem inorder_node (l : BinTree α) (a : α) (r : BinTree α) :
    (node l a r).inorder = l.inorder ++ a :: r.inorder := rfl

theorem eq_nil_of_inorder {T : BinTree α} (h : T.inorder = []) : T = nil := by
  cases T with
  | nil => rfl
  | node l a r => simp at h

/-- The node with the subtree `near` on side `d` and `far` on the other. -/
def branch (d : Side) (near : BinTree α) (a : α) (far : BinTree α) : BinTree α :=
  match d with
  | .left => node near a far
  | .right => node far a near

theorem inorder_branch_perm (d : Side) (near : BinTree α) (a : α) (far : BinTree α) :
    (branch d near a far).inorder.Perm (a :: (near.inorder ++ far.inorder)) := by
  cases d with
  | left => exact perm_middle
  | right => exact perm_middle.trans (perm_append_comm.cons a)

/-- Rotating the child on side `d` above its parent keeps the in-order sequence. -/
theorem inorder_rotate (d : Side) (A X B : BinTree α) (c t : α) :
    (branch d A c (branch d X t B)).inorder = (branch d (branch d A c X) t B).inorder := by
  cases d <;> simp [branch]

/-- A spine of nodes along side `d`, each with its subtree on the other side, above a hole. -/
def hang (d : Side) : List (α × BinTree α) → BinTree α → BinTree α
  | [], hole => hole
  | (a, far) :: spine, hole => branch d (hang d spine hole) a far

/-- The labels of a spine and of its subtrees. -/
def spineLabels (S : List (α × BinTree α)) : List α := S.flatMap fun cell => cell.1 :: cell.2.inorder

@[simp]
theorem spineLabels_nil : spineLabels ([] : List (α × BinTree α)) = [] := rfl

@[simp]
theorem spineLabels_cons (a : α) (far : BinTree α) (S : List (α × BinTree α)) :
    spineLabels ((a, far) :: S) = a :: (far.inorder ++ spineLabels S) := rfl

theorem spineLabels_append (S S' : List (α × BinTree α)) :
    spineLabels (S ++ S') = spineLabels S ++ spineLabels S' := by
  simp [spineLabels]

theorem hang_append (d : Side) (S S' : List (α × BinTree α)) (hole : BinTree α) :
    hang d (S ++ S') hole = hang d S (hang d S' hole) := by
  induction S with
  | nil => rfl
  | cons cell S ih => rw [cons_append, hang, ih, hang]

theorem inorder_hang_right (S : List (α × BinTree α)) (hole : BinTree α) :
    (hang .right S hole).inorder = (hang .right S nil).inorder ++ hole.inorder := by
  induction S with
  | nil => rfl
  | cons cell S ih => simp [hang, branch, ih]

theorem inorder_hang_left (S : List (α × BinTree α)) (hole : BinTree α) :
    (hang .left S hole).inorder = hole.inorder ++ (hang .left S nil).inorder := by
  induction S with
  | nil => simp [hang]
  | cons cell S ih => simp [hang, branch, ih]

theorem inorder_hang_perm (d : Side) (S : List (α × BinTree α)) :
    (hang d S nil).inorder.Perm (spineLabels S) := by
  induction S with
  | nil => exact .nil
  | cons cell S ih =>
    refine (inorder_branch_perm d _ _ _).trans (List.Perm.cons _ ?_)
    exact perm_append_comm.trans (ih.append_left _)

end BinTree

open BinTree

/-! ## Link tables -/

/-- The successor of every cell on either side. -/
abbrev Links := ℕ → Side → ℕ

variable {p x : ℕ} {d : Side}

namespace Links

/-- The table with one successor replaced. -/
def set (m : Links) (p : ℕ) (d : Side) (v : ℕ) : Links :=
  fun x e => if x = p ∧ e = d then v else m x e

@[simp]
theorem set_self (m : Links) (p : ℕ) (d : Side) (v : ℕ) : m.set p d v p d = v := if_pos ⟨rfl, rfl⟩

theorem set_of_ne (m : Links) {e : Side} (v : ℕ) (h : ¬ (x = p ∧ e = d)) :
    m.set p d v x e = m x e := if_neg h

theorem set_of_ne_cell (m : Links) (d : Side) (v : ℕ) (h : x ≠ p) : m.set p d v x = m x :=
  funext fun _ => set_of_ne m v fun hx => h hx.1

end Links

/-- The pointer `p` represents the tree: its labels are the cells. -/
def Rep (m : Links) : ℕ → BinTree ℕ → Prop
  | p, .nil => p = 0
  | p, .node l i r => p = i ∧ i ≠ 0 ∧ Rep m (m i .left) l ∧ Rep m (m i .right) r

/-- A list linked along one side. -/
def RepList (m : Links) (d : Side) : ℕ → List ℕ → Prop
  | p, [] => p = 0
  | p, i :: rest => p = i ∧ i ≠ 0 ∧ RepList m d (m i d) rest

/-- A spine along side `d` that starts below `p` and whose last cell is `q`; what `q` points to
on side `d` is left open. -/
def Spine (m : Links) (d : Side) : ℕ → List (ℕ × BinTree ℕ) → ℕ → Prop
  | p, [], q => q = p
  | p, (i, far) :: S, q => m p d = i ∧ i ≠ 0 ∧ Rep m (m i d.other) far ∧ Spine m d i S q

section Represent

variable {m m' : Links}

theorem rep_branch {i : ℕ} {near far : BinTree ℕ} :
    Rep m p (branch d near i far) ↔ p = i ∧ i ≠ 0 ∧ Rep m (m i d) near ∧ Rep m (m i d.other) far := by
  cases d with
  | left => rfl
  | right =>
    show (p = i ∧ i ≠ 0 ∧ Rep m (m i .left) far ∧ Rep m (m i .right) near) ↔ _
    rw [and_comm (a := Rep m (m i .left) far)]
    rfl

variable {T : BinTree ℕ}

/-- Seen from either side, a non-null pointer represents a branch. -/
theorem Rep.exists_branch (h : Rep m p T) (hp : p ≠ 0) (d : Side) :
    ∃ near far, T = branch d near p far := by
  cases T with
  | nil => exact absurd h hp
  | node l i r =>
    obtain ⟨rfl, -, -, -⟩ := h
    cases d with
    | left => exact ⟨l, r, rfl⟩
    | right => exact ⟨r, l, rfl⟩

theorem Rep.eq_nil (h : Rep m 0 T) : T = .nil := by
  cases T with
  | nil => rfl
  | node l i r => exact absurd h.1.symm h.2.1

theorem Rep.zero_notMem (h : Rep m p T) : 0 ∉ T.inorder := by
  induction T generalizing p with
  | nil => simp
  | node l i r ihl ihr =>
    obtain ⟨-, hi, hl, hr⟩ := h
    simp only [inorder_node, mem_append, mem_cons, not_or]
    exact ⟨ihl hl, Ne.symm hi, ihr hr⟩

theorem Rep.congr (hsame : ∀ i ∈ T.inorder, m' i = m i) (h : Rep m p T) : Rep m' p T := by
  induction T generalizing p with
  | nil => exact h
  | node l i r ihl ihr =>
    obtain ⟨rfl, hi, hl, hr⟩ := h
    have hcell : m' p = m p := hsame p (by simp)
    refine ⟨rfl, hi, ?_, ?_⟩
    · rw [hcell]
      exact ihl (fun j hj => hsame j (by simp [hj])) hl
    · rw [hcell]
      exact ihr (fun j hj => hsame j (by simp [hj])) hr

theorem RepList.congr {xs : List ℕ} (hsame : ∀ i ∈ xs, m' i = m i) (h : RepList m d p xs) :
    RepList m' d p xs := by
  induction xs generalizing p with
  | nil => exact h
  | cons i xs ih =>
    obtain ⟨rfl, hi, hrest⟩ := h
    refine ⟨rfl, hi, ?_⟩
    rw [hsame p (mem_cons_self ..)]
    exact ih (fun j hj => hsame j (mem_cons_of_mem _ hj)) hrest

variable {S : List (ℕ × BinTree ℕ)}

/-- The last cell of a spine is its start or one of its labels. -/
theorem Spine.last_mem {q : ℕ} (h : Spine m d p S q) : q ∈ p :: spineLabels S := by
  induction S generalizing p with
  | nil =>
    cases h
    exact mem_cons_self ..
  | cons cell S ih =>
    obtain ⟨i, far⟩ := cell
    obtain ⟨-, -, -, hrest⟩ := h
    have hq := ih hrest
    simp only [spineLabels_cons, mem_cons, mem_append] at hq ⊢
    tauto

/-- A spine does not read the open link of its last cell. -/
theorem Spine.congr {q : ℕ} (h : Spine m d p S q) (hnd : (p :: spineLabels S).Nodup)
    (hsame : ∀ x e, (x = p ∧ e = d) ∨ x ∈ spineLabels S → ¬ (x = q ∧ e = d) → m' x e = m x e) :
    Spine m' d p S q := by
  induction S generalizing p with
  | nil => exact h
  | cons cell S ih =>
    obtain ⟨i, far⟩ := cell
    obtain ⟨hp, hi, hfar, hrest⟩ := h
    have hq := hrest.last_mem
    simp only [spineLabels_cons, nodup_cons, mem_cons, mem_append, not_or,
      nodup_append] at hnd hq hsame
    obtain ⟨⟨hpi, hpfar, hpS⟩, ⟨hifar, hiS⟩, hfarNodup, hSNodup, hdisj⟩ := hnd
    have hpq : p ≠ q := by
      rintro rfl
      rcases hq with rfl | hq
      · exact hpi rfl
      · exact hpS hq
    have hqfar : ∀ x ∈ far.inorder, x ≠ q := by
      rintro x hx rfl
      rcases hq with rfl | hq
      · exact hifar hx
      · exact hdisj x hx x hq rfl
    refine ⟨?_, hi, ?_, ?_⟩
    · rw [hsame p d (.inl ⟨rfl, rfl⟩) fun hx => hpq hx.1, hp]
    · rw [hsame i d.other (.inr (.inl rfl)) fun hx => Side.other_ne d hx.2]
      refine hfar.congr fun x hx => funext fun e => ?_
      exact hsame x e (.inr (.inr (.inl hx))) fun hxq => hqfar x hx hxq.1
    · refine ih hrest (nodup_cons.mpr ⟨hiS, hSNodup⟩) fun x e hx hxq => ?_
      rcases hx with ⟨rfl, rfl⟩ | hx
      · exact hsame x e (.inr (.inl rfl)) hxq
      · exact hsame x e (.inr (.inr (.inr hx))) hxq

theorem Spine.append {q t : ℕ} {far : BinTree ℕ} (h : Spine m d p S q) (hlink : m q d = t)
    (ht : t ≠ 0) (hfar : Rep m (m t d.other) far) : Spine m d p (S ++ [(t, far)]) t := by
  induction S generalizing p with
  | nil =>
    cases h
    exact ⟨hlink, ht, hfar, rfl⟩
  | cons cell S ih =>
    obtain ⟨hp, hi, hcell, hrest⟩ := h
    exact ⟨hp, hi, hcell, ih hrest⟩

/-- Filling the open link of a spine gives the tree hanging from its start. -/
theorem Spine.rep_hang {q : ℕ} {hole : BinTree ℕ} (h : Spine m d p S q) (hhole : Rep m (m q d)
      hole) :
    Rep m (m p d) (hang d S hole) := by
  induction S generalizing p with
  | nil =>
    cases h
    exact hhole
  | cons cell S ih =>
    obtain ⟨hp, hi, hfar, hrest⟩ := h
    exact rep_branch.mpr ⟨hp, hi, ih hrest, hfar⟩

end Represent

/-! ## The top-down walk -/

/-- All cells of the two spines and of the focus. -/
def cells (S : Side → List (ℕ × BinTree ℕ)) (T : BinTree ℕ) : List ℕ :=
  spineLabels (S .left) ++ spineLabels (S .right) ++ T.inorder

/-- The cells in order. The spine along the right side holds what lies left of the focus. -/
def orderedCells (S : Side → List (ℕ × BinTree ℕ)) (T : BinTree ℕ) : List ℕ :=
  (hang .right (S .right) .nil).inorder ++ T.inorder ++ (hang .left (S .left) .nil).inorder

theorem orderedCells_perm (S : Side → List (ℕ × BinTree ℕ)) (T : BinTree ℕ) :
    (orderedCells S T).Perm (cells S T) := by
  rw [cells]
  refine perm_append_comm.trans ?_
  rw [append_assoc]
  exact (inorder_hang_perm _ _).append ((inorder_hang_perm _ _).append_right _)

theorem cells_perm (S : Side → List (ℕ × BinTree ℕ)) (T : BinTree ℕ) (d : Side) :
    (cells S T).Perm (spineLabels (S d) ++ (spineLabels (S d.other) ++ T.inorder)) := by
  cases d with
  | left => simp [cells, Side.other]
  | right =>
    rw [← append_assoc]
    exact perm_append_comm.append_right _

/-- The table holds two spines below cell `0`, with last cells `tail`, and the focus at `t`. -/
structure Zipped (m : Links) (tail : Side → ℕ) (t : ℕ) (S : Side → List (ℕ × BinTree ℕ))
    (T : BinTree ℕ) : Prop where
  focus : Rep m t T
  spine : ∀ d, Spine m d 0 (S d) (tail d)
  nodup : (0 :: cells S T).Nodup

namespace Zipped

variable {m : Links} {tail : Side → ℕ} {t : ℕ} {S : Side → List (ℕ × BinTree ℕ)} {T : BinTree ℕ}

theorem start (h : Rep m t T) (hnd : T.inorder.Nodup) :
    Zipped m (fun _ => 0) t (fun _ => []) T where
  focus := h
  spine _ := rfl
  nodup := nodup_cons.mpr ⟨by simpa [cells] using h.zero_notMem, by simpa [cells] using hnd⟩

theorem orderedCells_start : orderedCells (fun _ => []) T = T.inorder := by
  simp [orderedCells, hang]

section

variable (h : Zipped m tail t S T)

include h

theorem nodup_side (d : Side) :
    (0 :: (spineLabels (S d) ++ (spineLabels (S d.other) ++ T.inorder))).Nodup :=
  ((cells_perm S T d).cons 0).nodup_iff.mp h.nodup

theorem nodup_spine (d : Side) : (0 :: spineLabels (S d)).Nodup := by
  have hnd := h.nodup_side d
  rw [← cons_append, nodup_append] at hnd
  exact hnd.1

theorem tail_mem (d : Side) : tail d ∈ 0 :: cells S T := by
  have hmem := (h.spine d).last_mem
  simp only [mem_cons] at hmem ⊢
  refine hmem.imp_right fun hlab => (cells_perm S T d).mem_iff.mpr ?_
  exact mem_append_left _ hlab

theorem notMem_spine (hx : x ∈ T.inorder) (d : Side) : x ∉ 0 :: spineLabels (S d) := by
  have hnd := h.nodup_side d
  rw [← cons_append, nodup_append] at hnd
  intro hmem
  exact hnd.2.2 x hmem x (mem_append_right _ hx) rfl

theorem ne_tail (hx : x ∈ T.inorder) (d : Side) : x ≠ tail d := by
  rintro rfl
  exact h.notMem_spine hx d (h.spine d).last_mem

theorem notMem_other (hx : x ∈ spineLabels (S d)) : x ∉ spineLabels (S d.other) := by
  have hnd := (nodup_cons.mp (h.nodup_side d)).2
  rw [nodup_append] at hnd
  intro hmem
  exact hnd.2.2 x hx x (mem_append_left _ hmem) rfl

/-- A table that agrees with `m` outside the focus and the open links still holds the spines. -/
theorem spine_congr {m' : Links} (d : Side)
    (hsame : ∀ x e, x ∉ T.inorder → (∀ c, ¬ (x = tail c ∧ e = c)) → m' x e = m x e) :
    Spine m' d 0 (S d) (tail d) := by
  refine (h.spine d).congr (h.nodup_spine d) fun x e hx hopen => ?_
  have hmem : x ∈ 0 :: spineLabels (S d) := by
    rcases hx with ⟨rfl, -⟩ | hx
    · exact mem_cons_self ..
    · exact mem_cons_of_mem _ hx
  refine hsame x e (fun hfoc => h.notMem_spine hfoc d hmem) fun c hc => ?_
  obtain ⟨hxc, rfl⟩ := hc
  -- The open link of the other spine lies on the other side of cell 0 or in a cell of that spine.
  rcases Side.eq_or_eq_other d e with rfl | rfl
  · exact hopen ⟨hxc, rfl⟩
  · rcases hx with ⟨-, hside⟩ | hx
    · exact Side.other_ne d hside
    · have hlast := (h.spine d.other).last_mem
      rw [← hxc, mem_cons] at hlast
      rcases hlast with rfl | hlast
      · exact (nodup_cons.mp (h.nodup_spine d)).1 hx
      · exact h.notMem_other hx hlast

end

/-- **Rotation**: the child on side `d` is lifted above the focus. -/
theorem rotate {A X B : BinTree ℕ} {c : ℕ} (h : Zipped m tail t S (branch d (branch d A c X) t B)) :
    Zipped ((m.set t d (m c d.other)).set c d.other t) tail c S (branch d A c (branch d X t B)) := by
  have hperm := (inorder_branch_perm d (branch d A c X) t B).trans
    (((inorder_branch_perm d A c X).append_right B.inorder).cons t)
  have hmem : ∀ x, x ∈ (branch d (branch d A c X) t B).inorder ↔
      x = t ∨ x = c ∨ x ∈ A.inorder ∨ x ∈ X.inorder ∨ x ∈ B.inorder := by
    intro x
    rw [hperm.mem_iff]
    simp
  have hnd : (t :: ((c :: (A.inorder ++ X.inorder)) ++ B.inorder)).Nodup := by
    rw [← hperm.nodup_iff]
    have hcells := (nodup_cons.mp h.nodup).2
    rw [cells, nodup_append] at hcells
    exact hcells.2.1
  simp only [cons_append, nodup_cons, mem_cons, mem_append, not_or] at hnd
  obtain ⟨⟨htc, htAX, htB⟩, ⟨hcAX, hcB⟩, -⟩ := hnd
  generalize hm' : (m.set t d (m c d.other)).set c d.other t = m'
  have hfr : ∀ x, x ≠ t → x ≠ c → m' x = m x := by
    intro x hxt hxc
    rw [← hm', Links.set_of_ne_cell _ _ _ hxc, Links.set_of_ne_cell _ _ _ hxt]
  have htd : m' t d = m c d.other := by
    rw [← hm', Links.set_of_ne_cell _ _ _ htc, Links.set_self]
  have hto : m' t d.other = m t d.other := by
    rw [← hm', Links.set_of_ne_cell _ _ _ htc, Links.set_of_ne _ _ (by simp)]
  have hco : m' c d.other = t := by rw [← hm', Links.set_self]
  have hcd : m' c d = m c d := by
    rw [← hm', Links.set_of_ne _ _ (by simp [Side.other_ne d |>.symm]),
      Links.set_of_ne_cell _ _ _ (Ne.symm htc)]
  have hkeep : ∀ {p Y}, t ∉ Y.inorder → c ∉ Y.inorder → Rep m p Y → Rep m' p Y := fun ht hc hY =>
    hY.congr fun x hx => hfr x (ne_of_mem_of_not_mem hx ht) (ne_of_mem_of_not_mem hx hc)
  obtain ⟨-, ht0, hc, hB⟩ := rep_branch.mp h.focus
  obtain ⟨hcm, hc0, hA, hX⟩ := rep_branch.mp hc
  refine ⟨?_, fun e => ?_, ?_⟩
  · refine rep_branch.mpr ⟨rfl, hc0, ?_, rep_branch.mpr ⟨hco, ht0, ?_, ?_⟩⟩
    · rw [hcd]
      exact hkeep htAX.1 hcAX.1 hA
    · rw [htd]
      exact hkeep htAX.2 hcAX.2 hX
    · rw [hto]
      exact hkeep htB hcB hB
  · refine h.spine_congr e fun x e' hx _ => ?_
    rw [hmem, not_or, not_or] at hx
    rw [hfr x hx.1 hx.2.1]
  · have hcells : cells S (branch d A c (branch d X t B)) =
        cells S (branch d (branch d A c X) t B) := by
      rw [cells, inorder_rotate, cells]
    rw [hcells]
    exact h.nodup

theorem orderedCells_rotate (S : Side → List (ℕ × BinTree ℕ)) (d : Side) (A X B : BinTree ℕ)
    (c t : ℕ) :
    orderedCells S (branch d A c (branch d X t B)) = orderedCells S (branch d (branch d A c X) t B) := by
  rw [orderedCells, inorder_rotate, orderedCells]

/-- **Link**: the focus joins the spine on side `d` and the walk goes on to its child there. -/
theorem link {near far : BinTree ℕ} (h : Zipped m tail t S (branch d near t far)) :
    Zipped (m.set (tail d) d t) (update tail d t) (m t d)
      (update S d (S d ++ [(t, far)])) near := by
  have hmem : ∀ x, x ∈ (branch d near t far).inorder ↔
      x = t ∨ x ∈ near.inorder ∨ x ∈ far.inorder := by
    intro x
    rw [(inorder_branch_perm d near t far).mem_iff]
    simp
  obtain ⟨-, ht0, hnear, hfar⟩ := rep_branch.mp h.focus
  have hfr : ∀ x ∈ (branch d near t far).inorder, m.set (tail d) d t x = m x :=
    fun x hx => Links.set_of_ne_cell _ _ _ (h.ne_tail hx d)
  have hspine : ∀ e, Spine (m.set (tail d) d t) e 0 (S e) (tail e) :=
    fun e => h.spine_congr e fun x e' _ hopen => Links.set_of_ne _ _ (hopen d)
  refine ⟨?_, fun e => ?_, ?_⟩
  · exact hnear.congr fun x hx => hfr x ((hmem x).mpr (.inr (.inl hx)))
  · rcases Side.eq_or_eq_other d e with rfl | rfl
    · rw [update_self, update_self]
      refine (hspine e).append (Links.set_self ..) ht0 ?_
      rw [hfr t ((hmem t).mpr (.inl rfl))]
      exact hfar.congr fun x hx => hfr x ((hmem x).mpr (.inr (.inr hx)))
    · rw [update_of_ne (Side.other_ne d), update_of_ne (Side.other_ne d)]
      exact hspine d.other
  · have hperm : (cells (update S d (S d ++ [(t, far)])) near).Perm
        (cells S (branch d near t far)) := by
      refine (cells_perm _ near d).trans (List.Perm.trans ?_ (cells_perm S _ d).symm)
      rw [update_self, update_of_ne (Side.other_ne d), spineLabels_append,
        append_assoc]
      refine List.Perm.append_left _ ?_
      refine List.Perm.trans ?_ ((inorder_branch_perm d near t far).append_left _).symm
      simp only [spineLabels_cons, spineLabels_nil, append_nil, cons_append]
      refine List.Perm.trans ?_ perm_middle.symm
      refine List.Perm.cons t ?_
      rw [← append_assoc (spineLabels (S d.other))]
      exact perm_append_comm
    exact (hperm.cons 0).nodup_iff.mpr h.nodup

theorem orderedCells_link (S : Side → List (ℕ × BinTree ℕ)) (d : Side) (near far : BinTree ℕ) (t : ℕ) :
    orderedCells (update S d (S d ++ [(t, far)])) near =
      orderedCells S (branch d near t far) := by
  cases d with
  | left =>
    rw [orderedCells, orderedCells, update_self, hang_append,
      inorder_hang_left (S .left)]
    simp [hang, branch]
  | right =>
    rw [orderedCells, orderedCells, update_self, hang_append,
      inorder_hang_right (S .right)]
    simp [hang, branch]

/-- The tree a walk leaves behind: the spines become the subtrees of the focus. -/
def assembled (S : Side → List (ℕ × BinTree ℕ)) (A : BinTree ℕ) (t : ℕ) (B : BinTree ℕ) :
    BinTree ℕ :=
  .node (hang .right (S .right) A) t (hang .left (S .left) B)

theorem inorder_assembled (S : Side → List (ℕ × BinTree ℕ)) (A B : BinTree ℕ) (t : ℕ) :
    (assembled S A t B).inorder = orderedCells S (.node A t B) := by
  rw [assembled, inorder_node, inorder_hang_right, inorder_hang_left]
  simp [orderedCells]

/-- **Assembly**: the subtrees of the focus fill the open links, and the spines replace them. -/
theorem assemble {A B : BinTree ℕ} (h : Zipped m tail t S (.node A t B)) {m₂ m' : Links}
    (hm₂ : m₂ = (m.set (tail .right) .right (m t .left)).set (tail .left) .left (m t .right))
    (hleft : m' t .left = m₂ 0 .right) (hright : m' t .right = m₂ 0 .left)
    (hfr : ∀ x, x ≠ t → x ≠ 0 → m' x = m₂ x) : Rep m' t (assembled S A t B) := by
  obtain ⟨-, ht0, hA, hB⟩ := h.focus
  have hopenRight : m₂ (tail .right) .right = m t .left := by
    rw [hm₂, Links.set_of_ne _ _ (by simp), Links.set_self]
  have hopenLeft : m₂ (tail .left) .left = m t .right := by rw [hm₂, Links.set_self]
  have hfoc : ∀ x ∈ (BinTree.node A t B).inorder, m₂ x = m x := by
    intro x hx
    rw [hm₂, Links.set_of_ne_cell _ _ _ (h.ne_tail hx _), Links.set_of_ne_cell _ _ _ (h.ne_tail hx _)]
  have hspine : ∀ d, Spine m₂ d 0 (S d) (tail d) := by
    refine fun d => h.spine_congr d fun x e _ hopen => ?_
    rw [hm₂, Links.set_of_ne _ _ (hopen .left), Links.set_of_ne _ _ (hopen .right)]
  have hnd : (assembled S A t B).inorder.Nodup ∧ 0 ∉ (assembled S A t B).inorder := by
    have hcells := h.nodup
    rw [← ((orderedCells_perm S _).cons 0).nodup_iff, ← inorder_assembled, nodup_cons] at hcells
    exact hcells.symm
  have hold : ∀ x ∈ (assembled S A t B).inorder, x ≠ t → m' x = m₂ x :=
    fun x hx hxt => hfr x hxt fun h0 => hnd.2 (h0 ▸ hx)
  rw [assembled, inorder_node, nodup_append, nodup_cons] at hnd
  obtain ⟨⟨-, ⟨htB, -⟩, htA⟩, -⟩ := hnd
  refine ⟨rfl, ht0, ?_, ?_⟩
  · rw [hleft]
    refine Rep.congr (fun x hx => hold x (by simp [assembled, hx]) ?_)
      ((hspine .right).rep_hang ?_)
    · rintro rfl
      exact htA x hx x (mem_cons_self ..) rfl
    · rw [hopenRight]
      exact hA.congr fun x hx => hfoc x (by simp [hx])
  · rw [hright]
    refine Rep.congr (fun x hx => hold x (by simp [assembled, hx]) ?_)
      ((hspine .left).rep_hang ?_)
    · rintro rfl
      exact htB hx
    · rw [hopenLeft]
      exact hB.congr fun x hx => hfoc x (by simp [hx])

end Zipped

end TraceHarbor.Lib
