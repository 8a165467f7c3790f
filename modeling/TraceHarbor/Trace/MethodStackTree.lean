import TraceHarbor.Trace.MethodStackSpec

/-!
# Rebuilding the Tree from Depths

`stackToTree` reads the reverse post-order listing of a forest and must put every node under its own
parent although it only sees depths. The invariant of a row of depth `d` under a parent `P` is `Spine`:
from the last node built, the `father` pointers lead to `P` or to a node of depth `d` whose father is
`P`.
-/

namespace TraceHarbor.Trace

open TraceHarbor.Lib (Forest)
open TraceHarbor.Lib.Forest (nil cons)

namespace Arena

variable {a b : Arena}

@[simp] theorem alloc_next (node : TreeNode) : (a.alloc node).next = a.next + 1 := rfl

@[simp] theorem add_next (p n : ℕ) : (a.add p n).next = a.next := rfl

@[simp] theorem alloc_nodes_self (node : TreeNode) : (a.alloc node).nodes a.next = node := by
  simp [alloc]

theorem alloc_nodes_of_ne {node : TreeNode} {i : ℕ} (h : i ≠ a.next) :
    (a.alloc node).nodes i = a.nodes i := by
  simp [alloc, h]

@[simp] theorem add_nodes_self (p n : ℕ) :
    (a.add p n).nodes p = { a.nodes p with children := n :: (a.nodes p).children } := by
  simp [add]

theorem add_nodes_of_ne {p n i : ℕ} (h : i ≠ p) : (a.add p n).nodes i = a.nodes i := by
  simp [add, h]

/-! ## Walking Up -/

/-- Following `father` from a node leads, past nodes deeper than `d`, to the node given. -/
inductive Up (a : Arena) (d : Int) : ℕ → ℕ → Prop where
  | stop {n : ℕ} : (a.nodes n).depth ≤ d → Up a d n n
  | step {n f x : ℕ} : d < (a.nodes n).depth → (a.nodes n).father = some f → f < n →
      Up a d f x → Up a d n x

theorem Up.walkUp_eq {d : Int} {n x fuel : ℕ} (h : a.Up d n x) (hfuel : n < fuel) :
    a.walkUp d fuel (some n) = some x := by
  induction h generalizing fuel with
  | stop hle =>
    obtain ⟨k, rfl⟩ := Nat.exists_eq_succ_of_ne_zero (Nat.ne_zero_of_lt hfuel)
    simp [walkUp, not_lt.mpr hle]
  | step hlt hfath hf _ ih =>
    obtain ⟨k, rfl⟩ := Nat.exists_eq_succ_of_ne_zero (Nat.ne_zero_of_lt hfuel)
    simp only [walkUp, gt_iff_lt, hlt, if_true, hfath]
    exact ih (by omega)

theorem Up.lower {d : ℕ} {n x p : ℕ} (h : a.Up ((d + 1 : ℕ) : Int) n x)
    (hx : (a.nodes x).depth = ((d + 1 : ℕ) : Int)) (hfath : (a.nodes x).father = some p)
    (hp : p < x) (hdp : (a.nodes p).depth ≤ d) : a.Up d n p := by
  induction h with
  | @stop n hle =>
    exact Up.step (by omega) hfath hp (Up.stop hdp)
  | step hlt hf hfn _ ih =>
    exact Up.step (by omega) hf hfn (ih hx hfath hp)

end Arena

/-- The position from which a row of depth `d` under `P` continues after node `L`. -/
def Spine (a : Arena) (d P L : ℕ) : Prop :=
  (L = P ∧ (a.nodes P).depth + 1 = d) ∨
    ∃ x, a.Up d L x ∧ (a.nodes x).depth = d ∧ (a.nodes x).father = some P ∧ P < x

/-- The nodes `ids`, all in `[lo, hi)` with everything below them, are the forest `f` at depth
`d`. -/
def Reps (a : Arena) (lo hi : ℕ) : ℕ → List ℕ → Forest Folded → Prop
  | _, ids, nil => ids = []
  | d, ids, cons x ch sib => ∃ i rest, ids = i :: rest ∧ lo ≤ i ∧ i < hi ∧
      (a.nodes i).item = some (toItem (d, x)) ∧ Reps a lo hi (d + 1) (a.nodes i).children ch ∧
      Reps a lo hi d rest sib

theorem Reps.of_agree {a b : Arena} {lo hi lo' hi' d : ℕ} {ids : List ℕ} {f : Forest Folded}
    (h : Reps a lo hi d ids f) (hagr : ∀ i, lo ≤ i → i < hi → b.nodes i = a.nodes i)
    (hlo : lo' ≤ lo) (hhi : hi ≤ hi') : Reps b lo' hi' d ids f := by
  induction f generalizing d ids with
  | nil => exact h
  | cons x ch sib ihc ihs =>
    obtain ⟨i, rest, hids, hi1, hi2, hitem, hch, hsib⟩ := h
    refine ⟨i, rest, hids, by omega, by omega, ?_, ?_, ihs hsib⟩
    · rw [hagr i hi1 hi2, hitem]
    · rw [hagr i hi1 hi2]
      exact ihc hch

/-! ## Building One Row -/

theorem buildTree_append (xs ys : List MethodItem) (a : Arena) (l : Option ℕ) :
    buildTree (xs ++ ys) a l = (buildTree xs a l).bind fun st => buildTree ys st.1 st.2 := by
  induction xs generalizing a l with
  | nil => rfl
  | cons x xs ih =>
    simp only [List.cons_append, buildTree]
    cases buildNode a l x with
    | none => rfl
    | some st => exact ih st.1 st.2

theorem buildNode_of_spine {a : Arena} {d P L : ℕ} (item : MethodItem) (hspine : Spine a d P L)
    (hd : 0 < d) (hL : L < a.next) (hitem : item.depth = d) :
    buildNode a (some L) item =
      some ((a.alloc ⟨some item, some P, []⟩).add P a.next, some a.next) := by
  have hd0 : item.depth ≠ 0 := by omega
  rcases hspine with ⟨rfl, hdepth⟩ | ⟨x, hup, hx, hfath, _⟩
  · have hlt : ¬ (a.nodes L).depth ≥ item.depth := by omega
    simp [buildNode, hd0, hlt]
  · have hge : (a.nodes L).depth ≥ item.depth := by
      rw [hitem]
      cases hup with
      | stop _ => exact hx.ge
      | step hlt _ _ _ => exact hlt.le
    have hwalk := hup.walkUp_eq hL
    rw [← hitem] at hwalk
    simp [buildNode, hd0, hge, hwalk, hfath]

/-- What building the forest `f` under `P` does to the arena. -/
structure Extended (a : Arena) (d P : ℕ) (f : Forest Folded) (b : Arena) : Prop where
  next_eq : b.next = a.next + (f.revPostorder d).length
  frame : ∀ i < a.next, i ≠ P → b.nodes i = a.nodes i
  parent_item : (b.nodes P).item = (a.nodes P).item
  parent_father : (b.nodes P).father = (a.nodes P).father
  reps : ∃ ids, (b.nodes P).children = ids ++ (a.nodes P).children ∧
    Reps b a.next b.next d ids f

theorem Extended.refl (a : Arena) (d P : ℕ) : Extended a d P .nil a :=
  ⟨rfl, fun _ _ _ => rfl, rfl, rfl, [], rfl, rfl⟩

theorem nodes_add_alloc {a : Arena} {P : ℕ} (hP : P < a.next) (node : TreeNode) :
    ((a.alloc node).add P a.next).nodes a.next = node := by
  rw [Arena.add_nodes_of_ne hP.ne', Arena.alloc_nodes_self]

theorem Extended.cons {a b₁ b₃ : Arena} {d P : ℕ} {x : Folded} {ch sib : Forest Folded}
    {father : Option ℕ} (hP : P < a.next) (hb₁ : Extended a d P sib b₁)
    (hb₃ : Extended ((b₁.alloc ⟨some (toItem (d, x)), father, []⟩).add P b₁.next) (d + 1) b₁.next
      ch b₃) :
    Extended a d P (.cons x ch sib) b₃ ∧ (b₃.nodes b₁.next).depth = d ∧
      (b₃.nodes b₁.next).father = father := by
  have hP₁ : P < b₁.next := by rw [hb₁.next_eq]; omega
  have hn₂ := nodes_add_alloc hP₁ ⟨some (toItem (d, x)), father, []⟩
  set b₂ := (b₁.alloc ⟨some (toItem (d, x)), father, []⟩).add P b₁.next with hb₂
  have hP₂ : b₂.nodes P = { b₁.nodes P with children := b₁.next :: (b₁.nodes P).children } := by
    rw [Arena.add_nodes_self, Arena.alloc_nodes_of_ne (by omega)]
  have hold₂ : ∀ i < b₁.next, i ≠ P → b₂.nodes i = b₁.nodes i := by
    intro i hi hiP
    rw [Arena.add_nodes_of_ne hiP, Arena.alloc_nodes_of_ne (by omega)]
  have hnext₂ : b₂.next = b₁.next + 1 := rfl
  have hP₃ : b₃.nodes P = b₂.nodes P := hb₃.frame P (by omega) hP₁.ne
  have hitem : (b₃.nodes b₁.next).item = some (toItem (d, x)) := by rw [hb₃.parent_item, hn₂]
  refine ⟨⟨?_, ?_, ?_, ?_, ?_⟩, by rw [TreeNode.depth, hitem]; rfl, by rw [hb₃.parent_father, hn₂]⟩
  · rw [hb₃.next_eq, hnext₂, hb₁.next_eq]
    simp only [Forest.revPostorder, List.length_append, List.length_cons]
    omega
  · intro i hi hiP
    have hi₁ : i < b₁.next := by rw [hb₁.next_eq]; omega
    rw [hb₃.frame i (by omega) (by omega), hold₂ i hi₁ hiP, hb₁.frame i hi hiP]
  · rw [hP₃, hP₂]
    exact hb₁.parent_item
  · rw [hP₃, hP₂]
    exact hb₁.parent_father
  · obtain ⟨ids₁, hids₁, hreps₁⟩ := hb₁.reps
    obtain ⟨ids₃, hids₃, hreps₃⟩ := hb₃.reps
    rw [hn₂, List.append_nil] at hids₃
    refine ⟨b₁.next :: ids₁, ?_, b₁.next, ids₁, rfl, ?_, ?_, hitem, ?_, ?_⟩
    · rw [hP₃, hP₂]
      simp [hids₁]
    · rw [hb₁.next_eq]; omega
    · rw [hb₃.next_eq]; omega
    · rw [hids₃]
      exact hreps₃.of_agree (fun _ _ _ => rfl) (by rw [hnext₂, hb₁.next_eq]; omega) le_rfl
    · refine hreps₁.of_agree (fun i hi₁ hi₂ => ?_) le_rfl (by rw [hb₃.next_eq]; omega)
      rw [hb₃.frame i (by omega) (by omega), hold₂ i hi₂ (by omega)]

/-- What building the row `f` under `P` does to the arena. -/
structure RowBuilt (a : Arena) (d P : ℕ) (f : Forest Folded) (b : Arena) (L : ℕ) : Prop
    extends Extended a d P f b where
  last_lt : L < b.next
  spine : Spine b d P L

theorem buildTree_row (f : Forest Folded) {a : Arena} {d P L : ℕ} (hd : 0 < d)
    (hP : P < a.next) (hL : L < a.next) (hspine : Spine a d P L) :
    ∃ b L', buildTree ((f.revPostorder d).map toItem) a (some L) = some (b, some L') ∧
      RowBuilt a d P f b L' := by
  induction f generalizing a d P L with
  | nil => exact ⟨a, L, rfl, .refl a d P, hL, hspine⟩
  | cons x ch sib ihc ihs =>
    obtain ⟨b₁, L₁, hrun₁, hb₁⟩ := ihs hd hP hL hspine
    have hP₁ : P < b₁.next := by rw [hb₁.next_eq]; omega
    have hnode := buildNode_of_spine (toItem (d, x)) hb₁.spine hd hb₁.last_lt rfl
    -- the children are one level deeper
    obtain ⟨b₃, L₃, hrun₃, hb₃⟩ := ihc
      (a := (b₁.alloc ⟨some (toItem (d, x)), some P, []⟩).add P b₁.next) (d := d + 1) (P := b₁.next)
      (L := b₁.next) (Nat.succ_pos d) (Nat.lt_succ_self _) (Nat.lt_succ_self _)
      (.inl ⟨rfl, by rw [nodes_add_alloc hP₁]; rfl⟩)
    obtain ⟨hrow, hd₃, hf₃⟩ := hb₁.toExtended.cons hP hb₃.toExtended
    refine ⟨b₃, L₃, ?_, hrow, hb₃.last_lt, .inr ⟨b₁.next, ?_, hd₃, hf₃, hP₁⟩⟩
    · simp [Forest.revPostorder, buildTree_append, hrun₁, buildTree, hnode, hrun₃]
    · -- from the last node of the children the spine leads back to this node
      rcases hb₃.spine with ⟨rfl, _⟩ | ⟨y, hup, hy, hfy, hlt⟩
      · exact Arena.Up.stop hd₃.le
      · exact hup.lower hy hfy hlt hd₃.le

/-! ## Building the Roots -/

theorem buildNode_root (a : Arena) (l : Option ℕ) (item : MethodItem) (hitem : item.depth = 0) :
    buildNode a l item = some ((a.alloc ⟨some item, l, []⟩).add 0 a.next, some a.next) := by
  cases l <;> simp [buildNode, hitem]

theorem buildTree_roots (f : Forest Folded) {a : Arena} (l : Option ℕ) (hpos : 0 < a.next) :
    ∃ b l', buildTree ((f.revPostorder 0).map toItem) a l = some (b, l') ∧ Extended a 0 0 f b := by
  induction f generalizing a l with
  | nil => exact ⟨a, l, rfl, .refl a 0 0⟩
  | cons x ch sib _ ihs =>
    obtain ⟨b₁, l₁, hrun₁, hb₁⟩ := ihs l hpos
    have hpos₁ : 0 < b₁.next := by rw [hb₁.next_eq]; omega
    have hnode := buildNode_root b₁ l₁ (toItem (0, x)) rfl
    obtain ⟨b₃, L₃, hrun₃, hb₃⟩ := buildTree_row ch
      (a := (b₁.alloc ⟨some (toItem (0, x)), l₁, []⟩).add 0 b₁.next) (d := 1) (P := b₁.next)
      (L := b₁.next) Nat.one_pos (Nat.lt_succ_self _) (Nat.lt_succ_self _)
      (.inl ⟨rfl, by rw [nodes_add_alloc hpos₁]; rfl⟩)
    refine ⟨b₃, some L₃, ?_, (hb₁.cons hpos hb₃.toExtended).1⟩
    simp [Forest.revPostorder, buildTree_append, hrun₁, buildTree, hnode, hrun₃]

/-! ## Flattening -/

theorem flatMap_of_reps {a : Arena} {lo hi d fuel : ℕ} {ids : List ℕ} {f : Forest Folded}
    (h : Reps a lo hi d ids f) (hfuel : (f.preorder d).length ≤ fuel) :
    (ids.flatMap fun c => (a.nodes c).item.toList ++ treeToStack a fuel c) =
      (f.preorder d).map toItem := by
  induction f generalizing d fuel ids with
  | nil =>
    obtain rfl : ids = [] := h
    rfl
  | cons x ch sib ihc ihs =>
    obtain ⟨i, rest, rfl, _, _, hitem, hch, hsib⟩ := h
    simp only [Forest.preorder, List.length_cons, List.length_append] at hfuel
    obtain ⟨k, rfl⟩ : ∃ k, fuel = k + 1 := ⟨fuel - 1, by omega⟩
    rw [List.flatMap_cons, ihs hsib (by omega), hitem, treeToStack, ihc hch (by omega)]
    simp [Forest.preorder]

/-- The tree rebuilt from a reverse post-order listing flattens to the pre-order listing. -/
theorem stackToTree_treeToStack (f : Forest Folded) :
    treeToStack (stackToTree ((f.revPostorder 0).map toItem))
      (stackToTree ((f.revPostorder 0).map toItem)).next 0 = (f.preorder 0).map toItem := by
  obtain ⟨b, l, hrun, hb⟩ := buildTree_roots f (a := Arena.root) none Nat.one_pos
  obtain ⟨ids, hids, hreps⟩ := hb.reps
  have hlen := Forest.preorder_length_eq_revPostorder_length f 0
  have htree : stackToTree ((f.revPostorder 0).map toItem) = b := by
    rw [stackToTree, hrun]
  have hchds : (b.nodes 0).children = ids := by
    rw [hids]
    exact List.append_nil ids
  rw [htree, hb.next_eq, show Arena.root.next = 1 from rfl, Nat.add_comm, treeToStack, hchds]
  exact flatMap_of_reps hreps hlen.le

end TraceHarbor.Trace
