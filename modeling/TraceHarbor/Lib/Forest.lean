import Mathlib

/-!
# Ordered Forests and Their Linear Listings

Ordered forests in first-child / next-sibling form, so that every fact is one structural induction.
`preorder` lists a node before its children, the order in which activities begin; `revPostorder` is the
reverse of the order in which they end. Both carry the nesting depth of each node.
-/

namespace TraceHarbor.Lib

/-- An ordered forest: the first tree's label, its children, and the trees to its right. -/
inductive Forest (α : Type) where
  | nil
  | cons (label : α) (children siblings : Forest α)
  deriving Repr, DecidableEq

namespace Forest

variable {α β : Type}

/-- Labels of the top-level trees, left to right. -/
def roots : Forest α → List α
  | nil => []
  | cons a _ sib => a :: roots sib

/-- All labels of the forest, in pre-order. -/
def labels : Forest α → List α
  | nil => []
  | cons a ch sib => a :: (labels ch ++ labels sib)

/-- All labels below the top level. -/
def inner : Forest α → List α
  | nil => []
  | cons _ ch sib => labels ch ++ inner sib

/-- Pre-order listing, each label with its depth; the top level has depth `d`. -/
def preorder (d : ℕ) : Forest α → List (ℕ × α)
  | nil => []
  | cons a ch sib => (d, a) :: (preorder (d + 1) ch ++ preorder d sib)

/-- Reverse post-order listing: the last node finished comes first. -/
def revPostorder (d : ℕ) : Forest α → List (ℕ × α)
  | nil => []
  | cons a ch sib => revPostorder d sib ++ (d, a) :: revPostorder (d + 1) ch

theorem preorder_length_eq_revPostorder_length (f : Forest α) (d : ℕ) :
    (f.preorder d).length = (f.revPostorder d).length := by
  induction f generalizing d with
  | nil => rfl
  | cons a ch sib ihc ihs =>
    simp only [preorder, revPostorder, List.length_cons, List.length_append, ihc (d + 1), ihs d]
    omega

/-- The first node of a non-empty reverse post-order listing is a top-level node. -/
theorem revPostorder_head_depth (a : α) (ch sib : Forest α) (d : ℕ) :
    ∃ b rest, (cons a ch sib).revPostorder d = (d, b) :: rest := by
  induction sib generalizing a ch with
  | nil => exact ⟨a, _, rfl⟩
  | cons a' ch' sib' _ ihs =>
    obtain ⟨b, rest, hrest⟩ := ihs a' ch'
    refine ⟨b, rest ++ (d, a) :: ch.revPostorder (d + 1), ?_⟩
    rw [revPostorder, hrest, List.cons_append]

end Forest

end TraceHarbor.Lib
