import TraceHarbor.Hprof.Heap

/-!
# The Leak-Chain Search

`find_leak_chains` runs one breadth-first search per tracked object, from all GC roots at once,
and follows the back pointers of the search from the object to a root.

The two `while` loops take fuel; a missing entry at one of the `at` calls and running out of fuel
both show as `none`.
-/

namespace TraceHarbor.Hprof

open TraceHarbor.Lib

structure RefSuper where
  referrerId : ObjectId
  reference : Reference
  deriving Repr, DecidableEq

structure RefNode where
  referentId : ObjectId
  super : Option RefSuper
  depth : ℕ
  deriving Repr, DecidableEq

/-- A chain from a GC root: objects and the references to the next object. -/
abbrev LeakChain := List (ObjectId × Option Reference)

structure Search where
  traversed : OrdMap ObjectId RefNode
  waiting : List RefNode

/-- The search before its loop: every GC root is traversed and waiting. -/
def Search.init (gcRoots : List ObjectId) : Search :=
  gcRoots.foldl (fun s gcRoot =>
    let node : RefNode := ⟨gcRoot, none, 0⟩
    ⟨s.traversed.insert gcRoot node, s.waiting ++ [node]⟩) ⟨∅, []⟩

/-- The `for` loop over the references of `node`; the flag says that the leak was found. -/
def visitReferents (leak : ObjectId) (node : RefNode) :
    List (ObjectId × Reference) → Search → Bool × Search
  | [], s => (false, s)
  | (referent, reference) :: rest, s =>
    if s.traversed[referent]?.any fun seen => seen.depth ≤ node.depth + 1 then
      visitReferents leak node rest s
    else
      let nextNode : RefNode := ⟨referent, some ⟨node.referentId, reference⟩, node.depth + 1⟩
      let s := { s with traversed := s.traversed.insert referent nextNode }
      if leak = referent then (true, s)
      else visitReferents leak node rest { s with waiting := s.waiting ++ [nextNode] }

/-- One round of the search: the state to go on with, or `traversed` and the flag `found`. -/
def searchStep (graph : ReferenceMap) (leak : ObjectId) (s : Search) :
    Search ⊕ (OrdMap ObjectId RefNode × Bool) :=
  match s.waiting with
  | [] => .inr (s.traversed, false)
  | node :: waiting =>
    let s := { s with waiting := waiting }
    match graph[node.referentId]? with
    | none => .inl s
    | some references =>
      match visitReferents leak node references.toList s with
      | (true, s) => .inr (s.traversed, true)
      | (false, s) => .inl s

/-- One round of the walk along the back pointers; `none` is a failing `at`. -/
def chainStep (traversed : OrdMap ObjectId RefNode) :
    Option ObjectId × Option Reference × LeakChain →
      (Option ObjectId × Option Reference × LeakChain) ⊕ Option LeakChain
  | (none, _, chain) => .inr (some chain)
  | (some current, currentReference, chain) =>
    match traversed[current]? with
    | none => .inr none
    | some node =>
      match node.super with
      | some super =>
        .inl (some super.referrerId, some super.reference, chain ++ [(current, currentReference)])
      | none => .inl (none, currentReference, chain ++ [(current, currentReference)])

/-- The body of the loop over the tracked objects: the chain of one object, if it is found. -/
def findLeakChain (fuel : ℕ) (heap : Heap) (leak : ObjectId) : Option (Option LeakChain) := do
  let (traversed, found) ←
    loop (searchStep heap.references leak) fuel (Search.init heap.gcRoots)
  if found then
    let chain ← ← loop (chainStep traversed) fuel (some leak, none, [])
    return some chain.reverse
  else
    return none

def findLeakChains (fuel : ℕ) (heap : Heap) (tracked : List ObjectId) :
    Option (OrdMap ObjectId LeakChain) :=
  tracked.foldlM (fun ret leak => do
    match ← findLeakChain fuel heap leak with
    | some chain => return ret.insert leak chain
    | none => return ret) ∅

end TraceHarbor.Hprof
