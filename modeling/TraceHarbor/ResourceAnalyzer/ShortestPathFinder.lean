import TraceHarbor.Lib.OrdMap
import TraceHarbor.Lib.Text

/-!
# Finding the Shortest Path to a Leak

`ShortestPathFinder` searches a heap snapshot from the GC roots for some target objects. References that
are always excluded are not to be followed, and other excluded ones only if there is no other path: they
wait in a second queue, which is used only while the first one is empty. The snapshot is that of the heap
library.
-/

namespace TraceHarbor.ResourceAnalyzer

open Lib

/-! ## Exclusions -/

structure Exclusion where
  matching : Text
  alwaysExclude : Bool
  deriving DecidableEq, Repr

structure ExcludedRefs where
  fieldNameByClassName : OrdMap Text (OrdMap Text Exclusion)
  staticFieldNameByClassName : OrdMap Text (OrdMap Text Exclusion)
  threadNames : OrdMap Text Exclusion
  classNames : OrdMap Text Exclusion

/-! ## Snapshots -/

inductive RootType where
  | unreachable | invalidType | internedString | unknown | systemClass | vmInternal | debugger
  | nativeLocal | nativeStatic | threadBlock | busyMonitor | nativeMonitor | referenceCleanup
  | finalizing | javaLocal | nativeStack | javaStatic
  deriving DecidableEq, Repr

/-- A field: its name, and whether it holds a reference. -/
structure Field where
  name : Text
  isObject : Bool
  deriving DecidableEq, Repr

/-- The instances of a heap with `n` of them. The class names of an instance are those of its class
and of the super classes, in this order. -/
inductive Instance (n : ℕ) where
  | classObj (className : Text) (staticFieldValues : List (Field × Option (Fin n)))
  | classInstance (classNames : List Text) (values : List (Field × Option (Fin n)))
  | arrayInstance (className : Text) (isObject : Bool) (values : List (Option (Fin n)))

structure RootObj (n : ℕ) where
  rootType : RootType
  referredInstance : Option (Fin n)
  /-- the thread that holds a Java local -/
  thread : Fin n

structure Snapshot (n : ℕ) where
  instances : Fin n → Instance n
  threadName : Fin n → Text
  gcRoots : List (RootObj n)

variable {n : ℕ}

/-- What can be visited: a root object or an instance. -/
inductive Vertex (s : Snapshot n) where
  | root (i : Fin s.gcRoots.length)
  | object (o : Fin n)
  deriving DecidableEq, Fintype

/-- The class names that count as wrappers. Most of the names that the source writes are those of
the primitive types. -/
def wrapperTypes : List Text :=
  ["boolean".toList, "java.lang.Character".toList, "float".toList, "double".toList, "byte".toList,
    "short".toList, "java.lang.Integer".toList, "long".toList]

def isPrimitiveWrapper : Instance n → Bool
  | .classInstance classNames _ => classNames.head?.any (· ∈ wrapperTypes)
  | _ => false

def isPrimitiveOrWrapperArray : Instance n → Bool
  | .arrayInstance className isObject _ => !isObject || className ∈ wrapperTypes
  | _ => false

def isString : Instance n → Bool
  | .classObj _ _ => false
  | .classInstance classNames _ => classNames.head? = some "java.lang.String".toList
  | .arrayInstance className _ _ => className = "java.lang.String".toList

/-! ## Nodes -/

inductive ReferenceType where
  | instanceField | staticField | local | arrayEntry
  deriving DecidableEq, Repr

/-- A reference to something that is visited, with the exclusion that applies to it. -/
structure Link (s : Snapshot n) where
  exclusion : Option Exclusion
  inst : Vertex s
  referenceName : Option Text
  referenceType : Option ReferenceType

/-- A node with the nodes above it, the parent first. -/
structure ReferenceNode (s : Snapshot n) where
  link : Link s
  parents : List (Link s)

structure Result (s : Snapshot n) where
  referenceChainHead : ReferenceNode s
  excludingKnown : Bool

def ReferenceNode.chain {s : Snapshot n} (node : ReferenceNode s) : List (Link s) :=
  node.link :: node.parents

section Visit

variable (s : Snapshot n) (excludedRefs : ExcludedRefs)

/-- The arguments of a call of `enqueue`, which returns at once if there is no child. -/
def offer (exclusion : Option Exclusion) (child : Option (Fin n)) (referenceName : Option Text)
    (referenceType : Option ReferenceType) : List (Link s) :=
  match child with
  | none => []
  | some child => [⟨exclusion, .object child, referenceName, referenceType⟩]

/-! ## Visiting -/

def visitClassObj (className : Text) (staticFieldValues : List (Field × Option (Fin n))) :
    List (Link s) :=
  let ignoredStaticFields := excludedRefs.staticFieldNameByClassName[className]?
  staticFieldValues.flatMap fun (field, child) =>
    if !field.isObject then
      []
    else if field.name = "$staticOverhead".toList then
      []
    else
      match ignoredStaticFields.bind fun fields => fields[field.name]? with
      | some params =>
        if params.alwaysExclude then
          []
        else
          offer s (some params) child (some field.name) (some .staticField)
      | none => offer s none child (some field.name) (some .staticField)

/-- The exclusion of an instance by its class or a super class. -/
def classExclusion (classNames : List Text) : Option Exclusion :=
  classNames.foldl
    (fun classExclusion className =>
      match excludedRefs.classNames[className]?, classExclusion with
      | none, _ => classExclusion
      | some params, none => some params
      | some params, some exclusion =>
        -- always overrides the other kind
        if exclusion.alwaysExclude then some exclusion else some params)
    none

/-- The fields that are excluded, a super class having the last word. -/
def ignoredFields (classNames : List Text) : OrdMap Text Exclusion :=
  classNames.foldl
    (fun ignored className =>
      match excludedRefs.fieldNameByClassName[className]? with
      | some classIgnoredFields => OrdMap.insertAll ignored classIgnoredFields.toList
      | none => ignored)
    ∅

/-- A field exclusion counts if it is stronger than that of the class. -/
def fieldExclusion (classExclusion params : Option Exclusion) : Option Exclusion :=
  match params, classExclusion with
  | none, _ => classExclusion
  | some params, none => some params
  | some params, some exclusion =>
    if params.alwaysExclude && !exclusion.alwaysExclude then some params else some exclusion

def visitClassInstance (classNames : List Text) (values : List (Field × Option (Fin n))) :
    List (Link s) :=
  let exclusion := classExclusion excludedRefs classNames
  let ignored := ignoredFields excludedRefs classNames
  if exclusion.any Exclusion.alwaysExclude then
    []
  else
    values.flatMap fun (field, child) =>
      if !field.isObject then
        []
      else
        offer s (fieldExclusion exclusion ignored[field.name]?) child (some field.name)
          (some .instanceField)

def visitArrayInstance (isObject : Bool) (values : List (Option (Fin n))) : List (Link s) :=
  if isObject then
    values.zipIdx.flatMap fun (child, i) =>
      offer s none child (some ("[".toList ++ Nat.toDigits 10 i ++ "]".toList)) (some .arrayEntry)
  else
    []

/-- The nodes that are offered to the queues when a node is visited. -/
def visit (node : ReferenceNode s) : List (ReferenceNode s) :=
  match node.link.inst with
  | .root i =>
    let rootObj := s.gcRoots.get i
    if rootObj.rootType = .javaLocal then
      -- the thread that holds the local takes the place of the root
      (offer s node.link.exclusion rootObj.referredInstance (some "<Java Local>".toList)
        (some .local)).map fun link => ⟨link, [⟨none, .object rootObj.thread, none, none⟩]⟩
    else
      (offer s none rootObj.referredInstance none none).map fun link => ⟨link, node.chain⟩
  | .object o =>
    match s.instances o with
    | .classObj className fields =>
      (visitClassObj s excludedRefs className fields).map fun link => ⟨link, node.chain⟩
    | .classInstance classNames values =>
      (visitClassInstance s excludedRefs classNames values).map fun link => ⟨link, node.chain⟩
    | .arrayInstance _ isObject values =>
      (visitArrayInstance s isObject values).map fun link => ⟨link, node.chain⟩

/-- The node of a root in `enqueueGcRoots`, if it is not ignored. -/
def gcRootNode (i : Fin s.gcRoots.length) : List (ReferenceNode s) :=
  match (s.gcRoots.get i).rootType with
  | .javaLocal =>
    let params := excludedRefs.threadNames[s.threadName (s.gcRoots.get i).thread]?
    if params.any Exclusion.alwaysExclude then [] else [⟨⟨params, .root i, none, none⟩, []⟩]
  | .internedString | .debugger | .invalidType | .unreachable | .unknown | .finalizing => []
  | .systemClass | .vmInternal | .nativeLocal | .nativeStatic | .threadBlock | .busyMonitor
  | .nativeMonitor | .referenceCleanup | .nativeStack | .javaStatic =>
    [⟨⟨none, .root i, none, none⟩, []⟩]

def gcRootNodes : List (ReferenceNode s) :=
  (List.finRange s.gcRoots.length).flatMap (gcRootNode s excludedRefs)

end Visit

/-! ## The search -/

structure Finder (s : Snapshot n) where
  toVisitQueue : List (ReferenceNode s)
  toVisitIfNoPathQueue : List (ReferenceNode s)
  toVisitSet : List (Vertex s)
  toVisitIfNoPathSet : List (Vertex s)
  visitedSet : List (Vertex s)

inductive FindError where
  | expectedExclusion
  | outOfFuel
  deriving DecidableEq, Repr

namespace Finder

variable {s : Snapshot n}

def isPrimitive (s : Snapshot n) : Vertex s → Bool
  | .root _ => false
  | .object o => isPrimitiveOrWrapperArray (s.instances o) || isPrimitiveWrapper (s.instances o)

def isStringVertex (s : Snapshot n) : Vertex s → Bool
  | .root _ => false
  | .object o => isString (s.instances o)

def enqueue (canIgnoreStrings : Bool) (f : Finder s) (childNode : ReferenceNode s) : Finder s :=
  let child := childNode.link.inst
  if isPrimitive s child then f
  else if child ∈ f.toVisitSet then f
  else if childNode.link.exclusion ≠ none ∧ child ∈ f.toVisitIfNoPathSet then f
  else if canIgnoreStrings && isStringVertex s child then f
  else if child ∈ f.visitedSet then f
  else if childNode.link.exclusion = none then
    { f with
      toVisitSet := child :: f.toVisitSet
      toVisitQueue := f.toVisitQueue ++ [childNode] }
  else
    { f with
      toVisitIfNoPathSet := child :: f.toVisitIfNoPathSet
      toVisitIfNoPathQueue := f.toVisitIfNoPathQueue ++ [childNode] }

def poll (f : Finder s) : Except FindError (Option (ReferenceNode s × Finder s)) :=
  match f.toVisitQueue, f.toVisitIfNoPathQueue with
  | node :: rest, _ => .ok (some (node, { f with toVisitQueue := rest }))
  | [], node :: rest =>
    if node.link.exclusion = none then
      .error .expectedExclusion
    else
      .ok (some (node, { f with toVisitIfNoPathQueue := rest }))
  | [], [] => .ok none

/-- The loop of `findPath`, with the targets that were not found yet and the results so far. -/
def loop (excludedRefs : ExcludedRefs) (canIgnoreStrings : Bool) :
    ℕ → Finder s → List (Fin n) → List (Fin n × Result s) →
      Except FindError (List (Fin n × Result s))
  | 0, _, _, _ => .error .outOfFuel
  | fuel + 1, f, targetRefSet, results =>
    match f.poll with
    | .error e => .error e
    | .ok none => .ok results
    | .ok (some (node, f)) =>
      let found := targetRefSet.filter fun t => node.link.inst = .object t
      let targetRefSet := targetRefSet.filter fun t => node.link.inst ≠ .object t
      let results := results ++ found.map fun t => (t, ⟨node, node.link.exclusion.isSome⟩)
      if found ≠ [] ∧ targetRefSet = [] then
        .ok results
      else if node.link.inst ∈ f.visitedSet then
        loop excludedRefs canIgnoreStrings fuel f targetRefSet results
      else
        loop excludedRefs canIgnoreStrings fuel
          ((visit s excludedRefs node).foldl (enqueue canIgnoreStrings)
            { f with visitedSet := node.link.inst :: f.visitedSet })
          targetRefSet results

end Finder

/-- Paths to the targets, as far as there are any. -/
def findPath (fuel : ℕ) (s : Snapshot n) (excludedRefs : ExcludedRefs)
    (targetReferences : List (Fin n)) : Except FindError (List (Fin n × Result s)) :=
  if targetReferences = [] then
    .ok []
  else
    let canIgnoreStrings := targetReferences.all fun t => !isString (s.instances t)
    Finder.loop excludedRefs canIgnoreStrings fuel
      ((gcRootNodes s excludedRefs).foldl (Finder.enqueue canIgnoreStrings) ⟨[], [], [], [], []⟩)
      targetReferences.dedup []

end TraceHarbor.ResourceAnalyzer
