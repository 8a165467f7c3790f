import TraceHarbor.Lib.TwoQueueSearch
import TraceHarbor.ResourceAnalyzer.ShortestPathFinder

/-!
# What the Paths Found Are

A path weighs the number of its excluded references or, if it has none, its length. The finder's two
queues are the queues of `Lib.SearchSpace` over this weight, so it finds a path of least weight to every
target that it can reach. The flag of a result, however, is that of the last reference of the path, and
a field that is always excluded is followed.
-/

namespace TraceHarbor.ResourceAnalyzer

open Lib List Option

variable {n : ℕ}

/-! ## Labelled references -/

section References

variable (s : Snapshot n) (excludedRefs : ExcludedRefs)

/-- The exclusion of a root: that of its thread, for a Java local. -/
def rootExclusion (i : Fin s.gcRoots.length) : Option Exclusion :=
  if (s.gcRoots.get i).rootType = .javaLocal then
    excludedRefs.threadNames[s.threadName (s.gcRoots.get i).thread]?
  else
    none

def rootReference (i : Fin s.gcRoots.length) : List (Link s) :=
  if (s.gcRoots.get i).rootType = .javaLocal then
    offer s (rootExclusion s excludedRefs i) (s.gcRoots.get i).referredInstance
      (some "<Java Local>".toList) (some .local)
  else
    offer s none (s.gcRoots.get i).referredInstance none none

def classReferences (className : Text) (staticFieldValues : List (Field × Option (Fin n))) :
    List (Link s) :=
  staticFieldValues.flatMap fun (field, child) =>
    if !field.isObject then
      []
    else if field.name = "$staticOverhead".toList then
      []
    else
      offer s ((excludedRefs.staticFieldNameByClassName[className]?).bind fun fields =>
        fields[field.name]?) child (some field.name) (some .staticField)

/-- All references of an instance, with their labels. -/
def instanceReferences (classNames : List Text) (values : List (Field × Option (Fin n))) :
    List (Link s) :=
  let exclusion := classExclusion excludedRefs classNames
  values.flatMap fun (field, child) =>
    if !field.isObject then
      []
    else
      offer s
        (if exclusion.any Exclusion.alwaysExclude then exclusion
          else fieldExclusion exclusion (ignoredFields excludedRefs classNames)[field.name]?)
        child (some field.name) (some .instanceField)

def references : Vertex s → List (Link s)
  | .root i => rootReference s excludedRefs i
  | .object o =>
    match s.instances o with
    | .classObj className fields => classReferences s excludedRefs className fields
    | .classInstance classNames values => instanceReferences s excludedRefs classNames values
    | .arrayInstance _ isObject values => visitArrayInstance s isObject values

def followed : Vertex s → List (Link s)
  | .root i => rootReference s excludedRefs i
  | .object o =>
    match s.instances o with
    | .classObj className fields => visitClassObj s excludedRefs className fields
    | .classInstance classNames values => visitClassInstance s excludedRefs classNames values
    | .arrayInstance _ isObject values => visitArrayInstance s isObject values

end References

variable {s : Snapshot n} {excludedRefs : ExcludedRefs}

def Link.AlwaysExcluded (link : Link s) : Prop := link.exclusion.any Exclusion.alwaysExclude = true

variable {link : Link s}

theorem mem_offer {exclusion : Option Exclusion} {child : Option (Fin n)} {name : Option Text}
    {type : Option ReferenceType} (h : link ∈ offer s exclusion child name type) :
    link.exclusion = exclusion ∧ ∃ o, child = some o ∧ link.inst = .object o := by
  cases child with
  | none => cases h
  | some o =>
    rw [offer, mem_singleton] at h
    rw [h]
    exact ⟨rfl, o, rfl, rfl⟩

variable {v : Vertex s}

theorem inst_of_mem_references
    (h : link ∈ references s excludedRefs v) : ∃ o, link.inst = .object o := by
  have hoff : ∀ {exclusion : Option Exclusion} {child : Option (Fin n)} {name : Option Text}
      {type : Option ReferenceType}, link ∈ offer s exclusion child name type →
      ∃ o, link.inst = .object o := fun h => (mem_offer h).2.imp fun _ h => h.2
  cases v with
  | root i =>
    simp only [references, rootReference] at h
    split at h <;> exact hoff h
  | object o =>
    simp only [references] at h
    split at h
    · simp only [classReferences, mem_flatMap] at h
      obtain ⟨⟨field, child⟩, -, h⟩ := h
      split_ifs at h <;> first | exact absurd h not_mem_nil | exact hoff h
    · simp only [instanceReferences, mem_flatMap] at h
      obtain ⟨⟨field, child⟩, -, h⟩ := h
      split_ifs at h <;> first | exact absurd h not_mem_nil | exact hoff h
    · simp only [visitArrayInstance] at h
      split at h
      · rw [mem_flatMap] at h
        obtain ⟨⟨child, i⟩, -, h⟩ := h
        exact hoff h
      · cases h

theorem followed_subset (h : link ∈ followed s excludedRefs v) :
    link ∈ references s excludedRefs v := by
  cases v with
  | root i => exact h
  | object o =>
    cases hinst : s.instances o with
    | classObj className fields =>
      simp only [followed, references, hinst, visitClassObj, classReferences,
        mem_flatMap] at h ⊢
      obtain ⟨entry, hent, h⟩ := h
      refine ⟨entry, hent, ?_⟩
      split_ifs at h ⊢ <;> first | exact h | skip
      split at h
      · rename_i params hpar
        rw [hpar]
        split_ifs at h
        · cases h
        · exact h
      · rename_i hpar
        rw [hpar]
        exact h
    | classInstance classNames values =>
      simp only [followed, references, hinst, visitClassInstance, instanceReferences] at h ⊢
      split_ifs at h with halw
      · cases h
      · simpa only [halw, if_false, Bool.false_eq_true] using h
    | arrayInstance className isObject values => simpa only [followed, references, hinst] using h

theorem mem_followed (h : link ∈ references s excludedRefs v)
    (hnot : ¬ link.AlwaysExcluded) : link ∈ followed s excludedRefs v := by
  unfold Link.AlwaysExcluded at hnot
  cases v with
  | root i => exact h
  | object o =>
    cases hinst : s.instances o with
    | classObj className fields =>
      simp only [followed, references, hinst, visitClassObj, classReferences,
        mem_flatMap] at h ⊢
      obtain ⟨entry, hent, h⟩ := h
      refine ⟨entry, hent, ?_⟩
      split_ifs at h ⊢ <;> first | exact h | skip
      rw [(mem_offer h).1] at hnot
      split
      · rename_i params hpar
        rw [hpar] at h hnot
        rw [if_neg (by simpa using hnot)]
        exact h
      · rename_i hpar
        rwa [hpar] at h
    | classInstance classNames values =>
      simp only [followed, references, hinst, visitClassInstance, instanceReferences] at h ⊢
      split_ifs at h ⊢ with halw
      · rw [mem_flatMap] at h
        obtain ⟨entry, -, h⟩ := h
        split_ifs at h
        · cases h
        · rw [(mem_offer h).1] at hnot
          exact absurd halw hnot
      · exact h
    | arrayInstance className isObject values => simpa only [followed, references, hinst] using h

/-! ## Paths -/

/-- Strings, wrappers and arrays of primitive values are not visited. -/
def skipped (s : Snapshot n) (v : Vertex s) : Bool :=
  Finder.isPrimitive s v || Finder.isStringVertex s v

/-- The paths from a root that is not ignored along some references, from the last one back. -/
inductive Leads (s : Snapshot n) (excludedRefs : ExcludedRefs) (refs : Vertex s → List (Link s)) :
    ReferenceNode s → Prop
  | root {node : ReferenceNode s} : node ∈ gcRootNodes s excludedRefs →
      Leads s excludedRefs refs node
  | step {node : ReferenceNode s} {link : Link s} : Leads s excludedRefs refs node →
      link ∈ refs node.link.inst → skipped s link.inst = false →
      Leads s excludedRefs refs ⟨link, node.chain⟩

variable {node : ReferenceNode s}

theorem mem_gcRootNodes (h : node ∈ gcRootNodes s excludedRefs) :
    ∃ i, node = ⟨⟨rootExclusion s excludedRefs i, .root i, none, none⟩, []⟩ ∧
      ¬ node.link.AlwaysExcluded := by
  rw [gcRootNodes, mem_flatMap] at h
  obtain ⟨i, -, h⟩ := h
  refine ⟨i, ?_⟩
  unfold gcRootNode at h
  unfold rootExclusion Link.AlwaysExcluded
  split at h <;> rename_i htype
  · dsimp only at h
    split_ifs at h with halw
    · cases h
    · rw [mem_singleton] at h
      rw [h, if_pos htype]
      exact ⟨rfl, halw⟩
  all_goals first
    | exact absurd h not_mem_nil
    | rw [mem_singleton] at h
      rw [h, htype]
      exact ⟨rfl, by simp⟩

theorem Leads.root_inv {refs : Vertex s → List (Link s)}
    (hrefs : ∀ v, ∀ link ∈ refs v, link ∈ references s excludedRefs v)
    {i : Fin s.gcRoots.length} (h : Leads s excludedRefs refs node) (hroot : node.link.inst = .root i) :
    node.parents = [] ∧ node.link.exclusion = rootExclusion s excludedRefs i := by
  cases h with
  | root hmem =>
    obtain ⟨j, rfl, -⟩ := mem_gcRootNodes hmem
    obtain rfl : j = i := by simpa using hroot
    exact ⟨rfl, rfl⟩
  | step _ hlink _ =>
    obtain ⟨o, ho⟩ := inst_of_mem_references (hrefs _ _ hlink)
    rw [ho] at hroot
    exact absurd hroot (by simp)

def ReferenceNode.Plain (node : ReferenceNode s) : Prop :=
  ∀ link ∈ node.chain, link.exclusion = none

def ReferenceNode.NoAlways (node : ReferenceNode s) : Prop :=
  ∀ link ∈ node.chain, ¬ link.AlwaysExcluded

def ReferenceNode.exclusions (node : ReferenceNode s) : ℕ :=
  node.chain.countP fun link => link.exclusion.isSome

theorem ReferenceNode.plain_iff : node.Plain ↔ node.exclusions = 0 := by
  simp [Plain, exclusions, countP_eq_zero]

theorem ReferenceNode.Plain.noAlways (h : node.Plain) : node.NoAlways :=
  fun link hlink => by simp [Link.AlwaysExcluded, h link hlink]

theorem Leads.mono {refs refs' : Vertex s → List (Link s)}
    (hrefs : ∀ v, ∀ link ∈ refs v, link ∈ refs' v)
    (h : Leads s excludedRefs refs node) : Leads s excludedRefs refs' node := by
  induction h with
  | root hmem => exact .root hmem
  | step _ hlink hskip ih => exact .step ih (hrefs _ _ hlink) hskip

theorem Leads.followed
    (h : Leads s excludedRefs (references s excludedRefs) node) (hno : node.NoAlways) :
    Leads s excludedRefs (followed s excludedRefs) node := by
  induction h with
  | root hmem => exact .root hmem
  | step _ hlink hskip ih =>
    refine .step (ih fun link hl => hno link (mem_cons_of_mem _ hl)) ?_ hskip
    exact mem_followed hlink (hno _ (mem_cons_self ..))

/-! ## The weights -/

/-- The number of excluded references, and the length if there are none. -/
structure Weight where
  exclusions : ℕ
  length : ℕ
  deriving DecidableEq

namespace Weight

theorem toLex_injective :
    Function.Injective fun w : Weight => (toLex (w.exclusions, w.length) : ℕ ×ₗ ℕ) := by
  rintro ⟨x, y⟩ ⟨x', y'⟩ h
  obtain ⟨rfl, rfl⟩ : x = x' ∧ y = y' := by simpa using h
  rfl

instance : LinearOrder Weight := LinearOrder.lift' _ toLex_injective

theorem le_iff {w w' : Weight} :
    w ≤ w' ↔ w.exclusions < w'.exclusions ∨ w.exclusions = w'.exclusions ∧ w.length ≤ w'.length :=
  Prod.Lex.toLex_le_toLex

/-- One more reference: it counts if it is excluded, and makes a plain path longer. -/
def extend (excluded : Bool) (w : Weight) : Weight :=
  if excluded then ⟨w.exclusions + 1, 0⟩
  else if w.exclusions = 0 then ⟨0, w.length + 1⟩
  else w

theorem extend_mono (b : Bool) : Monotone (extend b) := by
  intro w w' h
  rw [le_iff] at h
  cases b <;> simp only [extend, if_true, if_false, Bool.false_eq_true]
  · split_ifs <;> simp only [le_iff, true_and] <;> omega
  · rw [le_iff]
    dsimp only
    omega

theorem le_extend (w : Weight) : w ≤ extend false w := by
  simp only [extend, if_false, Bool.false_eq_true]
  split_ifs
  · simp only [le_iff]
    omega
  · exact le_rfl

theorem extend_le (w : Weight) : extend false w ≤ extend true w := by
  simp only [extend, if_true, if_false, Bool.false_eq_true]
  split_ifs <;> simp only [le_iff] <;> omega

theorem extend_le_of_le {w w' : Weight} (h : w ≤ extend true w') :
    extend false w ≤ extend true w' := by
  simp only [extend, if_true, if_false, Bool.false_eq_true] at h ⊢
  rw [le_iff] at h
  split_ifs <;> simp only [le_iff] <;> omega

end Weight

def weigh (links : List (Link s)) : Weight :=
  links.foldr (fun link w => w.extend link.exclusion.isSome) ⟨0, 0⟩

theorem weigh_cons (link : Link s) (links : List (Link s)) :
    weigh (link :: links) = (weigh links).extend link.exclusion.isSome := rfl

theorem exclusions_weigh (links : List (Link s)) :
    (weigh links).exclusions = links.countP fun link => link.exclusion.isSome := by
  induction links with
  | nil => rfl
  | cons link links ih =>
    rw [weigh_cons]
    unfold Weight.extend
    split_ifs <;> simp_all

theorem length_weigh {links : List (Link s)} (h : (weigh links).exclusions = 0) :
    (weigh links).length = links.length := by
  induction links with
  | nil => rfl
  | cons link links ih =>
    rw [weigh_cons] at h ⊢
    unfold Weight.extend at h ⊢
    split_ifs at h ⊢ with hsome hzero
    · rw [length_cons, ih hzero]
    · exact absurd h hzero

def searchSpace (s : Snapshot n) (excludedRefs : ExcludedRefs) :
    SearchSpace (Vertex s) (ReferenceNode s) Weight where
  vertex node := node.link.inst
  deferred node := node.link.exclusion.isSome
  children node := (followed s excludedRefs node.link.inst).map fun link => ⟨link, node.chain⟩
  skip := skipped s
  roots := gcRootNodes s excludedRefs
  weight node := weigh node.chain
  start := ⟨0, 0⟩
  extend := Weight.extend
  weight_root r hr := by
    obtain ⟨i, rfl, -⟩ := mem_gcRootNodes hr
    rfl
  weight_child p c hc := by
    rw [List.mem_map] at hc
    obtain ⟨link, -, rfl⟩ := hc
    rfl
  same_children p p' h c hc := by
    rw [List.mem_map] at hc
    obtain ⟨link, hlink, rfl⟩ := hc
    exact ⟨⟨link, p'.chain⟩, mem_map.mpr ⟨link, h ▸ hlink, rfl⟩, rfl, rfl⟩
  extend_mono := Weight.extend_mono
  le_extend := Weight.le_extend
  extend_le := Weight.extend_le
  extend_le_deferred w node hdeferred hle := by
    have hweight : weigh node.chain = (weigh node.parents).extend true := by
      rw [← hdeferred]
      rfl
    rw [hweight] at hle ⊢
    exact Weight.extend_le_of_le hle

theorem derived_iff :
    (searchSpace s excludedRefs).Derived node ↔
      Leads s excludedRefs (followed s excludedRefs) node := by
  constructor
  · intro h
    induction h with
    | root hmem _ => exact .root hmem
    | child _ hc hskip ih =>
      obtain ⟨link, hlink, rfl⟩ := mem_map.mp hc
      exact .step ih hlink hskip
  · intro h
    induction h with
    | root hmem =>
      obtain ⟨i, rfl, -⟩ := mem_gcRootNodes hmem
      exact .root hmem rfl
    | step _ hlink hskip ih => exact .child ih (mem_map.mpr ⟨_, hlink, rfl⟩) hskip

/-! ## The finder is this search -/

/-- How a link appears above another one: the thread takes the place of a Java local. -/
def Link.displayed (link : Link s) : Link s :=
  match link.inst with
  | .root i =>
    if (s.gcRoots.get i).rootType = .javaLocal then
      ⟨none, .object (s.gcRoots.get i).thread, none, none⟩
    else
      link
  | .object _ => link

def ReferenceNode.displayed (node : ReferenceNode s) : ReferenceNode s :=
  ⟨node.link, node.parents.map Link.displayed⟩

theorem visit_displayed
    (h : Leads s excludedRefs (followed s excludedRefs) node) :
    visit s excludedRefs node.displayed =
      ((searchSpace s excludedRefs).children node).map ReferenceNode.displayed := by
  have hchain : ∀ links : List (Link s), node.link.displayed = node.link →
      links.map (fun link => (⟨link, node.displayed.chain⟩ : ReferenceNode s)) =
        (links.map fun link => ⟨link, node.chain⟩).map ReferenceNode.displayed := by
    intro links hlink
    rw [List.map_map]
    refine map_congr_left fun link _ => ?_
    simp [ReferenceNode.displayed, ReferenceNode.chain, hlink]
  have hinst : node.displayed.link.inst = node.link.inst := rfl
  unfold visit
  rw [hinst]
  change _ = ((followed s excludedRefs node.link.inst).map fun link =>
    (⟨link, node.chain⟩ : ReferenceNode s)).map ReferenceNode.displayed
  cases hv : node.link.inst with
  | root i =>
    obtain ⟨hpar, hexcl⟩ := h.root_inv (fun _ _ => followed_subset) hv
    simp only [followed, rootReference]
    split_ifs with hloc
    · have hlink : node.link.displayed =
          ⟨none, .object (s.gcRoots.get i).thread, none, none⟩ := by
        simp only [Link.displayed, hv, if_pos hloc]
      rw [List.map_map, show node.displayed.link.exclusion = _ from hexcl]
      refine map_congr_left fun link _ => ?_
      simp [ReferenceNode.displayed, ReferenceNode.chain, hpar, hlink]
    · exact hchain _ (by simp only [Link.displayed, hv, if_neg hloc])
  | object o =>
    have hlink : node.link.displayed = node.link := by simp only [Link.displayed, hv]
    cases hobj : s.instances o <;> simp only [followed, hobj] <;> exact hchain _ hlink

/-- The finder whose queues are those of the search. -/
def toFinder (q : TwoQueues (Vertex s) (ReferenceNode s)) : Finder s where
  toVisitQueue := q.now.map ReferenceNode.displayed
  toVisitIfNoPathQueue := q.later.map ReferenceNode.displayed
  toVisitSet := q.met
  toVisitIfNoPathSet := q.metLater
  visitedSet := q.visited.map fun node => node.link.inst

variable {q : TwoQueues (Vertex s) (ReferenceNode s)}

theorem mem_visitedSet :
    v ∈ (toFinder q).visitedSet ↔ (searchSpace s excludedRefs).Seen q v := by
  simp only [toFinder, List.mem_map]
  rfl

theorem enqueue_toFinder (q : TwoQueues (Vertex s) (ReferenceNode s)) (c : ReferenceNode s) :
    Finder.enqueue true (toFinder q) c.displayed =
      toFinder ((searchSpace s excludedRefs).enqueue q c) := by
  have hseen : (searchSpace s excludedRefs).Seen q c.link.inst ↔
      c.link.inst ∈ (toFinder q).visitedSet := mem_visitedSet.symm
  have hvtx : (searchSpace s excludedRefs).vertex c = c.link.inst := rfl
  have hskip : (searchSpace s excludedRefs).skip = skipped s := rfl
  have hdfr : (searchSpace s excludedRefs).deferred c = c.link.exclusion.isSome := rfl
  have hlink : c.displayed.link = c.link := rfl
  have hmet : (toFinder q).toVisitSet = q.met := rfl
  have hmetLater : (toFinder q).toVisitIfNoPathSet = q.metLater := rfl
  simp only [Finder.enqueue, SearchSpace.enqueue, hvtx, hskip, hdfr, hlink, hmet, hmetLater,
    skipped, Bool.or_eq_true, Bool.true_and, hseen, isSome_iff_ne_none, apply_ite toFinder]
  -- the same tests in another order
  split_ifs <;> first | rfl | (exfalso; tauto) | simp [toFinder]

theorem foldl_enqueue_toFinder (cs : List (ReferenceNode s))
    (q : TwoQueues (Vertex s) (ReferenceNode s)) :
    (cs.map ReferenceNode.displayed).foldl (Finder.enqueue true) (toFinder q) =
      toFinder ((searchSpace s excludedRefs).enqueueAll q cs) := by
  induction cs generalizing q with
  | nil => rfl
  | cons c cs ih =>
    have hstep : Finder.enqueue true (toFinder q) c.displayed =
        toFinder ((searchSpace s excludedRefs).enqueue q c) := enqueue_toFinder q c
    rw [map_cons, foldl_cons, hstep, ih]
    rfl

theorem visit_toFinder (q : TwoQueues (Vertex s) (ReferenceNode s))
    (h : Leads s excludedRefs (followed s excludedRefs) node) :
    toFinder ((searchSpace s excludedRefs).visit q node) =
      if node.link.inst ∈ (toFinder q).visitedSet then
        toFinder q
      else
        (visit s excludedRefs node.displayed).foldl (Finder.enqueue true)
          { toFinder q with visitedSet := node.link.inst :: (toFinder q).visitedSet } := by
  have hseen : node.link.inst ∈ (toFinder q).visitedSet ↔
      (searchSpace s excludedRefs).Seen q ((searchSpace s excludedRefs).vertex node) :=
    mem_visitedSet
  unfold SearchSpace.visit
  by_cases hmem : node.link.inst ∈ (toFinder q).visitedSet
  · rw [if_pos hmem, if_pos (hseen.mp hmem)]
  · rw [if_neg hmem, if_neg (fun h => hmem (hseen.mpr h)), visit_displayed h,
      ← foldl_enqueue_toFinder]
    rfl

theorem poll_toFinder {w : Weight} {offered : ReferenceNode s → Prop}
    (h : (searchSpace s excludedRefs).SearchInv w offered q) :
    (toFinder q).poll = .ok ((SearchSpace.poll q).map fun p => (p.1.displayed, toFinder p.2)) := by
  obtain ⟨now, later, met, metLater, visited⟩ := q
  match now, later, h with
  | node :: rest, _, _ => rfl
  | [], [], _ => rfl
  | [], node :: rest, h =>
    have hdfr : node.link.exclusion.isSome = true := h.deferred node (mem_cons_self ..)
    have hexcl : node.displayed.link.exclusion ≠ none := isSome_iff_ne_none.mp hdfr
    simp only [Finder.poll, toFinder, map_nil, map_cons, if_neg hexcl]
    rfl

/-! ## What is found -/

/-- The result of a target: a path of least weight among those that the search can take. -/
def Best (s : Snapshot n) (excludedRefs : ExcludedRefs) (t : Fin n) (r : Result s) : Prop :=
  ∃ node, Leads s excludedRefs (followed s excludedRefs) node ∧ node.link.inst = .object t ∧
    r = ⟨node.displayed, node.link.exclusion.isSome⟩ ∧
    ∀ m, Leads s excludedRefs (followed s excludedRefs) m → m.link.inst = .object t →
      weigh node.chain ≤ weigh m.chain

theorem seen_visit {q₁ : TwoQueues (Vertex s) (ReferenceNode s)}
    (hpoll : SearchSpace.poll q = some (node, q₁))
    (h : (searchSpace s excludedRefs).Seen ((searchSpace s excludedRefs).visit q₁ node) v) :
    (searchSpace s excludedRefs).Seen q v ∨ v = node.link.inst := by
  obtain ⟨-, -, -, -, -, hvis⟩ := SearchSpace.poll_spec hpoll
  obtain ⟨u, hu, hvtx⟩ := h
  unfold SearchSpace.visit at hu
  split at hu
  · exact .inl ⟨u, hvis ▸ hu, hvtx⟩
  · rw [SearchSpace.visited_enqueueAll] at hu
    rcases mem_cons.mp hu with rfl | hu
    · exact .inr hvtx.symm
    · exact .inl ⟨u, hvis ▸ hu, hvtx⟩

/-- The loop, from any state of the search, with fuel for the entries that may still come. -/
theorem loop_spec (fuel : ℕ) {w : Weight}
    (hinv : (searchSpace s excludedRefs).SearchInv w ((searchSpace s excludedRefs).Offered q) q)
    (hfuel : SearchSpace.measure q < fuel) {targets : List (Fin n)}
    (hnew : ∀ t ∈ targets, ¬ (searchSpace s excludedRefs).Seen q (.object t))
    {results : List (Fin n × Result s)} (hbest : ∀ e ∈ results, Best s excludedRefs e.1 e.2) :
    ∃ results', Finder.loop excludedRefs true fuel (toFinder q) targets results = .ok results' ∧
      (∀ e ∈ results', Best s excludedRefs e.1 e.2) ∧ (∀ e ∈ results, e ∈ results') ∧
      ∀ t ∈ targets, (∃ r, (t, r) ∈ results') ∨
        ¬ ∃ m, Leads s excludedRefs (followed s excludedRefs) m ∧ m.link.inst = .object t := by
  induction fuel generalizing w q targets results with
  | zero => exact absurd hfuel (Nat.not_lt_zero _)
  | succ fuel ih =>
    rw [Finder.loop, poll_toFinder hinv]
    cases hpoll : SearchSpace.poll q with
    | none =>
      refine ⟨results, rfl, hbest, fun e he => he, fun t ht => .inr ?_⟩
      rintro ⟨m, hm, hinst⟩
      have hseen := hinv.exhausted hpoll (derived_iff.mpr hm)
      exact hnew t ht (hinst ▸ hseen)
    | some entry =>
      obtain ⟨node, q₁⟩ := entry
      have hnode : Leads s excludedRefs (followed s excludedRefs) node := derived_iff.mp
        (hinv.derived node (by rw [(SearchSpace.poll_spec hpoll).1]; exact mem_cons_self ..))
      have hlink : node.displayed.link = node.link := rfl
      simp only [map_some, hlink]
      set found := targets.filter fun t => node.link.inst = .object t with hfound
      set rest := targets.filter fun t => node.link.inst ≠ .object t with hrest
      set results₁ := results ++
        found.map fun t => (t, (⟨node.displayed, node.link.exclusion.isSome⟩ : Result s)) with hress₁
      have hbest₁ : ∀ e ∈ results₁, Best s excludedRefs e.1 e.2 := by
        intro e he
        rcases mem_append.mp he with he | he
        · exact hbest e he
        · obtain ⟨t, ht, rfl⟩ := mem_map.mp he
          obtain ⟨htgt, hinst⟩ : t ∈ targets ∧ node.link.inst = .object t := by
            simpa [hfound] using ht
          refine ⟨node, hnode, hinst, rfl, fun m hm hm' => ?_⟩
          refine hinv.least hpoll ?_ (derived_iff.mpr hm) (hm'.trans hinst.symm)
          exact fun hseen => hnew t htgt (hinst ▸ hseen)
      have hsplit : ∀ t ∈ targets, (∃ r, (t, r) ∈ results₁) ∨ t ∈ rest := by
        intro t ht
        by_cases hinst : node.link.inst = .object t
        · refine .inl ⟨_, mem_append_right _ (mem_map.mpr ⟨t, ?_, rfl⟩)⟩
          simp [hfound, ht, hinst]
        · exact .inr (by simp [hrest, ht, hinst])
      by_cases hdone : found ≠ [] ∧ rest = []
      · rw [if_pos hdone]
        refine ⟨results₁, rfl, hbest₁, fun e he => mem_append_left _ he, fun t ht => ?_⟩
        rcases hsplit t ht with hr | ht
        · exact .inl hr
        · rw [hdone.2] at ht
          cases ht
      · have hnew₁ : ∀ t ∈ rest, ¬ (searchSpace s excludedRefs).Seen
            ((searchSpace s excludedRefs).visit q₁ node) (.object t) := by
          intro t ht hseen
          obtain ⟨htgt, hinst⟩ : t ∈ targets ∧ node.link.inst ≠ .object t := by
            simpa [hrest] using ht
          rcases seen_visit hpoll hseen with hseen | heq
          · exact hnew t htgt hseen
          · exact hinst heq.symm
        have hless := SearchSpace.measure_turn (G := searchSpace s excludedRefs) hinv.nodup hpoll
        obtain ⟨results', hloop, hbest', hsub, hfind⟩ :=
          ih (hinv.turn hpoll) (by omega) hnew₁ hbest₁
        refine ⟨results', ?_, hbest', fun e he => hsub e (mem_append_left _ he), ?_⟩
        · rw [← hloop, visit_toFinder q₁ hnode]
          split_ifs <;> rfl
        · intro t ht
          rcases hsplit t ht with ⟨r, hr⟩ | ht
          · exact .inl ⟨r, hsub _ hr⟩
          · exact hfind t ht

theorem card_vertex (s : Snapshot n) : Fintype.card (Vertex s) = s.gcRoots.length + n := by
  let e : Vertex s ≃ Fin s.gcRoots.length ⊕ Fin n :=
    { toFun := fun v => v.casesOn .inl .inr
      invFun := Sum.elim .root .object
      left_inv := fun v => by cases v <;> rfl
      right_inv := fun v => by cases v <;> rfl }
  rw [Fintype.card_congr e, Fintype.card_sum, Fintype.card_fin, Fintype.card_fin]

theorem findPath_best {targets : List (Fin n)}
    (htgts : ∀ t ∈ targets, skipped s (.object t) = false) {fuel : ℕ}
    (hfuel : 2 * (s.gcRoots.length + n) < fuel) :
    ∃ results, findPath fuel s excludedRefs targets = .ok results ∧
      (∀ e ∈ results, Best s excludedRefs e.1 e.2) ∧
      ∀ t ∈ targets, (∃ r, (t, r) ∈ results) ∨
        ¬ ∃ m, Leads s excludedRefs (followed s excludedRefs) m ∧ m.link.inst = .object t := by
  unfold findPath
  by_cases hemp : targets = []
  · rw [hemp]
    exact ⟨[], rfl, nofun, nofun⟩
  · have hstrs : (targets.all fun t => !isString (s.instances t)) = true := by
      rw [List.all_eq_true]
      intro t ht
      have := htgts t ht
      simp only [skipped, Bool.or_eq_false_iff] at this
      simpa [Finder.isStringVertex] using this.2
    have hroots : (gcRootNodes s excludedRefs).foldl (Finder.enqueue true) ⟨[], [], [], [], []⟩ =
        toFinder (searchSpace s excludedRefs).init := by
      have hmap : (gcRootNodes s excludedRefs).map ReferenceNode.displayed =
          gcRootNodes s excludedRefs := by
        refine (map_congr_left fun node hnode => ?_).trans (map_id _)
        obtain ⟨i, rfl, -⟩ := mem_gcRootNodes hnode
        rfl
      rw [SearchSpace.init, ← foldl_enqueue_toFinder]
      change _ = ((gcRootNodes s excludedRefs).map ReferenceNode.displayed).foldl _ _
      rw [hmap]
      rfl
    have hmeas := SearchSpace.measure_init (searchSpace s excludedRefs)
    rw [card_vertex] at hmeas
    have huns : ∀ t ∈ targets.dedup, ¬ (searchSpace s excludedRefs).Seen
        (searchSpace s excludedRefs).init (.object t) := by
      rintro t - ⟨u, hu, -⟩
      rw [SearchSpace.init, SearchSpace.visited_enqueueAll] at hu
      cases hu
    obtain ⟨results, hloop, hbest, -, hfind⟩ := loop_spec fuel
      (SearchSpace.searchInv_init (searchSpace s excludedRefs)) (by omega) huns
      fun e (he : e ∈ ([] : List (Fin n × Result s))) => absurd he not_mem_nil
    refine ⟨results, ?_, hbest, fun t ht => hfind t (mem_dedup.mpr ht)⟩
    rw [if_neg hemp]
    simp only [hstrs, hroots]
    exact hloop

/-! ## The flag -/

section Spec

variable (s excludedRefs) (targets : List (Fin n))

/-- There is a path without any excluded reference. -/
def PlainlyReachable (t : Fin n) : Prop :=
  ∃ m, Leads s excludedRefs (references s excludedRefs) m ∧ m.link.inst = .object t ∧ m.Plain

/-- What the results are meant to be. A target has a result if a path without references that are
always excluded leads to it; the flag tells whether only paths with excluded references do; if the
flag is not set, the chain is a shortest path without any, and if it is set, the chain has one. -/
structure PathSpec (results : List (Fin n × Result s)) : Prop where
  found : ∀ t ∈ targets, (∃ r, (t, r) ∈ results) ↔
    ∃ m, Leads s excludedRefs (references s excludedRefs) m ∧ m.link.inst = .object t ∧ m.NoAlways
  flag : ∀ t ∈ targets, ∀ r, (t, r) ∈ results →
    (r.excludingKnown = false ↔ PlainlyReachable s excludedRefs t)
  shortest : ∀ t ∈ targets, ∀ r, (t, r) ∈ results → r.excludingKnown = false →
    ∃ m, Leads s excludedRefs (references s excludedRefs) m ∧ m.link.inst = .object t ∧ m.Plain ∧
      r.referenceChainHead = m.displayed ∧
      ∀ m', Leads s excludedRefs (references s excludedRefs) m' → m'.link.inst = .object t →
        m'.Plain → m.chain.length ≤ m'.chain.length
  known : ∀ t ∈ targets, ∀ r, (t, r) ∈ results → r.excludingKnown = true →
    ∃ link ∈ r.referenceChainHead.chain, link.exclusion ≠ none

/-- No target is reached only through fields that are always excluded. -/
def ReachableAnyway : Prop :=
  ∀ t ∈ targets, (∃ m, Leads s excludedRefs (followed s excludedRefs) m ∧ m.link.inst = .object t) →
    ∃ m, Leads s excludedRefs (references s excludedRefs) m ∧ m.link.inst = .object t ∧ m.NoAlways

/-- A path with as few excluded references as any that the search can take. -/
def Fewest (node : ReferenceNode s) : Prop :=
  Leads s excludedRefs (followed s excludedRefs) node ∧
    ∀ m, Leads s excludedRefs (followed s excludedRefs) m → m.link.inst = node.link.inst →
      node.exclusions ≤ m.exclusions

/-- Where a target needs excluded references, a path with the fewest of them ends with one. -/
def ExcludedLast : Prop :=
  ∀ t ∈ targets, ¬ PlainlyReachable s excludedRefs t →
    ∀ m, Fewest s excludedRefs m → m.link.inst = .object t → m.link.exclusion ≠ none

/-- Where a target needs excluded references, some path with the fewest of them ends with one. -/
def CanEndExcluded : Prop :=
  ∀ t ∈ targets, ¬ PlainlyReachable s excludedRefs t →
    (∃ m, Leads s excludedRefs (followed s excludedRefs) m ∧ m.link.inst = .object t) →
    ∃ m, Fewest s excludedRefs m ∧ m.link.inst = .object t ∧ m.link.exclusion ≠ none

end Spec

theorem exclusions_eq (node : ReferenceNode s) :
    node.exclusions = (weigh node.chain).exclusions := (exclusions_weigh _).symm

theorem exclusions_le {m : ReferenceNode s} (h : weigh node.chain ≤ weigh m.chain) :
    node.exclusions ≤ m.exclusions := by
  rw [Weight.le_iff] at h
  rw [exclusions_eq, exclusions_eq]
  omega

theorem plain_of_best {m : ReferenceNode s} (h : weigh node.chain ≤ weigh m.chain)
    (hm : m.Plain) : node.Plain ∧ node.chain.length ≤ m.chain.length := by
  have hzero := ReferenceNode.plain_iff.mp hm
  have hnode : node.exclusions = 0 := Nat.le_zero.mp (hzero ▸ exclusions_le h)
  refine ⟨ReferenceNode.plain_iff.mpr hnode, ?_⟩
  rw [exclusions_eq] at hzero hnode
  rw [Weight.le_iff, length_weigh hzero, length_weigh hnode] at h
  omega

theorem leads_references
    (h : Leads s excludedRefs (followed s excludedRefs) node) :
    Leads s excludedRefs (references s excludedRefs) node := h.mono fun _ _ => followed_subset

/-- **Paths and flags.** The results are what they are meant to be if no target is reached only through
fields that are always excluded and, for each target that needs excluded references, the paths with
the fewest of them end with one. They are not if a target is reached only through such fields, or no
such path ends with one. -/
theorem findPath_pathSpec {targets : List (Fin n)}
    (htargets : ∀ t ∈ targets, skipped s (.object t) = false) {fuel : ℕ}
    (hfuel : 2 * (s.gcRoots.length + n) < fuel) :
    ∃ results, findPath fuel s excludedRefs targets = .ok results ∧
      (ReachableAnyway s excludedRefs targets ∧ ExcludedLast s excludedRefs targets →
        PathSpec s excludedRefs targets results) ∧
      (PathSpec s excludedRefs targets results →
        ReachableAnyway s excludedRefs targets ∧ CanEndExcluded s excludedRefs targets) := by
  obtain ⟨results, hok, hbest, hfind⟩ := @findPath_best n s excludedRefs targets htargets fuel hfuel
  refine ⟨results, hok, fun ⟨hanyw, hlast⟩ => ?_, fun hspec => ⟨?_, ?_⟩⟩
  · have hplain : ∀ t ∈ targets, ∀ r, (t, r) ∈ results → r.excludingKnown = false →
        PlainlyReachable s excludedRefs t := by
      intro t ht r hr hflag
      obtain ⟨node, hnode, hinst, rfl, hleast⟩ := hbest _ hr
      by_contra hnot
      refine hlast t ht hnot node ⟨hnode, fun m hm hm' => ?_⟩ hinst (by simpa using hflag)
      exact exclusions_le (hleast m hm (hm'.trans hinst))
    have hreach : ∀ t m, Leads s excludedRefs (references s excludedRefs) m → m.NoAlways →
        m.link.inst = .object t → t ∈ targets → ∃ r, (t, r) ∈ results := by
      intro t m hm hno hinst ht
      rcases hfind t ht with hr | hnone
      · exact hr
      · exact absurd ⟨m, hm.followed hno, hinst⟩ hnone
    constructor
    · intro t ht
      constructor
      · rintro ⟨r, hr⟩
        obtain ⟨node, hnode, hinst, -, -⟩ := hbest _ hr
        exact hanyw t ht ⟨node, hnode, hinst⟩
      · rintro ⟨m, hm, hinst, hno⟩
        exact hreach t m hm hno hinst ht
    · intro t ht r hr
      refine ⟨hplain t ht r hr, ?_⟩
      rintro ⟨m, hm, hinst, hm'⟩
      obtain ⟨node, hnode, hinst', rfl, hleast⟩ := hbest _ hr
      have hnodePlain := (plain_of_best (hleast m (hm.followed hm'.noAlways) hinst) hm').1
      simpa using hnodePlain node.link (mem_cons_self ..)
    · intro t ht r hr hflag
      obtain ⟨m, hm, hinst, hm'⟩ := hplain t ht r hr hflag
      obtain ⟨node, hnode, hinst', rfl, hleast⟩ := hbest _ hr
      refine ⟨node, leads_references hnode, hinst', ?_, rfl, fun m' hlead hinst'' hm'' => ?_⟩
      · exact (plain_of_best (hleast m (hm.followed hm'.noAlways) hinst) hm').1
      · exact (plain_of_best (hleast m' (hlead.followed hm''.noAlways) hinst'') hm'').2
    · intro t ht r hr hflag
      obtain ⟨node, hnode, hinst, rfl, -⟩ := hbest _ hr
      exact ⟨node.link, mem_cons_self .., isSome_iff_ne_none.mp hflag⟩
  · intro t ht hreach
    rcases hfind t ht with hr | hnone
    · exact (hspec.found t ht).mp hr
    · exact absurd hreach hnone
  · intro t ht hnot hreach
    rcases hfind t ht with ⟨r, hr⟩ | hnone
    · have hflag : r.excludingKnown ≠ false := fun h => hnot ((hspec.flag t ht r hr).mp h)
      obtain ⟨node, hnode, hinst, rfl, hleast⟩ := hbest _ hr
      refine ⟨node, ⟨hnode, fun m hm hm' => exclusions_le (hleast m hm (hm'.trans hinst))⟩, hinst, ?_⟩
      simpa [isSome_iff_ne_none] using hflag
    · exact absurd hreach hnone

/-- A class holds an object; the object's field is excluded and leads to another one, which holds
the leak in a field of its own. -/
def leakSnapshot : Snapshot 3 where
  instances
    | 0 => .classInstance ["Holder".toList] [(⟨"known".toList, true⟩, some 1)]
    | 1 => .classInstance ["Middle".toList] [(⟨"field".toList, true⟩, some 2)]
    | 2 => .classInstance ["Leak".toList] []
  threadName := fun _ => []
  gcRoots := [⟨.systemClass, some 0, 0⟩]

def knownField : ExcludedRefs where
  fieldNameByClassName := (∅ : OrdMap Text (OrdMap Text Exclusion)).insert "Holder".toList
    ((∅ : OrdMap Text Exclusion).insert "known".toList ⟨"field Holder#known".toList, false⟩)
  staticFieldNameByClassName := ∅
  threadNames := ∅
  classNames := ∅

theorem findPath_pathSpec_leak :
    ∃ results, findPath 10 leakSnapshot knownField [2] = .ok results ∧
      (ReachableAnyway leakSnapshot knownField [2] ∧ ExcludedLast leakSnapshot knownField [2] →
        PathSpec leakSnapshot knownField [2] results) ∧
      (PathSpec leakSnapshot knownField [2] results →
        ReachableAnyway leakSnapshot knownField [2] ∧ CanEndExcluded leakSnapshot knownField [2]) :=
  findPath_pathSpec (by decide) (by decide)

theorem not_plainlyReachable_leak : ¬ PlainlyReachable leakSnapshot knownField 2 := by
  have hroot : ∀ i, ∀ link ∈ references leakSnapshot knownField (.root i), link.inst = .object 0 := by
    decide +kernel
  have hfst : ∀ link ∈ references leakSnapshot knownField (.object 0), link.exclusion ≠ none := by
    decide +kernel
  have hplain : ∀ m, Leads leakSnapshot knownField (references leakSnapshot knownField) m →
      m.Plain → (∃ i, m.link.inst = .root i) ∨ m.link.inst = .object 0 := by
    intro m hm hm'
    induction hm with
    | root hmem =>
      obtain ⟨i, rfl, -⟩ := mem_gcRootNodes hmem
      exact .inl ⟨i, rfl⟩
    | step _ hlink _ ih =>
      rcases ih fun link hl => hm' link (mem_cons_of_mem _ hl) with ⟨i, hi⟩ | hi
      · exact .inr (hroot i _ (hi ▸ hlink))
      · exact absurd (hm' _ (mem_cons_self ..)) (hfst _ (hi ▸ hlink))
  rintro ⟨m, hm, hinst, hm'⟩
  rcases hplain m hm hm' with ⟨i, hi⟩ | hi
  · rw [hi] at hinst
    exact nomatch hinst
  · rw [hi] at hinst
    exact absurd hinst (by decide)

/-- The flag of the leak is not set, although every path to it has the excluded field. -/
theorem excluded_reference_is_not_last :
    ∃ results, findPath 10 leakSnapshot knownField [2] = .ok results ∧
      ¬ PathSpec leakSnapshot knownField [2] results := by
  have hflag : ((findPath 10 leakSnapshot knownField [2]).toOption.getD []).map
      (fun e => (e.1, e.2.excludingKnown)) = [(2, false)] := by
    decide +kernel
  cases hfind : findPath 10 leakSnapshot knownField [2] with
  | error e =>
    rw [hfind] at hflag
    exact absurd hflag (by simp [Except.toOption])
  | ok results =>
    rw [hfind] at hflag
    have hmem : ((2 : Fin 3), false) ∈ results.map fun e => (e.1, e.2.excludingKnown) :=
      hflag ▸ mem_singleton_self _
    obtain ⟨⟨t, r⟩, hr, heq⟩ := mem_map.mp hmem
    obtain ⟨rfl, hfalse⟩ := Prod.mk.inj heq
    refine ⟨results, rfl, fun hspec => not_plainlyReachable_leak ?_⟩
    exact (hspec.flag _ (by decide) r hr).mp hfalse

end TraceHarbor.ResourceAnalyzer
