import TraceHarbor.Hprof.Analyzer
import TraceHarbor.Lib.Distance

/-!
# The Leak-Chain Search Finds Shortest Paths

The back pointers of `traversed` form paths to the roots, one per object (`Traced`). All depths are at
most one above the depth at the front of the queue (`SearchInv`), so the test `depth <= node.depth + 1`
amounts to "already traversed", and an object not traversed yet is further away than the front of the
queue.
-/

namespace TraceHarbor.Hprof

open TraceHarbor.Lib List Option

/-- Some reference leads from one object to another. -/
def ReferenceMap.Edge (graph : ReferenceMap) (a b : ObjectId) : Prop :=
  ∃ reference, graph.get a b = some reference

/-- There is a path of `k` references from a GC root to the object. -/
def Heap.RootPath (heap : Heap) (k : ℕ) (x : ObjectId) : Prop :=
  Reach {r | r ∈ heap.gcRoots} heap.references.Edge k x

/-- A chain of stored references from a GC root to `x`. -/
structure IsLeakChain (heap : Heap) (x : ObjectId) (chain : LeakChain) : Prop where
  root : ∃ p ∈ chain.head?, p.1 ∈ heap.gcRoots
  last : chain.getLast? = some (x, none)
  edges : chain.IsChain fun p q =>
    ∃ reference, p.2 = some reference ∧ heap.references.get p.1 q.1 = some reference

/-! ## Back Pointers -/

section Search

variable {graph : ReferenceMap} {gcRoots : List ObjectId} {leak : ObjectId}

/-- The map `traversed`: GC roots at depth 0, everything else one deeper than the object it was
reached from. -/
structure Traced (graph : ReferenceMap) (gcRoots : List ObjectId)
    (traversed : OrdMap ObjectId RefNode) : Prop where
  roots : ∀ x ∈ gcRoots, traversed[x]? = some ⟨x, none, 0⟩
  back : ∀ x n, traversed[x]? = some n → (x ∈ gcRoots ∧ n = ⟨x, none, 0⟩) ∨
    ∃ p reference m, n = ⟨x, some ⟨p, reference⟩, m.depth + 1⟩ ∧
      graph.get p x = some reference ∧ traversed[p]? = some m

variable {traversed : OrdMap ObjectId RefNode} {x : ObjectId}

section

variable (h : Traced graph gcRoots traversed)

include h

theorem Traced.referentId {n : RefNode} (hx : traversed[x]? = some n) : n.referentId = x := by
  rcases h.back x n hx with ⟨_, rfl⟩ | ⟨p, reference, m, rfl, _⟩ <;> rfl

theorem Traced.insert {p : ObjectId} {m : RefNode} {reference : Reference}
    (hnew : traversed[x]? = none) (hp : traversed[p]? = some m)
    (hedge : graph.get p x = some reference) :
    Traced graph gcRoots
      (traversed.insert x ⟨x, some ⟨p, reference⟩, m.depth + 1⟩) := by
  refine ⟨fun y hy => OrdMap.get_insert_of_get hnew (h.roots y hy), fun y n hy => ?_⟩
  by_cases hyx : y = x
  · subst hyx
    rw [OrdMap.get_insert_self] at hy
    exact .inr ⟨p, reference, m, (some.inj hy).symm, hedge,
      OrdMap.get_insert_of_get hnew hp⟩
  · rw [OrdMap.get_insert_of_ne _ _ hyx] at hy
    rcases h.back y n hy with hroot | ⟨q, r, k, hn, hget, hq⟩
    · exact .inl hroot
    · exact .inr ⟨q, r, k, hn, hget, OrdMap.get_insert_of_get hnew hq⟩

theorem Traced.reach {n : RefNode} (hx : traversed[x]? = some n) :
    Reach {r | r ∈ gcRoots} graph.Edge n.depth x := by
  generalize hd : n.depth = d
  induction d generalizing x n with
  | zero =>
    rcases h.back x n hx with ⟨hroot, _⟩ | ⟨p, reference, m, rfl, _⟩
    · exact .root hroot
    · cases hd
  | succ d ih =>
    rcases h.back x n hx with ⟨_, rfl⟩ | ⟨p, reference, m, rfl, hget, hp⟩
    · cases hd
    · exact .step (ih hp (Nat.succ.inj hd)) ⟨reference, hget⟩

theorem Traced.chain {n : RefNode} (hx : traversed[x]? = some n) (last : Option Reference)
    (acc : LeakChain) :
    ∃ chain : LeakChain,
      loop (chainStep traversed) (n.depth + 2) (some x, last, acc) =
        some (some (acc ++ chain.reverse)) ∧
      chain.length = n.depth + 1 ∧ (∃ p ∈ chain.head?, p.1 ∈ gcRoots) ∧
      chain.getLast? = some (x, last) ∧
      chain.IsChain fun p q =>
        ∃ reference, p.2 = some reference ∧ graph.get p.1 q.1 = some reference := by
  generalize hd : n.depth = d
  induction d generalizing x n last acc with
  | zero =>
    rcases h.back x n hx with ⟨hroot, rfl⟩ | ⟨p, reference, m, rfl, _⟩
    · have hstep : chainStep traversed (some x, last, acc) =
          .inl (none, last, acc ++ [(x, last)]) := by
        simp [chainStep, hx]
      refine ⟨[(x, last)], ?_, rfl, ⟨_, rfl, hroot⟩, rfl, isChain_singleton _⟩
      rw [loop_succ_of_inl _ hstep]
      rfl
    · cases hd
  | succ d ih =>
    rcases h.back x n hx with ⟨_, rfl⟩ | ⟨p, reference, m, rfl, hget, hp⟩
    · cases hd
    · obtain ⟨chain, hrun, hlen, ⟨q, hq, hroot⟩, hlast, hedg⟩ :=
        ih hp (some reference) (acc ++ [(x, last)]) (Nat.succ.inj hd)
      have hstep : chainStep traversed (some x, last, acc) =
          .inl (some p, some reference, acc ++ [(x, last)]) := by
        simp [chainStep, hx]
      refine ⟨chain ++ [(x, last)], ?_, ?_, ⟨q, ?_, hroot⟩, ?_, ?_⟩
      · rw [loop_succ_of_inl _ hstep, hrun]
        simp
      · simp [hlen]
      · simp [mem_def.mp hq]
      · simp
      · refine isChain_append.mpr ⟨hedg, isChain_singleton _, ?_⟩
        intro a ha b hb
        rw [hlast] at ha
        cases ha
        cases hb
        exact ⟨reference, rfl, hget⟩

end

/-! ## The Queue -/

/-- The invariant at level `level`: the waiting nodes have depth `level` or one more, in ascending
order, nothing is deeper, and every traversed object that is neither waiting nor in `busy` has all
its referents traversed. -/
structure SearchInv (graph : ReferenceMap) (gcRoots : List ObjectId) (leak : ObjectId)
    (busy : Set ObjectId) (level : ℕ) (s : Search) : Prop where
  traced : Traced graph gcRoots s.traversed
  waiting : ∀ n ∈ s.waiting, s.traversed[n.referentId]? = some n
  ascending : s.waiting.Pairwise fun m n => m.depth ≤ n.depth
  level_le : ∀ n ∈ s.waiting, level ≤ n.depth
  le_level : ∀ (x : ObjectId) (n : RefNode), s.traversed[x]? = some n → n.depth ≤ level + 1
  closed : ∀ (x : ObjectId) (n : RefNode), s.traversed[x]? = some n → n ∉ s.waiting →
    x ∉ busy → ∀ y, graph.Edge x y → ∃ m, s.traversed[y]? = some m ∧ m.depth ≤ n.depth + 1
  leak_root : ∀ n, s.traversed[leak]? = some n → leak ∈ gcRoots

variable {level : ℕ} {s : Search}

theorem SearchInv.not_reach {busy : Set ObjectId} (h : SearchInv graph gcRoots leak busy level s)
    (hbusy : ∀ x ∈ busy, ∀ n, s.traversed[x]? = some n → level ≤ n.depth)
    (hx : s.traversed[x]? = none) {k : ℕ} (hk : k ≤ level) :
    ¬ Reach {r | r ∈ gcRoots} graph.Edge k x := by
  intro hreach
  have hclos : ∀ y d, s.traversed[y]?.map RefNode.depth = some d → d < level →
      ∀ z, graph.Edge y z → ∃ e, s.traversed[z]?.map RefNode.depth = some e ∧ e ≤ d + 1 := by
    intro y d hd hlt z hedge
    obtain ⟨n, hn, rfl⟩ := map_eq_some_iff.mp hd
    have hnot : n ∉ s.waiting := fun hmem => absurd (h.level_le n hmem) (by omega)
    have hfree : y ∉ busy := fun hmem => absurd (hbusy y hmem n hn) (by omega)
    obtain ⟨m, hm, hle⟩ := h.closed y n hn hnot hfree z hedge
    exact ⟨m.depth, by simp [hm], hle⟩
  obtain ⟨d, hd, _⟩ := Reach.le_of_closed (fun y => s.traversed[y]?.map RefNode.depth)
    (fun y hy => by simp [h.traced.roots y hy]) hclos hk hreach
  simp [hx] at hd

variable {node : RefNode}

theorem SearchInv.discover {y : ObjectId} {reference : Reference}
    (h : SearchInv graph gcRoots leak {node.referentId} node.depth s)
    (hnode : s.traversed[node.referentId]? = some node) (hnew : s.traversed[y]? = none)
    (hedge : graph.get node.referentId y = some reference) (hleak : leak ≠ y) :
    SearchInv graph gcRoots leak {node.referentId} node.depth
      ⟨s.traversed.insert y ⟨y, some ⟨node.referentId, reference⟩, node.depth + 1⟩,
        s.waiting ++ [⟨y, some ⟨node.referentId, reference⟩, node.depth + 1⟩]⟩ := by
  refine
    { traced := h.traced.insert hnew hnode hedge
      waiting := forall_mem_append.mpr
        ⟨fun n hn => OrdMap.get_insert_of_get hnew (h.waiting n hn),
          forall_mem_singleton.mpr (OrdMap.get_insert_self ..)⟩
      ascending := ?_
      level_le := forall_mem_append.mpr
        ⟨h.level_le, forall_mem_singleton.mpr (Nat.le_succ _)⟩
      le_level := ?_
      closed := ?_
      leak_root := ?_ }
  · refine pairwise_append.mpr ⟨h.ascending, pairwise_singleton _ _, ?_⟩
    intro m hm n hn
    rw [mem_singleton.mp hn]
    exact h.le_level _ m (h.waiting m hm)
  · intro x n hx
    rw [OrdMap.get_insert] at hx
    split at hx
    · cases hx
      exact le_rfl
    · exact h.le_level x n hx
  · intro x n hx hn hbusy z hz
    rw [OrdMap.get_insert] at hx
    split at hx
    · cases hx
      exact absurd (mem_append_right _ (mem_singleton_self _)) hn
    · obtain ⟨m, hm, hle⟩ :=
        h.closed x n hx (fun hmem => hn (mem_append_left _ hmem)) hbusy z hz
      exact ⟨m, OrdMap.get_insert_of_get hnew hm, hle⟩
  · intro n hn
    rw [OrdMap.get_insert_of_ne _ _ hleak] at hn
    exact h.leak_root n hn

/-! ## Termination Measure -/

/-- The objects of the graph that some reference leads to. -/
def ReferenceMap.referents (graph : ReferenceMap) : Finset ObjectId :=
  (graph.toList.flatMap fun entry => entry.2.keys).toFinset

theorem ReferenceMap.mem_referents {a b : ObjectId} {reference : Reference}
    (h : graph.get a b = some reference) : b ∈ graph.referents := by
  obtain ⟨references, hgraph, hget⟩ := bind_eq_some_iff.mp h
  refine mem_toFinset.mpr (mem_flatMap.mpr ⟨(a, references), ?_, ?_⟩)
  · exact OrdMap.mem_toList.mpr hgraph
  · rw [Std.ExtTreeMap.mem_keys, Std.ExtTreeMap.mem_iff_isSome_getElem?, hget]
    rfl

/-- How many referents of the graph have not been traversed. -/
def untraversed (graph : ReferenceMap) (traversed : OrdMap ObjectId RefNode) : ℕ :=
  (graph.referents.filter fun x => traversed[x]?.isNone).card

theorem untraversed_insert (n : RefNode) (hx : x ∈ graph.referents) (hnew : traversed[x]? = none) :
    untraversed graph (traversed.insert x n) + 1 = untraversed graph traversed := by
  have hset : (graph.referents.filter fun y => ((traversed.insert x n)[y]?).isNone) =
      (graph.referents.filter fun y => traversed[y]?.isNone).erase x := by
    ext y
    by_cases hy : y = x
    · simp [hy]
    · simp only [Finset.mem_filter, Finset.mem_erase, OrdMap.get_insert_of_ne _ _ hy, ne_eq, hy,
        not_false_eq_true, true_and]
  rw [untraversed, hset, Finset.card_erase_add_one]
  · rfl
  · exact Finset.mem_filter.mpr ⟨hx, by rw [hnew]; rfl⟩

/-! ## One Round -/

/-- The result of a search that found the leak: back pointers that include it, at its distance
from the roots. -/
def FoundAt (graph : ReferenceMap) (gcRoots : List ObjectId) (leak : ObjectId)
    (traversed : OrdMap ObjectId RefNode) : Prop :=
  Traced graph gcRoots traversed ∧ leak ∉ gcRoots ∧ ∃ n, traversed[leak]? = some n ∧
    ∀ k, Reach {r | r ∈ gcRoots} graph.Edge k leak → n.depth ≤ k

theorem visitReferents_spec {l : List (ObjectId × Reference)}
    (h : SearchInv graph gcRoots leak {node.referentId} node.depth s)
    (hnode : s.traversed[node.referentId]? = some node)
    (hl : ∀ e ∈ l, graph.get node.referentId e.1 = some e.2) :
    (∃ s', visitReferents leak node l s = (true, s') ∧
        FoundAt graph gcRoots leak s'.traversed) ∨
      ∃ s', visitReferents leak node l s = (false, s') ∧
        SearchInv graph gcRoots leak {node.referentId} node.depth s' ∧
        (∀ (x : ObjectId) (m : RefNode), s.traversed[x]? = some m → s'.traversed[x]? = some m) ∧
        (∀ e ∈ l, ∃ m, s'.traversed[e.1]? = some m) ∧
        untraversed graph s'.traversed + s'.waiting.length =
          untraversed graph s.traversed + s.waiting.length := by
  induction l generalizing s with
  | nil => exact .inr ⟨s, rfl, h, fun _ _ hx => hx, by simp, rfl⟩
  | cons e rest ih =>
    obtain ⟨y, reference⟩ := e
    have hedge : graph.get node.referentId y = some reference := hl _ (mem_cons_self ..)
    have hrest := fun e he => hl e (mem_cons_of_mem _ he)
    rw [visitReferents]
    cases hy : s.traversed[y]? with
    | some m =>
      -- every traversed node is at most one deeper than the front of the queue
      have hseen : (some m).any (fun seen => decide (seen.depth ≤ node.depth + 1)) = true := by
        simpa using h.le_level y m hy
      rw [if_pos hseen]
      rcases ih h hnode hrest with hfound | ⟨s', hrun, hinv, hkeep, hall, hmeas⟩
      · exact .inl hfound
      · refine .inr ⟨s', hrun, hinv, hkeep, fun e he => ?_, hmeas⟩
        rcases mem_cons.mp he with rfl | he
        · exact ⟨m, hkeep y m hy⟩
        · exact hall e he
    | none =>
      by_cases hleak : leak = y
      · subst hleak
        left
        refine ⟨_, if_pos rfl, h.traced.insert hy hnode hedge, ?_, _, OrdMap.get_insert_self .., ?_⟩
        · intro hroot
          rw [h.traced.roots leak hroot] at hy
          cases hy
        · intro k hreach
          by_contra hlt
          refine h.not_reach ?_ hy (Nat.lt_succ_iff.mp (not_le.mp hlt)) hreach
          rintro x rfl n hn
          rw [hnode] at hn
          cases hn
          exact le_rfl
      · rw [if_neg hleak]
        have hnext := h.discover hnode hy hedge hleak
        rcases ih hnext (OrdMap.get_insert_of_get hy hnode) hrest with
          hfound | ⟨s', hrun, hinv, hkeep, hall, hmeas⟩
        · exact .inl hfound
        · refine .inr ⟨s', hrun, hinv,
            fun x m hx => hkeep x m (OrdMap.get_insert_of_get hy hx), fun e he => ?_, ?_⟩
          · rcases mem_cons.mp he with rfl | he
            · exact ⟨_, hkeep y _ (OrdMap.get_insert_self ..)⟩
            · exact hall e he
          · have hcnt := untraversed_insert
              (⟨y, some ⟨node.referentId, reference⟩, node.depth + 1⟩ : RefNode)
              (ReferenceMap.mem_referents hedge) hy
            simp only [length_append, length_singleton] at hmeas
            omega

def SearchResult (graph : ReferenceMap) (gcRoots : List ObjectId) (leak : ObjectId)
    (result : OrdMap ObjectId RefNode × Bool) : Prop :=
  if result.2 then FoundAt graph gcRoots leak result.1
  else leak ∉ gcRoots → ∀ k, ¬ Reach {r | r ∈ gcRoots} graph.Edge k leak

theorem SearchInv.exhausted (h : SearchInv graph gcRoots leak ∅ level s) (hemp : s.waiting = [])
    (hroot : leak ∉ gcRoots) (k : ℕ) : ¬ Reach {r | r ∈ gcRoots} graph.Edge k leak := by
  intro hreach
  have hall : ∀ j x, Reach {r | r ∈ gcRoots} graph.Edge j x → ∃ n, s.traversed[x]? = some n := by
    intro j x hx
    induction hx with
    | root hx => exact ⟨_, h.traced.roots _ hx⟩
    | step _ hedge ih =>
      obtain ⟨n, hn⟩ := ih
      obtain ⟨m, hm, _⟩ := h.closed _ n hn (by simp [hemp]) (Set.notMem_empty _) _ hedge
      exact ⟨m, hm⟩
  obtain ⟨n, hn⟩ := hall k leak hreach
  exact hroot (h.leak_root n hn)

/-- Taking the first node off the queue: it is the only object whose referents may be missing. -/
theorem SearchInv.pop {waiting : List RefNode}
    (h : SearchInv graph gcRoots leak ∅ level ⟨traversed, node :: waiting⟩) :
    SearchInv graph gcRoots leak {node.referentId} node.depth ⟨traversed, waiting⟩ where
  __ := h
  waiting := fun n hn => h.waiting n (mem_cons_of_mem _ hn)
  ascending := (pairwise_cons.mp h.ascending).2
  level_le := (pairwise_cons.mp h.ascending).1
  le_level := fun x n hx => by
    have := h.le_level x n hx
    have := h.level_le node (mem_cons_self ..)
    omega
  closed := fun x n hx hn hbusy y hy => by
    refine h.closed x n hx (fun hmem => ?_) (Set.notMem_empty _) y hy
    rcases mem_cons.mp hmem with rfl | hmem
    · exact hbusy (h.traced.referentId hx).symm
    · exact hn hmem

theorem SearchInv.finish (h : SearchInv graph gcRoots leak {node.referentId} node.depth s)
    (hnode : s.traversed[node.referentId]? = some node)
    (hall : ∀ y, graph.Edge node.referentId y → ∃ m, s.traversed[y]? = some m) :
    SearchInv graph gcRoots leak ∅ node.depth s :=
  { h with
    closed := fun x n hx hn _ y hy => by
      by_cases hbusy : x = node.referentId
      · subst hbusy
        rw [hnode] at hx
        cases hx
        obtain ⟨m, hm⟩ := hall y hy
        exact ⟨m, hm, h.le_level y m hm⟩
      · exact h.closed x n hx hn hbusy y hy }

/-- The measure of the search: waiting nodes and referents not yet traversed. -/
def searchMeasure (graph : ReferenceMap) (s : Search) : ℕ :=
  untraversed graph s.traversed + s.waiting.length

/-- A round that goes on keeps the invariant and lowers the measure; one that ends the search
gives its result. -/
theorem searchStep_spec (h : SearchInv graph gcRoots leak ∅ level s) :
    (∃ s' level', searchStep graph leak s = .inl s' ∧ SearchInv graph gcRoots leak ∅ level' s' ∧
        searchMeasure graph s' < searchMeasure graph s) ∨
      ∃ r, searchStep graph leak s = .inr r ∧ SearchResult graph gcRoots leak r := by
  obtain ⟨traversed, waiting⟩ := s
  cases waiting with
  | nil => exact .inr ⟨_, rfl, h.exhausted rfl⟩
  | cons node waiting =>
    have hnode := h.waiting node (mem_cons_self ..)
    have hpop := h.pop
    cases hgraph : graph[node.referentId]? with
    | none =>
      refine .inl ⟨⟨traversed, waiting⟩, node.depth, by simp [searchStep, hgraph], ?_, ?_⟩
      · refine hpop.finish hnode fun y hy => ?_
        obtain ⟨reference, hget⟩ := hy
        simp [ReferenceMap.get, hgraph] at hget
      · simp [searchMeasure]
    | some references =>
      have hget : ∀ y, graph.get node.referentId y = references[y]? := fun y => by
        simp [ReferenceMap.get, hgraph]
      have hl : ∀ e ∈ references.toList, graph.get node.referentId e.1 = some e.2 :=
        fun e he => (hget e.1).trans (OrdMap.mem_toList.mp he)
      rcases visitReferents_spec hpop hnode hl with
        ⟨s', hrun, hfound⟩ | ⟨s', hrun, hinv, hkeep, hall, hmeas⟩
      · exact .inr ⟨(s'.traversed, true), by simp [searchStep, hgraph, hrun], hfound⟩
      · refine .inl ⟨s', node.depth, by simp [searchStep, hgraph, hrun], ?_, ?_⟩
        · refine hinv.finish (hkeep _ _ hnode) fun y hy => ?_
          obtain ⟨reference, hy⟩ := hy
          exact hall (y, reference) (OrdMap.mem_toList.mpr ((hget y).symm.trans hy))
        · simp only [searchMeasure, hmeas, length_cons]
          omega

theorem searchInv_init (graph : ReferenceMap) (gcRoots : List ObjectId) (leak : ObjectId) :
    SearchInv graph gcRoots leak ∅ 0 (Search.init gcRoots) := by
  obtain ⟨htrav, hwait⟩ : (∀ x, (Search.init gcRoots).traversed[x]? =
      if x ∈ gcRoots then some ⟨x, none, 0⟩ else none) ∧
      (Search.init gcRoots).waiting = gcRoots.map fun x => ⟨x, none, 0⟩ := by
    induction gcRoots using reverseRecOn with
    | nil => exact ⟨fun x => by simp [Search.init], rfl⟩
    | append_singleton l r ih =>
      have hnext : Search.init (l ++ [r]) = ⟨(Search.init l).traversed.insert r ⟨r, none, 0⟩,
        (Search.init l).waiting ++ [⟨r, none, 0⟩]⟩ := by simp [Search.init]
      refine ⟨fun x => ?_, by simp [hnext, ih.2]⟩
      rw [hnext, OrdMap.get_insert, ih.1]
      by_cases hr : x = r <;> simp [hr]
  have hmem : ∀ (x : ObjectId) (n : RefNode), (Search.init gcRoots).traversed[x]? = some n →
      x ∈ gcRoots ∧ n = ⟨x, none, 0⟩ := by
    intro x n hx
    rw [htrav x] at hx
    split at hx
    · rename_i hroot
      exact ⟨hroot, (some.inj hx).symm⟩
    · simp at hx
  have hnode : ∀ n, n ∈ (Search.init gcRoots).waiting ↔ ∃ x ∈ gcRoots, n = ⟨x, none, 0⟩ := by
    intro n
    simp [hwait, eq_comm]
  refine
    { traced := ⟨fun x hx => by rw [htrav, if_pos hx], fun x n hx => .inl (hmem x n hx)⟩
      waiting := ?_
      ascending := ?_
      level_le := fun n _ => Nat.zero_le _
      le_level := ?_
      closed := ?_
      leak_root := fun n hn => (hmem leak n hn).1 }
  · intro n hn
    obtain ⟨x, hx, rfl⟩ := (hnode n).mp hn
    rw [htrav, if_pos hx]
  · refine pairwise_of_forall_mem_list fun m hm n hn => ?_
    obtain ⟨_, _, rfl⟩ := (hnode m).mp hm
    exact Nat.zero_le _
  · intro x n hx
    obtain ⟨_, rfl⟩ := hmem x n hx
    exact Nat.zero_le _
  · intro x n hx hn
    obtain ⟨hroot, rfl⟩ := hmem x n hx
    exact absurd ((hnode _).mpr ⟨x, hroot, rfl⟩) hn

theorem search_terminates (graph : ReferenceMap) (gcRoots : List ObjectId) (leak : ObjectId) :
    ∃ fuel r, loop (searchStep graph leak) fuel (Search.init gcRoots) = some r ∧
      SearchResult graph gcRoots leak r := by
  have hag : ∀ s s', (∃ level, SearchInv graph gcRoots leak ∅ level s) →
      searchStep graph leak s = .inl s' →
      (∃ level, SearchInv graph gcRoots leak ∅ level s') ∧
        searchMeasure graph s' < searchMeasure graph s := by
    rintro s s' ⟨level, h⟩ hstep
    rcases searchStep_spec h with ⟨s'', level', heq, hinv, hlt⟩ | ⟨r, heq, _⟩
    · rw [hstep] at heq
      cases heq
      exact ⟨⟨level', hinv⟩, hlt⟩
    · rw [hstep] at heq
      cases heq
  have hdone : ∀ s r, (∃ level, SearchInv graph gcRoots leak ∅ level s) →
      searchStep graph leak s = .inr r → SearchResult graph gcRoots leak r := by
    rintro s r ⟨level, h⟩ hstep
    rcases searchStep_spec h with ⟨s', level', heq, _, _⟩ | ⟨r', heq, hr⟩
    · rw [hstep] at heq
      cases heq
    · rw [hstep] at heq
      cases heq
      exact hr
  obtain ⟨r, hrun, hr⟩ := loop_of_measure (searchMeasure graph) hag hdone
    ⟨0, searchInv_init graph gcRoots leak⟩
  exact ⟨_, r, hrun, hr⟩

end Search

/-! ## The Chains -/

/-- What the search for one tracked object has to return. -/
def LeakChainSpec (heap : Heap) (leak : ObjectId) : Option LeakChain → Prop
  | none => leak ∉ heap.gcRoots → ∀ k, ¬ heap.RootPath k leak
  | some chain => leak ∉ heap.gcRoots ∧ IsLeakChain heap leak chain ∧
      heap.RootPath (chain.length - 1) leak ∧ ∀ k, heap.RootPath k leak → chain.length ≤ k + 1

theorem findLeakChain_spec (heap : Heap) (leak : ObjectId) :
    ∃ fuel₀ result, LeakChainSpec heap leak result ∧
      ∀ fuel ≥ fuel₀, findLeakChain fuel heap leak = some result := by
  obtain ⟨fuel₁, ⟨traversed, found⟩, hsear, hres⟩ :=
    search_terminates heap.references heap.gcRoots leak
  cases found with
  | false =>
    refine ⟨fuel₁, none, hres, fun fuel hfuel => ?_⟩
    simp [findLeakChain, loop_eq_some_of_le hsear hfuel]
  | true =>
    obtain ⟨htrac, hroot, n, hn, hmin⟩ := hres
    obtain ⟨chain, hrun, hlen, hhead, hlast, hedg⟩ := htrac.chain hn none []
    refine ⟨max fuel₁ (n.depth + 2), some chain, ⟨hroot, ⟨hhead, hlast, hedg⟩, ?_, ?_⟩, ?_⟩
    · rw [hlen]
      exact htrac.reach hn
    · intro k hk
      have := hmin k hk
      omega
    · intro fuel hfuel
      simp [findLeakChain, loop_eq_some_of_le hsear (le_of_max_le_left hfuel),
        loop_eq_some_of_le hrun (le_of_max_le_right hfuel)]

theorem findLeakChains_eq (heap : Heap) (tracked : List ObjectId) :
    ∃ (result : ObjectId → Option LeakChain) (fuel₀ : ℕ) (ret : OrdMap ObjectId LeakChain),
      (∀ x, LeakChainSpec heap x (result x)) ∧
      (∀ fuel ≥ fuel₀, findLeakChains fuel heap tracked = some ret) ∧
      ∀ x, ret[x]? = if x ∈ tracked then result x else none := by
  choose fuel result hspec hrun using findLeakChain_spec heap
  obtain ⟨f, hf, hstep⟩ : ∃ f : ℕ → OrdMap ObjectId LeakChain → ObjectId → Option _,
      (∀ fuel, findLeakChains fuel heap tracked = tracked.foldlM (f fuel) ∅) ∧
      ∀ fuel ret leak r, findLeakChain fuel heap leak = some r →
        f fuel ret leak = some (r.elim ret (ret.insert leak)) := by
    refine ⟨_, fun _ => rfl, fun fuel ret leak r hr => ?_⟩
    rw [hr]
    cases r <;> rfl
  have hfold : ∀ (l : List ObjectId) (ret₀ : OrdMap ObjectId LeakChain),
      ∃ (fuel₀ : ℕ) (ret : OrdMap ObjectId LeakChain),
        (∀ fuel ≥ fuel₀, l.foldlM (f fuel) ret₀ = some ret) ∧
        ∀ x, ret[x]? = if x ∈ l then (result x).or ret₀[x]? else ret₀[x]? := by
    intro l
    induction l with
    | nil => exact fun ret₀ => ⟨0, ret₀, fun _ _ => rfl, by simp⟩
    | cons leak rest ih =>
      intro ret₀
      obtain ⟨fuel₁, ret, hrest, hget⟩ := ih ((result leak).elim ret₀ (ret₀.insert leak))
      refine ⟨max (fuel leak) fuel₁, ret, fun n hn => ?_, fun x => ?_⟩
      · rw [foldlM_cons, hstep n _ leak _ (hrun leak n (le_of_max_le_left hn)),
          ← hrest n (le_of_max_le_right hn)]
        rfl
      · rw [hget x]
        by_cases hx : x = leak <;> cases hleak : result leak <;> simp [hx, hleak, OrdMap.get_insert]
  obtain ⟨fuel₀, ret, hret, hget⟩ := hfold tracked ∅
  refine ⟨result, fuel₀, ret, hspec, fun n hn => (hf n).trans (hret n hn), fun x => ?_⟩
  rw [hget x]
  simp

/-- **Leak chains are exact shortest paths**: the search ends on every graph; its result has an entry
exactly for the tracked objects that are no GC root and can be reached from one, a chain of stored
references from a GC root with the fewest references possible. -/
theorem findLeakChains_shortest (heap : Heap) (tracked : List ObjectId) :
    ∃ (fuel₀ : ℕ) (ret : OrdMap ObjectId LeakChain),
      (∀ fuel ≥ fuel₀, findLeakChains fuel heap tracked = some ret) ∧
      (∀ x, x ∈ ret ↔ x ∈ tracked ∧ x ∉ heap.gcRoots ∧ ∃ k ≥ 1, heap.RootPath k x) ∧
      ∀ x chain, ret[x]? = some chain → IsLeakChain heap x chain ∧
        ∀ k, heap.RootPath k x → chain.length ≤ k + 1 := by
  obtain ⟨result, fuel₀, ret, hspec, hrun, hget⟩ := findLeakChains_eq heap tracked
  refine ⟨fuel₀, ret, hrun, fun x => ?_, fun x chain hx => ?_⟩
  · have hx := hspec x
    rw [Std.ExtTreeMap.mem_iff_isSome_getElem?, hget x]
    cases hr : result x with
    | none =>
      rw [hr] at hx
      simp only [ite_self, isSome_none, Bool.false_eq_true, false_iff, not_and]
      rintro - hroot ⟨k, _, hk⟩
      exact hx hroot k hk
    | some chain =>
      rw [hr] at hx
      obtain ⟨hroot, _, hreach, _⟩ := hx
      have hpos : 1 ≤ chain.length - 1 := by
        by_contra hzero
        rw [Nat.lt_one_iff.mp (not_le.mp hzero)] at hreach
        exact hroot (reach_zero.mp hreach : x ∈ {r | r ∈ heap.gcRoots})
      by_cases htrk : x ∈ tracked
      · simp only [htrk, if_true, isSome_some, true_and, true_iff]
        exact ⟨hroot, _, hpos, hreach⟩
      · simp [htrk]
  · rw [hget x] at hx
    split at hx
    · have hspecx := hspec x
      rw [hx] at hspecx
      exact ⟨hspecx.2.1, hspecx.2.2.2⟩
    · cases hx

end TraceHarbor.Hprof
