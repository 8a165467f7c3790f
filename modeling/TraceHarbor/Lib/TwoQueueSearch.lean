import Mathlib

/-!
# Search with a Queue and a Deferred Queue

A graph is searched from some roots. A node of the search is a vertex together with the way it was
reached. Nodes reached in a less desirable way wait in a second queue, which is used only while the
first one is empty. A vertex is entered at most once into each queue.

The nodes carry a weight, which grows along the edges. A `SearchSpace` states what makes the two queues
come out in the order of the weights. Then the first node that leaves the queues for a vertex is one of
least weight, and every vertex that can be reached is visited.
-/

namespace TraceHarbor.Lib

open List

/-- Nodes over the vertices of a graph. The weight of a child is that of its parent, extended over a
plain or a deferred edge. The roots are the children of a start that is no node itself. -/
structure SearchSpace (V N W : Type*) [LinearOrder W] where
  vertex : N → V
  deferred : N → Bool
  children : N → List N
  skip : V → Bool
  roots : List N
  weight : N → W
  start : W
  extend : Bool → W → W
  weight_root : ∀ r ∈ roots, weight r = extend (deferred r) start
  weight_child : ∀ p, ∀ c ∈ children p, weight c = extend (deferred c) (weight p)
  same_children : ∀ p p', vertex p = vertex p' → ∀ c ∈ children p,
    ∃ c' ∈ children p', vertex c' = vertex c ∧ deferred c' = deferred c
  extend_mono : ∀ b, Monotone (extend b)
  le_extend : ∀ w, w ≤ extend false w
  extend_le : ∀ w, extend false w ≤ extend true w
  /-- plain edges do not reach beyond a deferred node -/
  extend_le_deferred : ∀ w n, deferred n = true → w ≤ weight n → extend false w ≤ weight n

/-- The two queues, the vertices that were ever in them, and the nodes visited. -/
structure TwoQueues (V N : Type*) where
  now : List N
  later : List N
  met : List V
  metLater : List V
  visited : List N

namespace SearchSpace

variable {V N W : Type*} [LinearOrder W] (G : SearchSpace V N W)

/-! ## The search -/

/-- A vertex that was visited. -/
def Seen (s : TwoQueues V N) (v : V) : Prop := ∃ u ∈ s.visited, G.vertex u = v

instance [DecidableEq V] (s : TwoQueues V N) (v : V) : Decidable (G.Seen s v) :=
  inferInstanceAs (Decidable (∃ u ∈ s.visited, G.vertex u = v))

def enqueue [DecidableEq V] (s : TwoQueues V N) (c : N) : TwoQueues V N :=
  if G.skip (G.vertex c) = true then s
  else if G.vertex c ∈ s.met then s
  else if G.deferred c = true ∧ G.vertex c ∈ s.metLater then s
  else if G.Seen s (G.vertex c) then s
  else if G.deferred c = true then
    { s with
      later := s.later ++ [c]
      metLater := G.vertex c :: s.metLater }
  else
    { s with
      now := s.now ++ [c]
      met := G.vertex c :: s.met }

def enqueueAll [DecidableEq V] (s : TwoQueues V N) (cs : List N) : TwoQueues V N := cs.foldl G.enqueue s

/-- The next node, and the queues without it. -/
def poll (s : TwoQueues V N) : Option (N × TwoQueues V N) :=
  match s.now, s.later with
  | n :: rest, _ => some (n, { s with now := rest })
  | [], n :: rest => some (n, { s with later := rest })
  | [], [] => none

/-- What is done with a node that leaves the queues. -/
def visit [DecidableEq V] (s : TwoQueues V N) (n : N) : TwoQueues V N :=
  if G.Seen s (G.vertex n) then s
  else G.enqueueAll { s with visited := n :: s.visited } (G.children n)

def init [DecidableEq V] : TwoQueues V N := G.enqueueAll ⟨[], [], [], [], []⟩ G.roots

/-- A node that can be reached through vertices that are not skipped. -/
inductive Derived : N → Prop
  | root {r : N} : r ∈ G.roots → G.skip (G.vertex r) = false → Derived r
  | child {p c : N} : Derived p → c ∈ G.children p → G.skip (G.vertex c) = false → Derived c

/-! ## The invariant -/

/-- A vertex was visited, or is in a queue, with at most the given weight. -/
def Discovered (s : TwoQueues V N) (v : V) (w : W) : Prop :=
  (∃ u ∈ s.visited, G.vertex u = v ∧ G.weight u ≤ w) ∨
    ∃ m ∈ s.now ++ s.later, G.vertex m = v ∧ G.weight m ≤ w

/-- What holds while nodes of weight `w` are visited: the queues are sorted, the second one behind
the first, and hold what is in reach of `w`. -/
structure SearchInv (w : W) (offered : N → Prop) (s : TwoQueues V N) : Prop where
  derived : ∀ m ∈ s.now ++ s.later, G.Derived m
  plain : ∀ m ∈ s.now, G.deferred m = false
  deferred : ∀ m ∈ s.later, G.deferred m = true
  met : ∀ v ∈ s.met, G.Seen s v ∨ ∃ m ∈ s.now, G.vertex m = v
  metLater : ∀ v ∈ s.metLater, G.Seen s v ∨ ∃ m ∈ s.later, G.vertex m = v
  nodup : s.met.Nodup ∧ s.metLater.Nodup
  sorted : (s.now ++ s.later).Pairwise fun m m' => G.weight m ≤ G.weight m'
  above : ∀ m ∈ s.now ++ s.later, w ≤ G.weight m
  now_le : ∀ m ∈ s.now, G.weight m ≤ G.extend false w
  later_le : ∀ m ∈ s.later, G.weight m ≤ G.extend true w
  visited_le : ∀ u ∈ s.visited, G.weight u ≤ w
  discovered : ∀ c, offered c → G.skip (G.vertex c) = false →
    G.Discovered s (G.vertex c) (G.weight c)

variable {G} {w : W} {offered : N → Prop} {s s' t : TwoQueues V N} {n c : N}

theorem Discovered.mono (h : G.Discovered s (G.vertex c) w)
    (hvis : ∀ u ∈ s.visited, u ∈ s'.visited)
    (hqueu : ∀ m ∈ s.now ++ s.later, m ∈ s'.now ++ s'.later) :
    G.Discovered s' (G.vertex c) w := by
  rcases h with ⟨u, hu, hrest⟩ | ⟨m, hm, hrest⟩
  · exact .inl ⟨u, hvis u hu, hrest⟩
  · exact .inr ⟨m, hqueu m hm, hrest⟩

theorem searchInv_empty (w : W) : G.SearchInv w (fun _ => False) ⟨[], [], [], [], []⟩ := by
  constructor <;> simp

/-! ## Offering a node -/

theorem enqueue_cases [DecidableEq V] (G : SearchSpace V N W) (s : TwoQueues V N) (c : N) :
    (G.enqueue s c = s ∧ (G.skip (G.vertex c) = true ∨ G.vertex c ∈ s.met ∨
        (G.deferred c = true ∧ G.vertex c ∈ s.metLater) ∨ G.Seen s (G.vertex c))) ∨
      (G.skip (G.vertex c) = false ∧ G.deferred c = true ∧ G.vertex c ∉ s.metLater ∧
        G.enqueue s c = { s with
          later := s.later ++ [c]
          metLater := G.vertex c :: s.metLater }) ∨
      (G.skip (G.vertex c) = false ∧ G.deferred c = false ∧ G.vertex c ∉ s.met ∧
        G.enqueue s c = { s with
          now := s.now ++ [c]
          met := G.vertex c :: s.met }) := by
  unfold enqueue
  by_cases hskip : G.skip (G.vertex c) = true
  · exact .inl ⟨if_pos hskip, .inl hskip⟩
  rw [if_neg hskip]
  by_cases hmet : G.vertex c ∈ s.met
  · exact .inl ⟨if_pos hmet, .inr (.inl hmet)⟩
  rw [if_neg hmet]
  by_cases hmetLater : G.deferred c = true ∧ G.vertex c ∈ s.metLater
  · exact .inl ⟨if_pos hmetLater, .inr (.inr (.inl hmetLater))⟩
  rw [if_neg hmetLater]
  by_cases hseen : G.Seen s (G.vertex c)
  · exact .inl ⟨if_pos hseen, .inr (.inr (.inr hseen))⟩
  rw [if_neg hseen]
  rw [Bool.not_eq_true] at hskip
  by_cases hdfr : G.deferred c = true
  · exact .inr (.inl ⟨hskip, hdfr, fun h => hmetLater ⟨hdfr, h⟩, if_pos hdfr⟩)
  · exact .inr (.inr ⟨hskip, Bool.not_eq_true _ ▸ hdfr, hmet, if_neg hdfr⟩)

section

variable (h : G.SearchInv w offered s)

include h

/-- A node that is not taken in was discovered before, with at most its weight. -/
theorem SearchInv.discovered_of_refused (hwt : G.weight c = G.extend (G.deferred c) w)
    (href : G.vertex c ∈ s.met ∨ (G.deferred c = true ∧ G.vertex c ∈ s.metLater) ∨
      G.Seen s (G.vertex c)) : G.Discovered s (G.vertex c) (G.weight c) := by
  have hfalse : G.extend false w ≤ G.weight c := by
    rw [hwt]
    cases G.deferred c
    · exact le_rfl
    · exact G.extend_le w
  have hseen : G.Seen s (G.vertex c) → G.Discovered s (G.vertex c) (G.weight c) := by
    rintro ⟨u, hu, hvtx⟩
    exact .inl ⟨u, hu, hvtx, (h.visited_le u hu).trans ((G.le_extend w).trans hfalse)⟩
  rcases href with hmet | ⟨hdfr, hmet⟩ | hvis
  · rcases h.met _ hmet with hvis | ⟨m, hm, hvtx⟩
    · exact hseen hvis
    · exact .inr ⟨m, mem_append_left _ hm, hvtx, (h.now_le m hm).trans hfalse⟩
  · rcases h.metLater _ hmet with hvis | ⟨m, hm, hvtx⟩
    · exact hseen hvis
    · refine .inr ⟨m, mem_append_right _ hm, hvtx, ?_⟩
      rw [hwt, hdfr]
      exact h.later_le m hm
  · exact hseen hvis

theorem SearchInv.append (hder : G.Derived c) (hle : w ≤ G.weight c)
    (hvis : t.visited = s.visited)
    (hmem : ∀ m, m ∈ t.now ++ t.later ↔ m ∈ s.now ++ s.later ∨ m = c) :
    (∀ m ∈ t.now ++ t.later, G.Derived m ∧ w ≤ G.weight m) ∧
      ∀ m, offered m ∨ m = c → G.skip (G.vertex m) = false →
        G.Discovered t (G.vertex m) (G.weight m) := by
  constructor
  · intro m hm
    rcases (hmem m).mp hm with hm | rfl
    · exact ⟨h.derived m hm, h.above m hm⟩
    · exact ⟨hder, hle⟩
  · rintro m (hm | rfl) hskip
    · exact (h.discovered m hm hskip).mono (fun _ hu => hvis ▸ hu)
        fun m' hm' => (hmem m').mpr (.inl hm')
    · exact .inr ⟨m, (hmem m).mpr (.inr rfl), rfl, le_rfl⟩

/-- A deferred node may be appended to the second queue. -/
theorem SearchInv.append_later (hder : G.Derived c) (hdfr : G.deferred c = true)
    (hwt : G.weight c = G.extend true w) (hnot : G.vertex c ∉ s.metLater) :
    G.SearchInv w (fun m => offered m ∨ m = c)
      { s with
        later := s.later ++ [c]
        metLater := G.vertex c :: s.metLater } := by
  obtain ⟨hqueu, hdisc⟩ := h.append (t := { s with later := s.later ++ [c] }) hder
    ((G.le_extend w).trans ((G.extend_le w).trans hwt.ge)) rfl (by simp [or_assoc])
  refine { h with
    derived := fun m hm => (hqueu m hm).1
    deferred := forall_mem_append.mpr ⟨h.deferred, forall_mem_singleton.mpr hdfr⟩
    metLater := forall_mem_cons.mpr ⟨.inr ⟨c, by simp, rfl⟩, fun v hv => ?_⟩
    nodup := ⟨h.nodup.1, nodup_cons.mpr ⟨hnot, h.nodup.2⟩⟩
    sorted := ?_
    above := fun m hm => (hqueu m hm).2
    later_le := forall_mem_append.mpr ⟨h.later_le, forall_mem_singleton.mpr hwt.le⟩
    discovered := hdisc }
  · exact (h.metLater v hv).imp_right fun ⟨m, hm, hvtx⟩ =>
      ⟨m, mem_append_left _ hm, hvtx⟩
  · rw [← append_assoc, pairwise_append]
    refine ⟨h.sorted, pairwise_singleton .., fun m hm m' hm' => ?_⟩
    rw [mem_singleton.mp hm', hwt]
    rcases mem_append.mp hm with hm | hm
    · exact (h.now_le m hm).trans (G.extend_le w)
    · exact h.later_le m hm

/-- A plain node may be appended to the first queue. -/
theorem SearchInv.append_now (hder : G.Derived c) (hplain : G.deferred c = false)
    (hwt : G.weight c = G.extend false w) (hnot : G.vertex c ∉ s.met) :
    G.SearchInv w (fun m => offered m ∨ m = c)
      { s with
        now := s.now ++ [c]
        met := G.vertex c :: s.met } := by
  obtain ⟨hqueu, hdisc⟩ := h.append (t := { s with now := s.now ++ [c] }) hder
    ((G.le_extend w).trans hwt.ge) rfl (by grind)
  refine { h with
    derived := fun m hm => (hqueu m hm).1
    plain := forall_mem_append.mpr ⟨h.plain, forall_mem_singleton.mpr hplain⟩
    met := forall_mem_cons.mpr ⟨.inr ⟨c, by simp, rfl⟩, fun v hv => ?_⟩
    nodup := ⟨nodup_cons.mpr ⟨hnot, h.nodup.1⟩, h.nodup.2⟩
    sorted := ?_
    above := fun m hm => (hqueu m hm).2
    now_le := forall_mem_append.mpr ⟨h.now_le, forall_mem_singleton.mpr hwt.le⟩
    discovered := hdisc }
  · exact (h.met v hv).imp_right fun ⟨m, hm, hvtx⟩ => ⟨m, mem_append_left _ hm, hvtx⟩
  · obtain ⟨hnow, hlat, hacr⟩ := pairwise_append.mp h.sorted
    rw [append_assoc, pairwise_append, singleton_append, pairwise_cons]
    refine ⟨hnow, ⟨fun m hm => ?_, hlat⟩, fun m hm m' hm' => ?_⟩
    · -- the new node is plain, so it comes before everything that is deferred
      rw [hwt]
      exact G.extend_le_deferred w m (h.deferred m hm) (h.above m (mem_append_right _ hm))
    · rcases mem_cons.mp hm' with rfl | hm'
      · rw [hwt]
        exact h.now_le m hm
      · exact hacr m hm m' hm'

/-- Offering a node keeps the invariant, if its weight is the one of a node next to `w`. -/
theorem SearchInv.enqueue [DecidableEq V] (hder : G.skip (G.vertex c) = false → G.Derived c)
    (hwt : G.weight c = G.extend (G.deferred c) w) :
    G.SearchInv w (fun m => offered m ∨ m = c) (G.enqueue s c) := by
  rcases enqueue_cases G s c with ⟨heq, href⟩ | ⟨hskip, hdfr, hnot, heq⟩ |
    ⟨hskip, hplain, hnot, heq⟩
  · rw [heq]
    refine { h with discovered := ?_ }
    rintro m (hm | rfl) hskip
    · exact h.discovered m hm hskip
    · rcases href with hskip' | href
      · exact absurd hskip' (by simp [hskip])
      · exact h.discovered_of_refused hwt href
  · rw [heq]
    exact h.append_later (hder hskip) hdfr (hdfr ▸ hwt) hnot
  · rw [heq]
    exact h.append_now (hder hskip) hplain (hplain ▸ hwt) hnot

theorem SearchInv.enqueueAll [DecidableEq V] {cs : List N}
    (hder : ∀ c ∈ cs, G.skip (G.vertex c) = false → G.Derived c)
    (hwt : ∀ c ∈ cs, G.weight c = G.extend (G.deferred c) w) :
    G.SearchInv w (fun m => offered m ∨ m ∈ cs) (G.enqueueAll s cs) := by
  induction cs generalizing s offered with
  | nil => simpa [SearchSpace.enqueueAll] using h
  | cons c cs ih =>
    have hfst := h.enqueue (hder c (mem_cons_self ..)) (hwt c (mem_cons_self ..))
    have hnext := ih hfst
      (fun c' hc' => hder c' (mem_cons_of_mem _ hc'))
      (fun c' hc' => hwt c' (mem_cons_of_mem _ hc'))
    refine { hnext with discovered := fun m hm => hnext.discovered m ?_ }
    rcases hm with hm | hm
    · exact .inl (.inl hm)
    · exact (mem_cons.mp hm).elim (fun heq => .inl (.inr heq)) .inr

end

/-! ## Taking a node -/

variable {s₁ : TwoQueues V N}

/-- The node that is taken comes first in the two queues, and nothing else changes. -/
theorem poll_spec (h : poll s = some (n, s₁)) :
    s.now ++ s.later = n :: (s₁.now ++ s₁.later) ∧ s₁.now ⊆ s.now ∧ s₁.later ⊆ s.later ∧
      s₁.met = s.met ∧ s₁.metLater = s.metLater ∧ s₁.visited = s.visited := by
  obtain ⟨now, later, met, metLater, visited⟩ := s
  match now, later, h with
  | n' :: rest, _, h =>
    obtain ⟨rfl, rfl⟩ : n' = n ∧ _ = s₁ := by simpa [poll] using h
    simp
  | [], n' :: rest, h =>
    obtain ⟨rfl, rfl⟩ : n' = n ∧ _ = s₁ := by simpa [poll] using h
    simp

theorem poll_eq_none (h : poll s = none) : s.now = [] ∧ s.later = [] := by
  obtain ⟨now, later, met, metLater, visited⟩ := s
  match now, later, h with
  | [], [], _ => exact ⟨rfl, rfl⟩

/-- Taking a node keeps the invariant, at the weight of the node, if the node's vertex counts as
visited from then on. -/
theorem SearchInv.poll (h : G.SearchInv w offered s) (hpoll : poll s = some (n, s₁))
    (visited : List N) (hsub : ∀ u ∈ s.visited, u ∈ visited)
    (hnew : ∀ u ∈ visited, u ∈ s.visited ∨ u = n)
    (hn : ∃ u ∈ visited, G.vertex u = G.vertex n ∧ G.weight u ≤ G.weight n) :
    G.SearchInv (G.weight n) offered { s₁ with visited := visited } := by
  obtain ⟨hqueu, hnow, hlat, hmet, hmetLater, -⟩ := poll_spec hpoll
  have hmem : s₁.now ++ s₁.later ⊆ s.now ++ s.later := by
    rw [hqueu]
    exact subset_cons_self ..
  have hw : w ≤ G.weight n := h.above n (by rw [hqueu]; exact mem_cons_self ..)
  have hseen : ∀ v, G.Seen s v → ∃ u ∈ visited, G.vertex u = v :=
    fun v ⟨u, hu, hvtx⟩ => ⟨u, hsub u hu, hvtx⟩
  -- an entry of the queues is the node that was taken or still there
  have hkeep : ∀ v m, m ∈ s.now ++ s.later → G.vertex m = v →
      (∃ u ∈ visited, G.vertex u = v ∧ G.weight u ≤ G.weight m) ∨ m ∈ s₁.now ++ s₁.later := by
    intro v m hm hvtx
    rw [hqueu] at hm
    rcases mem_cons.mp hm with rfl | hm
    · obtain ⟨u, hu, hu', hle⟩ := hn
      exact .inl ⟨u, hu, hu'.trans hvtx, hle⟩
    · exact .inr hm
  -- the two queues do not share a node
  have hside : ∀ m ∈ s₁.now ++ s₁.later, if G.deferred m = true then m ∈ s₁.later else m ∈ s₁.now := by
    intro m hm
    rcases mem_append.mp hm with hm | hm
    · rwa [h.plain m (hnow hm)]
    · rwa [h.deferred m (hlat hm)]
  have hsort := h.sorted
  rw [hqueu, pairwise_cons] at hsort
  constructor
  · exact fun m hm => h.derived m (hmem hm)
  · exact fun m hm => h.plain m (hnow hm)
  · exact fun m hm => h.deferred m (hlat hm)
  · intro v hv
    rcases h.met v (hmet ▸ hv) with hvis | ⟨m, hm, hvtx⟩
    · exact .inl (hseen v hvis)
    · rcases hkeep v m (mem_append_left _ hm) hvtx with ⟨u, hu, hu', -⟩ | hm'
      · exact .inl ⟨u, hu, hu'⟩
      · exact .inr ⟨m, by simpa [h.plain m hm] using hside m hm', hvtx⟩
  · intro v hv
    rcases h.metLater v (hmetLater ▸ hv) with hvis | ⟨m, hm, hvtx⟩
    · exact .inl (hseen v hvis)
    · rcases hkeep v m (mem_append_right _ hm) hvtx with ⟨u, hu, hu', -⟩ | hm'
      · exact .inl ⟨u, hu, hu'⟩
      · exact .inr ⟨m, by simpa [h.deferred m hm] using hside m hm', hvtx⟩
  · exact ⟨hmet ▸ h.nodup.1, hmetLater ▸ h.nodup.2⟩
  · exact hsort.2
  · exact hsort.1
  · exact fun m hm => (h.now_le m (hnow hm)).trans (G.extend_mono false hw)
  · exact fun m hm => (h.later_le m (hlat hm)).trans (G.extend_mono true hw)
  · intro u hu
    rcases hnew u hu with hu | rfl
    · exact (h.visited_le u hu).trans hw
    · exact le_rfl
  · intro c hc hskip
    rcases h.discovered c hc hskip with ⟨u, hu, hvtx, hle⟩ | ⟨m, hm, hvtx, hle⟩
    · exact .inl ⟨u, hsub u hu, hvtx, hle⟩
    · rcases hkeep _ m hm hvtx with ⟨u, hu, hu', hle'⟩ | hm'
      · exact .inl ⟨u, hu, hu', hle'.trans hle⟩
      · exact .inr ⟨m, hm', hvtx, hle⟩

/-! ## Turns of the search -/

/-- Between two turns every root and every child of a visited node was offered. -/
def Offered (G : SearchSpace V N W) (s : TwoQueues V N) (c : N) : Prop :=
  c ∈ G.roots ∨ ∃ u ∈ s.visited, c ∈ G.children u

theorem visited_enqueueAll [DecidableEq V] (G : SearchSpace V N W) (s : TwoQueues V N) (cs : List N) :
    (G.enqueueAll s cs).visited = s.visited := by
  induction cs generalizing s with
  | nil => rfl
  | cons c cs ih =>
    rw [SearchSpace.enqueueAll, foldl_cons, ← SearchSpace.enqueueAll, ih]
    rcases enqueue_cases G s c with ⟨heq, -⟩ | ⟨-, -, -, heq⟩ | ⟨-, -, -, heq⟩ <;> rw [heq]

theorem searchInv_init [DecidableEq V] (G : SearchSpace V N W) :
    G.SearchInv G.start (G.Offered G.init) G.init := by
  have h := (searchInv_empty (G := G) G.start).enqueueAll (fun c hc hskip => .root hc hskip)
    G.weight_root
  refine { h with discovered := ?_ }
  rintro c (hc | ⟨u, hu, -⟩) hskip
  · exact h.discovered c (.inr hc) hskip
  · rw [init, visited_enqueueAll] at hu
    cases hu

section

variable (h : G.SearchInv w (G.Offered s) s)

include h

theorem SearchInv.turn [DecidableEq V] (hpoll : SearchSpace.poll s = some (n, s₁)) :
    G.SearchInv (G.weight n) (G.Offered (G.visit s₁ n)) (G.visit s₁ n) := by
  obtain ⟨hqueu, -, -, -, -, hvis⟩ := poll_spec hpoll
  have hmem : n ∈ s.now ++ s.later := by
    rw [hqueu]
    exact mem_cons_self ..
  unfold visit
  split_ifs with hseen
  · obtain ⟨u, hu, hvtx⟩ := hseen
    rw [hvis] at hu
    have hinv := h.poll hpoll s.visited (fun _ h => h) (fun _ h => .inl h)
      ⟨u, hu, hvtx, (h.visited_le u hu).trans (h.above n hmem)⟩
    rw [← hvis] at hinv
    refine { hinv with discovered := fun c hc => hinv.discovered c ?_ }
    rwa [Offered, hvis] at hc
  · have hinv := h.poll hpoll (n :: s.visited)
      (fun _ hu => mem_cons_of_mem _ hu) (fun u hu => (mem_cons.mp hu).symm)
      ⟨n, mem_cons_self .., rfl, le_rfl⟩
    rw [← hvis] at hinv
    have hall := hinv.enqueueAll (fun c hc hskip => .child (h.derived n hmem) hc hskip) (G.weight_child n)
    refine { hall with discovered := fun c hc => hall.discovered c ?_ }
    rw [Offered, visited_enqueueAll] at hc
    rcases hc with hc | ⟨u, hu, hc⟩
    · exact .inl (.inl hc)
    · rcases mem_cons.mp hu with rfl | hu
      · exact .inr hc
      · exact .inl (.inr ⟨u, hvis ▸ hu, hc⟩)

/-! ## What the search finds -/

/-- A node that can be reached has its vertex visited with at most its weight, or something of at
most its weight is still in the queues. -/
theorem SearchInv.visited_or_pending {m : N} (hm : G.Derived m) :
    (∃ u ∈ s.visited, G.vertex u = G.vertex m ∧ G.weight u ≤ G.weight m) ∨
      ∃ p ∈ s.now ++ s.later, G.weight p ≤ G.weight m := by
  -- a node that was offered is visited or in a queue; the rest is induction along the path
  have hoff : ∀ c w', G.Offered s c → G.skip (G.vertex c) = false → G.weight c ≤ w' →
      (∃ u ∈ s.visited, G.vertex u = G.vertex c ∧ G.weight u ≤ w') ∨
        ∃ p ∈ s.now ++ s.later, G.weight p ≤ w' := by
    intro c w' hc hskip hle
    rcases h.discovered c hc hskip with ⟨u, hu, hvtx, hu'⟩ | ⟨p, hp, -, hp'⟩
    · exact .inl ⟨u, hu, hvtx, hu'.trans hle⟩
    · exact .inr ⟨p, hp, hp'.trans hle⟩
  induction hm with
  | root hr hskip => exact hoff _ _ (.inl hr) hskip le_rfl
  | @child p c hp hc hskip ih =>
    rcases ih with ⟨u, hu, hvtx, hle⟩ | ⟨q, hq, hle⟩
    · obtain ⟨c', hc', hvtx', hdfr⟩ := G.same_children p u hvtx.symm c hc
      have hwt : G.weight c' ≤ G.weight c := by
        rw [G.weight_child u c' hc', G.weight_child p c hc, hdfr]
        exact G.extend_mono _ hle
      rw [← hvtx'] at hskip ⊢
      exact hoff c' _ (.inr ⟨u, hu, hc'⟩) hskip hwt
    · refine .inr ⟨q, hq, hle.trans ?_⟩
      rw [G.weight_child p c hc]
      cases G.deferred c
      · exact G.le_extend _
      · exact (G.le_extend _).trans (G.extend_le _)

/-- **The first node of a vertex is one of least weight.** -/
theorem SearchInv.least (hpoll : SearchSpace.poll s = some (n, s₁)) (hnew : ¬ G.Seen s (G.vertex n))
    {m : N} (hm : G.Derived m) (hvtx : G.vertex m = G.vertex n) : G.weight n ≤ G.weight m := by
  rcases h.visited_or_pending hm with ⟨u, hu, hu', -⟩ | ⟨p, hp, hle⟩
  · exact absurd ⟨u, hu, hu'.trans hvtx⟩ hnew
  · have hqueu := (poll_spec hpoll).1
    have hsort := h.sorted
    rw [hqueu, pairwise_cons] at hsort
    rw [hqueu] at hp
    rcases mem_cons.mp hp with rfl | hp
    · exact hle
    · exact (hsort.1 p hp).trans hle

/-- When the queues are empty, every vertex that can be reached was visited. -/
theorem SearchInv.exhausted (hpoll : SearchSpace.poll s = none) {m : N} (hm : G.Derived m) :
    G.Seen s (G.vertex m) := by
  obtain ⟨hnow, hlat⟩ := poll_eq_none hpoll
  rcases h.visited_or_pending hm with ⟨u, hu, hvtx, -⟩ | ⟨p, hp, -⟩
  · exact ⟨u, hu, hvtx⟩
  · rw [hnow, hlat] at hp
    cases hp

end

/-! ## Termination -/

section Termination

variable [Fintype V]

/-- The entries that may still leave the queues. -/
def measure (s : TwoQueues V N) : ℕ :=
  s.now.length + s.later.length +
    ((Fintype.card V - s.met.length) + (Fintype.card V - s.metLater.length))

theorem measure_enqueue [DecidableEq V] (h : s.met.Nodup ∧ s.metLater.Nodup) (c : N) :
    measure (G.enqueue s c) ≤ measure s ∧
      (G.enqueue s c).met.Nodup ∧ (G.enqueue s c).metLater.Nodup := by
  unfold measure
  rcases enqueue_cases G s c with ⟨heq, -⟩ | ⟨-, -, hnot, heq⟩ | ⟨-, -, hnot, heq⟩
  · rw [heq]
    exact ⟨le_rfl, h⟩
  · rw [heq]
    have hnd := nodup_cons.mpr ⟨hnot, h.2⟩
    have hcard := hnd.length_le_card
    simp only [length_append, length_cons, length_nil] at hcard ⊢
    exact ⟨by omega, h.1, hnd⟩
  · rw [heq]
    have hnd := nodup_cons.mpr ⟨hnot, h.1⟩
    have hcard := hnd.length_le_card
    simp only [length_append, length_cons, length_nil] at hcard ⊢
    exact ⟨by omega, hnd, h.2⟩

theorem measure_enqueueAll [DecidableEq V] (h : s.met.Nodup ∧ s.metLater.Nodup) (cs : List N) :
    measure (G.enqueueAll s cs) ≤ measure s := by
  induction cs generalizing s with
  | nil => exact le_rfl
  | cons c cs ih =>
    obtain ⟨hle, hnd⟩ := measure_enqueue (G := G) h c
    exact (ih hnd).trans hle

theorem measure_init [DecidableEq V] (G : SearchSpace V N W) :
    measure G.init ≤ Fintype.card V + Fintype.card V := by
  refine (measure_enqueueAll ⟨nodup_nil, nodup_nil⟩ _).trans ?_
  simp [measure]

theorem measure_turn [DecidableEq V] (h : s.met.Nodup ∧ s.metLater.Nodup)
    (hpoll : SearchSpace.poll s = some (n, s₁)) : measure (G.visit s₁ n) < measure s := by
  obtain ⟨hqueu, -, -, hmet, hmetLater, -⟩ := poll_spec hpoll
  have hlen := congrArg length hqueu
  simp only [length_append, length_cons] at hlen
  have hpolled : measure s₁ < measure s := by
    simp only [measure, hmet, hmetLater]
    omega
  unfold visit
  split
  · exact hpolled
  · refine (measure_enqueueAll ?_ _).trans_lt hpolled
    exact hmet ▸ hmetLater ▸ h

end Termination

end SearchSpace

end TraceHarbor.Lib
