import TraceHarbor.Trace.MethodStackSpec

/-!
# The Scan Phase

Scanning the buffer of a recorded run of dispatches leaves on the result stack the reverse
post-order listing of the folded forest. The induction follows the forest; its invariant is the
`pending` sibling: the item on top of the stack is the folded call just to the left, unless the
calls of a row have not started yet.
-/

namespace TraceHarbor.Trace

open Option

open TraceHarbor.Lib (Forest)
open TraceHarbor.Lib.Forest (nil cons)

/-! ## Single Events -/

theorem scan_append (isStrict : Bool) (xs ys : List Long) (s : ScanState) :
    scan isStrict (xs ++ ys) s = (scan isStrict xs s).bind (scan isStrict ys) := by
  induction xs generalizing s with
  | nil => rfl
  | cons x xs ih =>
    simp only [List.cons_append, scan]
    cases scanEvent isStrict s x with
    | none => rfl
    | some s' => exact ih s'

theorem popToMatch_of_match {out : Int} {inVal : Long} (h : getMethodId inVal = out)
    (tmp : List Long) (depth : Int) (rawData : List Long) :
    popToMatch out inVal tmp depth rawData = ⟨inVal, tmp, depth, rawData⟩ := by
  cases rawData with
  | nil => rfl
  | cons v vs => simp [popToMatch, h]

theorem scanEvent_enter {s : ScanState} (m t : ℕ) (hm : m < 2 ^ 20) (hpos : 0 < m)
    (hbeg : s.isBegin = true ∨ (m : Int) = methodIdDispatch) :
    scanEvent true s (mergeData m (BitVec.ofNat 64 t) true) =
      some { s with
        depth := (if (m : Int) = methodIdDispatch then 0 else s.depth) + 1
        rawData := mergeData m (BitVec.ofNat 64 t) true :: s.rawData
        isBegin := true } := by
  have hb : (s.isBegin || decide ((m : Int) = methodIdDispatch)) = true := by
    rcases hbeg with h | h <;> simp [h]
  simp [scanEvent, mergeData_ne_zero m t true hm hpos, isIn_mergeData m t true hm,
    getMethodId_mergeData m t true hm, hb, onEnter]

theorem scanEvent_exit {s : ScanState} (raw : List Long) (c : Call) (hm : c.methodId < 2 ^ 20)
    (hpos : 0 < c.methodId) (hle : c.enter ≤ c.exit) (hexit : c.exit < 2 ^ 43)
    (hdur : c.duration < 2 ^ 31) (hbeg : s.isBegin = true)
    (hraw : s.rawData = mergeData c.methodId (BitVec.ofNat 64 c.enter) true :: raw) :
    scanEvent true s (mergeData c.methodId (BitVec.ofNat 64 c.exit) false) =
      some { s with
        rawData := raw
        depth := s.depth - 1
        result := addMethodItem s.result
          { methodId := c.methodId, durTime := c.duration, depth := s.depth - 1 } } := by
  have hid_in := getMethodId_mergeData c.methodId c.enter true hm
  have hid_out := getMethodId_mergeData c.methodId c.exit false hm
  have hsub : (BitVec.ofNat 64 c.exit - BitVec.ofNat 64 c.enter : Long) =
      BitVec.ofNat 64 c.duration :=
    BitVec.ofNat_sub_ofNat_of_le _ _ (by omega) hle
  have hnonn : (BitVec.ofNat 64 c.duration).slt 0#64 = false := by
    rw [BitVec.slt_zero_eq_msb, BitVec.msb_eq_false_iff_two_mul_lt, BitVec.toNat_ofNat]
    omega
  simp [scanEvent, mergeData_ne_zero c.methodId c.exit false hm hpos,
    isIn_mergeData c.methodId c.exit false hm, hbeg, onExit, hraw, hid_out,
    popToMatch_of_match hid_in, hid_in, getTime_mergeData c.methodId c.exit false hm hexit,
    getTime_mergeData c.methodId c.enter true hm (by omega : c.enter < 2 ^ 43), hsub, hnonn,
    toInt32_ofNat hdur]

/-! ## Times Nest -/

/-- Event times between `lo` and `hi`, in order. -/
def WellTimed : ℕ → ℕ → Forest Call → Prop
  | lo, hi, nil => lo ≤ hi
  | lo, hi, cons c ch sib =>
    lo ≤ c.enter ∧ WellTimed c.enter c.exit ch ∧ WellTimed c.exit hi sib

variable {f : Forest Call}

theorem WellTimed.le {lo hi : ℕ} (h : WellTimed lo hi f) : lo ≤ hi := by
  induction f generalizing lo hi with
  | nil => exact h
  | cons c ch sib ihc ihs => exact h.1.trans ((ihc h.2.1).trans (ihs h.2.2))

theorem wellTimed_of_pairwise {lo hi : ℕ} (hord : (eventTimes f).Pairwise (· ≤ ·))
    (hlo : ∀ t ∈ eventTimes f, lo ≤ t) (hhi : ∀ t ∈ eventTimes f, t ≤ hi) (hle : lo ≤ hi) :
    WellTimed lo hi f := by
  induction f generalizing lo hi with
  | nil => exact hle
  | cons c ch sib ihc ihs =>
    simp only [eventTimes, List.pairwise_cons, List.pairwise_append, List.mem_append,
      List.mem_cons] at hord hlo hhi
    obtain ⟨haft, hch, ⟨hexit, hsib⟩, hcross⟩ := hord
    refine ⟨hlo _ (.inl rfl), ihc hch ?_ ?_ ?_, ihs hsib hexit ?_ ?_⟩
    · exact fun t ht => haft t (.inl ht)
    · exact fun t ht => hcross t ht _ (.inl rfl)
    · exact haft _ (.inr (.inl rfl))
    · exact fun t ht => hhi t (.inr (.inr (.inr ht)))
    · exact hhi _ (.inr (.inr (.inl rfl)))

/-! ## Rows of Inner Calls -/

/-- What the scan needs of every call below a dispatch. -/
def InnerOk (f : Forest Call) : Prop :=
  ∀ c ∈ f.labels, 0 < c.methodId ∧ (c.methodId : Int) < methodIdDispatch ∧
    c.exit < 2 ^ 43 ∧ (c.duration : Int) ≠ defaultAnr

variable {ch : Forest Call}

theorem InnerOk.cons {c : Call} {sib : Forest Call} (h : InnerOk (.cons c ch sib)) :
    (0 < c.methodId ∧ (c.methodId : Int) < methodIdDispatch ∧
      c.exit < 2 ^ 43 ∧ (c.duration : Int) ≠ defaultAnr) ∧ InnerOk ch ∧ InnerOk sib := by
  refine ⟨h c (List.mem_cons_self ..), fun x hx => h x ?_, fun x hx => h x ?_⟩
  · exact List.mem_cons_of_mem _ (List.mem_append.mpr (.inl hx))
  · exact List.mem_cons_of_mem _ (List.mem_append.mpr (.inr hx))

/-- The result stack of a row of depth `d`: the pending sibling with its finished children, over
what was there before the row. -/
def rowStack (d : ℕ) (pending : Option (Folded × Forest Folded)) (below : List MethodItem) :
    List MethodItem :=
  match pending with
  | none => below
  | some (last, kids) =>
    toItem (d, last) :: ((kids.revPostorder (d + 1)).map toItem ++ below)

/-- The duration already collected in the pending sibling. -/
def pendingDur : Option (Folded × Forest Folded) → ℕ
  | none => 0
  | some (last, _) => last.durTime

/-- Items of depth at least `d` cannot be merged into `stack`. -/
def BelowDepth (d : ℕ) (stack : List MethodItem) : Prop :=
  ∀ x ∈ stack.head?, x.depth < d

theorem belowDepth_rowStack {d : ℕ} {pending : Option (Folded × Forest Folded)}
    {below : List MethodItem} (h : pending = none → BelowDepth d below) :
    BelowDepth (d + 1) (rowStack d pending below) := by
  intro x hx
  cases pending with
  | none =>
    have := h rfl x hx
    omega
  | some p =>
    simp only [rowStack, List.head?_cons, mem_some_iff] at hx
    subst hx
    simp [toItem]

theorem addMethodItem_push {stack : List MethodItem} {item : MethodItem}
    (h : ∀ x ∈ stack.head?, ¬ (x.methodId = item.methodId ∧ x.depth = item.depth)) :
    addMethodItem stack item = item :: stack := by
  cases stack with
  | nil => rfl
  | cons x xs =>
    have hx := h x rfl
    simp only [addMethodItem]
    rw [if_neg]
    exact fun hall => hx ⟨hall.1, hall.2.1⟩

theorem head_of_children {d : ℕ} (hne : ch ≠ nil) (stack : List MethodItem) :
    ∀ x ∈ (((foldFrom none ch).revPostorder (d + 1)).map toItem ++ stack).head?,
      x.depth = ((d + 1 : ℕ) : Int) := by
  have hcons : ∀ (f : Forest Call) (p : Folded × Forest Folded),
      ∃ a k s, foldFrom (some p) f = cons a k s := by
    intro f
    induction f with
    | nil => exact fun p => ⟨_, _, _, rfl⟩
    | cons c ch sib _ ihs =>
      rintro ⟨last, kids⟩
      by_cases h : ch = nil ∧ last.methodId = c.methodId
      · rw [foldFrom, if_pos h]
        exact ihs _
      · rw [foldFrom, if_neg h]
        exact ⟨_, _, _, rfl⟩
  cases ch with
  | nil => exact absurd rfl hne
  | cons c ch sib =>
    obtain ⟨a, k, s, hfold⟩ := hcons sib (Folded.ofCall c, foldFrom none ch)
    obtain ⟨b, rest, hrev⟩ := Forest.revPostorder_head_depth a k s (d + 1)
    intro x hx
    rw [foldFrom, hfold, hrev] at hx
    simp only [List.map_cons, List.cons_append, List.head?_cons, mem_some_iff] at hx
    subst hx
    rfl

theorem scan_row {lo hi : ℕ} (hok : InnerOk f) (htime : WellTimed lo hi f) (d : ℕ) (hd : 0 < d)
    (pending : Option (Folded × Forest Folded)) (below : List MethodItem)
    (hbel : pending = none → BelowDepth d below) (hdur : pendingDur pending + (hi - lo) < 2 ^ 31)
    (raw : List Long) :
    scan true (encode f) ⟨d, raw, true, rowStack d pending below⟩ =
      some ⟨d, raw, true,
        ((foldFrom pending f).revPostorder d).map toItem ++ below⟩ := by
  induction f generalizing lo hi d pending below raw with
  | nil =>
    cases pending with
    | none => rfl
    | some p => simp [encode, scan, rowStack, foldFrom, Forest.revPostorder]
  | cons c ch sib ihc ihs =>
    obtain ⟨⟨hpos, hlt, hexit, hanr⟩, hokch, hoks⟩ := hok.cons
    obtain ⟨hlo, htch, htsib⟩ := htime
    have hm : c.methodId < 2 ^ 20 := by
      simp only [methodIdDispatch, methodIdMax] at hlt
      omega
    have hle := htch.le
    have hlehi := htsib.le
    have hdurc : c.duration = c.exit - c.enter := rfl
    -- entry, the row of children one level deeper, exit
    have hcall : scan true (encode (.cons c ch sib)) ⟨d, raw, true, rowStack d pending below⟩ =
        scan true (encode sib) ⟨d, raw, true, addMethodItem
          (((foldFrom none ch).revPostorder (d + 1)).map toItem ++ rowStack d pending below)
          { methodId := c.methodId, durTime := c.duration, depth := d }⟩ := by
      rw [encode, scan, scanEvent_enter c.methodId c.enter hm hpos (.inl rfl), bind_some,
        scan_append, if_neg (ne_of_lt hlt)]
      have hrow := ihc hokch htch (d + 1) (Nat.succ_pos d) none (rowStack d pending below)
        (fun _ => belowDepth_rowStack hbel) (by simp only [pendingDur]; omega)
        (mergeData c.methodId (BitVec.ofNat 64 c.enter) true :: raw)
      rw [Nat.cast_succ] at hrow
      simp only [rowStack] at hrow ⊢
      rw [hrow, bind_some, scan,
        scanEvent_exit raw c hm hpos hle hexit (by omega) rfl rfl, bind_some]
      simp
    rw [hcall]
    by_cases hfold : ch = nil ∧ ∃ last kids, pending = some (last, kids) ∧
        last.methodId = c.methodId
    · -- a childless repeat of the pending sibling is merged into it
      obtain ⟨rfl, last, kids, rfl, hid⟩ := hfold
      have hmerge : addMethodItem (((foldFrom none nil).revPostorder (d + 1)).map toItem ++
            rowStack d (some (last, kids)) below)
          { methodId := c.methodId, durTime := c.duration, depth := d } =
          rowStack d (some (last.absorb c, kids)) below := by
        simp only [pendingDur] at hdur
        have hadd : addInt32 last.durTime c.duration = ((last.durTime + c.duration : ℕ) : Int) := by
          unfold addInt32
          rw [Int.bmod_eq_of_le] <;> omega
        have hd0 : (0 : Int) ≠ d := by omega
        simp [foldFrom, Forest.revPostorder, rowStack, addMethodItem, toItem, hid, hd0, hanr,
          MethodItem.mergeMore, Folded.absorb, hadd]
      rw [hmerge, ihs hoks htsib d hd (some (last.absorb c, kids)) below (by simp)
        (by simp only [pendingDur, Folded.absorb] at hdur ⊢; omega) raw]
      rw [foldFrom, if_pos ⟨rfl, hid⟩]
    · -- otherwise the call starts a new item
      have hpush : addMethodItem (((foldFrom none ch).revPostorder (d + 1)).map toItem ++
            rowStack d pending below)
          { methodId := c.methodId, durTime := c.duration, depth := d } =
          rowStack d (some (Folded.ofCall c, foldFrom none ch)) (rowStack d pending below) := by
        rw [addMethodItem_push]
        · simp [rowStack, toItem, Folded.ofCall]
        · rintro x hx ⟨hxid, hxd⟩
          by_cases hch : ch = nil
          · subst hch
            cases pending with
            | none =>
              have := hbel rfl x hx
              simp only at hxd
              omega
            | some p =>
              obtain ⟨last, kids⟩ := p
              simp only [foldFrom, Forest.revPostorder, List.map_nil, List.nil_append, rowStack,
                List.head?_cons, mem_some_iff] at hx
              subst hx
              exact hfold ⟨rfl, last, kids, rfl, by simpa [toItem] using hxid⟩
          · have := head_of_children (d := d) hch _ x hx
            simp only at hxd
            omega
      rw [hpush, ihs hoks htsib d hd (some (Folded.ofCall c, foldFrom none ch)) _
        (by simp) (by simp only [pendingDur, Folded.ofCall]; omega) raw]
      cases pending with
      | none => rfl
      | some p =>
        obtain ⟨last, kids⟩ := p
        have hne : ¬ (ch = nil ∧ last.methodId = c.methodId) :=
          fun h => hfold ⟨h.1, last, kids, rfl, h.2⟩
        rw [foldFrom, if_neg hne]
        simp [rowStack, Forest.revPostorder]

/-! ## Dispatches -/

theorem Recorded.tail {c : Call} {sib : Forest Call} (h : Recorded (.cons c ch sib)) :
    Recorded sib := by
  have htim : ∀ t ∈ eventTimes sib, t ∈ eventTimes (.cons c ch sib) := fun t ht =>
    List.mem_cons_of_mem _ (List.mem_append.mpr (.inr (List.mem_cons_of_mem _ ht)))
  have hord := h.ordered
  simp only [eventTimes, List.pairwise_cons, List.pairwise_append] at hord
  exact
    { root_id := fun x hx => h.root_id x (List.mem_cons_of_mem _ hx)
      inner_id := fun x hx => h.inner_id x (List.mem_append.mpr (.inr hx))
      ordered := hord.2.2.1.2
      time_lt := fun t ht => h.time_lt t (htim t ht)
      root_duration_lt := fun x hx => h.root_duration_lt x (List.mem_cons_of_mem _ hx)
      duration_ne_anr := fun x hx => h.duration_ne_anr x
        (List.mem_cons_of_mem _ (List.mem_append.mpr (.inr hx))) }

private theorem exit_mem_eventTimes {x : Call} (hx : x ∈ f.labels) : x.exit ∈ eventTimes f := by
  induction f with
  | nil => cases hx
  | cons c ch sib ihc ihs =>
    simp only [Forest.labels, List.mem_cons, List.mem_append] at hx
    simp only [eventTimes, List.mem_cons, List.mem_append]
    rcases hx with rfl | hx | hx
    · exact .inr (.inr (.inl rfl))
    · exact .inr (.inl (ihc hx))
    · exact .inr (.inr (.inr (ihs hx)))

theorem Recorded.children {c : Call} {sib : Forest Call} (h : Recorded (.cons c ch sib)) :
    InnerOk ch ∧ WellTimed c.enter c.exit ch := by
  have hord := h.ordered
  simp only [eventTimes, List.pairwise_cons, List.pairwise_append, List.mem_append,
    List.mem_cons] at hord
  obtain ⟨haft, hch, _, hcross⟩ := hord
  refine ⟨fun x hx => ?_, wellTimed_of_pairwise hch (fun t ht => haft t (.inl ht))
    (fun t ht => hcross t ht _ (.inl rfl)) (haft _ (.inr (.inl rfl)))⟩
  have hid := h.inner_id x (List.mem_append.mpr (.inl hx))
  refine ⟨hid.1, ?_, ?_, h.duration_ne_anr x
    (List.mem_cons_of_mem _ (List.mem_append.mpr (.inl hx)))⟩
  · simp only [methodIdDispatch]
    omega
  · exact h.time_lt _ (List.mem_cons_of_mem _
      (List.mem_append.mpr (.inl (exit_mem_eventTimes hx))))

/-- Scanning a run of dispatches from an empty entry stack leaves the entry stack empty and
pushes the reverse post-order listing of the folded dispatches. -/
theorem scan_dispatches (h : Recorded f) (begun : Bool) (below : List MethodItem)
    (hbel : BelowDepth 1 below) :
    ∃ begun', scan true (encode f) ⟨0, [], begun, below⟩ =
      some ⟨0, [], begun', ((foldDispatches f).revPostorder 0).map toItem ++ below⟩ := by
  induction f generalizing begun below with
  | nil => exact ⟨begun, rfl⟩
  | cons c ch sib _ ihs =>
    have hroot := h.root_id c (List.mem_cons_self ..)
    have hm : c.methodId < 2 ^ 20 ∧ 0 < c.methodId := by
      simp only [methodIdDispatch, methodIdMax] at hroot
      omega
    have hdur := h.root_duration_lt c (List.mem_cons_self ..)
    have hexit : c.exit < 2 ^ 43 := h.time_lt _ (exit_mem_eventTimes (List.mem_cons_self ..))
    obtain ⟨hok, htime⟩ := h.children
    have hdurc : c.duration = c.exit - c.enter := rfl
    have hrow := scan_row hok htime 1 Nat.one_pos none below (fun _ => hbel)
      (by simp only [pendingDur]; omega)
      [mergeData c.methodId (BitVec.ofNat 64 c.enter) true]
    -- an item of depth 0 is never merged
    have hpush : ∀ stack, addMethodItem stack
        { methodId := c.methodId, durTime := c.duration, depth := 0 } =
        toItem (0, Folded.ofCall c) :: stack := by
      intro stack
      cases stack with
      | nil => rfl
      | cons x xs => simp [addMethodItem, toItem, Folded.ofCall]
    have hcall : scan true (encode (.cons c ch sib)) ⟨0, [], begun, below⟩ =
        scan true (encode sib) ⟨0, [], true, toItem (0, Folded.ofCall c) ::
          (((foldFrom none ch).revPostorder 1).map toItem ++ below)⟩ := by
      rw [encode, scan, scanEvent_enter c.methodId c.enter hm.1 hm.2 (.inr hroot),
        bind_some, scan_append, if_pos hroot]
      simp only [rowStack, Nat.cast_one] at hrow
      rw [zero_add, hrow, bind_some, scan,
        scanEvent_exit [] c hm.1 hm.2 htime.le hexit hdur rfl rfl, bind_some]
      simp [hpush]
    obtain ⟨begun', hsib⟩ := ihs h.tail true (toItem (0, Folded.ofCall c) ::
      (((foldFrom none ch).revPostorder 1).map toItem ++ below)) (by
        intro x hx
        simp only [List.head?_cons, mem_some_iff] at hx
        subst hx
        simp [toItem])
    refine ⟨begun', ?_⟩
    rw [hcall, hsib]
    simp [foldDispatches, Forest.revPostorder]

end TraceHarbor.Trace
