import TraceHarbor.HprofLib.ShrunkHeap

/-!
# Shrinking Keeps the Heap

The second pass collects the buffers of live bitmaps, the arrays of texts and the content of all
arrays, and chooses the representatives in the order in which the hash map is iterated. The third
pass then does to every visit what `shrunk` says, for this choice.
-/

namespace TraceHarbor.HprofLib

open Lib Lib.Parser List Option

variable {d : List Visit} {id c : ID} {stackId : BitVec 32} {data : List UInt8}

/-! ## The fields of bitmaps and of texts -/

theorem bitmap_typed (hd : Shrinkable d) (hc : classId d bitmapClassName = some c) :
    (∀ f ∈ instanceFields d c, stringId d mBufferFieldName = some f.nameId →
        f.type = some .object) ∧
      (∀ f ∈ instanceFields d c, stringId d mRecycledFieldName = some f.nameId →
        f.type = some .boolean) := by
  have hok := hd.bitmaps c hc
  have hne : mRecycledFieldName ≠ mBufferFieldName := by decide
  exact ⟨fun f hf => hok.typed f hf _ _ (if_pos rfl),
    fun f hf => hok.typed f hf _ _ ((if_neg hne).trans (if_pos rfl))⟩

theorem bitmapLoop_collectInfo (hd : Shrinkable d)
    (hv : .heap (.instanceDump id stackId c data) ∈ d)
    (hc : classId d bitmapClassName = some c) :
    valueOf (bitmapLoop (collectInfo d) ((collectInfo d).bmpClassInstanceFields.getD []) none none)
        data =
      some (objectField d c mBufferFieldName data, booleanField d c mRecycledFieldName data) := by
  obtain ⟨-, hmBuffer, hmRecycled, -, -⟩ := names_collectInfo d
  have hsize := (collectInfo_idSize hd).1
  have hok := hd.bitmaps c hc
  obtain ⟨hobj, hbool⟩ := bitmap_typed hd hc
  have hne : ∀ i, stringId d mBufferFieldName = some i → stringId d mRecycledFieldName ≠ some i := by
    intro i hi hi'
    have heq := hd.textIds _ (by simp [lookedUp]) _ (by simp [lookedUp]) i hi hi'
    exact absurd heq (by decide)
  rw [(collectInfo_fields hd).1 c hc, bitmapLoop_spec (collectInfo d) none none hok.names
    (by rwa [hmBuffer, hmRecycled]) hok.known (by rwa [hmBuffer]) (by rwa [hmRecycled])
    (fun h => absurd rfl h) (fun h => absurd rfl h)
    (by rw [hsize]; exact hok.complete id stackId data hv), hmBuffer, hmRecycled, hsize]
  rfl

theorem stringLoop_collectInfo (hd : Shrinkable d)
    (hv : .heap (.instanceDump id stackId c data) ∈ d)
    (hc : classId d stringClassName = some c) :
    valueOf (stringLoop (collectInfo d) ((collectInfo d).stringClassInstanceFields.getD []) none)
        data = some (objectField d c valueFieldName data) := by
  obtain ⟨-, -, -, -, hval⟩ := names_collectInfo d
  have hsize := (collectInfo_idSize hd).1
  have hok := hd.strings c hc
  rw [(collectInfo_fields hd).2 c hc, stringLoop_spec (collectInfo d) none hok.names hok.known
    (by rw [hval]; exact fun f hf => hok.typed f hf _ _ (if_pos rfl)) (fun h => absurd rfl h)
    (by rw [hsize]; exact hok.complete id stackId data hv), hval, hsize]
  rfl

theorem bufferLoop_collectInfo (hd : Shrinkable d)
    (hv : .heap (.instanceDump id stackId c data) ∈ d)
    (hc : classId d bitmapClassName = some c) :
    match offsetOf d c mBufferFieldName with
    | some off =>
      valueOf (bufferLoop (collectInfo d) ((collectInfo d).bmpClassInstanceFields.getD []) 0) data =
          some (some ((data.drop off).take (idSize d)), off) ∧ off + idSize d ≤ data.length
    | none => ∃ pos, valueOf
        (bufferLoop (collectInfo d) ((collectInfo d).bmpClassInstanceFields.getD []) 0) data =
          some (none, pos) := by
  obtain ⟨-, hmBuffer, -, -, -⟩ := names_collectInfo d
  have hsize := (collectInfo_idSize hd).1
  have hok := hd.bitmaps c hc
  have hspec := bufferLoop_spec (collectInfo d) 0 hok.known
    (by rw [hmBuffer]; exact (bitmap_typed hd hc).1)
    (by rw [hsize]; exact hok.complete id stackId data hv)
  rw [← (collectInfo_fields hd).1 c hc, hmBuffer, hsize] at hspec
  simp only [Nat.zero_add] at hspec
  rw [(collectInfo_fields hd).1 c hc] at hspec ⊢
  exact hspec

/-! ## The second pass -/

section Passes

variable {δ : Type} [DecidableEq δ] {md5 : List UInt8 → δ}
  {iterate : OrdMap ID (List UInt8) → List (ID × List UInt8)}

def Kept.add (d : List Visit) (s : Kept) (v : Visit) : Kept :=
  { s with
    bmpBufferIds := (liveBuffer d v).toList ++ s.bmpBufferIds
    stringValueIds := (stringValue d v).toList ++ s.stringValueIds
    bufferIdToElementData :=
      OrdMap.insertAll s.bufferIdToElementData (arrayOf v).toList }

theorem keptVisit_eq_add (hd : Shrinkable d) {v : Visit} (hv : v ∈ d) (hend : v ≠ .visitEnd)
    (s : Kept) : Kept.visit md5 iterate (collectInfo d) s v = some (s.add d v) := by
  obtain ⟨hbmp, hclass⟩ := collectInfo_classes hd
  have hnull := (collectInfo_idSize hd).2
  cases v with
  | visitEnd => exact absurd rfl hend
  | heap v =>
    cases v with
    | instanceDump id stackId c data =>
      simp only [Kept.visit, hbmp, hclass, hnull, Kept.add, liveBuffer, stringValue, arrayOf,
        toList_none, OrdMap.insertAll, foldl_nil]
      by_cases hbitm : classId d bitmapClassName = some c
      · simp only [hbitm, if_true, hd.classIds c hbitm, if_false, true_and,
          bitmapLoop_collectInfo hd hv hbitm, bind_eq_bind, bind_some]
        cases objectField d c mBufferFieldName data with
        | none => simp
        | some x =>
          by_cases hx : x = nullId d
          · simp [Option.filter, hx]
          by_cases hrecy : booleanField d c mRecycledFieldName data = some true <;>
            simp [Option.filter, hrecy, hx, Ne.symm hx]
      simp only [hbitm, if_false, false_and, toList_none, nil_append]
      by_cases hstr : classId d stringClassName = some c
      · simp only [hstr, if_true, stringLoop_collectInfo hd hv hstr, bind_eq_bind,
          bind_some]
        cases objectField d c valueFieldName data with
        | none => simp
        | some x =>
          by_cases hx : x = nullId d
          · simp [Option.filter, hx]
          · simp [Option.filter, hx, Ne.symm hx]
      · simp [hstr]
    | _ => rfl
  | _ => rfl

theorem foldlM_kept (hd : Shrinkable d) {l : List Visit} (hl : ∀ v ∈ l, v ∈ d ∧ v ≠ .visitEnd)
    (s : Kept) :
    l.foldlM (Kept.visit md5 iterate (collectInfo d)) s = some (l.foldl (Kept.add d) s) := by
  induction l generalizing s with
  | nil => rfl
  | cons v l ih =>
    rw [forall_mem_cons] at hl
    rw [foldlM_cons, keptVisit_eq_add hd hl.1.1 hl.1.2]
    exact ih hl.2 _

theorem foldl_add (l : List Visit) (s : Kept) :
    (∀ x, x ∈ (l.foldl (Kept.add d) s).bmpBufferIds ↔
        x ∈ l.filterMap (liveBuffer d) ∨ x ∈ s.bmpBufferIds) ∧
      (∀ x, x ∈ (l.foldl (Kept.add d) s).stringValueIds ↔
        x ∈ l.filterMap (stringValue d) ∨ x ∈ s.stringValueIds) ∧
      (l.foldl (Kept.add d) s).bufferIdToElementData =
        OrdMap.insertAll s.bufferIdToElementData (l.filterMap arrayOf) ∧
      (l.foldl (Kept.add d) s).bmpBufferIdToDeduplicatedId = s.bmpBufferIdToDeduplicatedId := by
  induction l generalizing s with
  | nil => simp [OrdMap.insertAll]
  | cons v l ih =>
    obtain ⟨hbmp, hstr, hdata, hmerg⟩ := ih (s.add d v)
    have hcons : ∀ {α : Type} (f : Visit → Option α),
        (v :: l).filterMap f = (f v).toList ++ l.filterMap f := by
      intro α f
      rw [filterMap_cons]
      cases f v <;> rfl
    refine ⟨fun x => ?_, fun x => ?_, ?_, hmerg⟩
    · rw [foldl_cons, hbmp, hcons, Kept.add, mem_append, mem_append]
      tauto
    · rw [foldl_cons, hstr, hcons, Kept.add, mem_append, mem_append]
      tauto
    · rw [foldl_cons, hdata, hcons, OrdMap.insertAll_append]
      rfl

theorem foldl_mergeBuffer (key : ID → δ) {entries : List (ID × List UInt8)}
    (hkey : ∀ e ∈ entries, key e.1 = md5 e.2) (bmpBufferIds : List ID)
    (s : List (δ × ID) × List (ID × ID)) :
    (entries.foldl (mergeBuffer md5 bmpBufferIds) s).2 =
      (((entries.map Prod.fst).filter (· ∈ bmpBufferIds)).foldl (Merge.step key)
        ⟨s.1, s.2⟩).merged := by
  induction entries generalizing s with
  | nil => rfl
  | cons e entries ih =>
    rw [forall_mem_cons] at hkey
    rw [foldl_cons, ih hkey.2, map_cons]
    by_cases he : e.1 ∈ bmpBufferIds
    · rw [filter_cons_of_pos (by simpa using he), foldl_cons, Merge.step, mergeBuffer,
        if_pos he, hkey.1]
      cases s.1.lookup (md5 e.2) <;> rfl
    · rw [filter_cons_of_neg (by simpa using he), mergeBuffer, if_neg he]

/-! ## The choice of the representatives -/

local instance : LawfulBEq ID := inferInstance

/-- The buffers of live bitmaps, in the order in which the map of all arrays is iterated. -/
def buffersInOrder (d : List Visit)
    (iterate : OrdMap ID (List UInt8) → List (ID × List UInt8)) : List ID :=
  ((iterate (OrdMap.insertAll ∅ (d.filterMap arrayOf))).map Prod.fst).filter
    (· ∈ d.filterMap (liveBuffer d))

def contentOf (d : List Visit) (x : ID) : List UInt8 := ((d.filterMap arrayOf).lookup x).getD []

def representative (d : List Visit) (md5 : List UInt8 → δ)
    (iterate : OrdMap ID (List UInt8) → List (ID × List UInt8)) (x : ID) : ID :=
  ((buffersInOrder d iterate).find? fun y => md5 (contentOf d y) = md5 (contentOf d x)).getD x

variable {x : ID} {content : List UInt8}

theorem contentOf_eq (hd : Shrinkable d) (h : (x, content) ∈ d.filterMap arrayOf) :
    contentOf d x = content := by
  obtain ⟨l₁, l₂, hsplit⟩ := append_of_mem h
  have hnd := hd.arrayIds
  rw [hsplit, map_append, map_cons, nodup_append] at hnd
  have hlook : (d.filterMap arrayOf).lookup x = some content := by
    refine lookup_eq_some_iff.mpr ⟨l₁, l₂, hsplit, fun e he => ?_⟩
    simpa using (hnd.2.2 e.1 (mem_map_of_mem he) x mem_cons_self).symm
  rw [contentOf, hlook]
  rfl

def contents (d : List Visit) : Set (List UInt8) :=
  {content | ∃ x, (x, content) ∈ d.filterMap arrayOf}

theorem nodup_buffersInOrder (hiterate : ∀ m, (iterate m).Perm m.toList) :
    (buffersInOrder d iterate).Nodup :=
  (((hiterate _).map Prod.fst).nodup_iff.mpr (OrdMap.nodup_keys _)).filter _

theorem take_append_drop_field (data : List UInt8) (off k : ℕ) :
    data.take off ++ (data.drop off).take k ++ data.drop (off + k) = data := by
  rw [append_assoc, ← drop_drop, take_append_drop, take_append_drop]

theorem ne_nullId_of_liveBuffer (h : x ∈ d.filterMap (liveBuffer d)) : x ≠ nullId d := by
  obtain ⟨v, -, hv⟩ := mem_filterMap.mp h
  unfold liveBuffer at hv
  split at hv
  · split at hv
    · simpa using (filter_eq_some_iff.mp hv).2
    · exact nomatch hv
  · exact nomatch hv

section Representatives

variable (hd : Shrinkable d) (hiterate : ∀ m, (iterate m).Perm m.toList)

include hd hiterate

theorem mem_iterate (x : ID) (content : List UInt8) :
    (x, content) ∈ iterate (OrdMap.insertAll ∅ (d.filterMap arrayOf)) ↔
      (x, content) ∈ d.filterMap arrayOf := by
  rw [(hiterate _).mem_iff, Std.ExtTreeMap.mem_toList_iff_getElem?_eq_some]
  constructor
  · intro h
    have hkey : x ∈ (d.filterMap arrayOf).map Prod.fst := by
      by_contra hnot
      rw [OrdMap.get_insertAll_of_not_mem hnot] at h
      simp at h
    obtain ⟨e, he, rfl⟩ := mem_map.mp hkey
    rw [OrdMap.get_insertAll_of_mem hd.arrayIds he] at h
    rwa [← some.inj h]
  · intro h
    exact OrdMap.get_insertAll_of_mem hd.arrayIds h ∅

theorem mem_buffersInOrder :
    x ∈ buffersInOrder d iterate ↔ ∃ content, BufferArray d x content := by
  rw [buffersInOrder, List.mem_filter, decide_eq_true_iff, List.mem_map]
  constructor
  · rintro ⟨⟨⟨x, content⟩, hmem, rfl⟩, hlive⟩
    exact ⟨content, hlive, (mem_iterate hd hiterate x content).mp hmem⟩
  · rintro ⟨content, hlive, hmem⟩
    exact ⟨⟨(x, content), (mem_iterate hd hiterate x content).mpr hmem, rfl⟩, hlive⟩

variable (hmd5 : Set.InjOn md5 (contents d))

include hmd5

omit [DecidableEq δ] in
theorem bufferArray_of_md5 {y : ID} (hx : BufferArray d x content)
    (hy : y ∈ buffersInOrder d iterate) (h : md5 (contentOf d y) = md5 (contentOf d x)) :
    BufferArray d y content := by
  obtain ⟨content', hy⟩ := (mem_buffersInOrder hd hiterate).mp hy
  rw [contentOf_eq hd hx.2, contentOf_eq hd hy.2] at h
  rw [← hmd5 ⟨y, hy.2⟩ ⟨x, hx.2⟩ h]
  exact hy

theorem find?_representative (hx : BufferArray d x content) :
    (buffersInOrder d iterate).find? (fun y => md5 (contentOf d y) = md5 (contentOf d x)) =
        some (representative d md5 iterate x) ∧
      BufferArray d (representative d md5 iterate x) content := by
  have hmem : x ∈ buffersInOrder d iterate := (mem_buffersInOrder hd hiterate).mpr ⟨content, hx⟩
  cases hfind : (buffersInOrder d iterate).find?
      (fun y => md5 (contentOf d y) = md5 (contentOf d x)) with
  | none =>
    rw [find?_eq_none] at hfind
    exact absurd (decide_eq_true rfl) (hfind x hmem)
  | some y =>
    have hrep : representative d md5 iterate x = y := by rw [representative, hfind]; rfl
    rw [hrep]
    refine ⟨rfl, bufferArray_of_md5 hd hiterate hmd5 hx (mem_of_find?_eq_some hfind) ?_⟩
    simpa using find?_some hfind

omit [DecidableEq δ] in
theorem shared_iff
    (x : ID) :
    Merge.Shared (fun y => md5 (contentOf d y)) (buffersInOrder d iterate) x ↔
      SharedBuffer d x := by
  constructor
  · rintro ⟨hx, y, hy, hne, hkey⟩
    obtain ⟨content, hx⟩ := (mem_buffersInOrder hd hiterate).mp hx
    exact ⟨content, hx, y, hne, bufferArray_of_md5 hd hiterate hmd5 hx hy hkey⟩
  · rintro ⟨content, hx, y, hne, hy⟩
    refine ⟨(mem_buffersInOrder hd hiterate).mpr ⟨content, hx⟩, y,
      (mem_buffersInOrder hd hiterate).mpr ⟨content, hy⟩, hne, ?_⟩
    dsimp only
    rw [contentOf_eq hd hx.2, contentOf_eq hd hy.2]

theorem represents : Represents d (representative d md5 iterate) := by
  have hsame : ∀ x y content, BufferArray d x content → BufferArray d y content →
      representative d md5 iterate x = representative d md5 iterate y := by
    intro x y content hx hy
    have hfx := (find?_representative hd hiterate hmd5 hx).1
    have hfy := (find?_representative hd hiterate hmd5 hy).1
    rw [contentOf_eq hd hx.2] at hfx
    rw [contentOf_eq hd hy.2] at hfy
    exact some.inj (hfx.symm.trans hfy)
  refine ⟨fun x content hx => (find?_representative hd hiterate hmd5 hx).2, hsame, ?_⟩
  intro x content hx hne
  have hrep := (find?_representative hd hiterate hmd5 hx).2
  exact .inr ⟨⟨content, hrep, x, Ne.symm hne, hx⟩, hsame _ _ content hrep hx⟩

/-- **The second pass**: it collects the arrays of texts, and maps every buffer that has the content
of another one to its representative. -/
theorem collectKept_eq :
    ∃ kept, collectKept md5 iterate (collectInfo d) d = some kept ∧
      (∀ x, x ∈ kept.stringValueIds ↔ x ∈ d.filterMap (stringValue d)) ∧
      ∀ x y, kept.bmpBufferIdToDeduplicatedId.lookup x = some y ↔
        SharedBuffer d x ∧ representative d md5 iterate x = y := by
  obtain ⟨text, k, timestamp, body, hshape, hbody⟩ := hd.shape
  have hd' : d = (.header text k timestamp :: body) ++ [.visitEnd] := hshape
  have hrecs : ∀ v ∈ (.header text k timestamp :: body : List Visit), v ∈ d ∧ v ≠ .visitEnd := by
    intro v hv
    refine ⟨hd' ▸ mem_append_left _ hv, ?_⟩
    rintro rfl
    rcases mem_cons.mp hv with hv | hv
    · exact nomatch hv
    · exact nomatch hbody _ hv
  -- the end of the dump adds nothing
  have hfilterMap : ∀ {α : Type} {f : Visit → Option α}, f .visitEnd = none →
      (.header text k timestamp :: body : List Visit).filterMap f = d.filterMap f := by
    intro α f hf
    rw [hd', filterMap_append]
    simp [hf]
  obtain ⟨hbmp, hstr, hdata, hmerg⟩ :=
    foldl_add (d := d) (.header text k timestamp :: body) {}
  rw [hfilterMap rfl] at hdata
  simp only [not_mem_nil, or_false] at hbmp hstr
  rw [hfilterMap (f := liveBuffer d) rfl] at hbmp
  rw [hfilterMap (f := stringValue d) rfl] at hstr
  have hkept := @foldlM_kept d δ _ md5 iterate hd _ hrecs {}
  generalize (.header text k timestamp :: body : List Visit).foldl (Kept.add d) {} = s at *
  have hkey : ∀ e ∈ iterate s.bufferIdToElementData, md5 (contentOf d e.1) = md5 e.2 := by
    rintro ⟨x, content⟩ he
    rw [hdata] at he
    rw [contentOf_eq hd ((mem_iterate hd hiterate x content).mp he)]
  have hbufs : ((iterate s.bufferIdToElementData).map Prod.fst).filter (· ∈ s.bmpBufferIds) =
      buffersInOrder d iterate := by
    rw [hdata]
    exact filter_congr fun x _ => decide_eq_decide.mpr (hbmp x)
  refine ⟨{ s with
    bmpBufferIdToDeduplicatedId :=
      ((iterate s.bufferIdToElementData).foldl (mergeBuffer md5 s.bmpBufferIds)
        ([], s.bmpBufferIdToDeduplicatedId)).2
    bufferIdToElementData := ∅ }, ?_, hstr, ?_⟩
  · conv_lhs => rw [collectKept, hd', foldlM_append]
    rw [← hd', hkept]
    rfl
  · intro x y
    rw [foldl_mergeBuffer (fun y => md5 (contentOf d y)) hkey, hbufs, hmerg]
    have hlook := Merge.lookup_merged (fun y => md5 (contentOf d y))
      (nodup_buffersInOrder (d := d) hiterate) x y
    rw [shared_iff hd hiterate hmd5] at hlook
    refine hlook.trans (and_congr_right ?_)
    rintro ⟨content, hx, -⟩
    rw [(find?_representative hd hiterate hmd5 hx).1, some.injEq]

/-! ## The third pass -/

theorem representative_eq_self (hx : BufferArray d x content)
    (hshar : ¬ SharedBuffer d x) : representative d md5 iterate x = x := by
  by_contra hne
  exact hshar ⟨content, hx, _, hne, (find?_representative hd hiterate hmd5 hx).2⟩

theorem shrinkVisit_bitmap {kept : Kept}
    (hmerg : ∀ x y, kept.bmpBufferIdToDeduplicatedId.lookup x = some y ↔
      SharedBuffer d x ∧ representative d md5 iterate x = y)
    (hv : .heap (.instanceDump id stackId c data) ∈ d) (hc : classId d bitmapClassName = some c) :
    shrinkVisit (collectInfo d) kept (.heap (.instanceDump id stackId c data)) =
      some [.heap (.instanceDump id stackId c
        (renamed d (representative d md5 iterate) c data))] := by
  have hbmp : (collectInfo d).bmpClassId = some c := (collectInfo_classes hd).1.trans hc
  have hnull := (collectInfo_idSize hd).2
  have hloop := bufferLoop_collectInfo hd hv hc
  cases hoff : offsetOf d c mBufferFieldName with
  | none =>
    rw [hoff] at hloop
    obtain ⟨pos, hloop⟩ := hloop
    simp [shrinkVisit, hloop, renamed, hoff]
  | some off =>
    rw [hoff] at hloop
    obtain ⟨hloop, hlen⟩ := hloop
    have hself := take_append_drop_field data off (idSize d)
    simp only [shrinkVisit, hbmp, if_true, hloop, renamed, hoff, bind_eq_bind,
      bind_some, hnull]
    generalize (data.drop off).take (idSize d) = x at hself ⊢
    cases hlook : kept.bmpBufferIdToDeduplicatedId.lookup x with
    | none =>
      have hshar : ¬ SharedBuffer d x := by
        intro hshar
        rw [(hmerg x _).mpr ⟨hshar, rfl⟩] at hlook
        exact nomatch hlook
      split_ifs with hbuf
      · obtain ⟨content, hx⟩ := hbuf
        rw [representative_eq_self hd hiterate hmd5 hx hshar, hself]
      · rfl
    | some y =>
      obtain ⟨⟨content, hx, hoth⟩, rfl⟩ := (hmerg x y).mp hlook
      have hx0 : x ≠ nullId d := ne_nullId_of_liveBuffer hx.1
      have hrep := (find?_representative hd hiterate hmd5 hx).2
      have hsize : (representative d md5 iterate x).length = idSize d :=
        hd.arrayIdSize _ hrep.2
      rw [if_pos ⟨content, hx⟩]
      dsimp only
      by_cases hne : x = representative d md5 iterate x
      · rw [if_neg fun h => h.1 hne, ← hne, hself]
      · rw [if_pos ⟨hne, fun h => hx0 (some.inj h).symm⟩, modifyIdInBuffer, hsize,
          if_pos hlen, bind_some]

/-- **The third pass**: it does to a visit what `shrunk` says. -/
theorem shrinkVisit_eq {kept : Kept}
    (hstr : ∀ x, x ∈ kept.stringValueIds ↔ x ∈ d.filterMap (stringValue d))
    (hmerg : ∀ x y, kept.bmpBufferIdToDeduplicatedId.lookup x = some y ↔
      SharedBuffer d x ∧ representative d md5 iterate x = y) {v : Visit} (hv : v ∈ d) :
    shrinkVisit (collectInfo d) kept v =
      some (shrunk d (representative d md5 iterate) v) := by
  cases v with
  | heap v =>
    cases v with
    | instanceDump id stackId c data =>
      rw [shrunk]
      split_ifs with hc
      · exact shrinkVisit_bitmap hd hiterate hmd5 hmerg hv hc
      · have hbmp : (collectInfo d).bmpClassId ≠ some c := (collectInfo_classes hd).1 ▸ hc
        simp only [shrinkVisit, if_neg hbmp]
    | primitiveArray tag id stackId numElements typeId elements =>
      have hkept : (kept.bmpBufferIdToDeduplicatedId.lookup id = some id ∨
          id ∈ kept.stringValueIds) ↔ KeptArray d (representative d md5 iterate) id := by
        rw [hmerg, hstr, KeptArray, or_comm]
      rw [shrunk, shrinkVisit]
      split_ifs with h₁ h₂ h₂
      · rfl
      · exact absurd (hkept.mp h₁) h₂
      · exact absurd (hkept.mpr h₂) h₁
      · rfl
    | _ => rfl
  | _ => rfl

end Representatives

/-- **Shrinking**: for every digest that tells the arrays of the dump apart and every order of the
hash map, the writer gets the visits of the dump without the arrays that are not kept, and with
bitmaps that name the representatives of their buffers. -/
theorem shrink_eq_shrunk (hd : Shrinkable d) (hmd5 : Set.InjOn md5 (contents d))
    (hiterate : ∀ m, (iterate m).Perm m.toList) :
    ∃ rep, Represents d rep ∧ shrink md5 iterate d = some (d.flatMap (shrunk d rep)) := by
  refine ⟨representative d md5 iterate, represents hd hiterate hmd5, ?_⟩
  obtain ⟨kept, hkept, hstr, hmerg⟩ := collectKept_eq hd hiterate hmd5
  have hparts : d.mapM (shrinkVisit (collectInfo d) kept) =
      some (d.map (shrunk d (representative d md5 iterate))) := by
    rw [mapM_eq_some_iff, List.map_map]
    exact map_congr_left fun v hv => shrinkVisit_eq hd hiterate hmd5 hstr hmerg hv
  simp only [shrink, hkept, hparts, bind_eq_bind, bind_some]
  rfl

end Passes

/-- Two bitmaps with equal buffers, a text and an array of no use. -/
def twoBitmaps : List Visit := [
  .header ['J'] 1 0,
  .stringRecord [1] bitmapClassName 0 0,
  .stringRecord [2] mBufferFieldName 0 0,
  .stringRecord [3] mRecycledFieldName 0 0,
  .stringRecord [4] stringClassName 0 0,
  .stringRecord [5] valueFieldName 0 0,
  .loadClassRecord 1 [10] 0 [1] 0 0,
  .loadClassRecord 2 [11] 0 [4] 0 0,
  .heapDumpRecord 0x1c 0 0,
  .heap (.instanceDump [20] 0 [10] [0, 30]),
  .heap (.instanceDump [21] 0 [10] [0, 31]),
  .heap (.instanceDump [22] 0 [11] [32]),
  .heap (.classDump [10] 0 [0] [0] 0 [] [⟨some 4, [3], none⟩, ⟨some 2, [2], none⟩]),
  .heap (.classDump [11] 0 [0] [0] 0 [] [⟨some 2, [5], none⟩]),
  .heap (.primitiveArray 0x23 [30] 0 2 8 [7, 7]),
  .heap (.primitiveArray 0x23 [31] 0 2 8 [7, 7]),
  .heap (.primitiveArray 0x23 [32] 0 1 8 [65]),
  .heap (.primitiveArray 0x23 [33] 0 1 8 [1]),
  .heapEnd,
  .visitEnd]

theorem complete_twoBitmaps {id c : ID} {stackId : BitVec 32} {data : List UInt8}
    (hv : .heap (.instanceDump id stackId c data) ∈ twoBitmaps) :
    ((instanceFields twoBitmaps c).map (Field.width (idSize twoBitmaps))).sum ≤ data.length := by
  have hall : ∀ x ∈ [([10], [0, 30]), ([10], [0, 31]), ([11], [32])],
      ((instanceFields twoBitmaps x.1).map (Field.width (idSize twoBitmaps))).sum ≤
        (x.2 : List UInt8).length := by decide +kernel
  refine hall (c, data) ?_
  simp [twoBitmaps] at hv ⊢
  tauto

theorem shrinkable_twoBitmaps : Shrinkable twoBitmaps where
  shape := ⟨['J'], 1, 0, twoBitmaps.tail.dropLast, rfl, by decide⟩
  ordered := by decide
  textIds := by
    have hinj : ∀ t ∈ lookedUp, ∀ t' ∈ lookedUp, stringId twoBitmaps t = stringId twoBitmaps t' →
        t = t' := by decide +kernel
    exact fun t ht t' ht' i h h' => hinj t ht t' ht' (h.trans h'.symm)
  classIds := by
    intro c hc
    rw [← hc]
    decide
  arrayIds := by decide +kernel
  arrayIdSize := by decide +kernel
  bitmaps := by
    intro c hc
    have hbitm : classId twoBitmaps bitmapClassName = some [10] := by decide +kernel
    obtain rfl : [10] = c := some.inj (hbitm.symm.trans hc)
    have hobj : ∀ f ∈ instanceFields twoBitmaps [10],
        stringId twoBitmaps mBufferFieldName = some f.nameId → f.type = some .object := by
      decide +kernel
    have hbool : ∀ f ∈ instanceFields twoBitmaps [10],
        stringId twoBitmaps mRecycledFieldName = some f.nameId → f.type = some .boolean := by
      decide +kernel
    refine ⟨by decide +kernel, by decide +kernel, fun f hf text t ht hname => ?_,
      fun _ _ _ => complete_twoBitmaps⟩
    split_ifs at ht with h₁ h₂
    · exact (hobj f hf (h₁ ▸ hname)).trans ht
    · exact (hbool f hf (h₂ ▸ hname)).trans ht
  strings := by
    intro c hc
    have hstr : classId twoBitmaps stringClassName = some [11] := by decide +kernel
    obtain rfl : [11] = c := some.inj (hstr.symm.trans hc)
    have hobj : ∀ f ∈ instanceFields twoBitmaps [11],
        stringId twoBitmaps valueFieldName = some f.nameId → f.type = some .object := by
      decide +kernel
    refine ⟨by decide +kernel, by decide +kernel, fun f hf text t ht hname => ?_,
      fun _ _ _ => complete_twoBitmaps⟩
    split_ifs at ht with h
    exact (hobj f hf (h ▸ hname)).trans ht

/-- The content itself can be the digest, and the map may be iterated in the order of its keys. -/
theorem shrink_eq_shrunk_twoBitmaps :
    ∃ rep, Represents twoBitmaps rep ∧
      shrink (fun content : List UInt8 => content) (fun m => m.toList) twoBitmaps =
        some (twoBitmaps.flatMap (shrunk twoBitmaps rep)) :=
  shrink_eq_shrunk shrinkable_twoBitmaps (fun _ _ _ _ h => h) fun _ => .refl _

end TraceHarbor.HprofLib
