import TraceHarbor.Lib.Loop

/-!
# Ordered Maps

`OrdMap κ α` is the extensional tree map of the standard library over the order of `κ`, iterated in
ascending key order. This file adds lookups after an update, by cases on key equality, sums over the
entries, and what a scan for the first entry with a property returns.
-/

namespace TraceHarbor.Lib

open List

/-- Finite maps iterated in ascending key order. -/
abbrev OrdMap (κ : Type*) [Ord κ] (α : Type*) := Std.ExtTreeMap κ α compare

namespace OrdMap

variable {κ α : Type*}

section Updates

variable [Ord κ] [Std.TransOrd κ] [Std.LawfulEqOrd κ] [DecidableEq κ]

theorem get_insert (m : OrdMap κ α) (k a : κ) (v : α) :
    (m.insert k v)[a]? = if a = k then some v else m[a]? := by
  simp only [Std.ExtTreeMap.getElem?_insert, Std.compare_eq_iff_eq, @eq_comm _ a]

@[simp]
theorem get_insert_self (m : OrdMap κ α) (k : κ) (v : α) : (m.insert k v)[k]? = some v := by
  rw [get_insert, if_pos rfl]

theorem get_insert_of_ne (m : OrdMap κ α) {k a : κ} (v : α) (h : a ≠ k) :
    (m.insert k v)[a]? = m[a]? := by
  rw [get_insert, if_neg h]

theorem get_insert_of_get {m : OrdMap κ α} {k a : κ} {v w : α} (hk : m[k]? = none)
    (ha : m[a]? = some w) : (m.insert k v)[a]? = some w := by
  rw [get_insert_of_ne _ _ fun heq => by simp [← heq, ha] at hk, ha]

theorem get_erase (m : OrdMap κ α) (k a : κ) :
    (m.erase k)[a]? = if a = k then none else m[a]? := by
  simp only [Std.ExtTreeMap.getElem?_erase, Std.compare_eq_iff_eq, @eq_comm _ a]

theorem insert_insert (m : OrdMap κ α) (k : κ) (v w : α) : (m.insert k v).insert k w = m.insert k w := by
  ext1 a
  simp only [get_insert]
  split_ifs <;> rfl

/-- The entries are inserted one after the other. -/
def insertAll (m : OrdMap κ α) (entries : List (κ × α)) : OrdMap κ α :=
  entries.foldl (fun m e => m.insert e.1 e.2) m

omit [Std.LawfulEqOrd κ] [DecidableEq κ] in
theorem insertAll_append (m : OrdMap κ α) (entries entries' : List (κ × α)) :
    insertAll m (entries ++ entries') = insertAll (insertAll m entries) entries' :=
  foldl_append

variable {entries : List (κ × α)}

theorem get_insertAll_of_not_mem {k : κ} (h : k ∉ entries.map Prod.fst)
    (m : OrdMap κ α) : (insertAll m entries)[k]? = m[k]? := by
  rw [insertAll, ← Std.ExtTreeMap.insertMany_list_eq_foldl]
  exact Std.ExtTreeMap.getElem?_insertMany_list_of_contains_eq_false (by simpa using h)

/-- An entry whose key comes only once is found again. -/
theorem get_insertAll_of_mem (hnd : (entries.map Prod.fst).Nodup)
    {e : κ × α} (he : e ∈ entries) (m : OrdMap κ α) : (insertAll m entries)[e.1]? = some e.2 := by
  rw [insertAll, ← Std.ExtTreeMap.insertMany_list_eq_foldl]
  refine Std.ExtTreeMap.getElem?_insertMany_list_of_mem Std.ReflOrd.compare_self ?_ he
  exact (pairwise_map.mp hnd).imp fun hne heq => hne (Std.compare_eq_iff_eq.mp heq)

theorem get_insertAll_iff (hnd : (entries.map Prod.fst).Nodup)
    {m : OrdMap κ α} (hnew : ∀ e ∈ entries, m[e.1]? = none) {k : κ} {v : α} :
    (insertAll m entries)[k]? = some v ↔ m[k]? = some v ∨ (k, v) ∈ entries := by
  constructor
  · intro hget
    by_cases hk : k ∈ entries.map Prod.fst
    · obtain ⟨e, he, rfl⟩ := mem_map.mp hk
      rw [get_insertAll_of_mem hnd he, Option.some.injEq] at hget
      exact .inr (hget ▸ he)
    · exact .inl (get_insertAll_of_not_mem hk m ▸ hget)
  · rintro (hget | he)
    · rw [get_insertAll_of_not_mem, hget]
      intro hk
      obtain ⟨e, he, rfl⟩ := mem_map.mp hk
      rw [hnew e he] at hget
      cases hget
    · exact get_insertAll_of_mem hnd he m

omit [DecidableEq κ] in
theorem mem_keys {m : OrdMap κ α} {k : κ} : k ∈ m.toList.map Prod.fst ↔ m[k]? ≠ none := by
  rw [Std.ExtTreeMap.map_fst_toList_eq_keys, Std.ExtTreeMap.mem_keys,
    Std.ExtTreeMap.mem_iff_isSome_getElem?, Option.isSome_iff_ne_none]

omit [Std.LawfulEqOrd κ] [DecidableEq κ] in
theorem nodup_keys (m : OrdMap κ α) : (m.toList.map Prod.fst).Nodup := by
  rw [Std.ExtTreeMap.map_fst_toList_eq_keys]
  exact Std.ExtTreeMap.nodup_keys

/-- What was computed for an item is found under its key, when all keys are different. -/
theorem get_insertAll_mapM {ι : Type*} {l : List ι} {f : ι → Option (κ × α)} {key : ι → κ}
    (hkey : ∀ i e, f i = some e → e.1 = key i) (hnd : (l.map key).Nodup)
    {read : List (κ × α)} (h : l.mapM f = some read) {i : ι} (hi : i ∈ l) (m : OrdMap κ α) :
    f i = (insertAll m read)[key i]?.map fun v => (key i, v) := by
  rw [mapM_eq_some_iff] at h
  have hmem : f i ∈ read.map some := h ▸ mem_map_of_mem hi
  obtain ⟨e, he, hfi⟩ := mem_map.mp hmem
  have hkeys : read.map Prod.fst = l.map key := by
    refine ext_getElem ?_ fun j hread hl => ?_
    · simpa using (congrArg length h).symm
    · rw [length_map] at hread hl
      have hj : f l[j] = some read[j] := by
        have := getElem_of_eq h (by simpa using hl)
        simpa using this
      rw [getElem_map, getElem_map]
      exact hkey _ _ hj
  rw [← hkey i e hfi.symm, get_insertAll_of_mem (hkeys ▸ hnd) he, ← hfi]
  rfl

/-- Two ways to compute entries with different keys give the same map if they give the same entries. -/
theorem insertAll_mapM_eq_iff {ι : Type*} {l : List ι} {f : ι → Option (κ × α)} {key : ι → κ}
    (hkey : ∀ i e, f i = some e → e.1 = key i) (hnd : (l.map key).Nodup)
    {read : List (κ × α)} (h : l.mapM f = some read) (m : OrdMap κ α) (g : ι → α) :
    insertAll m read = insertAll m (l.map fun i => (key i, g i)) ↔
      ∀ i ∈ l, f i = some (key i, g i) := by
  constructor
  · intro heq i hi
    have hnd' : ((l.map fun i => (key i, g i)).map Prod.fst).Nodup := by
      rwa [map_map]
    rw [get_insertAll_mapM hkey hnd h hi m, heq,
      get_insertAll_of_mem hnd' (mem_map_of_mem hi) m]
    rfl
  · intro hall
    have hsame : l.map f = (l.map fun i => (key i, g i)).map some := by
      rw [map_map]
      exact map_congr_left hall
    rw [mapM_eq_some_iff.mpr hsame, Option.some.injEq] at h
    rw [h]

end Updates

section Scans

variable [LinearOrder κ]

variable {m : OrdMap κ α}

theorem mem_toList {k : κ} {v : α} : (k, v) ∈ m.toList ↔ m[k]? = some v :=
  Std.ExtTreeMap.mem_toList_iff_getElem?_eq_some

theorem sorted_toList (m : OrdMap κ α) : m.toList.Pairwise fun p q => p.1 < q.1 :=
  Std.ExtTreeMap.ordered_keys_toList.imp fun h => compare_lt_iff_lt.mp h

theorem nodup_of_sorted {l : List (κ × α)} (h : l.Pairwise fun p q => p.1 < q.1) : l.Nodup :=
  h.imp fun hlt heq => hlt.ne (congrArg Prod.fst heq)

theorem nodup_toList (m : OrdMap κ α) : m.toList.Nodup := nodup_of_sorted m.sorted_toList

theorem toList_eq_of_sorted {l : List (κ × α)}
    (hsort : l.Pairwise fun p q => p.1 < q.1) (hmem : ∀ k v, (k, v) ∈ l ↔ m[k]? = some v) :
    m.toList = l := by
  have hperm : m.toList.Perm l := by
    refine (perm_ext_iff_of_nodup m.nodup_toList (nodup_of_sorted hsort)).mpr ?_
    rintro ⟨k, v⟩
    rw [mem_toList, hmem]
  exact hperm.eq_of_pairwise (fun p q _ _ hpq hqp => absurd hpq hqp.not_gt) m.sorted_toList hsort

/-! ### Totals -/

/-- The sum of a weight over the entries. -/
def total (f : κ → α → ℕ) (m : OrdMap κ α) : ℕ := (m.toList.map fun e => f e.1 e.2).sum

theorem total_insert (f : κ → α → ℕ) (m : OrdMap κ α) (k : κ) (v : α) :
    total f (m.insert k v) = f k v + total f (m.erase k) := by
  have hnotMem : (k, v) ∉ (m.erase k).toList := fun hmem => by
    simpa [get_erase] using mem_toList.mp hmem
  have hperm : (m.insert k v).toList.Perm ((k, v) :: (m.erase k).toList) := by
    refine (perm_ext_iff_of_nodup (nodup_toList _)
      (nodup_cons.mpr ⟨hnotMem, nodup_toList _⟩)).mpr ?_
    rintro ⟨a, w⟩
    rw [mem_cons, mem_toList, mem_toList, get_insert, get_erase, Prod.mk.injEq]
    by_cases ha : a = k <;> simp [ha, eq_comm]
  rw [total, (hperm.map _).sum_eq, map_cons, sum_cons, total]

theorem total_of_get {f : κ → α → ℕ} {k : κ} {v : α} (h : m[k]? = some v) :
    total f m = f k v + total f (m.erase k) := by
  have hsame : m.insert k v = m := by
    refine Std.ExtTreeMap.ext_getElem? fun a => ?_
    rw [get_insert]
    split_ifs with ha
    · rw [ha, h]
    · rfl
  rw [← total_insert, hsame]

theorem erase_of_get_none {k : κ} (h : m[k]? = none) : m.erase k = m := by
  refine Std.ExtTreeMap.ext_getElem? fun a => ?_
  rw [get_erase]
  split_ifs with ha
  · rw [ha, h]
  · rfl

theorem total_eq_zero_iff {f : κ → α → ℕ} :
    total f m = 0 ↔ ∀ k v, m[k]? = some v → f k v = 0 := by
  simp only [total, sum_eq_zero_iff, mem_map, Prod.exists, forall_exists_index, and_imp,
    mem_toList]
  exact ⟨fun h k v hkv => h _ k v hkv rfl, fun h n k v hkv hn => hn ▸ h k v hkv⟩

/-! ### First entries -/

/-- The first entry, in key order, with a property. -/
def findFirst (m : OrdMap κ α) (p : κ → α → Bool) : Option (κ × α) :=
  m.toList.find? fun entry => p entry.1 entry.2

/-- A scan returns the entry with the smallest key among those with the property. -/
theorem findFirst_eq_some {p : κ → α → Bool} {k : κ} {v : α} :
    m.findFirst p = some (k, v) ↔
      m[k]? = some v ∧ p k v = true ∧ ∀ k' v', m[k']? = some v' → p k' v' = true → k ≤ k' := by
  rw [findFirst, find?_eq_some_iff_append]
  constructor
  · rintro ⟨hp, before, after, hlist, hbef⟩
    refine ⟨mem_toList.mp (by simp [hlist]), hp, fun k' v' hk' hp' => ?_⟩
    have hsort := m.sorted_toList
    rw [hlist, pairwise_append, pairwise_cons] at hsort
    have hmem := mem_toList.mpr hk'
    rw [hlist, mem_append, mem_cons] at hmem
    rcases hmem with hmem | hmem | hmem
    · simpa [hp'] using hbef _ hmem
    · exact ((Prod.ext_iff.mp hmem).1 : k' = k).ge
    · exact (hsort.2.1.1 _ hmem).le
  · rintro ⟨hkv, hp, hmin⟩
    obtain ⟨before, after, hlist⟩ := append_of_mem (mem_toList.mpr hkv)
    refine ⟨hp, before, after, hlist, ?_⟩
    rintro ⟨k', v'⟩ hmem
    have hsort := m.sorted_toList
    rw [hlist, pairwise_append] at hsort
    have hlt : k' < k := hsort.2.2 _ hmem _ (mem_cons_self ..)
    by_contra hp'
    refine absurd (hmin k' v' (mem_toList.mp ?_) (by simpa using hp')) (not_le.mpr hlt)
    rw [hlist]
    exact mem_append_left _ hmem

end Scans

end OrdMap

end TraceHarbor.Lib
