import TraceHarbor.Lib.OrdMap
import TraceHarbor.Lib.Text

/-!
# The Resource Symbol File

`readResourceTxtFile` reads the symbols of a build, `R.txt`: lines for single resources, and for each
styleable a line with the ids of its attributes followed by lines that name them. In what
`shrinkResourceTxtFile` writes two things do not come back as they were: `parseResourceId` fills an id up
with zeros on the right, and the names of attributes have the prefix that the reader puts before them.
-/

namespace TraceHarbor.Shrinker

open Lib List Option

/-! ## Numbers -/

/-- `"0x"` and `Integer.toHexString`. -/
def hexText (n : ℕ) : Text := '0' :: 'x' :: Nat.toDigits 16 n

def parseResourceId (resId : Text) : Text :=
  if ['0', 'x'] <+: resId then
    if resId.length = 10 then resId
    else if resId.length < 10 then resId ++ List.replicate (10 - resId.length) '0'
    else []
  else []

/-- `Integer.decode` of what `parseResourceId` returns; `none` when it throws. -/
def integerDecode : Text → Option ℕ
  | '0' :: 'x' :: digits => (parseDigits 16 digits).filter (· < 2 ^ 31)
  | _ => none

/-- `String.toInt`; `none` when it throws. -/
def toInt (text : Text) : Option ℤ :=
  let value : Option ℤ :=
    match text with
    | '-' :: digits => (parseDigits 10 digits).map fun n => -(n : ℤ)
    | '+' :: digits => (parseDigits 10 digits).map Int.ofNat
    | digits => (parseDigits 10 digits).map Int.ofNat
  value.filter fun n => -2 ^ 31 ≤ n ∧ n < 2 ^ 31

/-! ## Reading -/

/-- The attributes of a styleable, `null` where none was read. -/
abbrev Attributes := List (Option (Text × ℕ))

/-- The variables of `readResourceTxtFile`. -/
structure ReadState where
  resourceMap : OrdMap Text ℕ
  styleableMap : OrdMap Text Attributes
  styleable : Bool
  styleableName : Text
  styleableAttrs : List Text

/-- `line.split(" ").dropLastWhile { it.isEmpty() }`. -/
def columnsOf (line : Text) : List Text := (line.splitOn ' ').rdropWhile (· = [])

/-- `"R.$type.$name"`. -/
def resourceName (type name : Text) : Text := 'R' :: '.' :: (type ++ '.' :: name)

def withoutComma (column : Text) : Text :=
  if [','] <:+ column then column.dropLast else column

def styleableText : Text := "styleable".toList

namespace ReadState

variable (s : ReadState)

def leave : ReadState := if s.styleable then { s with styleable := false, styleableName := [] } else s

def readResource (name column : Text) : Option ReadState :=
  let resId := parseResourceId column
  if resId = [] then some s.leave
  else do
    let id ← integerDecode resId
    return { s.leave with resourceMap := s.leave.resourceMap.insert name id }

/-- The line that starts a styleable, with more than five columns. -/
def readStyleable (name : Text) (columns : List Text) : ReadState :=
  let attrs := ((columns.drop 4).dropLast).map withoutComma
  { s with
    styleable := true, styleableName := name, styleableAttrs := attrs
    styleableMap := s.styleableMap.insert name (List.replicate attrs.length none) }

def readAttribute (name column : Text) : Option ReadState :=
  match s.styleableMap[s.styleableName]? with
  | none => some s
  | some attributes => do
    let index ← toInt column
    if index < 0 then none
    else do
      let attr ← s.styleableAttrs[index.toNat]?
      let id ← integerDecode (parseResourceId attr)
      if index.toNat < attributes.length then
        return { s with styleableMap :=
          s.styleableMap.insert s.styleableName (attributes.set index.toNat (some (name, id))) }
      else none

/-- One line; `none` when an exception is thrown. -/
def readLine (line : Text) : Option ReadState :=
  match columnsOf line with
  | column₀ :: type :: name :: column₃ :: rest =>
    if ¬ ['[', ']'] <:+ column₀ ∧ ['0', 'x'] <+: column₃ then
      s.readResource (resourceName type name) column₃
    else if type = styleableText then
      if ['[', ']'] <:+ column₀ then
        if 1 < rest.length then
          some (s.readStyleable (resourceName type name) (column₀ :: type :: name :: column₃ :: rest))
        else some s
      else if s.styleable ∧ s.styleableName ≠ [] then
        s.readAttribute (resourceName type name) column₃
      else some s
    else some s.leave
  | _ => some s

end ReadState

/-- `readResourceTxtFile` into empty maps. -/
def readResourceTxtFile (file : Text) : Option (OrdMap Text ℕ × OrdMap Text Attributes) :=
  ((readLines (fun _ => false) file).foldlM ReadState.readLine ⟨∅, ∅, false, [], []⟩).map
    fun s => (s.resourceMap, s.styleableMap)

/-! ## Writing -/

/-- The part of a resource name up to the second dot, after `R.`, and the rest; `none` when there is
no such dot. -/
def splitName (resource : Text) : Option (Text × Text) :=
  match (resource.drop 2).dropWhile (· ≠ '.') with
  | [] => none
  | _ :: name => some ((resource.drop 2).takeWhile (· ≠ '.'), name)

/-- The line of a resource; `none` when `substring` throws. -/
def resourceLine (resource : Text × ℕ) : Option Text :=
  (splitName resource.1).map fun (type, name) =>
    unwords ["int".toList, type, name, hexText resource.2]

def styleableLines (styleable : Text × List (Text × ℕ)) : List Text :=
  let name := ((splitName styleable.1).map Prod.snd).getD styleable.1
  let ids := [',', ' '].intercalate (styleable.2.map fun attr => hexText attr.2)
  (unwords ["int[]".toList, styleableText, name, "\x7b ".toList ++ ids ++ " \x7d".toList]) ::
    styleable.2.mapIdx fun i attr =>
      unwords ["int".toList, styleableText, attr.1, Nat.toDigits 10 i]

/-- `shrinkResourceTxtFile`, for the entries of the maps in the order in which they are enumerated. -/
def shrinkResourceTxtFile (resourceMap : List (Text × ℕ))
    (styleableMap : List (Text × List (Text × ℕ))) : Option Text :=
  (resourceMap.mapM resourceLine).map fun lines =>
    writeLines (lines ++ styleableMap.flatMap styleableLines)

/-! ## Tables -/

/-- No blank and no line break. -/
def PlainText (text : Text) : Prop := ∀ c ∈ text, c ≠ ' ' ∧ endsLine (fun _ => false) c = false

/-- A resource `R.type.name` with its id. -/
structure Resource where
  type : Text
  name : Text
  id : ℕ
  plain_type : PlainText type
  plain_name : PlainText name
  dotless : '.' ∉ type
  id_lt : id < 2 ^ 31

/-- A styleable, with the names and ids of its attributes. -/
structure Styleable where
  name : Text
  attrs : List (Text × ℕ)
  plain_name : PlainText name
  plain_attrs : ∀ attr ∈ attrs, PlainText attr.1
  id_lt : ∀ attr ∈ attrs, attr.2 < 2 ^ 31
  nonempty : attrs ≠ []
  length_lt : attrs.length < 2 ^ 31

def Resource.entry (r : Resource) : Text × ℕ := (resourceName r.type r.name, r.id)

/-- The entry of a styleable map, as `readResourceTxtFile` makes them. -/
def Styleable.entry (s : Styleable) : Text × List (Text × ℕ) :=
  (resourceName styleableText s.name, s.attrs.map fun attr => (resourceName styleableText attr.1, attr.2))

/-- A resource map and a styleable map, in the order in which they are enumerated. -/
structure ResourceTable where
  resources : List Resource
  styleables : List Styleable
  nodup_resources : (resources.map fun r => r.entry.1).Nodup
  nodup_styleables : (styleables.map fun s => s.entry.1).Nodup

def ResourceTable.maps (t : ResourceTable) : OrdMap Text ℕ × OrdMap Text Attributes :=
  (OrdMap.insertAll ∅ (t.resources.map Resource.entry),
    OrdMap.insertAll ∅ (t.styleables.map fun s => (s.entry.1, s.entry.2.map some)))

/-! ## What is read back -/

/-- The id that is read for a written one; `none` when it is too large. -/
def rereadId (n : ℕ) : Option ℕ :=
  (some (n * 16 ^ (8 - (Nat.toDigits 16 n).length))).filter (· < 2 ^ 31)

def rereadAttr (attr : Text × ℕ) : Option (Text × ℕ) :=
  (rereadId attr.2).map fun id => (resourceName styleableText attr.1, id)

section Digits

theorem forall_mem_hexText {P : Char → Prop} (hx : P 'x')
    (hdig : ∀ d < 16, P (Nat.digitChar d)) (n : ℕ) : ∀ c ∈ hexText n, P c := by
  intro c hc
  rcases mem_cons.mp hc with rfl | hc
  · exact hdig 0 (by decide)
  rcases mem_cons.mp hc with rfl | hc
  · exact hx
  · obtain ⟨d, hd, rfl⟩ := exists_digitChar_of_mem_toDigits (by decide) hc
    exact hdig d hd

theorem plain_hexText (n : ℕ) : PlainText (hexText n) :=
  forall_mem_hexText (by decide) (by decide) n

theorem comma_not_mem_hexText (n : ℕ) : ',' ∉ hexText n := fun h =>
  absurd rfl (forall_mem_hexText (P := fun c => c ≠ ',') (by decide) (by decide) n ',' h)

theorem forall_mem_decimal {P : Char → Prop} (hdig : ∀ d < 10, P (Nat.digitChar d)) (n : ℕ) :
    ∀ c ∈ Nat.toDigits 10 n, P c := by
  intro c hc
  obtain ⟨d, hd, rfl⟩ := exists_digitChar_of_mem_toDigits (by decide) hc
  exact hdig d hd

theorem toInt_toDigits {n : ℕ} (hn : n < 2 ^ 31) : toInt (Nat.toDigits 10 n) = some (n : ℤ) := by
  have hsign := forall_mem_decimal (P := fun c => c ≠ '-' ∧ c ≠ '+') (by decide) n
  have hval := parseDigits_toDigits (show 1 < 10 by decide) (by decide) n
  have hrng : -2 ^ 31 ≤ (n : ℤ) ∧ (n : ℤ) < 2 ^ 31 := by omega
  obtain ⟨c, digits, hcons⟩ := exists_cons_of_ne_nil (Nat.toDigits_ne_nil (b := 10) (n := n))
  rw [hcons] at hsign hval ⊢
  obtain ⟨hmin, hplus⟩ := hsign c mem_cons_self
  have hmatch : toInt (c :: digits) =
      ((parseDigits 10 (c :: digits)).map Int.ofNat).filter fun n => -2 ^ 31 ≤ n ∧ n < 2 ^ 31 := by
    rw [toInt]
    · exact fun _ h => hmin (cons.inj h).1
    · exact fun _ h => hplus (cons.inj h).1
  rw [hmatch, hval, map_some, filter_some, if_pos (by simpa using hrng)]
  rfl

/-- `parseResourceId` fills up on the right. -/
theorem parseResourceId_hexText {n : ℕ} (hn : n < 2 ^ 31) :
    parseResourceId (hexText n) =
      hexText n ++ replicate (8 - (Nat.toDigits 16 n).length) '0' := by
  have hlen : (Nat.toDigits 16 n).length ≤ 8 :=
    (Nat.length_toDigits_le_iff (by decide) (by decide)).mpr (hn.trans (by decide))
  have hhex : (hexText n).length = (Nat.toDigits 16 n).length + 2 := rfl
  rw [parseResourceId, if_pos (show ['0', 'x'] <+: hexText n from ⟨_, rfl⟩), hhex]
  split_ifs with hten hless
  · rw [show 8 - (Nat.toDigits 16 n).length = 0 by omega]
    simp
  · rw [show 10 - ((Nat.toDigits 16 n).length + 2) = 8 - (Nat.toDigits 16 n).length by omega]
  · omega

theorem integerDecode_hexText {n : ℕ} (hn : n < 2 ^ 31) :
    integerDecode (parseResourceId (hexText n)) = rereadId n := by
  rw [parseResourceId_hexText hn, rereadId, ← parseDigits_append_zeros (show 1 < 16 by decide)
    (by decide)]
  rfl

theorem rereadId_eq_some_iff {n : ℕ} (hn : n < 2 ^ 31) :
    rereadId n = some n ↔ n = 0 ∨ 0x10000000 ≤ n := by
  have hsev : (Nat.toDigits 16 n).length ≤ 7 ↔ n < 16 ^ 7 :=
    Nat.length_toDigits_le_iff (by decide) (by decide)
  rw [rereadId, filter_some]
  rcases Nat.eq_zero_or_pos n with rfl | hpos
  · simp
  by_cases hlarge : 0x10000000 ≤ n
  · have hlen : 8 - (Nat.toDigits 16 n).length = 0 := by
      omega
    simpa [hlen, hlarge] using hn
  · have hlen : 0 < 8 - (Nat.toDigits 16 n).length := by
      omega
    have hgrow : n < n * 16 ^ (8 - (Nat.toDigits 16 n).length) :=
      (Nat.lt_mul_iff_one_lt_right hpos).mpr (Nat.one_lt_pow hlen.ne' (by decide))
    refine ⟨fun h => ?_, fun h => ?_⟩
    · split_ifs at h
      exact absurd (some.inj h) hgrow.ne'
    · omega

end Digits

/-! ## Reading lines -/

section Lines

theorem columnsOf_unwords {columns : List Text} (h : ∀ c ∈ columns, ' ' ∉ c)
    (hlast : ∃ c ∈ columns.getLast?, c ≠ []) : columnsOf (unwords columns) = columns := by
  obtain ⟨last, hlast, hne⟩ := hlast
  have hcols : columns ≠ [] := by
    rintro rfl
    exact absurd hlast (by simp)
  rw [columnsOf, splitOn_unwords hcols h, rdropWhile_eq_self_iff]
  intro hne'
  rw [getLast?_eq_some_getLast hne', mem_some_iff] at hlast
  simpa [hlast] using hne

theorem not_blank_of_plain {text : Text} (h : PlainText text) : ' ' ∉ text :=
  fun hmem => (h ' ' hmem).1 rfl

theorem readLine_resource (s : ReadState) (r : Resource) :
    s.readLine (unwords ["int".toList, r.type, r.name, hexText r.id]) =
      (rereadId r.id).map fun id =>
        { s.leave with resourceMap := s.leave.resourceMap.insert r.entry.1 id } := by
  have hcols : columnsOf (unwords ["int".toList, r.type, r.name, hexText r.id]) =
      ["int".toList, r.type, r.name, hexText r.id] := by
    refine columnsOf_unwords ?_ ⟨hexText r.id, rfl, nofun⟩
    simp only [mem_cons, not_mem_nil, or_false, forall_eq_or_imp, forall_eq]
    exact ⟨by decide, not_blank_of_plain r.plain_type, not_blank_of_plain r.plain_name,
      not_blank_of_plain (plain_hexText _)⟩
  have hid : parseResourceId (hexText r.id) ≠ [] := by
    rw [parseResourceId_hexText r.id_lt]
    simp [hexText]
  have hcond : ¬ ['[', ']'] <:+ "int".toList ∧ ['0', 'x'] <+: hexText r.id :=
    ⟨by decide, ⟨_, rfl⟩⟩
  rw [ReadState.readLine, hcols]
  simp only [if_pos hcond, ReadState.readResource, if_neg hid, integerDecode_hexText r.id_lt]
  cases rereadId r.id <;> rfl

def idColumns : List ℕ → List Text
  | [] => []
  | [n] => [hexText n]
  | n :: n' :: ns => (hexText n ++ [',']) :: idColumns (n' :: ns)

theorem ids_eq_unwords {ns : List ℕ} (h : ns ≠ []) :
    [',', ' '].intercalate (ns.map hexText) ++ " \x7d".toList =
      unwords (idColumns ns ++ ["\x7d".toList]) := by
  induction ns with
  | nil => exact absurd rfl h
  | cons n ns ih =>
    cases ns with
    | nil =>
      rw [map_singleton, intercalate_singleton]
      rfl
    | cons n' ns =>
      have hrest := ih (cons_ne_nil n' ns)
      rw [idColumns, cons_append,
        unwords_cons _ (by simp), ← hrest]
      simp

theorem length_idColumns (ns : List ℕ) : (idColumns ns).length = ns.length := by
  induction ns with
  | nil => rfl
  | cons n ns ih =>
    cases ns with
    | nil => rfl
    | cons n' ns => simp [idColumns, ih]

theorem withoutComma_idColumns (ns : List ℕ) : (idColumns ns).map withoutComma = ns.map hexText := by
  have hplain : ∀ n, withoutComma (hexText n) = hexText n := by
    intro n
    rw [withoutComma, if_neg]
    intro hsuff
    exact comma_not_mem_hexText n (hsuff.subset mem_cons_self)
  induction ns with
  | nil => rfl
  | cons n ns ih =>
    cases ns with
    | nil => rw [idColumns, map_singleton, map_singleton, hplain]
    | cons n' ns =>
      rw [idColumns, map_cons, ih, withoutComma,
        if_pos (suffix_append ..), dropLast_concat]
      rfl

theorem plain_idColumns {ns : List ℕ} {c : Text} (hc : c ∈ idColumns ns) : PlainText c := by
  induction ns with
  | nil => cases hc
  | cons n ns ih =>
    cases ns with
    | nil =>
      rw [mem_singleton.mp hc]
      exact plain_hexText n
    | cons n' ns =>
      rw [idColumns, mem_cons] at hc
      rcases hc with rfl | hc
      · intro x hx
        rcases mem_append.mp hx with hx | hx
        · exact plain_hexText n x hx
        · rw [mem_singleton.mp hx]
          decide
      · exact ih hc

/-- The columns of the line that starts a styleable. -/
def headColumns (s : Styleable) : List Text :=
  "int[]".toList :: styleableText :: s.name :: "\x7b".toList ::
    (idColumns (s.attrs.map Prod.snd) ++ ["\x7d".toList])

theorem splitName_resourceName {type : Text} (h : '.' ∉ type) (name : Text) :
    splitName (resourceName type name) = some (type, name) := by
  have hall : ∀ c ∈ type, decide (c ≠ '.') = true := by
    intro c hc
    simpa using fun heq : c = '.' => h (heq ▸ hc)
  have hdrop : (type ++ '.' :: name).dropWhile (· ≠ '.') = '.' :: name := by
    rw [dropWhile_append_of_pos hall]
    rfl
  have htake : (type ++ '.' :: name).takeWhile (· ≠ '.') = type := by
    rw [takeWhile_append_of_pos hall]
    simp
  simp only [splitName, resourceName, drop_succ_cons, drop_zero, hdrop, htake]

theorem styleableLines_entry (s : Styleable) :
    styleableLines s.entry = unwords (headColumns s) :: s.attrs.mapIdx fun i attr =>
      unwords ["int".toList, styleableText, resourceName styleableText attr.1,
        Nat.toDigits 10 i] := by
  have hids : (s.entry.2.map fun attr => hexText attr.2) = (s.attrs.map Prod.snd).map hexText := by
    simp [Styleable.entry]
  have hne : s.attrs.map Prod.snd ≠ [] := by simpa using s.nonempty
  have hhead : unwords ["int[]".toList, styleableText, s.name,
      "\x7b ".toList ++ [',', ' '].intercalate ((s.attrs.map Prod.snd).map hexText) ++ " \x7d".toList] =
      unwords (headColumns s) := by
    have hcols : ∀ (a b c d : Text) (rest : List Text), rest ≠ [] →
        unwords (a :: b :: c :: d :: rest) = unwords [a, b, c, d ++ ' ' :: unwords rest] := by
      intro a b c d rest hrest
      rw [unwords_cons a (by simp), unwords_cons b (by simp), unwords_cons c (by simp),
        unwords_cons d hrest]
      simp [unwords]
    rw [headColumns, hcols _ _ _ _ (idColumns _ ++ ["\x7d".toList]) (by simp), ← ids_eq_unwords hne]
    rfl
  rw [styleableLines, hids, Styleable.entry]
  congr 1
  exact ext_getElem (by simp) fun i _ _ => by simp

theorem readLine_styleable (st : ReadState) (s : Styleable) :
    st.readLine (unwords (headColumns s)) = some { st with
      styleable := true, styleableName := s.entry.1
      styleableAttrs := s.attrs.map fun attr => hexText attr.2
      styleableMap := st.styleableMap.insert s.entry.1 (replicate s.attrs.length none) } := by
  have hcols : columnsOf (unwords (headColumns s)) = headColumns s := by
    refine columnsOf_unwords (fun c hc => ?_) ⟨"\x7d".toList, ?_, by decide⟩
    · simp only [headColumns, mem_cons, mem_append, not_mem_nil, or_false] at hc
      rcases hc with rfl | rfl | rfl | rfl | hc | rfl
      · decide
      · decide
      · exact not_blank_of_plain s.plain_name
      · decide
      · exact not_blank_of_plain (plain_idColumns hc)
      · decide
    · simp [headColumns, getLast?_cons]
  have hids : 1 < (idColumns (s.attrs.map Prod.snd) ++ ["\x7d".toList]).length := by
    have hpos := length_pos_of_ne_nil s.nonempty
    simp [length_idColumns]
    omega
  have hcond : ¬ (¬ ['[', ']'] <:+ "int[]".toList ∧ ['0', 'x'] <+: "\x7b".toList) := by decide
  have hsuff : ['[', ']'] <:+ "int[]".toList := by decide
  have hattrs : ((headColumns s).drop 4).dropLast.map withoutComma =
      s.attrs.map fun attr => hexText attr.2 := by
    rw [headColumns, drop_succ_cons, drop_succ_cons, drop_succ_cons,
      drop_succ_cons, drop_zero, dropLast_concat, withoutComma_idColumns,
      List.map_map]
    rfl
  rw [ReadState.readLine, hcols]
  simp only [headColumns, if_neg hcond, if_true, if_pos hsuff, if_pos hids]
  change some (st.readStyleable s.entry.1 (headColumns s)) = _
  simp [ReadState.readStyleable, hattrs]

theorem readLine_attribute {st : ReadState} {attributes : Attributes} {name column : Text} {i : ℕ}
    (hname : PlainText name) (hi : i < 2 ^ 31) (hstyl : st.styleable = true)
    (hne : st.styleableName ≠ []) (hget : st.styleableMap[st.styleableName]? = some attributes)
    (hattr : st.styleableAttrs[i]? = some column) (hlt : i < attributes.length) :
    st.readLine (unwords ["int".toList, styleableText, name, Nat.toDigits 10 i]) =
      (integerDecode (parseResourceId column)).map fun id => { st with
        styleableMap := st.styleableMap.insert st.styleableName
          (attributes.set i (some (resourceName styleableText name, id))) } := by
  have hcols : columnsOf (unwords ["int".toList, styleableText, name, Nat.toDigits 10 i]) =
      ["int".toList, styleableText, name, Nat.toDigits 10 i] := by
    refine columnsOf_unwords ?_ ⟨Nat.toDigits 10 i, rfl, Nat.toDigits_ne_nil⟩
    simp only [mem_cons, not_mem_nil, or_false, forall_eq_or_imp, forall_eq]
    exact ⟨by decide, by decide, not_blank_of_plain hname, fun h =>
      absurd rfl (forall_mem_decimal (P := fun c => c ≠ ' ') (by decide) i ' ' h)⟩
  have hdec : ¬ ['0', 'x'] <+: Nat.toDigits 10 i := fun h =>
    absurd rfl (forall_mem_decimal (P := fun c => c ≠ 'x') (by decide) i 'x' (h.subset (by simp)))
  have hcond : ¬ (¬ ['[', ']'] <:+ "int".toList ∧ ['0', 'x'] <+: Nat.toDigits 10 i) :=
    fun h => hdec h.2
  have hsuff : ¬ ['[', ']'] <:+ "int".toList := by decide
  rw [ReadState.readLine, hcols]
  simp only [if_neg hcond, if_true, if_neg hsuff, hstyl, ne_eq, hne, not_false_eq_true,
    and_self, ReadState.readAttribute, hget, toInt_toDigits hi]
  have hnonn : ¬ ((i : ℤ) < 0) := by omega
  simp only [bind_eq_bind, bind_some, if_neg hnonn, Int.toNat_natCast, hattr,
    if_pos hlt]
  cases integerDecode (parseResourceId column) <;> rfl

end Lines

/-! ## Reading files -/

section Files

def rereadResource (r : Resource) : Option (Text × ℕ) :=
  (rereadId r.id).map fun id => (r.entry.1, id)

def rereadStyleable (s : Styleable) : Option (Text × Attributes) :=
  (s.entry.2.mapM rereadAttr).map fun attrs => (s.entry.1, attrs.map some)

def inStyleable (st : ReadState) (name : Text) (attrs : List Text) (attributes : Attributes) :
    ReadState :=
  { st with
    styleable := true, styleableName := name, styleableAttrs := attrs
    styleableMap := st.styleableMap.insert name attributes }

theorem plain_resourceName {name : Text} (h : PlainText name) :
    PlainText (resourceName styleableText name) := by
  have hpref : PlainText "R.styleable.".toList := by simp [PlainText, endsLine]
  intro c hc
  rcases mem_append.mp (show c ∈ "R.styleable.".toList ++ name from hc) with hc | hc
  · exact hpref c hc
  · exact h c hc

/-- **The attributes** of a styleable are read one after the other. -/
theorem foldlM_attributes {st : ReadState} {name : Text} {columns : List Text}
    (hname : name ≠ []) {attrs : List (Text × ℕ)} (hplain : ∀ attr ∈ attrs, PlainText attr.1)
    (hid : ∀ attr ∈ attrs, attr.2 < 2 ^ 31) {done : Attributes}
    (hlen : done.length + attrs.length < 2 ^ 31)
    (hcols : columns.drop done.length = attrs.map fun attr => hexText attr.2) :
    (attrs.mapIdx fun i attr => unwords ["int".toList, styleableText, attr.1,
        Nat.toDigits 10 (done.length + i)]).foldlM ReadState.readLine
        (inStyleable st name columns (done ++ replicate attrs.length none)) =
      (attrs.mapM rereadAttr).map fun read =>
        inStyleable st name columns (done ++ read.map some) := by
  induction attrs generalizing done with
  | nil => simp
  | cons attr attrs ih =>
    have hcol : columns[done.length]? = some (hexText attr.2) := by
      rw [← head?_drop, hcols]
      rfl
    have hrest : columns.drop (done.length + 1) = attrs.map fun attr => hexText attr.2 := by
      rw [← drop_drop, hcols]
      rfl
    have hset : ∀ read : Text × ℕ, (done ++ replicate (attr :: attrs).length none).set
        done.length (some read) = (done ++ [some read]) ++ replicate attrs.length none := by
      simp [replicate_succ]
    have hline : ReadState.readLine
        (inStyleable st name columns (done ++ replicate (attr :: attrs).length none))
        (unwords ["int".toList, styleableText, attr.1, Nat.toDigits 10 done.length]) =
        (rereadAttr attr).map fun read =>
          inStyleable st name columns ((done ++ [some read]) ++ replicate attrs.length none) := by
      rw [@readLine_attribute (inStyleable st name columns _) _ _ _ _
        (hplain attr mem_cons_self) (by omega) rfl hname (OrdMap.get_insert_self ..) hcol
        (by simp), integerDecode_hexText (hid attr List.mem_cons_self), rereadAttr, Option.map_map]
      refine congrArg (Option.map · _) (funext fun id => ?_)
      simp [inStyleable, OrdMap.insert_insert, ← hset]
    rw [mapIdx_cons, foldlM_cons, mapM_cons, Nat.add_zero, hline]
    cases hread : rereadAttr attr with
    | none => rfl
    | some read =>
      have hdone : (done ++ [some read]).length = done.length + 1 := by simp
      have hnext := @ih (fun a ha => hplain a (mem_cons_of_mem _ ha))
        (fun a ha => hid a (mem_cons_of_mem _ ha)) (done ++ [some read])
        (by simp only [length_cons] at hlen; omega) (by rw [hdone, hrest])
      simp only [hdone, Nat.add_assoc, Nat.add_comm 1] at hnext
      simp only [Option.map_some, Option.bind_eq_bind, Option.bind_some, Option.pure_def, hnext]
      cases attrs.mapM rereadAttr <;> simp

/-- **The lines of a styleable** add what is read for it. -/
theorem foldlM_styleable (st : ReadState) (s : Styleable) :
    (styleableLines s.entry).foldlM ReadState.readLine st =
      (rereadStyleable s).map fun read =>
        inStyleable st read.1 (s.attrs.map fun attr => hexText attr.2) read.2 := by
  have hplain : ∀ attr ∈ s.entry.2, PlainText attr.1 := by
    intro attr hattr
    obtain ⟨a, ha, rfl⟩ := mem_map.mp hattr
    exact plain_resourceName (s.plain_attrs a ha)
  have hid : ∀ attr ∈ s.entry.2, attr.2 < 2 ^ 31 := by
    intro attr hattr
    obtain ⟨a, ha, rfl⟩ := mem_map.mp hattr
    exact s.id_lt a ha
  have hlen : s.entry.2.length = s.attrs.length := length_map ..
  have hcols : (s.entry.2.map fun attr => hexText attr.2) =
      s.attrs.map fun attr => hexText attr.2 := by
    rw [Styleable.entry, List.map_map]
    rfl
  have hattrs := @foldlM_attributes st s.entry.1 (s.attrs.map fun attr => hexText attr.2) nofun
    s.entry.2 hplain hid [] (by simpa [hlen] using s.length_lt) hcols.symm
  have hlin : (s.attrs.mapIdx fun i attr => unwords ["int".toList, styleableText,
      resourceName styleableText attr.1, Nat.toDigits 10 i]) =
      s.entry.2.mapIdx fun i attr => unwords ["int".toList, styleableText, attr.1,
        Nat.toDigits 10 (([] : Attributes).length + i)] :=
    ext_getElem (by simp [hlen]) fun i _ _ => by simp [Styleable.entry]
  rw [styleableLines_entry, foldlM_cons, readLine_styleable, hlin, ← hlen]
  change foldlM _ (inStyleable st s.entry.1 _ ([] ++ replicate s.entry.2.length none)) _ = _
  rw [hattrs, rereadStyleable, Option.map_map]
  rfl

theorem foldlM_styleables (styleables : List Styleable) (st : ReadState) :
    ((styleables.flatMap fun s => styleableLines s.entry).foldlM ReadState.readLine st).map
        (fun s => (s.resourceMap, s.styleableMap)) =
      (styleables.mapM rereadStyleable).map fun read =>
        (st.resourceMap, OrdMap.insertAll st.styleableMap read) := by
  induction styleables generalizing st with
  | nil => rfl
  | cons s styleables ih =>
    rw [flatMap_cons, foldlM_append, foldlM_styleable, mapM_cons]
    cases rereadStyleable s with
    | none => rfl
    | some read =>
      simp only [Option.map_some, Option.bind_eq_bind, Option.bind_some, Option.pure_def, ih]
      cases styleables.mapM rereadStyleable <;> rfl

theorem foldlM_resources (resources : List Resource) {st : ReadState} (hst : st.styleable = false) :
    (resources.map fun r => unwords ["int".toList, r.type, r.name, hexText r.id]).foldlM
        ReadState.readLine st =
      (resources.mapM rereadResource).map fun read =>
        { st with resourceMap := OrdMap.insertAll st.resourceMap read } := by
  induction resources generalizing st with
  | nil => rfl
  | cons r resources ih =>
    have hleave : st.leave = st := by rw [ReadState.leave, if_neg (by simp [hst])]
    rw [map_cons, foldlM_cons, readLine_resource, hleave, mapM_cons, rereadResource]
    cases rereadId r.id with
    | none => rfl
    | some id =>
      have hnext := @ih { st with resourceMap := st.resourceMap.insert r.entry.1 id } hst
      simp only [Option.map_some, Option.bind_eq_bind, Option.bind_some, Option.pure_def, hnext]
      cases resources.mapM rereadResource <;> rfl

theorem resourceLine_entry (r : Resource) :
    resourceLine r.entry = some (unwords ["int".toList, r.type, r.name, hexText r.id]) := by
  rw [resourceLine, Resource.entry, splitName_resourceName r.dotless]
  rfl

theorem plain_words : PlainText "int".toList ∧ PlainText "int[]".toList ∧
    PlainText styleableText ∧ PlainText "\x7b".toList ∧ PlainText "\x7d".toList := by
  have hstyl : PlainText "styleable".toList := by simp [PlainText, endsLine]
  refine ⟨?_, ?_, hstyl, ?_, ?_⟩ <;> simp [PlainText, endsLine]

theorem not_endsLine_unwords {columns : List Text} (h : ∀ column ∈ columns, PlainText column) :
    ∀ c ∈ unwords columns, endsLine (fun _ => false) c = false := by
  intro c hc
  rcases mem_unwords hc with rfl | ⟨column, hcol, hc⟩
  · rfl
  · exact (h column hcol c hc).2

theorem not_endsLine_resource (r : Resource) :
    ∀ c ∈ unwords ["int".toList, r.type, r.name, hexText r.id],
      endsLine (fun _ => false) c = false := by
  refine not_endsLine_unwords fun column hcol => ?_
  simp only [mem_cons, not_mem_nil, or_false] at hcol
  rcases hcol with rfl | rfl | rfl | rfl
  · exact plain_words.1
  · exact r.plain_type
  · exact r.plain_name
  · exact plain_hexText r.id

theorem not_endsLine_styleable (s : Styleable) :
    ∀ line ∈ styleableLines s.entry, ∀ c ∈ line, endsLine (fun _ => false) c = false := by
  rw [styleableLines_entry]
  intro line hline
  rcases mem_cons.mp hline with rfl | hline
  · refine not_endsLine_unwords fun column hcol => ?_
    simp only [headColumns, mem_cons, mem_append, not_mem_nil, or_false] at hcol
    rcases hcol with rfl | rfl | rfl | rfl | hcol | rfl
    · exact plain_words.2.1
    · exact plain_words.2.2.1
    · exact s.plain_name
    · exact plain_words.2.2.2.1
    · exact plain_idColumns hcol
    · exact plain_words.2.2.2.2
  · obtain ⟨i, hi, rfl⟩ := mem_mapIdx.mp hline
    refine not_endsLine_unwords fun column hcol => ?_
    simp only [mem_cons, not_mem_nil, or_false] at hcol
    rcases hcol with rfl | rfl | rfl | rfl
    · exact plain_words.1
    · exact plain_words.2.2.1
    · exact plain_resourceName (s.plain_attrs _ (getElem_mem hi))
    · exact forall_mem_decimal (by decide) i

/-- **What is read back**: the ids filled up, the names of attributes with one more prefix. -/
theorem read_shrink (t : ResourceTable) :
    (shrinkResourceTxtFile (t.resources.map Resource.entry)
        (t.styleables.map Styleable.entry)).bind readResourceTxtFile = do
      let resources ← t.resources.mapM rereadResource
      let styleables ← t.styleables.mapM rereadStyleable
      return (OrdMap.insertAll ∅ resources, OrdMap.insertAll ∅ styleables) := by
  have hlin : (t.resources.map Resource.entry).mapM resourceLine =
      some (t.resources.map fun r => unwords ["int".toList, r.type, r.name, hexText r.id]) := by
    rw [mapM_map]
    simp only [Function.comp_def, resourceLine_entry]
    exact mapM_pure
  have hread : readLines (fun _ => false) (writeLines
      ((t.resources.map fun r => unwords ["int".toList, r.type, r.name, hexText r.id]) ++
        t.styleables.flatMap fun s => styleableLines s.entry)) =
      (t.resources.map fun r => unwords ["int".toList, r.type, r.name, hexText r.id]) ++
        t.styleables.flatMap fun s => styleableLines s.entry := by
    refine readLines_writeLines fun line hline => ?_
    rcases mem_append.mp hline with hline | hline
    · obtain ⟨r, -, rfl⟩ := mem_map.mp hline
      exact not_endsLine_resource r
    · obtain ⟨s, -, hs⟩ := mem_flatMap.mp hline
      exact not_endsLine_styleable s line hs
  rw [shrinkResourceTxtFile, hlin, flatMap_map, map_some, bind_some,
    readResourceTxtFile, hread, foldlM_append, foldlM_resources _ rfl]
  cases t.resources.mapM rereadResource with
  | none => rfl
  | some resources => exact (foldlM_styleables t.styleables _).trans (map_eq_bind ..)

theorem rereadResource_eq_some_iff (r : Resource) :
    rereadResource r = some r.entry ↔ r.id = 0 ∨ 0x10000000 ≤ r.id := by
  rw [← rereadId_eq_some_iff r.id_lt, rereadResource]
  cases rereadId r.id with
  | none => simp
  | some id => simp [Resource.entry]

/-- The name of an attribute does not come back: it is longer. -/
theorem rereadAttr_ne (attr : Text × ℕ) : rereadAttr attr ≠ some attr := by
  intro h
  rw [rereadAttr, map_eq_some_iff] at h
  obtain ⟨id, -, hattr⟩ := h
  have hlen := congrArg (fun a => a.1.length) hattr
  simp [resourceName] at hlen
  omega

theorem rereadStyleable_ne (s : Styleable) :
    rereadStyleable s ≠ some (s.entry.1, s.entry.2.map some) := by
  intro h
  rw [rereadStyleable, map_eq_some_iff] at h
  obtain ⟨attrs, hread, hent⟩ := h
  have hsame : attrs = s.entry.2 :=
    map_injective_iff.mpr (some_injective _) (Prod.ext_iff.mp hent).2
  obtain ⟨attr, rest, hcons⟩ := exists_cons_of_ne_nil s.nonempty
  have hents := mapM_eq_some_iff.mp hread
  rw [hsame, Styleable.entry, hcons] at hents
  exact rereadAttr_ne _ (cons.inj hents).1

/-- **The maps come back** exactly if there is no styleable and every id is zero or has eight
hexadecimal digits. -/
theorem read_shrink_eq_iff (t : ResourceTable) :
    (shrinkResourceTxtFile (t.resources.map Resource.entry)
        (t.styleables.map Styleable.entry)).bind readResourceTxtFile = some t.maps ↔
      t.styleables = [] ∧ ∀ r ∈ t.resources, r.id = 0 ∨ 0x10000000 ≤ r.id := by
  have hreso : ∀ r e, rereadResource r = some e → e.1 = r.entry.1 := by
    intro r e he
    obtain ⟨id, -, rfl⟩ := map_eq_some_iff.mp he
    rfl
  have hstyle : ∀ s e, rereadStyleable s = some e → e.1 = s.entry.1 := by
    intro s e he
    obtain ⟨attrs, -, rfl⟩ := map_eq_some_iff.mp he
    rfl
  rw [read_shrink]
  simp only [Option.bind_eq_bind, Option.bind_eq_some_iff, Option.pure_def, Option.some.injEq]
  constructor
  · rintro ⟨resources, hres, styleables, hstyl, hmaps⟩
    obtain ⟨hfst, hsnd⟩ := Prod.ext_iff.mp hmaps
    have hsame := (OrdMap.insertAll_mapM_eq_iff hstyle t.nodup_styleables hstyl ∅ _).mp
      hsnd
    refine ⟨eq_nil_iff_forall_not_mem.mpr fun s hs => ?_, fun r hr => ?_⟩
    · exact rereadStyleable_ne s (hsame s hs)
    · rw [← rereadResource_eq_some_iff]
      exact (OrdMap.insertAll_mapM_eq_iff hreso t.nodup_resources hres ∅ _).mp hfst r hr
  · rintro ⟨hnone, hids⟩
    refine ⟨t.resources.map Resource.entry, ?_, [], ?_, ?_⟩
    · rw [mapM_eq_some_iff, List.map_map]
      exact map_congr_left fun r hr => (rereadResource_eq_some_iff r).mpr (hids r hr)
    · rw [hnone]
      rfl
    · rw [ResourceTable.maps, hnone]
      rfl

def smallIdTable : ResourceTable where
  resources := [⟨"id".toList, "a".toList, 1, by simp [PlainText, endsLine],
    by simp [PlainText, endsLine], by decide, by decide⟩]
  styleables := []
  nodup_resources := by decide
  nodup_styleables := by decide

def styleableTable : ResourceTable where
  resources := []
  styleables := [⟨"View".toList, [("View_id".toList, 0x7f010000)], by simp [PlainText, endsLine],
    by simp [PlainText, endsLine], by simp, by simp, by decide⟩]
  nodup_resources := by decide
  nodup_styleables := by decide

/-- **Round trips that change a map**: the id `0x1` is read as `0x10000000`, and the attribute
`R.styleable.View_id` as `R.styleable.R.styleable.View_id`. -/
theorem round_trips_differ :
    smallIdTable.maps.1["R.id.a".toList]? = some 1 ∧
    ((shrinkResourceTxtFile (smallIdTable.resources.map Resource.entry) []).bind
      readResourceTxtFile).map (fun maps => maps.1["R.id.a".toList]?) = some (some 0x10000000) ∧
    styleableTable.maps.2["R.styleable.View".toList]? =
      some [some ("R.styleable.View_id".toList, 0x7f010000)] ∧
    ((shrinkResourceTxtFile [] (styleableTable.styleables.map Styleable.entry)).bind
      readResourceTxtFile).map (fun maps => maps.2["R.styleable.View".toList]?) =
        some (some [some ("R.styleable.R.styleable.View_id".toList, 0x7f010000)]) := by
  decide +kernel

end Files

/-! ## The styleables of the shrunken file -/

section Shrunk

variable (removed : List (Text × ℕ))

/-- The loop of `saveShrunkRTxt` over the attributes from `i` on: the last value of its `j`. -/
def scanAttrs : List (Text × ℕ) → ℕ → ℕ → ℕ
  | [], _, j => j
  | attr :: attrs, i, _ =>
    if attr.2 ∉ removed.map Prod.snd then i else scanAttrs attrs (i + 1) i

/-- The styleables that are left in the map. -/
def saveShrunkRTxt (mapOfStyleables : List (Text × List (Text × ℕ))) :
    List (Text × List (Text × ℕ)) :=
  if removed ≠ [] then
    mapOfStyleables.filter fun s => ¬ (s.2 ≠ [] ∧ scanAttrs removed s.2 0 0 = s.2.length)
  else
    mapOfStyleables

/-- A styleable that has attributes, of which none is left. -/
def AllRemoved (styleable : Text × List (Text × ℕ)) : Prop :=
  styleable.2 ≠ [] ∧ ∀ attr ∈ styleable.2, attr.2 ∈ removed.map Prod.snd

instance : DecidablePred (AllRemoved removed) := fun _ => inferInstanceAs (Decidable (_ ∧ _))

theorem scanAttrs_lt {attrs : List (Text × ℕ)} {n : ℕ} (i : ℕ) {j : ℕ}
    (hlen : i + attrs.length = n) (hj : j < n) : scanAttrs removed attrs i j < n := by
  induction attrs generalizing i j with
  | nil => exact hj
  | cons attr attrs ih =>
    rw [length_cons] at hlen
    rw [scanAttrs]
    split
    · omega
    · exact ih (i + 1) (by omega) (by omega)

/-- The counter stops at the last attribute at the latest, so that every styleable stays. -/
theorem saveShrunkRTxt_eq (styleables : List (Text × List (Text × ℕ))) :
    saveShrunkRTxt removed styleables = styleables := by
  unfold saveShrunkRTxt
  split
  · refine filter_eq_self.mpr fun s _ => decide_eq_true ?_
    rintro ⟨hne, heq⟩
    have hlt := scanAttrs_lt removed 0 (Nat.zero_add s.2.length) (length_pos_iff.mpr hne)
    omega
  · rfl

/-- **Shrunken styleables**: exactly those without attributes left are removed if, and only if,
there are none. -/
theorem saveShrunkRTxt_eq_filter_iff (styleables : List (Text × List (Text × ℕ))) :
    saveShrunkRTxt removed styleables = styleables.filter (fun s => ¬ AllRemoved removed s) ↔
      ∀ s ∈ styleables, ¬ AllRemoved removed s := by
  rw [saveShrunkRTxt_eq, eq_comm, filter_eq_self]
  simp only [decide_eq_true_eq]

/-- The only attribute of a styleable is removed, and the styleable stays. -/
theorem styleable_of_removed_attr_stays :
    saveShrunkRTxt [(['a'], 1)] [(['s'], [(['a'], 1)])] = [(['s'], [(['a'], 1)])] ∧
      AllRemoved [(['a'], 1)] (['s'], [(['a'], 1)]) := by
  decide

end Shrunk

end TraceHarbor.Shrinker
