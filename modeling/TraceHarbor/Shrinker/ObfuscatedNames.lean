import TraceHarbor.Shrinker.ProguardStringBuilder
import TraceHarbor.Shrinker.ResourceTxt

/-!
# Names of the Remaining Resources

`calculateResources` decides which resources are removed, which files replace duplicates and which
names the remaining resources get. Every type has its own builder of names. The builder is not told
which names are kept by the rules of ignored resources, so a generated name can be a kept one.
-/

namespace TraceHarbor.Shrinker

open Lib List Option

/-! ## Ignore rules -/

/-- The parts of the regular expressions that are made from globs: `.*?`, `.?` and quoted text. -/
inductive RegexpPart where
  | anything
  | optional
  | quoted (c : Char)
deriving DecidableEq

/-- `Util.globToRegexp`, without the anchors. -/
def globToRegexp : Text → List RegexpPart
  | [] => []
  | '*' :: '*' :: glob => .anything :: globToRegexp glob
  | '*' :: glob => .anything :: globToRegexp glob
  | '?' :: glob => .optional :: globToRegexp glob
  | c :: glob => .quoted c :: globToRegexp glob

def matchesDot (c : Char) : Bool := c ∉ ['\n', '\r', '\u0085', '\u2028', '\u2029']

def matchesAll : List RegexpPart → Text → Bool
  | [], text => text = []
  | .anything :: regexp, text => (List.range (text.length + 1)).any fun k =>
      (text.take k).all matchesDot && matchesAll regexp (text.drop k)
  | .optional :: regexp, text => matchesAll regexp text ||
      match text with
      | [] => false
      | c :: rest => matchesDot c && matchesAll regexp rest
  | .quoted c :: regexp, text =>
      match text with
      | [] => false
      | d :: rest => c = d && matchesAll regexp rest

def checkIfIgnored (nameOfRes : Text) (ignored : List (List RegexpPart)) : Bool :=
  ignored.any fun path => matchesAll path nameOfRes

/-! ## Names and entries -/

/-- `ApkUtil.parseResourceType`; `none` when `substring` throws. -/
def parseResourceType (resource : Text) : Option Text :=
  if resource = [] then some []
  else substring resource (indexOf resource '.' + 1) (lastIndexOf resource '.')

def parseEntryResourceType (entry : Text) : Option Text :=
  if indexOf entry '/' = -1 then some []
  else (substring entry (indexOf entry '/' + 1) (lastIndexOf entry '/')).map
    fun typeName => typeName.takeWhile (· ≠ '-')

structure ResguardMapping where
  pathMapping : OrdMap Text Text
  idMapping : OrdMap Text (OrdMap Text Text)

def ResguardMapping.originPath (m : ResguardMapping) (path : Text) : Text :=
  m.pathMapping[path]?.getD path

def ResguardMapping.originID (m : ResguardMapping) (type name : Text) : Text :=
  (m.idMapping[type]?.bind fun names => names[name]?).getD name

/-- The name of a resource, unless one of its parts is empty. -/
def joinName (typeName resName : Text) : Text :=
  if typeName ≠ [] ∧ resName ≠ [] then resourceName typeName resName else []

def entryToResourceName (entry : Text) (resguardMapping : Option ResguardMapping) : Option Text :=
  if entry = [] then some []
  else
    match resguardMapping with
    | some mapping =>
      if lastIndexOf entry '/' = -1 then some []
      else do
        let obfuscatedPath ← substring entry 0 (lastIndexOf entry '/')
        let typeName ← parseEntryResourceType (mapping.originPath obfuscatedPath ++ ['/'])
        let resName ← substring entry (lastIndexOf entry '/' + 1) (indexOf entry '.')
        return joinName typeName (mapping.originID typeName resName)
    | none => do
      let typeName ← parseEntryResourceType entry
      let resName ← substring entry (lastIndexOf entry '/' + 1) (indexOf entry '.')
      return joinName typeName resName

/-- The loop of `isSameResourceType`. -/
def sameResourceTypeFrom (resType : Text) : List Text → Option Bool
  | [] => some (resType ≠ [])
  | entry :: entries =>
    if entry = [] then some false
    else do
      let entryType ← parseEntryResourceType entry
      if resType = [] then sameResourceTypeFrom entryType entries
      else if resType ≠ entryType then return false
      else sameResourceTypeFrom resType entries

def isSameResourceType (entries : List Text) : Option Bool := sameResourceTypeFrom [] entries

/-! ## The task -/

/-- The order in which a hash table enumerates keys that were put into it. -/
structure HashOrder where
  enumerate : List Text → List Text
  perm : ∀ keys, (enumerate keys).Perm keys

/-- The parts of a `RemoveUnusedResourcesTaskV2` that `calculateResources` reads. -/
structure RemoveTask where
  rulesOfIgnore : List Text
  obfuscatedResourcesDirectoryName : Option Text
  resguardMapping : Option ResguardMapping
  hashOrder : HashOrder

/-- The maps that `calculateResources` leaves behind. -/
structure Calculated where
  mapOfResources : OrdMap Text ℕ
  resultOfResourcesGonnaRemoved : OrdMap Text ℕ
  resultOfDuplicatesReplacements : OrdMap Text Text
  resultOfObfuscatedNames : OrdMap Text Text

namespace RemoveTask

variable (task : RemoveTask)

def ignores (resName : Text) : Bool :=
  checkIfIgnored resName (task.rulesOfIgnore.map globToRegexp)

/-! ## Unused resources -/

/-- An unused resource is removed unless a rule keeps it. -/
def removeUnused (maps : OrdMap Text ℕ × OrdMap Text ℕ) (resName : Text) :
    OrdMap Text ℕ × OrdMap Text ℕ :=
  if task.ignores resName then maps
  else
    match maps.1[resName]? with
    | none => maps
    | some resId => (maps.1.erase resName, maps.2.insert resName resId)

/-! ## Duplicated resources -/

def isResourceEntry (entry : Text) : Bool :=
  (task.obfuscatedResourcesDirectoryName.getD "res/".toList).isPrefixOf entry

def replaceDuplicates (mapOfResources : OrdMap Text ℕ) (replacements : OrdMap Text Text)
    (duplicatesEntries : List Text) : Option (OrdMap Text Text) := do
  let duplicatesNames ← (duplicatesEntries.filter task.isResourceEntry).mapM fun entry =>
    (entryToResourceName entry task.resguardMapping).map fun name => (entry, name)
  if duplicatesNames = [] then return replacements
  else
    let keys := task.hashOrder.enumerate (duplicatesNames.map Prod.fst)
    let same ← isSameResourceType keys
    if ¬ same then return replacements
    else
      let found := keys.filter fun entry =>
        ((duplicatesNames.lookup entry).bind fun name => mapOfResources[name]?).isSome
      match found with
      | [] => return replacements
      | replace :: dups => return dups.foldl (fun r dup => r.insert dup replace) replacements

/-! ## Obfuscated names -/

def addName (mapOfResTypeName : OrdMap Text (List Text)) (type name : Text) :
    OrdMap Text (List Text) :=
  mapOfResTypeName.insert type (mapOfResTypeName[type]?.getD [] ++ [name])

/-- `mapOfResTypeName`, for names that come only once. -/
def groupByType (names : List Text) : Option (OrdMap Text (List Text)) :=
  names.foldlM (fun groups name => (parseResourceType name).map fun type =>
    addName groups type name) ∅

/-- The next name of the builder for a resource that no rule keeps. -/
def obfuscateName (resType : Text) (state : ProguardStringBuilder × OrdMap Text Text)
    (resName : Text) : ProguardStringBuilder × OrdMap Text Text :=
  if task.ignores resName then state
  else (state.1.generateNextProguard.2,
    state.2.insert resName (resourceName resType state.1.generateNextProguard.1))

def obfuscateType (mapOfResTypeName : OrdMap Text (List Text)) (names : OrdMap Text Text)
    (resType : Text) : OrdMap Text Text :=
  match mapOfResTypeName[resType]? with
  | none => names
  | some resNames => ((task.hashOrder.enumerate resNames).foldl (task.obfuscateName resType)
      (.new, names)).2

/-- `calculateResources` into empty result maps; `none` when an exception is thrown. -/
def calculateResources (setOfUnusedResources : List Text)
    (mapOfDuplicatedResources : List (List Text)) (mapOfResources : OrdMap Text ℕ) :
    Option Calculated := do
  let (remaining, removed) := setOfUnusedResources.foldl task.removeUnused (mapOfResources, ∅)
  let replacements ← mapOfDuplicatedResources.foldlM (task.replaceDuplicates remaining) ∅
  let mapOfResTypeName ← groupByType (task.hashOrder.enumerate (remaining.toList.map Prod.fst))
  let names := (task.hashOrder.enumerate (mapOfResTypeName.toList.map Prod.fst)).foldl
    (task.obfuscateType mapOfResTypeName) ∅
  return ⟨remaining, removed, replacements, names⟩

end RemoveTask

/-! ## What is given and what comes out -/

/-- Resources `R.type.name` and files whose types and names can be read from their entries. -/
structure ShrinkInput (task : RemoveTask) where
  setOfUnusedResources : List Text
  mapOfDuplicatedResources : List (List Text)
  mapOfResources : OrdMap Text ℕ
  named : ∀ key id, mapOfResources[key]? = some id → ∃ type name, key = resourceName type name
  readable : ∀ entries ∈ mapOfDuplicatedResources, ∀ entry ∈ entries,
    task.isResourceEntry entry = true →
      (entryToResourceName entry task.resguardMapping).isSome ∧ (parseEntryResourceType entry).isSome

def Calculated.finalName (result : Calculated) (resName : Text) : Text :=
  result.resultOfObfuscatedNames[resName]?.getD resName

namespace ShrinkInput

variable {task : RemoveTask} (input : ShrinkInput task)

def calculate : Option Calculated :=
  task.calculateResources input.setOfUnusedResources input.mapOfDuplicatedResources
    input.mapOfResources

def Remains (resName : Text) : Prop :=
  ¬ (resName ∈ input.setOfUnusedResources ∧ task.ignores resName = false)

instance (resName : Text) : Decidable (input.Remains resName) := inferInstanceAs (Decidable (¬ _))

def renamed (resType : Text) : List Text :=
  (input.mapOfResources.toList.map Prod.fst).filter fun resName =>
    input.Remains resName ∧ task.ignores resName = false ∧ parseResourceType resName = some resType

/-- A kept name is not among the first names of the builder, as many as there are resources of its
type that get a new name. -/
def KeptNamesFree : Prop :=
  ∀ resType name n, input.mapOfResources[resourceName resType name]? ≠ none →
    task.ignores (resourceName resType name) = true → nameAlphabet.number name = some n →
      (input.renamed resType).length ≤ n

end ShrinkInput

/-! ## Types of names -/

variable {name : Text}

section Names

theorem parseResourceType_resourceName (type : Text) (h : '.' ∉ name) :
    parseResourceType (resourceName type name) = some type := by
  have hlast : lastIndexOf (resourceName type name) '.' = (2 + type.length : ℕ) := by
    rw [show resourceName type name = ('R' :: '.' :: type) ++ '.' :: name from rfl,
      lastIndexOf_append h, length_cons, length_cons, Nat.add_comm 2]
  have hfst : indexOf (resourceName type name) '.' = 1 := by
    rfl
  have hleng : (resourceName type name).length = 3 + type.length + name.length := by
    simp only [resourceName, length_cons, length_append]
    omega
  have htake : (resourceName type name).take (2 + type.length) = 'R' :: '.' :: type := by
    have hlen : ('R' :: '.' :: type).length = 2 + type.length := by simp [Nat.add_comm 2]
    exact take_left' hlen
  rw [parseResourceType, if_neg (by simp [resourceName]), hlast, substring,
    if_pos (by omega), Int.toNat_natCast, htake]
  rfl

theorem exists_type_name (type name : Text) :
    ∃ type' name', resourceName type name = resourceName type' name' ∧ '.' ∉ name' := by
  obtain ⟨type', name', hsplit, hdot⟩ :=
    exists_last_split (show '.' ∈ type ++ '.' :: name by simp)
  exact ⟨type', name', by rw [resourceName, resourceName, hsplit], hdot⟩

theorem resourceName_inj {type name' : Text} (h : resourceName type name = resourceName type name')
      :
    name = name' := by
  simpa [resourceName] using h

theorem dot_not_mem_of_number {n : ℕ} (h : nameAlphabet.number name = some n) : '.' ∉ name := by
  have hdot : '.' ∉ nameAlphabet.letters := by decide
  exact fun hmem => hdot (Alphabet.mem_letters (Alphabet.number_eq_some_iff.mp h).1 hmem)

end Names

variable {resType resName : Text}

namespace RemoveTask

variable (task : RemoveTask)

/-! ## The remaining resources -/

theorem get_removeUnused (unused : List Text) (maps : OrdMap Text ℕ × OrdMap Text ℕ)
    (resName : Text) :
    (unused.foldl task.removeUnused maps).1[resName]? =
      if resName ∈ unused ∧ task.ignores resName = false then none else maps.1[resName]? := by
  induction unused generalizing maps with
  | nil => simp
  | cons first unused ih =>
    have hstep : (task.removeUnused maps first).1[resName]? =
        if resName = first ∧ task.ignores resName = false then none else maps.1[resName]? := by
      rw [removeUnused]
      by_cases hign : task.ignores first = true
      · rw [if_pos hign, if_neg]
        rintro ⟨rfl, hfalse⟩
        exact absurd (hign.symm.trans hfalse) (by decide)
      · rw [if_neg hign]
        by_cases hfst : resName = first
        · subst hfst
          rw [if_pos ⟨rfl, by simpa using hign⟩]
          cases hget : maps.1[resName]? with
          | none => exact hget
          | some resId => simp
        · rw [if_neg fun h => hfst h.1]
          cases maps.1[first]? with
          | none => rfl
          | some resId => simp [OrdMap.get_erase, hfst]
    rw [foldl_cons, ih, hstep]
    by_cases hrest : resName ∈ unused ∧ task.ignores resName = false
    · rw [if_pos hrest, if_pos ⟨mem_cons_of_mem _ hrest.1, hrest.2⟩]
    · rw [if_neg hrest]
      refine if_congr ?_ rfl rfl
      rw [mem_cons, or_and_right, or_iff_left hrest]

/-! ## Types and their names -/

/-- The names of every type, in the order in which they came. -/
def Grouped (names : List Text) (groups : OrdMap Text (List Text)) : Prop :=
  ∀ resType, groups[resType]?.getD [] = names.filter (parseResourceType · = some resType) ∧
    (groups[resType]? ≠ none → groups[resType]?.getD [] ≠ [])

theorem grouped_addName {names : List Text} {groups : OrdMap Text (List Text)}
    (h : Grouped names groups) {type : Text} (htype : parseResourceType name = some type) :
    Grouped (names ++ [name]) (addName groups type name) := by
  intro resType
  rw [addName, OrdMap.get_insert]
  split_ifs with heq
  · subst heq
    simp [(h resType).1, htype]
  · have hne : type ≠ resType := fun h => heq h.symm
    simpa [htype, hne] using h resType

theorem exists_groupByType {names : List Text} (h : ∀ name ∈ names, (parseResourceType name).isSome) :
    ∃ groups, groupByType names = some groups ∧ Grouped names groups := by
  induction names using reverseRecOn with
  | nil => exact ⟨∅, rfl, fun resType => by simp⟩
  | append_singleton names name ih =>
    obtain ⟨groups, hfold, hgrou⟩ := ih fun n hn => h n (mem_append_left _ hn)
    obtain ⟨type, htype⟩ := isSome_iff_exists.mp (h name (by simp))
    refine ⟨_, ?_, grouped_addName hgrou htype⟩
    rw [groupByType] at hfold ⊢
    simp [hfold, htype]

/-! ## The generated names -/

/-- The names that a builder generates for resources of a type. -/
def generatedNames (resType : Text) (b : ProguardStringBuilder) : List Text → List (Text × Text)
  | [] => []
  | resName :: resNames => (resName, resourceName resType b.generateNextProguard.1) ::
      generatedNames resType b.generateNextProguard.2 resNames

theorem keys_generatedNames (resType : Text) (b : ProguardStringBuilder) (resNames : List Text) :
    (generatedNames resType b resNames).map Prod.fst = resNames := by
  induction resNames generalizing b with
  | nil => rfl
  | cons resName resNames ih => rw [generatedNames, map_cons, ih]

theorem mem_generatedNames {n i : ℕ} {b : ProguardStringBuilder} (hb : b.Generated n)
    {resNames : List Text} (h : resNames[i]? = some resName) :
    ∃ name, nameAlphabet.number name = some (n + i) ∧
      (resName, resourceName resType name) ∈ generatedNames resType b resNames := by
  obtain ⟨hnum, hnext⟩ := ProguardStringBuilder.generated_next hb
  induction resNames generalizing n i b with
  | nil => exact absurd h (by simp)
  | cons first resNames ih =>
    cases i with
    | zero =>
      obtain rfl : first = resName := by simpa using h
      exact ⟨_, hnum, mem_cons_self⟩
    | succ i =>
      obtain ⟨hnum', hnext'⟩ := ProguardStringBuilder.generated_next hnext
      obtain ⟨name, hname, hmem⟩ := ih hnext (by simpa using h) hnum' hnext'
      refine ⟨name, ?_, mem_cons_of_mem _ hmem⟩
      rw [hname]
      congr 1
      omega

theorem foldl_obfuscateName (resType : Text) (resNames : List Text) (b : ProguardStringBuilder)
    (names : OrdMap Text Text) :
    (resNames.foldl (task.obfuscateName resType) (b, names)).2 =
      OrdMap.insertAll names (generatedNames resType b
        (resNames.filter fun resName => task.ignores resName = false)) := by
  induction resNames generalizing b names with
  | nil => rfl
  | cons resName resNames ih =>
    rw [foldl_cons, obfuscateName]
    split_ifs with hign
    · rw [ih, filter_cons_of_neg (by simp [hign])]
    · rw [ih, filter_cons_of_pos (by simpa using hign)]
      rfl

/-- The resources of a type that get a new name, in the order in which they get it. -/
def newlyNamed (groups : OrdMap Text (List Text)) (resType : Text) : List Text :=
  (task.hashOrder.enumerate (groups[resType]?.getD [])).filter fun resName =>
    task.ignores resName = false

theorem obfuscateType_eq (groups : OrdMap Text (List Text)) (names : OrdMap Text Text)
    (resType : Text) : task.obfuscateType groups names resType =
      OrdMap.insertAll names (generatedNames resType .new (task.newlyNamed groups resType)) := by
  rw [obfuscateType, newlyNamed]
  cases groups[resType]? with
  | none =>
    have hnil : task.hashOrder.enumerate [] = [] := (task.hashOrder.perm []).eq_nil
    simp [hnil, generatedNames, OrdMap.insertAll]
  | some resNames => exact task.foldl_obfuscateName resType _ _ _

theorem foldl_obfuscateType (groups : OrdMap Text (List Text)) (types : List Text)
    (names : OrdMap Text Text) : types.foldl (task.obfuscateType groups) names =
      OrdMap.insertAll names (types.flatMap fun resType =>
        generatedNames resType .new (task.newlyNamed groups resType)) := by
  induction types generalizing names with
  | nil => rfl
  | cons resType types ih =>
    rw [foldl_cons, ih, obfuscateType_eq, flatMap_cons, OrdMap.insertAll_append]

section Groups

variable {task} {names : List Text} {groups : OrdMap Text (List Text)}

theorem mem_newlyNamed (h : Grouped names groups) :
    resName ∈ task.newlyNamed groups resType ↔
      resName ∈ names ∧ parseResourceType resName = some resType ∧ task.ignores resName = false := by
  rw [newlyNamed, mem_filter, (task.hashOrder.perm _).mem_iff, (h resType).1]
  simp [and_assoc]

theorem nodup_newlyNamed (h : Grouped names groups) (hnd : names.Nodup) (resType : Text) :
    (task.newlyNamed groups resType).Nodup := by
  rw [newlyNamed, (h resType).1]
  exact ((task.hashOrder.perm _).nodup_iff.mpr (hnd.filter _)).filter _

theorem nodup_types (groups : OrdMap Text (List Text)) :
    (task.hashOrder.enumerate (groups.toList.map Prod.fst)).Nodup :=
  (task.hashOrder.perm _).nodup_iff.mpr groups.nodup_keys

theorem nodup_generatedNames (h : Grouped names groups) (hnd : names.Nodup) {types : List Text}
    (htypes : types.Nodup) : ((types.flatMap fun resType => generatedNames resType .new
      (task.newlyNamed groups resType)).map Prod.fst).Nodup := by
  simp only [map_flatMap, keys_generatedNames]
  refine nodup_flatMap.mpr ⟨fun resType _ => nodup_newlyNamed h hnd resType, ?_⟩
  refine List.Pairwise.imp (fun hne resName hfst hsnd => hne ?_) htypes
  have hparse := ((mem_newlyNamed h).mp hfst).2.1
  exact some.inj (hparse.symm.trans ((mem_newlyNamed h).mp hsnd).2.1)

/-- **The new names**: the resource at a place of its type gets the word with the number of the
place. -/
theorem get_obfuscated (h : Grouped names groups) (hnd : names.Nodup) {i : ℕ}
    (hi : (task.newlyNamed groups resType)[i]? = some resName) :
    ∃ name, nameAlphabet.number name = some i ∧
      ((task.hashOrder.enumerate (groups.toList.map Prod.fst)).foldl (task.obfuscateType groups)
        ∅)[resName]? = some (resourceName resType name) := by
  obtain ⟨name, hnum, hmem⟩ :=
    @mem_generatedNames resType _ _ _ _ ProguardStringBuilder.generated_new _ hi
  have hname := (mem_newlyNamed h).mp (mem_of_getElem? hi)
  have htype : resType ∈ task.hashOrder.enumerate (groups.toList.map Prod.fst) := by
    rw [(task.hashOrder.perm _).mem_iff, OrdMap.mem_keys]
    intro hnone
    have hgroup := (h resType).1
    rw [hnone] at hgroup
    have hin : resName ∈ names.filter (parseResourceType · = some resType) :=
      mem_filter.mpr ⟨hname.1, by simpa using hname.2.1⟩
    rw [← hgroup] at hin
    cases hin
  refine ⟨name, by simpa using hnum, ?_⟩
  rw [foldl_obfuscateType]
  exact OrdMap.get_insertAll_of_mem (nodup_generatedNames h hnd (nodup_types groups))
    (mem_flatMap.mpr ⟨resType, htype, hmem⟩) ∅

theorem get_obfuscated_of_ignored (h : Grouped names groups)
    (hign : task.ignores resName = true) (types : List Text) :
    (types.foldl (task.obfuscateType groups) ∅)[resName]? = none := by
  rw [foldl_obfuscateType, OrdMap.get_insertAll_of_not_mem]
  · simp
  · simp only [map_flatMap, keys_generatedNames, mem_flatMap, not_exists, not_and]
    intro resType _ hmem
    exact absurd (hign.symm.trans ((mem_newlyNamed h).mp hmem).2.2) (by decide)

end Groups

/-! ## Duplicates that can be read -/

section Duplicates

theorem isSome_sameResourceTypeFrom {entries : List Text}
    (h : ∀ entry ∈ entries, (parseEntryResourceType entry).isSome) (resType : Text) :
    (sameResourceTypeFrom resType entries).isSome := by
  induction entries generalizing resType with
  | nil => rfl
  | cons entry entries ih =>
    obtain ⟨entryType, htype⟩ := isSome_iff_exists.mp (h entry mem_cons_self)
    have hrest := ih fun e he => h e (mem_cons_of_mem _ he)
    rw [sameResourceTypeFrom, htype]
    simp only [bind_eq_bind, bind_some]
    split_ifs
    · rfl
    · exact hrest _
    · rfl
    · exact hrest _

theorem isSome_replaceDuplicates (mapOfResources : OrdMap Text ℕ) {entries : List Text}
    (h : ∀ entry ∈ entries, task.isResourceEntry entry = true →
      (entryToResourceName entry task.resguardMapping).isSome ∧ (parseEntryResourceType entry).isSome)
    (replacements : OrdMap Text Text) :
    (task.replaceDuplicates mapOfResources replacements entries).isSome := by
  have hents : ∀ entry ∈ entries.filter task.isResourceEntry,
      (entryToResourceName entry task.resguardMapping).isSome ∧
        (parseEntryResourceType entry).isSome := fun entry hent =>
    h entry (mem_filter.mp hent).1 (mem_filter.mp hent).2
  obtain ⟨read, hread⟩ := exists_mapM_eq_some
    (l := entries.filter task.isResourceEntry)
    (f := fun entry => (entryToResourceName entry task.resguardMapping).map fun name => (entry, name))
    fun entry hent => by simpa using (hents entry hent).1
  have hkeys : ∀ entry ∈ task.hashOrder.enumerate (read.map Prod.fst),
      (parseEntryResourceType entry).isSome := by
    intro entry hent
    rw [(task.hashOrder.perm _).mem_iff, List.mem_map] at hent
    obtain ⟨e, he, rfl⟩ := hent
    have hmem : some e ∈ read.map some := mem_map_of_mem he
    rw [← mapM_eq_some_iff.mp hread, List.mem_map] at hmem
    obtain ⟨entry, hent, hname⟩ := hmem
    obtain ⟨name, -, rfl⟩ := map_eq_some_iff.mp hname
    exact (hents entry hent).2
  obtain ⟨same, hsame⟩ := isSome_iff_exists.mp (isSome_sameResourceTypeFrom hkeys [])
  rw [replaceDuplicates, hread]
  simp only [bind_eq_bind, bind_some, isSameResourceType, hsame]
  split_ifs
  · rfl
  · split <;> rfl
  · rfl

end Duplicates

end RemoveTask

/-! ## All names -/

namespace ShrinkInput

variable {task : RemoveTask} (input : ShrinkInput task)

variable {input} in
theorem exists_type (h : input.mapOfResources[resName]? ≠ none) :
    ∃ type, parseResourceType resName = some type := by
  obtain ⟨id, hid⟩ := ne_none_iff_exists'.mp h
  obtain ⟨type, name, rfl⟩ := input.named resName id hid
  obtain ⟨type', name', heq, hdot⟩ := exists_type_name type name
  exact ⟨type', by rw [heq, parseResourceType_resourceName type' hdot]⟩

/-- What the function leaves behind. -/
structure Calculates (result : Calculated) (places : Text → List Text) : Prop where
  remaining : ∀ resName, result.mapOfResources[resName]? =
    if input.Remains resName then input.mapOfResources[resName]? else none
  kept : ∀ resName, task.ignores resName = true → result.resultOfObfuscatedNames[resName]? = none
  places_perm : ∀ resType, (places resType).Perm (input.renamed resType)
  generated : ∀ resType i resName, (places resType)[i]? = some resName →
    ∃ name, nameAlphabet.number name = some i ∧
      result.resultOfObfuscatedNames[resName]? = some (resourceName resType name)

/-- **The function returns**, and the resources of a type get words with consecutive numbers. -/
theorem exists_calculates : ∃ result places, input.calculate = some result ∧
    input.Calculates result places := by
  have hrem := task.get_removeUnused input.setOfUnusedResources (input.mapOfResources, ∅)
  obtain ⟨replacements, hrepl⟩ : ∃ replacements,
      input.mapOfDuplicatedResources.foldlM (task.replaceDuplicates
        (input.setOfUnusedResources.foldl task.removeUnused (input.mapOfResources, ∅)).1) ∅ =
        some replacements :=
    exists_foldlM_eq_some (fun replacements entries hents =>
      task.isSome_replaceDuplicates _ (input.readable entries hents) replacements) ∅
  generalize hmaps : input.setOfUnusedResources.foldl task.removeUnused (input.mapOfResources, ∅) =
    maps at hrem hrepl
  have hnd : (task.hashOrder.enumerate (maps.1.toList.map Prod.fst)).Nodup :=
    (task.hashOrder.perm _).nodup_iff.mpr maps.1.nodup_keys
  have hkeys : ∀ resName, resName ∈ task.hashOrder.enumerate (maps.1.toList.map Prod.fst) ↔
      input.Remains resName ∧ input.mapOfResources[resName]? ≠ none := by
    intro resName
    rw [(task.hashOrder.perm _).mem_iff, OrdMap.mem_keys, hrem, Remains]
    split_ifs with hun <;> simp [hun]
  have htypes : ∀ resName ∈ task.hashOrder.enumerate (maps.1.toList.map Prod.fst),
      (parseResourceType resName).isSome := by
    intro resName hmem
    obtain ⟨type, htype⟩ := exists_type ((hkeys resName).mp hmem).2
    rw [htype]
    rfl
  obtain ⟨groups, hgroups, hgrou⟩ := RemoveTask.exists_groupByType htypes
  refine ⟨⟨maps.1, maps.2, replacements, (task.hashOrder.enumerate
    (groups.toList.map Prod.fst)).foldl (task.obfuscateType groups) ∅⟩, task.newlyNamed groups,
    ?_, ?_, ?_, ?_, ?_⟩
  · rw [calculate, RemoveTask.calculateResources, hmaps]
    simp only [hrepl, bind_eq_bind, bind_some, hgroups]
    rfl
  · intro resName
    rw [hrem]
    by_cases hun : resName ∈ input.setOfUnusedResources ∧ task.ignores resName = false
    · rw [if_pos hun, if_neg fun hrmn : input.Remains resName => hrmn hun]
    · rw [if_neg hun, if_pos (show input.Remains resName from hun)]
  · exact fun resName hign => RemoveTask.get_obfuscated_of_ignored hgrou hign _
  · intro resType
    refine (perm_ext_iff_of_nodup (RemoveTask.nodup_newlyNamed hgrou hnd resType)
      (input.mapOfResources.nodup_keys.filter _)).mpr fun resName => ?_
    rw [RemoveTask.mem_newlyNamed hgrou, hkeys, mem_filter, OrdMap.mem_keys]
    simp only [decide_eq_true_eq]
    tauto
  · exact fun resType i resName hi => RemoveTask.get_obfuscated hgrou hnd hi

section Names

variable {input} {result : Calculated} {places : Text → List Text}
  (h : input.Calculates result places)
include h

theorem finalName_of_ignored (hign : task.ignores resName = true) :
    result.finalName resName = resName := by
  rw [Calculated.finalName, h.kept resName hign]
  rfl

theorem remains_iff :
    result.mapOfResources[resName]? ≠ none ↔
    input.Remains resName ∧ input.mapOfResources[resName]? ≠ none := by
  rw [h.remaining]
  split_ifs with hrmn <;> simp [hrmn]

theorem exists_place (hrmn : result.mapOfResources[resName]? ≠ none)
    (htype : parseResourceType resName = some resType) (hign : task.ignores resName ≠ true) :
    ∃ i name, (places resType)[i]? = some resName ∧ nameAlphabet.number name = some i ∧
      result.finalName resName = resourceName resType name := by
  obtain ⟨hrmn, hin⟩ := (remains_iff h).mp hrmn
  have hmem : resName ∈ places resType := by
    rw [(h.places_perm resType).mem_iff, renamed, mem_filter, OrdMap.mem_keys]
    exact ⟨hin, by simp [hrmn, htype, hign]⟩
  obtain ⟨i, hi⟩ := mem_iff_getElem?.mp hmem
  obtain ⟨name, hnum, hget⟩ := h.generated resType i resName hi
  exact ⟨i, name, hi, hnum, by rw [Calculated.finalName, hget]; rfl⟩

theorem finalName_ne_of_free (hfree : input.KeptNamesFree) {kept : Text}
    (hrmn : result.mapOfResources[resName]? ≠ none)
    (hkept : result.mapOfResources[kept]? ≠ none) (hign : task.ignores resName ≠ true)
    (hkeep : task.ignores kept = true) : result.finalName resName ≠ result.finalName kept := by
  intro heq
  obtain ⟨resType, htype⟩ := exists_type ((remains_iff h).mp hrmn).2
  obtain ⟨i, name, hi, hnum, hfin⟩ := exists_place h hrmn htype hign
  rw [hfin, finalName_of_ignored h hkeep] at heq
  subst heq
  have hle := hfree resType name i ((remains_iff h).mp hkept).2 hkeep hnum
  rw [← (h.places_perm resType).length_eq] at hle
  exact absurd (List.getElem?_eq_some_iff.mp hi).1 (Nat.not_lt.mpr hle)

end Names

/-- **Resources of a type have different names** in the end exactly if no kept name is among the
first names that the builder generates. -/
theorem finalName_injective_iff : ∃ result, input.calculate = some result ∧
    ((∀ resName resName', result.mapOfResources[resName]? ≠ none →
      result.mapOfResources[resName']? ≠ none →
      parseResourceType resName = parseResourceType resName' → resName ≠ resName' →
        result.finalName resName ≠ result.finalName resName') ↔ input.KeptNamesFree) := by
  obtain ⟨result, places, hres, h⟩ := input.exists_calculates
  refine ⟨result, hres, fun hinj resType name n hin hign hnum => ?_, ?_⟩
  · by_contra hlt
    rw [Nat.not_le, ← (h.places_perm resType).length_eq] at hlt
    obtain ⟨name', hnum', hget⟩ := h.generated resType n _ (getElem?_eq_getElem hlt)
    obtain ⟨hword, hrank⟩ := Alphabet.number_eq_some_iff.mp hnum
    obtain ⟨hword', hrank'⟩ := Alphabet.number_eq_some_iff.mp hnum'
    obtain rfl := Alphabet.rank_injOn hword hword' (hrank.trans hrank'.symm)
    have hmem := (h.places_perm resType).mem_iff.mp (getElem_mem hlt)
    rw [renamed, mem_filter, OrdMap.mem_keys, decide_eq_true_eq] at hmem
    obtain ⟨hin', hrmn', hign', htype'⟩ := hmem
    refine hinj _ (resourceName resType name) ((remains_iff h).mpr ⟨hrmn', hin'⟩)
      ((remains_iff h).mpr ⟨fun hun => ?_, hin⟩) ?_ ?_ ?_
    · exact absurd (hign.symm.trans hun.2) (by decide)
    · rw [htype', parseResourceType_resourceName resType (dot_not_mem_of_number hnum)]
    · intro heq
      rw [heq, hign] at hign'
      exact absurd hign' (by decide)
    · rw [finalName_of_ignored h hign, Calculated.finalName, hget]
      rfl
  · intro hfree a b ha hb htype hne
    by_cases hign : task.ignores a = true <;> by_cases hign' : task.ignores b = true
    · rwa [finalName_of_ignored h hign, finalName_of_ignored h hign']
    · exact (finalName_ne_of_free h hfree hb ha hign' hign).symm
    · exact finalName_ne_of_free h hfree ha hb hign hign'
    · obtain ⟨resType, htype'⟩ := exists_type ((remains_iff h).mp ha).2
      obtain ⟨i, name, hi, hnum, hfin⟩ := exists_place h ha htype' hign
      obtain ⟨j, name', hj, hnum', hfin'⟩ := exists_place h hb (htype ▸ htype') hign'
      rw [hfin, hfin']
      intro heq
      obtain rfl := resourceName_inj heq
      obtain rfl : i = j := some.inj (hnum.symm.trans hnum')
      exact hne (some.inj (hi.symm.trans hj))

end ShrinkInput

/-- One resource is kept, and no entry is enumerated out of order. -/
def keepingTask : RemoveTask where
  rulesOfIgnore := ["R.id.a".toList]
  obfuscatedResourcesDirectoryName := none
  resguardMapping := none
  hashOrder := ⟨id, fun keys => .refl keys⟩

def keptNames : OrdMap Text ℕ := OrdMap.insertAll ∅ [("R.id.a".toList, 1), ("R.id.title".toList, 2)]

/-- **A generated name is a kept one**: `R.id.title` gets the name of `R.id.a`, which a rule keeps. -/
theorem generated_name_is_kept :
    (keepingTask.calculateResources [] [] keptNames).map (fun result =>
      ((result.mapOfResources["R.id.a".toList]?, result.mapOfResources["R.id.title".toList]?),
        result.finalName "R.id.a".toList, result.finalName "R.id.title".toList)) =
      some ((some 1, some 2), "R.id.a".toList, "R.id.a".toList) := by
  decide +kernel

end TraceHarbor.Shrinker
