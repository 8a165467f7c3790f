import TraceHarbor.Backtrace.QuickenTable
import TraceHarbor.Lib.OrdMap
import TraceHarbor.Lib.RandomAccess

/-!
# Quicken Table Files

`SaveQutSections` writes six words of header, the index words and the table words. `TryLoadQutFile` maps
such a file into memory and checks the version, the architecture, and that the end of the table is the
end of the file. Opening, mapping and renaming a file that is there does not fail, and writes are
complete.
-/

namespace TraceHarbor.Backtrace

open Lib List

/-! ## Sections -/

inductive QutFileError where
  | noneError
  | notInitialized
  | openFileFailed
  | fileTooShort
  | qutVersionNotMatch
  | archNotMatch
  | fileLengthNotMatch
  | insertNewQutFailed
  deriving DecidableEq

/-- `CURRENT_ARCH_ENUM`. -/
def Arch.number : Arch → ℕ
  | .arm32 => 0x1
  | .arm64 => 0x2

/-- `size_t` arithmetic. -/
def Arch.sizeT (a : Arch) (n : ℕ) : ℕ := n % 256 ^ a.wordBytes

/-- `QutSections` that were generated in memory. -/
structure BuiltSections (a : Arch) extends QutSections where
  nativeOnly : Bool
  words_lt : ∀ w ∈ quidx ++ qutbl, w < 256 ^ a.wordBytes

/-- `QutSections` that were loaded: `quidx` and `qutbl` point into the mapped file. -/
structure MappedSections where
  data : List UInt8
  idxOffset : ℕ
  tblOffset : ℕ
  idxSize : ℕ
  tblSize : ℕ
  nativeOnly : Bool
  deriving DecidableEq

/-- The word at an offset of the mapped file; `none` behind its end. -/
def wordAt (a : Arch) (data : List UInt8) (offset : ℕ) : Option ℕ :=
  if offset + a.wordBytes ≤ data.length then
    some (leValue ((data.drop offset).take a.wordBytes))
  else none

/-- `quidx[i]`. -/
def MappedSections.indexWord (a : Arch) (s : MappedSections) (i : ℕ) : Option ℕ :=
  wordAt a s.data (s.idxOffset + i * a.wordBytes)

/-- `qutbl[i]`. -/
def MappedSections.tableWord (a : Arch) (s : MappedSections) (i : ℕ) : Option ℕ :=
  wordAt a s.data (s.tblOffset + i * a.wordBytes)

/-- What a `QutSectionsPtr` points to. -/
inductive Sections (a : Arch) where
  | built (s : BuiltSections a)
  | mapped (s : MappedSections)

def Sections.idxSize {a : Arch} : Sections a → ℕ
  | .built s => s.quidx.length
  | .mapped s => s.idxSize

/-! ## The manager -/

/-- `QuickenTableManager`, with the files of the saving path. -/
structure QuickenTableManager (a : Arch) where
  savingPath : String
  sectionsMap : OrdMap String (Sections a)
  requesting : OrdMap String (ℕ × String)
  hashToBuildId : OrdMap String String
  files : OrdMap String (List UInt8)

def toQutFileName (savingPath soname buildId : String) : String :=
  savingPath ++ "/" ++ soname ++ "." ++ buildId

/-- `ToTempQutFileName`, at a time in seconds. -/
def toTempQutFileName (savingPath soname buildId : String) (seconds : ℕ) : String :=
  savingPath ++ "/" ++ soname ++ "." ++ buildId ++ "_temp_" ++ toString seconds

namespace QuickenTableManager

variable {a : Arch} (m : QuickenTableManager a)

def rename (old new : String) : QuickenTableManager a :=
  match m.files[old]? with
  | none => m
  | some data => { m with files := (m.files.erase old).insert new data }

def renameToMalformed (qutFileName : String) (seconds : ℕ) : QuickenTableManager a :=
  m.rename qutFileName (qutFileName ++ "_malformed_" ++ toString seconds)

/-- `InsertQutSectionsNoLock`; `none` when it returns `false`. -/
def insertQutSectionsNoLock (hash buildId : String) (sections : Sections a) (immediately : Bool) :
    Option (QuickenTableManager a) :=
  if sections.idxSize = 0 then none
  else if buildId = "" then none
  else if m.sectionsMap[buildId]?.isSome then none
  else
    let sectionsMap :=
      if immediately || m.requesting[buildId]?.isSome then m.sectionsMap.insert buildId sections
      else m.sectionsMap
    some { m with
      sectionsMap := sectionsMap
      requesting := m.requesting.erase buildId
      hashToBuildId := m.hashToBuildId.erase hash }

/-! ## Saving -/

/-- `QUT_VERSION` and `QUT_NATIVE_ONLY_VERSION`. -/
def versionOf (nativeOnly : Bool) : ℕ := if nativeOnly then 0x1000000 ||| 0x1 else 0x1

def wordBytesOf (a : Arch) (words : List ℕ) : List UInt8 := words.flatMap (leBytes a.wordBytes)

/-- What `SaveQutSections` writes. -/
def fileOf (s : BuiltSections a) : List UInt8 :=
  let offset := 4 * a.wordBytes
  let idxOffset := a.sizeT (offset + a.wordBytes * 2)
  let tblOffset := a.sizeT (idxOffset + s.quidx.length * a.wordBytes)
  wordBytesOf a [versionOf s.nativeOnly, a.number, s.quidx.length, s.qutbl.length, idxOffset,
      tblOffset] ++
    wordBytesOf a s.quidx ++ if 0 < s.qutbl.length then wordBytesOf a s.qutbl else []

/-- `SaveQutSections`, at a time in seconds. -/
def saveQutSections (soname hash buildId : String) (onlySaveFile : Bool) (s : BuiltSections a)
    (seconds : ℕ) : QutFileError × QuickenTableManager a :=
  match if onlySaveFile then some m
    else m.insertQutSectionsNoLock hash buildId (.built s) false with
  | none => (.insertNewQutFailed, m)
  | some m =>
    if m.savingPath = "" then (.notInitialized, m)
    else
      let tempQutFileName := toTempQutFileName m.savingPath soname buildId seconds
      let m := { m with files := m.files.insert tempQutFileName (fileOf s) }
      let qutFileName := toQutFileName m.savingPath soname buildId
      let m := m.renameToMalformed qutFileName seconds
      (.noneError, m.rename tempQutFileName qutFileName)

/-! ## Loading -/

def headerWord (a : Arch) (data : List UInt8) (offset : ℕ) : ℕ :=
  leValue ((data.drop offset).take a.wordBytes)

/-- The checks of `TryLoadQutFile`, and the sections that it makes. -/
def checkQutFile (a : Arch) (data : List UInt8) : Except QutFileError MappedSections :=
  if data.length < 6 * a.wordBytes then .error .fileTooShort
  else
    let qutVersion := headerWord a data 0
    if qutVersion ≠ versionOf false ∧ qutVersion ≠ versionOf true then .error .qutVersionNotMatch
    else if headerWord a data a.wordBytes ≠ a.number then .error .archNotMatch
    else
      let idxSize := headerWord a data (2 * a.wordBytes)
      let tblSize := headerWord a data (3 * a.wordBytes)
      let idxOffset := headerWord a data (4 * a.wordBytes)
      let tblOffset := headerWord a data (5 * a.wordBytes)
      if data.length ≠ a.sizeT (tblOffset + a.sizeT (tblSize * a.wordBytes)) then
        .error .fileLengthNotMatch
      else .ok ⟨data, idxOffset, tblOffset, idxSize, tblSize, qutVersion &&& 0x1000000 ≠ 0⟩

/-- `TryLoadQutFile`, at a time in seconds. A file that fails a check is renamed. -/
def tryLoadQutFile (soname hash buildId : String) (testOnly : Bool) (seconds : ℕ) :
    QutFileError × Option MappedSections × QuickenTableManager a :=
  let qutFileName := toQutFileName m.savingPath soname buildId
  match m.files[qutFileName]? with
  | none => (.openFileFailed, none, m)
  | some data =>
    match checkQutFile a data with
    | .error e => (e, none, m.renameToMalformed qutFileName seconds)
    | .ok sections =>
      if testOnly then (.noneError, none, m)
      else
        match m.insertQutSectionsNoLock hash buildId (.mapped sections) true with
        | none => (.insertNewQutFailed, none, m)
        | some m => (.noneError, some sections, m)

/-! ## Loading what was saved -/

section RoundTrip

theorem length_wordBytesOf (a : Arch) (words : List ℕ) :
    (wordBytesOf a words).length = words.length * a.wordBytes := by
  simp [wordBytesOf, length_flatMap]

variable {data : List UInt8}

theorem holds_wordBytesOf {a : Arch} {pos : ℕ} {words : List ℕ}
    (h : Holds data pos (wordBytesOf a words)) {i : ℕ} (hi : i < words.length) :
    Holds data (pos + i * a.wordBytes) (leBytes a.wordBytes words[i]) := by
  induction words generalizing pos i with
  | nil => exact absurd hi (Nat.not_lt_zero i)
  | cons w words ih =>
    rw [wordBytesOf, flatMap_cons, holds_append, length_leBytes] at h
    cases i with
    | zero => simpa using h.1
    | succ i =>
      have hrest := ih h.2 (Nat.lt_of_succ_lt_succ hi)
      rwa [Nat.succ_mul, ← Nat.add_assoc, Nat.add_right_comm]

theorem headerWord_of_holds {a : Arch} {pos v : ℕ} (hv : v < 256 ^ a.wordBytes)
    (h : Holds data pos (leBytes a.wordBytes v)) : headerWord a data pos = v := by
  have htake := h.take_eq
  rw [length_leBytes] at htake
  rw [headerWord, htake, leValue_leBytes, Nat.mod_eq_of_lt hv]

theorem wordAt_of_holds {a : Arch} {pos v : ℕ} (hv : v < 256 ^ a.wordBytes)
    (h : Holds data pos (leBytes a.wordBytes v)) : wordAt a data pos = some v := by
  have hend := h.end_le (by exact Nat.succ_pos _)
  rw [length_leBytes] at hend
  rw [wordAt, if_pos hend, ← headerWord, headerWord_of_holds hv h]

def fileSize (s : BuiltSections a) : ℕ :=
  6 * a.wordBytes + s.quidx.length * a.wordBytes + s.qutbl.length * a.wordBytes

/-- The header of a file whose size fits in a `size_t`. -/
def headerOf (s : BuiltSections a) : List ℕ :=
  [versionOf s.nativeOnly, a.number, s.quidx.length, s.qutbl.length, 6 * a.wordBytes,
    6 * a.wordBytes + s.quidx.length * a.wordBytes]

variable {s : BuiltSections a}

theorem fileOf_eq (hsize : fileSize s < 256 ^ a.wordBytes) :
    fileOf s = wordBytesOf a (headerOf s) ++ (wordBytesOf a s.quidx ++ wordBytesOf a s.qutbl) := by
  have hidx : a.sizeT (4 * a.wordBytes + a.wordBytes * 2) = 6 * a.wordBytes := by
    rw [Arch.sizeT, Nat.mod_eq_of_lt] <;> rw [fileSize] at * <;> omega
  have htbl : a.sizeT (6 * a.wordBytes + s.quidx.length * a.wordBytes) =
      6 * a.wordBytes + s.quidx.length * a.wordBytes := by
    rw [Arch.sizeT, Nat.mod_eq_of_lt]
    rw [fileSize] at hsize
    omega
  simp only [fileOf, hidx, htbl, headerOf, append_assoc]
  congr 2
  split_ifs with hpos
  · rfl
  · rw [eq_nil_of_length_eq_zero (Nat.eq_zero_of_not_pos hpos)]
    rfl

theorem length_fileOf (hsize : fileSize s < 256 ^ a.wordBytes) :
    (fileOf s).length = fileSize s := by
  rw [fileOf_eq hsize, length_append, length_append, length_wordBytesOf,
    length_wordBytesOf, length_wordBytesOf, fileSize, Nat.add_assoc]
  rfl

theorem holds_fileOf (hsize : fileSize s < 256 ^ a.wordBytes) :
    Holds (fileOf s) 0 (wordBytesOf a (headerOf s)) ∧
      Holds (fileOf s) (6 * a.wordBytes) (wordBytesOf a s.quidx) ∧
      Holds (fileOf s) (6 * a.wordBytes + s.quidx.length * a.wordBytes)
        (wordBytesOf a s.qutbl) := by
  have hself := holds_self (fileOf s)
  nth_rewrite 2 [fileOf_eq hsize] at hself
  obtain ⟨hhdr, hrest⟩ := holds_append.mp hself
  obtain ⟨hquidx, hqutbl⟩ := holds_append.mp hrest
  rw [length_wordBytesOf, Nat.zero_add] at hquidx hqutbl
  rw [length_wordBytesOf] at hqutbl
  exact ⟨hhdr, hquidx, hqutbl⟩

theorem pow_wordBytes_gt (a : Arch) : 0x2000000 < 256 ^ a.wordBytes := by
  cases a <;> decide

theorem headerOf_lt (hsize : fileSize s < 256 ^ a.wordBytes) {v : ℕ}
    (hv : v ∈ headerOf s) : v < 256 ^ a.wordBytes := by
  have hbig := pow_wordBytes_gt a
  have hidx : s.quidx.length ≤ s.quidx.length * a.wordBytes :=
    Nat.le_mul_of_pos_right _ (Nat.succ_pos _)
  have htbl : s.qutbl.length ≤ s.qutbl.length * a.wordBytes :=
    Nat.le_mul_of_pos_right _ (Nat.succ_pos _)
  have hvers : versionOf s.nativeOnly ≤ 0x1000001 := by
    cases s.nativeOnly <;> decide
  have hnum : a.number ≤ 2 := by
    cases a <;> decide
  rw [fileSize] at hsize
  simp only [headerOf, mem_cons, not_mem_nil, or_false] at hv
  omega

theorem headerWord_fileOf (hsize : fileSize s < 256 ^ a.wordBytes) {k : ℕ}
    (hk : k < (headerOf s).length) : headerWord a (fileOf s) (k * a.wordBytes) = (headerOf s)[k] := by
  have hholds := holds_wordBytesOf (holds_fileOf hsize).1 hk
  rw [Nat.zero_add] at hholds
  exact headerWord_of_holds (headerOf_lt hsize (getElem_mem hk)) hholds

/-- **A saved file passes the checks.** -/
theorem checkQutFile_fileOf (hsize : fileSize s < 256 ^ a.wordBytes) :
    checkQutFile a (fileOf s) = .ok ⟨fileOf s, 6 * a.wordBytes,
      6 * a.wordBytes + s.quidx.length * a.wordBytes, s.quidx.length, s.qutbl.length,
      s.nativeOnly⟩ := by
  have hvers : headerWord a (fileOf s) 0 = versionOf s.nativeOnly := by
    simpa [headerOf] using headerWord_fileOf hsize (k := 0) (by simp [headerOf])
  have harch : headerWord a (fileOf s) a.wordBytes = a.number := by
    simpa [headerOf] using headerWord_fileOf hsize (k := 1) (by simp [headerOf])
  have hidxSize : headerWord a (fileOf s) (2 * a.wordBytes) = s.quidx.length :=
    headerWord_fileOf hsize (k := 2) (by simp [headerOf])
  have htblSize : headerWord a (fileOf s) (3 * a.wordBytes) = s.qutbl.length :=
    headerWord_fileOf hsize (k := 3) (by simp [headerOf])
  have hidxOffset : headerWord a (fileOf s) (4 * a.wordBytes) = 6 * a.wordBytes :=
    headerWord_fileOf hsize (k := 4) (by simp [headerOf])
  have htblOffset : headerWord a (fileOf s) (5 * a.wordBytes) =
      6 * a.wordBytes + s.quidx.length * a.wordBytes :=
    headerWord_fileOf hsize (k := 5) (by simp [headerOf])
  have hlen := length_fileOf hsize
  have hend : a.sizeT (6 * a.wordBytes + s.quidx.length * a.wordBytes +
      a.sizeT (s.qutbl.length * a.wordBytes)) = fileSize s := by
    have htbl : a.sizeT (s.qutbl.length * a.wordBytes) = s.qutbl.length * a.wordBytes :=
      Nat.mod_eq_of_lt ((Nat.le_add_left ..).trans_lt hsize)
    rw [htbl]
    exact Nat.mod_eq_of_lt hsize
  have hlong : ¬ fileSize s < 6 * a.wordBytes := by
    rw [fileSize]
    omega
  simp only [checkQutFile, hvers, harch, hidxSize, htblSize, hidxOffset, htblOffset, hlen,
    hend, if_neg hlong, ne_eq, not_true_eq_false, if_false]
  cases s.nativeOnly <;> rfl

theorem words_fileOf (hsize : fileSize s < 256 ^ a.wordBytes)
    {sections : MappedSections} (h : checkQutFile a (fileOf s) = .ok sections) :
    sections.idxSize = s.quidx.length ∧ sections.tblSize = s.qutbl.length ∧
      sections.nativeOnly = s.nativeOnly ∧
      (∀ i (hi : i < s.quidx.length), sections.indexWord a i = some s.quidx[i]) ∧
      ∀ i (hi : i < s.qutbl.length), sections.tableWord a i = some s.qutbl[i] := by
  rw [checkQutFile_fileOf hsize] at h
  cases h
  obtain ⟨-, hquidx, hqutbl⟩ := holds_fileOf hsize
  refine ⟨rfl, rfl, rfl, fun i hi => ?_, fun i hi => ?_⟩
  · exact wordAt_of_holds (s.words_lt _ (mem_append_left _ (getElem_mem hi)))
      (holds_wordBytesOf hquidx hi)
  · exact wordAt_of_holds (s.words_lt _ (mem_append_right _ (getElem_mem hi)))
      (holds_wordBytesOf hqutbl hi)

/-! ## The file of a library -/

variable {m}

theorem savingPath_rename (old new : String) : (m.rename old new).savingPath = m.savingPath := by
  rw [rename]
  cases m.files[old]? <;> rfl

theorem files_rename_of_ne {old new name : String} (hold : name ≠ old) (hnew : name ≠ new) :
    (m.rename old new).files[name]? = m.files[name]? := by
  rw [rename]
  cases m.files[old]? with
  | none => rfl
  | some data => rw [OrdMap.get_insert_of_ne _ _ hnew, OrdMap.get_erase, if_neg hold]

theorem files_rename {old new : String} (h : m.files[old]? = some data) :
    (m.rename old new).files[new]? = some data := by
  simp [rename, h]

theorem toTempQutFileName_ne (savingPath soname buildId : String) (seconds : ℕ) :
    toTempQutFileName savingPath soname buildId seconds ≠ toQutFileName savingPath soname buildId ∧
      toTempQutFileName savingPath soname buildId seconds ≠
        toQutFileName savingPath soname buildId ++ "_malformed_" ++ toString seconds := by
  have htemp : (toTempQutFileName savingPath soname buildId seconds).length =
      (toQutFileName savingPath soname buildId).length + 6 + (toString seconds).length := by
    simp only [toTempQutFileName, toQutFileName, String.length_append]
    rfl
  constructor <;> intro heq <;> have hlen := congrArg String.length heq <;>
    rw [htemp] at hlen
  · omega
  · simp only [String.length_append] at hlen
    have hmalf : "_malformed_".length = 11 := rfl
    omega

/-- **What is saved** is the file of the library. -/
theorem files_saveQutSections {soname hash buildId : String} {onlySaveFile : Bool}
    {seconds : ℕ} {m' : QuickenTableManager a}
    (h : m.saveQutSections soname hash buildId onlySaveFile s seconds = (.noneError, m')) :
    m'.files[toQutFileName m'.savingPath soname buildId]? = some (fileOf s) := by
  rw [saveQutSections] at h
  split at h
  · cases h
  · rename_i m₁ _
    split_ifs at h
    · cases h
    cases h
    obtain ⟨hne, hne'⟩ := toTempQutFileName_ne m₁.savingPath soname buildId seconds
    rw [savingPath_rename, renameToMalformed, savingPath_rename]
    refine files_rename ?_
    rw [files_rename_of_ne hne hne']
    exact OrdMap.get_insert_self ..

/-- **Round trip**: sections with an index word, saved in a file whose size fits in a `size_t`, are
loaded by any process that has registered none for their build id, if there is a build id. -/
theorem tryLoadQutFile_saveQutSections (m m₁ m' : QuickenTableManager a)
    (soname hash hash' buildId : String) (onlySaveFile : Bool) (s : BuiltSections a)
    (seconds seconds' : ℕ) (hidx : 0 < s.quidx.length) (hsize : fileSize s < 256 ^ a.wordBytes)
    (hbuildId : buildId ≠ "")
    (hsave : m.saveQutSections soname hash buildId onlySaveFile s seconds = (.noneError, m₁))
    (hfiles : m'.files = m₁.files) (hpath : m'.savingPath = m₁.savingPath)
    (hfree : m'.sectionsMap[buildId]? = none) :
    ∃ sections m₂, m'.tryLoadQutFile soname hash' buildId false seconds' =
        (.noneError, some sections, m₂) ∧
      m₂.sectionsMap[buildId]? = some (.mapped sections) ∧
      sections.idxSize = s.quidx.length ∧ sections.tblSize = s.qutbl.length ∧
      sections.nativeOnly = s.nativeOnly ∧
      (∀ i (hi : i < s.quidx.length), sections.indexWord a i = some s.quidx[i]) ∧
      ∀ i (hi : i < s.qutbl.length), sections.tableWord a i = some s.qutbl[i] := by
  have hcheck := checkQutFile_fileOf hsize
  have hwords := words_fileOf hsize hcheck
  generalize MappedSections.mk _ _ _ _ _ _ = sections at hcheck hwords
  have hfile := files_saveQutSections hsave
  rw [← hfiles, ← hpath] at hfile
  have hins : m'.insertQutSectionsNoLock hash' buildId (.mapped sections) true = some { m' with
      sectionsMap := m'.sectionsMap.insert buildId (.mapped sections)
      requesting := m'.requesting.erase buildId
      hashToBuildId := m'.hashToBuildId.erase hash' } := by
    have hne : (Sections.mapped sections : Sections a).idxSize ≠ 0 := by
      rw [Sections.idxSize]
      omega
    simp [insertQutSectionsNoLock, hne, hbuildId, hfree]
  have hload : m'.tryLoadQutFile soname hash' buildId false seconds' = (.noneError, some sections,
      { m' with
        sectionsMap := m'.sectionsMap.insert buildId (.mapped sections)
        requesting := m'.requesting.erase buildId
        hashToBuildId := m'.hashToBuildId.erase hash' }) := by
    simp [tryLoadQutFile, hfile, hcheck, hins]
  exact ⟨sections, _, hload, OrdMap.get_insert_self .., hwords⟩

end RoundTrip

/-! ## Samples -/

def fresh (a : Arch) : QuickenTableManager a := ⟨"/qut", ∅, ∅, ∅, ∅⟩

/-- Two entries, one of them with a row in the table. -/
def sampleFile : BuiltSections .arm32 where
  quidx := [0x1000, 0x80b0b0b0, 0x1004, 0x01000000]
  qutbl := [0xb0b0b1b0]
  nativeOnly := true
  words_lt := by decide

theorem tryLoadQutFile_saveQutSections_sample :
    ∃ m₁ sections m₂, (fresh .arm32).saveQutSections "libc.so" "h" "id" false sampleFile 7 =
        (.noneError, m₁) ∧
      tryLoadQutFile { fresh .arm32 with files := m₁.files } "libc.so" "h" "id" false 8 =
        (.noneError, some sections, m₂) ∧
      m₂.sectionsMap["id"]? = some (.mapped sections) ∧
      sections.idxSize = 4 ∧ sections.tblSize = 1 ∧ sections.nativeOnly = true ∧
      (∀ i (hi : i < sampleFile.quidx.length),
        sections.indexWord .arm32 i = some sampleFile.quidx[i]) ∧
      ∀ i (hi : i < sampleFile.qutbl.length),
        sections.tableWord .arm32 i = some sampleFile.qutbl[i] := by
  have hsave : (fresh .arm32).saveQutSections "libc.so" "h" "id" false sampleFile 7 =
      (.noneError, ((fresh .arm32).saveQutSections "libc.so" "h" "id" false sampleFile 7).2) :=
    Prod.ext (by decide +kernel) rfl
  obtain ⟨sections, m₂, h⟩ := tryLoadQutFile_saveQutSections (fresh .arm32) _
    { fresh .arm32 with files :=
      ((fresh .arm32).saveQutSections "libc.so" "h" "id" false sampleFile 7).2.files }
    "libc.so" "h" "h" "id" false sampleFile 7 8 (by decide) (by decide) (by decide) hsave rfl
    (by decide +kernel) (by decide +kernel)
  exact ⟨_, sections, m₂, hsave, h⟩

/-- Without a build id, a file is written and then refused. -/
theorem tryLoadQutFile_without_buildId :
    ((fresh .arm32).saveQutSections "libc.so" "h" "" true sampleFile 7).1 = .noneError ∧
      ((fresh .arm32).saveQutSections "libc.so" "h" "" true sampleFile 7).2.sectionsMap[""]?.isNone ∧
      (tryLoadQutFile ((fresh .arm32).saveQutSections "libc.so" "h" "" true sampleFile 7).2
        "libc.so" "h" "" false 8).1 = .insertNewQutFailed := by
  refine ⟨?_, ?_, ?_⟩ <;> decide +kernel

end QuickenTableManager

end TraceHarbor.Backtrace
