import TraceHarbor.Lib.OrdMap
import TraceHarbor.Lib.Text

/-!
# The Checker for Prepared Statements

`PreparedStatementBetterChecker` suggests a prepared statement where the same text was executed several
times in quick succession. A sampling takes the last `sqlCntToSample` statements of the history, looks
back a little further, groups the statements that are not prepared by their text, and scans each group
for a continuous section.
-/

namespace TraceHarbor.SqliteLint

open Lib List

/-- An executed statement. A statement that was not processed counts as prepared. -/
structure SqlInfo where
  sql : Text
  wildcardSql : Text
  isPreparedStatement : Bool
  executionTime : ℤ
  deriving DecidableEq, Repr, Inhabited

/-- The text that identifies a statement: with its literals replaced, if it has any. -/
def SqlInfo.statementSql (info : SqlInfo) : Text :=
  if info.wildcardSql ≠ [] then info.wildcardSql else info.sql

structure Issue where
  id : Text
  statements : List SqlInfo
  deriving DecidableEq, Repr

/-- What the checker is told from outside: its white list, and how an issue id is made. -/
structure CheckerConfig where
  whiteList : List Text
  genIssueId : Text → Text

def CheckerConfig.isInWhiteList (cfg : CheckerConfig) (target : Text) : Bool :=
  target.map Char.toLower ∈ cfg.whiteList

namespace PreparedStatementBetterChecker

def sqlCntToSample : ℕ := 30

/-- Executions further apart than this are not continuous, in milliseconds. -/
def continuityInternalThreshold : ℤ := 100

def continuousCountThreshold : ℕ := 3

/-! ## The statements of a sampling -/

/-- The loop of `HandleTheBoundary` that goes back from the reference, newest statement first. -/
def lookBackward (reference : SqlInfo) : List SqlInfo → List SqlInfo → List SqlInfo
  | [], toCheckSqls => toCheckSqls
  | target :: older, toCheckSqls =>
    if reference.executionTime - target.executionTime ≥
        continuityInternalThreshold * (continuousCountThreshold - 1) then
      toCheckSqls
    else
      lookBackward reference older (target :: toCheckSqls)

def handleTheBoundary (sqlHistory : List SqlInfo) : List SqlInfo :=
  let st := sqlHistory.length - sqlCntToSample
  let toCheckSqls := sqlHistory.drop st
  if 0 < st then
    match toCheckSqls.head? with
    | none => toCheckSqls
    | some reference => lookBackward reference (sqlHistory.take st).reverse toCheckSqls
  else
    toCheckSqls

/-! ## Groups -/

/-- One statement of `MakeGroup`. -/
def addToGroup (buckets : OrdMap Text (List SqlInfo)) (info : SqlInfo) :
    OrdMap Text (List SqlInfo) :=
  if info.isPreparedStatement then
    buckets
  else if info.statementSql = [] then
    buckets
  else
    buckets.insert info.statementSql ((buckets[info.statementSql]?).getD [] ++ [info])

def makeGroup (toCheckSqls : List SqlInfo) : OrdMap Text (List SqlInfo) :=
  toCheckSqls.foldl addToGroup ∅

/-! ## Sections -/

/-- The difference of two times, in an `int`. -/
def adjacentInterval (earlier later : SqlInfo) : ℤ :=
  (later.executionTime - earlier.executionTime).bmod (2 ^ 32)

/-- The loop of `ScanCheck`: `previous` is the statement before `last`, the rest starts at
`last`. -/
def scanLoop (previous : SqlInfo) : List SqlInfo → ℕ → ℕ → ℕ × ℕ
  | [], st, last => (st, last)
  | info :: rest, st, last =>
    if adjacentInterval previous info < continuityInternalThreshold then
      scanLoop info rest st (last + 1)
    else if last - st ≥ continuousCountThreshold then
      -- one section is enough
      (st, last)
    else
      scanLoop info rest last (last + 1)

/-- The first continuous section of a group that is long enough. -/
def scanCheck : List SqlInfo → List SqlInfo
  | [] => []
  | first :: rest =>
    let (st, last) := scanLoop first rest 0 1
    if last - st ≥ continuousCountThreshold then ((first :: rest).take last).drop st else []

/-- Adds the issue of a section, unless the same one was reported last. -/
def publishIssue (cfg : CheckerConfig) (statements : List SqlInfo)
    (recentlyReportedId : Text) (issues : List Issue) : Text × List Issue :=
  let id := cfg.genIssueId ((statements.head?.map SqlInfo.statementSql).getD [])
  if recentlyReportedId = id then
    (recentlyReportedId, issues)
  else
    (id, issues ++ [⟨id, statements⟩])

/-- One group of `Check`. -/
def checkGroup (cfg : CheckerConfig) (state : Text × List Issue) (groupSqls : List SqlInfo) :
    Text × List Issue :=
  match groupSqls with
  | [] => state
  | first :: _ =>
    if cfg.isInWhiteList first.wildcardSql || cfg.isInWhiteList first.sql then
      state
    else if scanCheck groupSqls = [] then
      state
    else
      publishIssue cfg (scanCheck groupSqls) state.1 state.2

/-- `Check`, on the statements of a sampling. -/
def check (cfg : CheckerConfig) (toCheckSqls : List SqlInfo) (recentlyReportedId : Text) :
    Text × List Issue :=
  ((makeGroup toCheckSqls).toList.map Prod.snd).foldl (checkGroup cfg) (recentlyReportedId, [])

/-! ## How far back a sampling reaches -/

section Boundary

variable {reference : SqlInfo}

/-- Close enough to the reference for a section to reach over it. -/
def InReach (reference target : SqlInfo) : Prop :=
  reference.executionTime - target.executionTime < 200

/-- The statements added are an end of the older ones, and it has every statement from which on
all statements are in reach. -/
theorem lookBackward_eq_drop (older toCheckSqls : List SqlInfo) :
    ∃ s ≤ older.length, lookBackward reference older.reverse toCheckSqls =
        older.drop s ++ toCheckSqls ∧
      ∀ i < older.length, (∀ target ∈ older.drop i, InReach reference target) → s ≤ i := by
  induction older using reverseRecOn generalizing toCheckSqls with
  | nil => exact ⟨0, le_rfl, rfl, fun i hi => absurd hi (Nat.not_lt_zero i)⟩
  | append_singleton older target ih =>
    rw [reverse_append, reverse_singleton, singleton_append, lookBackward]
    have hthre : continuityInternalThreshold * ((continuousCountThreshold : ℤ) - 1) = 200 := rfl
    rw [hthre]
    split_ifs with hbreak
    · refine ⟨(older ++ [target]).length, le_rfl, by rw [drop_length, nil_append], ?_⟩
      intro i hi hreach
      rw [length_append, length_singleton] at hi
      have hmem : target ∈ (older ++ [target]).drop i := by
        rw [drop_append_of_le_length (by omega)]
        exact mem_append_right _ (mem_singleton_self target)
      exact absurd (hreach target hmem) (not_lt.mpr hbreak)
    · obtain ⟨s, hs, heq, hreach⟩ := ih (target :: toCheckSqls)
      refine ⟨s, by rw [length_append]; omega, ?_, ?_⟩
      · rw [heq, drop_append_of_le_length hs, append_assoc, singleton_append]
      · intro i hi hall
        by_cases hlast : i < older.length
        · refine hreach i hlast fun t ht => hall t ?_
          rw [drop_append_of_le_length hlast.le]
          exact mem_append_left _ ht
        · omega

/-- The statements of a sampling are an end of the history, with every statement from which on all
are in reach of the last `sqlCntToSample`. -/
theorem handleTheBoundary_eq_drop (sqlHistory : List SqlInfo) :
    ∃ s, handleTheBoundary sqlHistory = sqlHistory.drop s ∧
      s ≤ sqlHistory.length - sqlCntToSample ∧
      ∀ i (hst : sqlHistory.length - sqlCntToSample < sqlHistory.length),
        (∀ j (hj : j < sqlHistory.length), i ≤ j → j < sqlHistory.length - sqlCntToSample →
          InReach (sqlHistory.get ⟨_, hst⟩) (sqlHistory.get ⟨j, hj⟩)) → s ≤ i := by
  unfold handleTheBoundary
  set st := sqlHistory.length - sqlCntToSample with hst
  by_cases hpos : 0 < st
  · have hlt : st < sqlHistory.length := by
      have : sqlCntToSample = 30 := rfl
      omega
    have hdrop : sqlHistory.drop st = sqlHistory.get ⟨st, hlt⟩ :: sqlHistory.drop (st + 1) :=
      drop_eq_getElem_cons hlt
    obtain ⟨s, hs, heq, hreach⟩ :=
      @lookBackward_eq_drop (sqlHistory.get ⟨st, hlt⟩) (sqlHistory.take st) (sqlHistory.drop st)
    have hlen : (sqlHistory.take st).length = st := length_take_of_le hlt.le
    rw [hlen] at hs hreach
    refine ⟨s, ?_, hs, ?_⟩
    · simp only [if_pos hpos]
      rw [show (sqlHistory.drop st).head? = some (sqlHistory.get ⟨st, hlt⟩) by
        rw [hdrop, head?_cons]]
      simp only [heq]
      conv_rhs => rw [← take_append_drop st sqlHistory]
      rw [drop_append_of_le_length (by rwa [hlen])]
    · intro i _ hall
      by_cases hi : i < st
      · refine hreach i hi fun target htgt => ?_
        obtain ⟨j, hj, rfl⟩ := mem_iff_getElem.mp htgt
        rw [length_drop] at hj
        rw [getElem_drop, getElem_take]
        exact hall (i + j) (by omega) (by omega) (by omega)
      · omega
  · refine ⟨st, by simp only [if_neg hpos], le_rfl, fun i _ _ => by omega⟩

end Boundary

/-! ## What a group holds -/

def InGroup (key : Text) (info : SqlInfo) : Prop :=
  info.isPreparedStatement = false ∧ info.statementSql = key

instance (key : Text) : DecidablePred (InGroup key) := fun _ => inferInstanceAs (Decidable (_ ∧ _))

theorem get_foldl_addToGroup {key : Text} (hkey : key ≠ []) (toCheckSqls : List SqlInfo)
    (buckets : OrdMap Text (List SqlInfo)) :
    ((toCheckSqls.foldl addToGroup buckets)[key]?).getD [] =
      (buckets[key]?).getD [] ++ toCheckSqls.filter (InGroup key) := by
  induction toCheckSqls generalizing buckets with
  | nil => rw [foldl_nil, filter_nil, append_nil]
  | cons info rest ih =>
    rw [foldl_cons, ih, filter_cons]
    unfold addToGroup
    by_cases hprep : info.isPreparedStatement = true
    · rw [if_pos hprep, if_neg (by simp [InGroup, hprep])]
    · rw [if_neg hprep]
      by_cases heq : info.statementSql = key
      · rw [if_neg (by rwa [heq]), heq, OrdMap.get_insert_self, Option.getD_some,
          if_pos (by simpa [InGroup, heq] using hprep), append_assoc,
          singleton_append]
      · rw [if_neg (show ¬ decide (InGroup key info) = true by simp [InGroup, heq])]
        by_cases hemp : info.statementSql = []
        · rw [if_pos hemp]
        · rw [if_neg hemp, OrdMap.get_insert_of_ne _ _ (Ne.symm heq)]

/-- The group of a text has the statements with this text that are not prepared, in order. -/
theorem get_makeGroup {key : Text} (hkey : key ≠ []) (toCheckSqls : List SqlInfo) :
    ((makeGroup toCheckSqls)[key]?).getD [] = toCheckSqls.filter (InGroup key) := by
  have h := get_foldl_addToGroup hkey toCheckSqls ∅
  rwa [show ((∅ : OrdMap Text (List SqlInfo))[key]?) = none from
    Std.ExtTreeMap.getElem?_empty] at h

/-! ## Continuous sections -/

/-- Two neighbours of one continuous run. -/
def near (earlier later : SqlInfo) : Bool :=
  later.executionTime - earlier.executionTime < continuityInternalThreshold

/-- The first maximal run with enough statements; `splitBy` gives the maximal runs. -/
def firstRun (infos : List SqlInfo) : Option (List SqlInfo) :=
  (infos.splitBy near).find? fun run => continuousCountThreshold ≤ run.length

/-- What `ScanCheck` copies, once its loop has ended. -/
def sectionOf (infos : List SqlInfo) (range : ℕ × ℕ) : List SqlInfo :=
  if range.2 - range.1 ≥ continuousCountThreshold then (infos.take range.2).drop range.1 else []

/-- Neighbours in order, and close enough for an `int`. -/
def Timed (infos : List SqlInfo) : Prop :=
  infos.IsChain fun a b => a.executionTime ≤ b.executionTime ∧
    b.executionTime - a.executionTime < 2 ^ 31

theorem sectionOf_run (front : List SqlInfo) {run : List SqlInfo} (rest : List SqlInfo) :
    sectionOf (front ++ (run ++ rest)) (front.length, front.length + run.length) =
      if continuousCountThreshold ≤ run.length then run else [] := by
  rw [sectionOf, ← append_assoc, take_append_of_le_length (by rw [length_append]),
    take_of_length_le (by rw [length_append]), drop_left, Nat.add_sub_cancel_left]

theorem firstRun_of_isChain {run : List SqlInfo} (hne : run ≠ [])
    (hrun : run.IsChain fun a b => near a b) :
    firstRun run = if continuousCountThreshold ≤ run.length then some run else none := by
  rw [firstRun, splitBy_of_isChain hne hrun, find?_singleton]
  simp only [decide_eq_true_eq]

/-- From a run that ends with `previous`, the loop finds the section of the first run. -/
theorem sectionOf_scanLoop (front run : List SqlInfo) (previous : SqlInfo) (rest : List SqlInfo)
    (htim : Timed (previous :: rest))
    (hrun : (run ++ [previous]).IsChain fun a b => near a b) :
    sectionOf (front ++ (run ++ [previous] ++ rest)) (scanLoop previous rest front.length
      (front.length + (run ++ [previous]).length)) =
    (firstRun (run ++ [previous] ++ rest)).getD [] := by
  have hne : run ++ [previous] ≠ [] := append_ne_nil_of_right_ne_nil _ (cons_ne_nil _ _)
  induction rest generalizing front run previous with
  | nil =>
    rw [scanLoop, sectionOf_run, append_nil, firstRun_of_isChain hne hrun]
    split_ifs <;> rfl
  | cons info rest ih =>
    obtain ⟨⟨hle, hlt⟩, htim⟩ := isChain_cons_cons.mp htim
    have hdiff : adjacentInterval previous info = info.executionTime - previous.executionTime :=
      Int.bmod_eq_of_le (by omega) (by omega)
    rw [scanLoop, hdiff]
    by_cases hnear : info.executionTime - previous.executionTime < continuityInternalThreshold
    · rw [if_pos hnear]
      have hchain : (run ++ [previous] ++ [info]).IsChain fun a b => near a b :=
        isChain_append.mpr ⟨hrun, isChain_singleton _, by simpa [near] using hnear⟩
      have hlen : (run ++ [previous] ++ [info]).length = (run ++ [previous]).length + 1 :=
        length_append
      have h := ih front (run ++ [previous]) info htim hchain (by simp)
      rwa [hlen, append_assoc _ [info], singleton_append] at h
    · -- the run ends here: either it is long enough or it does not matter
      rw [if_neg hnear, Nat.add_sub_cancel_left]
      have hsplit : firstRun (run ++ [previous] ++ info :: rest) =
          (firstRun (run ++ [previous])).or (firstRun (info :: rest)) := by
        rw [firstRun, splitBy_append_cons, find?_append]
        · rfl
        · simpa [near] using hnear
      rw [hsplit, firstRun_of_isChain hne hrun]
      by_cases hlong : continuousCountThreshold ≤ (run ++ [previous]).length
      · rw [if_pos hlong, if_pos hlong, sectionOf_run, if_pos hlong]
        rfl
      · rw [if_neg hlong, if_neg hlong, Option.none_or]
        have h := ih (front ++ (run ++ [previous])) [] info htim (isChain_singleton _) (by simp)
        rwa [length_append, nil_append, append_assoc] at h

/-- **Continuous sections**: `ScanCheck` finds the first maximal run that is long enough, and
nothing exactly if there is none. -/
theorem scanCheck_eq_firstRun (infos : List SqlInfo) (htimes : Timed infos) :
    (scanCheck infos = [] ↔
      ∀ run ∈ infos.splitBy near, run.length < continuousCountThreshold) ∧
    ∀ run, firstRun infos = some run → scanCheck infos = run := by
  have heq : scanCheck infos = (firstRun infos).getD [] := by
    cases infos with
    | nil => rfl
    | cons first rest => exact sectionOf_scanLoop [] [] first rest htimes (isChain_singleton _)
  rw [heq]
  refine ⟨?_, fun run hrun => by rw [hrun, Option.getD_some]⟩
  cases hrun : firstRun infos with
  | none => simpa [firstRun] using hrun
  | some run =>
    have hlong := find?_some hrun
    have hmem := mem_of_find?_eq_some hrun
    refine iff_of_false (fun hnil => ?_) fun hall => (hall run hmem).not_ge (by simpa using hlong)
    rw [Option.getD_some] at hnil
    simp [hnil, continuousCountThreshold] at hlong

/-- A run of three at the end of the list. -/
theorem scanCheck_lastRun :
    scanCheck ([0, 100, 150, 249].map fun t => ⟨['s'], [], false, t⟩) =
      [100, 150, 249].map fun t => ⟨['s'], [], false, t⟩ :=
  (scanCheck_eq_firstRun _ (by simp [Timed])).2 _ (by decide)

end PreparedStatementBetterChecker

end TraceHarbor.SqliteLint
