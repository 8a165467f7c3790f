import TraceHarbor.Lib.Run
import TraceHarbor.SqliteLint.PreparedStatement

/-!
# The Loop over Executed Statements

`NotifySqlExecution` queues every executed statement that is not one of the lint's own queries. The
thread of `Check` counts a statement, adds it to the history, samples the history at every
`sqlCntToSample`-th statement, and checks a statement whose text it has not seen recently. The history is
cut at the end of the loop body, which a statement that is not supported or does not parse never
reaches.
-/

namespace TraceHarbor.SqliteLint

open Lib List Option

/-! ## The cache of checked statements -/

/-- `LRUCache`: the keys with their values, most recent first. -/
structure LRUCache (κ V : Type*) where
  maxSize : ℕ
  entries : List (κ × V)

namespace LRUCache

variable {κ V : Type*} [DecidableEq κ]

/-- Finds a value and makes its key the most recent one. -/
def get (cache : LRUCache κ V) (key : κ) : Option (V × LRUCache κ V) :=
  (cache.entries.find? fun entry => entry.1 = key).map fun entry =>
    (entry.2, { cache with
      entries := entry :: cache.entries.filter fun e => e.1 ≠ key })

def put (cache : LRUCache κ V) (key : κ) (value : V) : LRUCache κ V :=
  if cache.entries.any fun entry => entry.1 = key then
    { cache with entries := (key, value) :: cache.entries.filter fun e => e.1 ≠ key }
  else if cache.entries.length + 1 > cache.maxSize then
    { cache with entries := ((key, value) :: cache.entries).dropLast }
  else
    { cache with entries := (key, value) :: cache.entries }

end LRUCache

/-! ## The environment -/

structure LintEnv where
  sqlHistory : List SqlInfo
  checkedSqlCnt : ℕ
  reserveSqlMap : OrdMap Text ℤ

namespace LintEnv

/-- How long a statement stays marked, in milliseconds. -/
def markReserveIntervalThreshold : ℤ := 1000

def markReserve (env : LintEnv) (sql : Text) (now : ℤ) : LintEnv :=
  match env.reserveSqlMap[sql]? with
  | some _ => env
  | none => { env with reserveSqlMap := env.reserveSqlMap.insert sql now }

/-- Whether the statement is one of the linter's own queries. An old mark is removed. -/
def isReserveSql (env : LintEnv) (sql : Text) (now : ℤ) : Bool × LintEnv :=
  match env.reserveSqlMap[sql]? with
  | none => (false, env)
  | some reserveQueryTime =>
    if now - reserveQueryTime > markReserveIntervalThreshold then
      (false, { env with reserveSqlMap := env.reserveSqlMap.erase sql })
    else
      (true, env)

def incSqlCnt (env : LintEnv) : LintEnv := { env with checkedSqlCnt := env.checkedSqlCnt + 1 }

def addToSqlHistory (env : LintEnv) (info : SqlInfo) : LintEnv :=
  { env with sqlHistory := env.sqlHistory ++ [info] }

def releaseHistory (env : LintEnv) (count : ℕ) : LintEnv :=
  if count < env.sqlHistory.length then
    { env with sqlHistory := env.sqlHistory.drop count }
  else
    env

def checkReleaseHistory (env : LintEnv) : LintEnv :=
  if env.sqlHistory.length ≥ 1000 then env.releaseHistory 200 else env

theorem checkReleaseHistory_cases (env : LintEnv) :
    (env.sqlHistory.length < 1000 ∧ env.checkReleaseHistory = env) ∨
      1000 ≤ env.sqlHistory.length ∧
        env.checkReleaseHistory = { env with sqlHistory := env.sqlHistory.drop 200 } := by
  unfold checkReleaseHistory releaseHistory
  by_cases hlen : env.sqlHistory.length ≥ 1000
  · exact .inr ⟨hlen, by rw [if_pos hlen, if_pos (by omega)]⟩
  · exact .inl ⟨by omega, by rw [if_neg hlen]⟩

end LintEnv

/-! ## The linter -/

/-- One sampling: the count at which it was scheduled, and the statements it examined. -/
structure Sampling where
  count : ℕ
  toCheckSqls : List SqlInfo

/-- What `Check` is given: the outcome of `SqlInfoProcessor::Process`, the checks of a statement not
seen recently, and the configuration of the sampled checker. -/
structure LintConfig where
  process : Text → Option (Text × Bool)
  checkUncheckedSql : SqlInfo → List Issue
  checker : CheckerConfig

structure Lint where
  queue : List SqlInfo
  env : LintEnv
  checkedSqlCache : LRUCache Text Bool
  recentlyReportedId : Text
  /-- the samplings so far -/
  samplings : List Sampling
  /-- the calls of the callback so far -/
  issued : List (List Issue)

namespace Lint

def init : Lint where
  queue := []
  env := ⟨[], 0, ∅⟩
  checkedSqlCache := ⟨500, []⟩
  recentlyReportedId := []
  samplings := []
  issued := []

def trim (s : Text) : Text :=
  (s.dropWhile (· = ' ')).rdropWhile (· = ' ')

def preProcessSqlString (sql : Text) : Text := (trim sql).map Char.toLower

def keywords : List Text :=
  ["select".toList, "insert".toList, "update".toList, "delete".toList, "replac".toList]

def isSqlSupportCheck (sql : Text) : Bool :=
  if sql.length < 6 then false else sql.take 6 ∈ keywords

/-- The statement as `Check` processes it, if it gets past the two tests. -/
def preProcess (cfg : LintConfig) (info : SqlInfo) : Option SqlInfo :=
  let sql := preProcessSqlString info.sql
  if isSqlSupportCheck sql then
    (cfg.process sql).map fun (wildcardSql, isPrepared) =>
      { info with sql := sql, wildcardSql := wildcardSql, isPreparedStatement := isPrepared }
  else
    none

def entry (cfg : LintConfig) (info : SqlInfo) : SqlInfo :=
  (preProcess cfg info).getD { info with sql := preProcessSqlString info.sql }

/-- `ScheduleCheckers` for the sampled checker. -/
def scheduleSample (cfg : LintConfig) (l : Lint) : Lint × List Issue :=
  if l.env.checkedSqlCnt % PreparedStatementBetterChecker.sqlCntToSample = 0 then
    let toCheckSqls := PreparedStatementBetterChecker.handleTheBoundary l.env.sqlHistory
    let (recent, issues) :=
      PreparedStatementBetterChecker.check cfg.checker toCheckSqls l.recentlyReportedId
    ({ l with
        recentlyReportedId := recent
        samplings := l.samplings ++ [⟨l.env.checkedSqlCnt, toCheckSqls⟩] }, issues)
  else
    (l, [])

/-- `ScheduleCheckers` for the checkers of a statement that the cache does not have. -/
def scheduleUncheckedSql (cfg : LintConfig) (l : Lint) (info : SqlInfo) : Lint × List Issue :=
  match l.checkedSqlCache.get info.statementSql with
  | some (_, cache) => ({ l with checkedSqlCache := cache }, [])
  | none =>
    ({ l with checkedSqlCache := l.checkedSqlCache.put info.statementSql true },
      cfg.checkUncheckedSql info)

/-- The rest of the loop body of `Check`, for a statement that was processed. -/
def checkProcessed (cfg : LintConfig) (l : Lint) (info : SqlInfo) : Lint :=
  let l := { l with env := l.env.addToSqlHistory info }
  let (l, sampleIssues) := scheduleSample cfg l
  let (l, uncheckedIssues) := scheduleUncheckedSql cfg l info
  let publishedIssues := sampleIssues ++ uncheckedIssues
  { l with
    issued := if publishedIssues = [] then l.issued else l.issued ++ [publishedIssues]
    env := l.env.checkReleaseHistory }

/-- The loop body of `Check`, on the statement that was taken. -/
def checkSql (cfg : LintConfig) (l : Lint) (info : SqlInfo) : Lint :=
  let l := { l with env := l.env.incSqlCnt }
  match preProcess cfg info with
  | none => { l with env := l.env.addToSqlHistory { info with sql := preProcessSqlString info.sql } }
  | some processed => checkProcessed cfg l processed

/-- What happens to a linter: a statement is executed, one of its own queries is marked, or the
thread of `Check` goes once through its loop. -/
inductive Op where
  | notifySqlExecution (sql : Option Text) (now : ℤ)
  | markReserve (sql : Text) (now : ℤ)
  | check

def newSqlInfo (sql : Text) (now : ℤ) : SqlInfo := ⟨sql, [], true, now⟩

def notifySqlExecution (l : Lint) (sql : Option Text) (now : ℤ) : Lint :=
  match sql with
  | none => l
  | some sql =>
    let (reserved, env) := l.env.isReserveSql sql now
    if reserved then
      { l with env := env }
    else
      { l with env := env, queue := l.queue ++ [newSqlInfo sql now] }

def step (cfg : LintConfig) (l : Lint) : Op → Lint
  | .notifySqlExecution sql now => notifySqlExecution l sql now
  | .markReserve sql now => { l with env := l.env.markReserve sql now }
  | .check =>
    match l.queue with
    | [] => l
    | info :: rest => checkSql cfg { l with queue := rest } info

/-! ## What one statement does -/

/-- Getting past both tests. -/
def Processed (cfg : LintConfig) (info : SqlInfo) : Prop := preProcess cfg info ≠ none

instance (cfg : LintConfig) : DecidablePred (Processed cfg) :=
  fun _ => inferInstanceAs (Decidable (_ ≠ _))

/-- The sampling due after a statement, if its count is one at which to sample. -/
def dueSampling (env : LintEnv) : List Sampling :=
  if env.checkedSqlCnt % 30 = 0 then
    [⟨env.checkedSqlCnt, PreparedStatementBetterChecker.handleTheBoundary env.sqlHistory⟩]
  else
    []

theorem scheduleSample_env (cfg : LintConfig) (l : Lint) : (scheduleSample cfg l).1.env = l.env := by
  unfold scheduleSample
  split <;> rfl

theorem scheduleSample_samplings (cfg : LintConfig) (l : Lint) :
    (scheduleSample cfg l).1.samplings = l.samplings ++ dueSampling l.env := by
  unfold scheduleSample dueSampling
  have hcnt : PreparedStatementBetterChecker.sqlCntToSample = 30 := rfl
  rw [hcnt]
  split
  · rfl
  · rw [append_nil]

theorem scheduleUncheckedSql_env (cfg : LintConfig) (l : Lint) (info : SqlInfo) :
    (scheduleUncheckedSql cfg l info).1.env = l.env := by
  unfold scheduleUncheckedSql
  split <;> rfl

theorem scheduleUncheckedSql_samplings (cfg : LintConfig) (l : Lint) (info : SqlInfo) :
    (scheduleUncheckedSql cfg l info).1.samplings = l.samplings := by
  unfold scheduleUncheckedSql
  split <;> rfl

variable {info : SqlInfo}

theorem checkSql_of_not_processed {cfg : LintConfig} (hnot : ¬ Processed cfg info) (l : Lint) :
    checkSql cfg l info = { l with env := l.env.incSqlCnt.addToSqlHistory (entry cfg info) } := by
  have hnone : preProcess cfg info = none := not_not.mp hnot
  rw [checkSql, entry, hnone]
  rfl

theorem checkSql_env {cfg : LintConfig} (h : Processed cfg info) (l : Lint) :
    (checkSql cfg l info).env =
      (l.env.incSqlCnt.addToSqlHistory (entry cfg info)).checkReleaseHistory := by
  obtain ⟨processed, hsome⟩ := ne_none_iff_exists'.mp h
  rw [checkSql, entry, hsome, getD_some]
  simp only [checkProcessed]
  rw [scheduleUncheckedSql_env, scheduleSample_env]

theorem checkSql_samplings {cfg : LintConfig} (h : Processed cfg info) (l : Lint) :
    (checkSql cfg l info).samplings =
      l.samplings ++ dueSampling (l.env.incSqlCnt.addToSqlHistory (entry cfg info)) := by
  obtain ⟨processed, hsome⟩ := ne_none_iff_exists'.mp h
  rw [checkSql, entry, hsome, getD_some]
  simp only [checkProcessed]
  rw [scheduleUncheckedSql_samplings, scheduleSample_samplings]

/-! ## The bound of the history -/

section Bound

variable {cfg : LintConfig}

/-- A statement that is not processed is taken only while the history has room for it. -/
def RoomForSkipped (cfg : LintConfig) (l : Lint) : Op → Prop
  | .check => ∀ info ∈ l.queue.head?, ¬ Processed cfg info → l.env.sqlHistory.length < 1000
  | _ => True

def HistoryBounded (l : Lint) : Prop := l.env.sqlHistory.length ≤ 1000

theorem isReserveSql_sqlHistory (env : LintEnv) (sql : Text) (now : ℤ) :
    (env.isReserveSql sql now).2.sqlHistory = env.sqlHistory := by
  unfold LintEnv.isReserveSql
  split
  · rfl
  · split <;> rfl

theorem notifySqlExecution_sqlHistory (l : Lint) (sql : Option Text) (now : ℤ) :
    (notifySqlExecution l sql now).env.sqlHistory = l.env.sqlHistory := by
  cases sql with
  | none => rfl
  | some sql =>
    have hhist := isReserveSql_sqlHistory l.env sql now
    simp only [notifySqlExecution]
    split <;> exact hhist

theorem markReserve_sqlHistory (env : LintEnv) (sql : Text) (now : ℤ) :
    (env.markReserve sql now).sqlHistory = env.sqlHistory := by
  unfold LintEnv.markReserve
  split <;> rfl

variable {l : Lint}

theorem length_checkSql_of_processed (h : Processed cfg info) (hl : HistoryBounded l) :
    HistoryBounded (checkSql cfg l info) := by
  unfold HistoryBounded at hl ⊢
  have hlen : (l.env.incSqlCnt.addToSqlHistory (entry cfg info)).sqlHistory.length =
      l.env.sqlHistory.length + 1 := length_append ..
  rw [checkSql_env h]
  rcases LintEnv.checkReleaseHistory_cases (l.env.incSqlCnt.addToSqlHistory (entry cfg info)) with
    ⟨hshort, heq⟩ | ⟨-, heq⟩
  · rw [heq]
    exact hshort.le
  · rw [heq, length_drop]
    omega

theorem length_checkSql_of_not_processed (h : ¬ Processed cfg info) (l : Lint) :
    (checkSql cfg l info).env.sqlHistory.length = l.env.sqlHistory.length + 1 := by
  rw [checkSql_of_not_processed h]
  exact length_append ..

theorem historyBounded_step {op : Op} (hl : HistoryBounded l) (hroom : RoomForSkipped cfg l op) :
    HistoryBounded (step cfg l op) := by
  cases op with
  | notifySqlExecution sql now =>
    exact (congrArg length (notifySqlExecution_sqlHistory l sql now)).trans_le hl
  | markReserve sql now =>
    exact (congrArg length (markReserve_sqlHistory l.env sql now)).trans_le hl
  | check =>
    cases hqueue : l.queue with
    | nil =>
      rw [step, hqueue]
      exact hl
    | cons info rest =>
      rw [step, hqueue]
      by_cases hproc : Processed cfg info
      · exact length_checkSql_of_processed hproc hl
      · have hlt := hroom info (by rw [hqueue]; rfl) hproc
        exact (length_checkSql_of_not_processed hproc _).trans_le hlt

theorem not_historyBounded_step {op : Op} (hroom : ¬ RoomForSkipped cfg l op) :
    ¬ HistoryBounded (step cfg l op) := by
  cases op with
  | notifySqlExecution sql now | markReserve sql now => exact absurd trivial hroom
  | check =>
    simp only [RoomForSkipped, not_forall] at hroom
    obtain ⟨info, hhead, hnot, hfull⟩ := hroom
    obtain ⟨rest, hqueue⟩ : ∃ rest, l.queue = info :: rest := by
      rw [mem_def, head?_eq_some_iff] at hhead
      exact hhead
    rw [step, hqueue, HistoryBounded, length_checkSql_of_not_processed hnot]
    exact not_le.mpr (Nat.lt_succ_of_le (not_lt.mp hfull))

/-- **The history stays bounded** exactly in the runs in which a statement that is not supported,
or does not parse, is taken only while the history holds less than 1000 statements. -/
theorem history_bounded_iff (cfg : LintConfig) (ops : List Op) :
    Always (step cfg) HistoryBounded init ops ↔ Meets (step cfg) (RoomForSkipped cfg) init ops :=
  always_iff_meets (fun _ _ => historyBounded_step) (fun _ h => h)
    (fun _ _ _ => not_historyBounded_step) (Nat.zero_le _) ops

/-- A statement is executed, and `Check` takes it. -/
def execute (sql : Text) (now : ℤ) : List Op := [.notifySqlExecution (some sql) now, .check]

theorem step_execute {sql : Text} {now : ℤ} (hqueue : l.queue = [])
    (hmark : l.env.reserveSqlMap[sql]? = none) :
    run (step cfg) l (execute sql now) = checkSql cfg l (newSqlInfo sql now) := by
  obtain ⟨queue, env, cache, recent, samplings, issued⟩ := l
  obtain rfl : queue = [] := hqueue
  simp [execute, run, step, notifySqlExecution, LintEnv.isReserveSql, hmark]

theorem length_run_skipped {sql : Text} {now : ℤ} (hnot : ¬ Processed cfg (newSqlInfo sql now))
    (k : ℕ) (hqueue : l.queue = []) (hmark : l.env.reserveSqlMap[sql]? = none) :
    (run (step cfg) l (replicate k (execute sql now)).flatten).env.sqlHistory.length =
      l.env.sqlHistory.length + k := by
  induction k generalizing l with
  | zero => rfl
  | succ k ih =>
    rw [replicate_succ, flatten_cons, run_append, step_execute hqueue hmark]
    have hlen := length_checkSql_of_not_processed hnot l
    rw [ih, hlen, Nat.add_right_comm, Nat.add_assoc]
    · rw [checkSql_of_not_processed hnot]
      exact hqueue
    · rw [checkSql_of_not_processed hnot]
      exact hmark

/-- A configuration that parses every statement as one without literals. -/
def plainConfig : LintConfig := ⟨fun _ => some ([], true), fun _ => [], ⟨[], id⟩⟩

theorem not_processed_vacuum : ¬ Processed plainConfig (newSqlInfo "vacuum".toList 0) := by
  decide

/-- A thousand and one statements of a kind that is not checked are all kept. -/
theorem unsupported_statements_are_kept :
    ¬ Always (step plainConfig) HistoryBounded init
      (List.replicate 1001 (execute "vacuum".toList 0)).flatten := by
  intro h
  have hlast := h.last
  rw [HistoryBounded, length_run_skipped not_processed_vacuum 1001 rfl
    Std.ExtTreeMap.getElem?_empty] at hlast
  exact absurd hlast (by decide)

end Bound

/-! ## What the samplings examine -/

section Sampling

open PreparedStatementBetterChecker

/-- What a linter has done so far. The history is an end of the statements and, once it was cut, has
at least 800; a processed statement whose count was due was sampled. -/
structure Tracks (cfg : LintConfig) (past : List SqlInfo) (l : Lint) : Prop where
  count : l.env.checkedSqlCnt = past.length
  history : ∃ d, l.env.sqlHistory = (past.map (entry cfg)).drop d ∧ (d = 0 ∨ d + 800 ≤ past.length)
  sampled : ∀ i info, past[i]? = some info → (i + 1) % 30 = 0 → Processed cfg info →
    ∃ d, (d = 0 ∨ d + 801 ≤ i + 1) ∧
      ⟨i + 1, handleTheBoundary (((past.map (entry cfg)).take (i + 1)).drop d)⟩ ∈ l.samplings

theorem tracks_init (cfg : LintConfig) : Tracks cfg [] init where
  count := rfl
  history := ⟨0, rfl, .inl rfl⟩
  sampled := fun _ _ hinfo => absurd hinfo (by simp)

variable {cfg : LintConfig} {past : List SqlInfo} {l : Lint} {info : SqlInfo}

theorem checkSql_checkedSqlCnt (cfg : LintConfig) (l : Lint) (info : SqlInfo) :
    (checkSql cfg l info).env.checkedSqlCnt = l.env.checkedSqlCnt + 1 := by
  by_cases hproc : Processed cfg info
  · rw [checkSql_env hproc]
    rcases LintEnv.checkReleaseHistory_cases (l.env.incSqlCnt.addToSqlHistory (entry cfg info)) with
      ⟨-, heq⟩ | ⟨-, heq⟩ <;> rw [heq] <;> rfl
  · rw [checkSql_of_not_processed hproc]
    rfl

theorem Tracks.history_append (h : Tracks cfg past l) (info : SqlInfo) :
    ∃ d, (l.env.incSqlCnt.addToSqlHistory (entry cfg info)).sqlHistory =
        ((past ++ [info]).map (entry cfg)).drop d ∧ (d = 0 ∨ d + 801 ≤ (past ++ [info]).length) := by
  obtain ⟨d, heq, hd⟩ := h.history
  refine ⟨d, ?_, ?_⟩
  · have hle : d ≤ (past.map (entry cfg)).length := by
      rw [length_map]
      omega
    rw [map_append, drop_append_of_le_length hle, ← heq]
    rfl
  · rw [length_append, length_singleton]
    omega

theorem Tracks.history_checkSql (h : Tracks cfg past l) :
    ∃ d, (checkSql cfg l info).env.sqlHistory = ((past ++ [info]).map (entry cfg)).drop d ∧
      (d = 0 ∨ d + 800 ≤ (past ++ [info]).length) := by
  obtain ⟨d, heq, hd⟩ := h.history_append info
  by_cases hproc : Processed cfg info
  · rw [checkSql_env hproc]
    rcases LintEnv.checkReleaseHistory_cases (l.env.incSqlCnt.addToSqlHistory (entry cfg info)) with
      ⟨-, hkeep⟩ | ⟨hlong, hcut⟩
    · exact ⟨d, by rw [hkeep, heq], by omega⟩
    · rw [heq, length_drop, length_map] at hlong
      exact ⟨d + 200, by rw [hcut, heq, drop_drop], .inr (by omega)⟩
  · rw [checkSql_of_not_processed hproc]
    exact ⟨d, heq, by omega⟩

theorem mem_samplings_checkSql {smp : Sampling} (hsmp : smp ∈ l.samplings) :
    smp ∈ (checkSql cfg l info).samplings := by
  by_cases hproc : Processed cfg info
  · rw [checkSql_samplings hproc]
    exact mem_append_left _ hsmp
  · rw [checkSql_of_not_processed hproc]
    exact hsmp

theorem Tracks.checkSql (h : Tracks cfg past l) : Tracks cfg (past ++ [info]) (checkSql cfg l info) where
  count := by rw [checkSql_checkedSqlCnt, h.count, length_append, length_singleton]
  history := h.history_checkSql
  sampled := by
    intro i info' hinfo' hdue hproc
    by_cases hi : i < past.length
    · rw [getElem?_append_left hi] at hinfo'
      obtain ⟨d, hd, hmem⟩ := h.sampled i info' hinfo' hdue hproc
      refine ⟨d, hd, mem_samplings_checkSql ?_⟩
      rwa [map_append, take_append_of_le_length (by rw [length_map]; omega)]
    · -- the statement that was just taken
      have hlt : i < (past ++ [info]).length := (List.getElem?_eq_some_iff.mp hinfo').1
      rw [length_append, length_singleton] at hlt
      obtain rfl : i = past.length := by omega
      rw [getElem?_concat_length] at hinfo'
      cases hinfo'
      obtain ⟨d, heq, hd⟩ := h.history_append info
      refine ⟨d, by simpa using hd, ?_⟩
      have hcnt : (l.env.incSqlCnt.addToSqlHistory (entry cfg info)).checkedSqlCnt =
          past.length + 1 := congrArg (· + 1) h.count
      rw [checkSql_samplings hproc, dueSampling, hcnt, if_pos hdue, heq,
        take_of_length_le (by simp)]
      exact mem_append_right _ (mem_singleton_self _)

theorem tracks_run (cfg : LintConfig) (infos : List SqlInfo) :
    Tracks cfg infos (run (checkSql cfg) init infos) := by
  induction infos using reverseRecOn with
  | nil => exact tracks_init cfg
  | append_singleton past info ih =>
    rw [run_append]
    exact ih.checkSql

/-- Executions of one statement that follow each other closely, enough to be reported, none of them
prepared. -/
structure ContinuousRun (infos : List SqlInfo) (key : Text) (positions : List ℕ) : Prop where
  enough : continuousCountThreshold ≤ positions.length
  increasing : positions.Pairwise (· < ·)
  inGroup : ∀ p ∈ positions, ∃ info, infos[p]? = some info ∧ InGroup key info
  close : positions.IsChain fun p q => ∀ x y, infos[p]? = some x → infos[q]? = some y →
    y.executionTime - x.executionTime < continuityInternalThreshold

theorem ContinuousRun.first_three {infos : List SqlInfo} {key : Text} {positions : List ℕ}
    (h : ContinuousRun infos key positions) :
    ∃ p q r x z, positions.take continuousCountThreshold = [p, q, r] ∧ p < q ∧ q < r ∧
      r ∈ positions ∧ infos[p]? = some x ∧ infos[r]? = some z ∧ InGroup key x ∧
      z.executionTime - x.executionTime < 200 := by
  obtain ⟨hen, hincr, hgroup, hclose⟩ := h
  match positions, hen with
  | p :: q :: r :: rest, _ =>
    obtain ⟨hp, hq, -⟩ : (∀ t ∈ q :: r :: rest, p < t) ∧ (∀ t ∈ r :: rest, q < t) ∧ _ := by
      rwa [pairwise_cons, pairwise_cons] at hincr
    obtain ⟨x, hx, hkey⟩ := hgroup p (by simp)
    obtain ⟨y, hy, -⟩ := hgroup q (by simp)
    obtain ⟨z, hz, -⟩ := hgroup r (by simp)
    rw [isChain_cons_cons, isChain_cons_cons] at hclose
    have hxy := hclose.1 x y hx hy
    have hyz := hclose.2.1 y z hy hz
    simp only [continuityInternalThreshold] at hxy hyz
    exact ⟨p, q, r, x, z, rfl, hp q (by simp), hq r (by simp), by simp, hx, hz, hkey, by omega⟩

/-- One sampling had the statements at these positions, and they are in the group of the text. -/
def ExaminedTogether (infos : List SqlInfo) (l : Lint) (key : Text) (positions : List ℕ) : Prop :=
  ∃ smp ∈ l.samplings, ∃ first, smp.toCheckSqls = (infos.take smp.count).drop first ∧
    (∀ p ∈ positions, first ≤ p ∧ p < smp.count) ∧
    (makeGroup smp.toCheckSqls)[key]? = some (smp.toCheckSqls.filter (InGroup key))

theorem executionTime_entry (cfg : LintConfig) (info : SqlInfo) :
    (entry cfg info).executionTime = info.executionTime := by
  unfold entry preProcess
  dsimp only
  split
  · cases cfg.process (preProcessSqlString info.sql) <;> rfl
  · rfl

theorem sql_entry (cfg : LintConfig) (info : SqlInfo) :
    (entry cfg info).sql = preProcessSqlString info.sql := by
  unfold entry preProcess
  dsimp only
  split
  · cases cfg.process (preProcessSqlString info.sql) <;> rfl
  · rfl

theorem statementSql_entry_ne_nil (hplain : info.isPreparedStatement = true)
    (h : (entry cfg info).isPreparedStatement = false) : (entry cfg info).statementSql ≠ [] := by
  have hsupp : isSqlSupportCheck (preProcessSqlString info.sql) = true := by
    by_contra hnot
    have hskip : preProcess cfg info = none := by simp [preProcess, hnot]
    rw [entry, hskip] at h
    exact absurd (hplain.symm.trans h) (by decide)
  have hsql : (entry cfg info).sql ≠ [] := by
    rw [sql_entry]
    intro hnil
    rw [hnil] at hsupp
    exact absurd hsupp (by decide)
  unfold SqlInfo.statementSql
  split
  · assumption
  · exact hsql

theorem get_makeGroup_of_mem {key : Text} (hkey : key ≠ []) {toCheckSqls : List SqlInfo}
    (hmem : info ∈ toCheckSqls) (hgroup : InGroup key info) :
    (makeGroup toCheckSqls)[key]? = some (toCheckSqls.filter (InGroup key)) := by
  have hget := get_makeGroup hkey toCheckSqls
  cases hbuck : (makeGroup toCheckSqls)[key]? with
  | some group => rw [← hget, hbuck, getD_some]
  | none =>
    rw [hbuck] at hget
    have hfilt : info ∈ toCheckSqls.filter (InGroup key) :=
      mem_filter.mpr ⟨hmem, by simpa using hgroup⟩
    rw [← hget] at hfilt
    cases hfilt

/-- A sampling at a count after `r` reaches back to `p`, when the statement at `r` was executed
shortly after the one at `p` and the history still had that one. -/
theorem sampling_reaches {infos : List SqlInfo}
    (hmono : infos.Pairwise fun x y => x.executionTime ≤ y.executionTime)
    {n d p r : ℕ} (hn : n ≤ infos.length) (hpr : p ≤ r) (hrn : r < n) (hnr : n ≤ r + 30)
    (hdp : d ≤ p) (hclose : ∀ x y, infos[p]? = some x → infos[r]? = some y →
      y.executionTime - x.executionTime < 200) :
    ∃ first ≤ p, handleTheBoundary ((infos.take n).drop d) = (infos.take n).drop first := by
  obtain ⟨s, heq, hs, hreach⟩ := handleTheBoundary_eq_drop ((infos.take n).drop d)
  have hlen : ((infos.take n).drop d).length = n - d := by
    rw [length_drop, length_take_of_le hn]
  have hcnt : sqlCntToSample = 30 := rfl
  refine ⟨d + s, ?_, by rw [heq, drop_drop]⟩
  by_cases hshort : n - d ≤ 30
  · omega
  · -- from `p` on, everything before the reference is in its reach
    have hst : ((infos.take n).drop d).length - sqlCntToSample < ((infos.take n).drop d).length := by
      omega
    have hle := hreach (p - d) hst ?_
    · omega
    · intro j hj hpj hjst
      have htim : ∀ a b (ha : a < infos.length) (hb : b < infos.length), a ≤ b →
          infos[a].executionTime ≤ infos[b].executionTime := by
        intro a b ha hb hab
        rcases hab.eq_or_lt with rfl | hlt
        · exact le_rfl
        · exact pairwise_iff_getElem.mp hmono a b ha hb hlt
      have hfst := htim p (d + j) (by omega) (by omega) (by omega)
      have hlast := htim (d + (n - d - 30)) r (by omega) (by omega) (by omega)
      have hgap := hclose infos[p] infos[r] (getElem?_eq_getElem _) (getElem?_eq_getElem _)
      simp only [InReach, get_eq_getElem, getElem_drop, getElem_take, hlen, hcnt]
      omega

/-- The statements of a sequence of executions, as `Check` takes them. -/
def taken (executions : List (Text × ℤ)) : List SqlInfo :=
  executions.map fun execution => newSqlInfo execution.1 execution.2

/-- The same statements as they are added to the history. -/
def entries (cfg : LintConfig) (executions : List (Text × ℤ)) : List SqlInfo :=
  (taken executions).map (entry cfg)

/-- Two executions far apart in the sequence are far apart in time. -/
def NotFlooded (executions : List (Text × ℤ)) : Prop :=
  ∀ i j x y, executions[i]? = some x → executions[j]? = some y → i + 771 < j → 200 ≤ y.2 - x.2

theorem getElem_entries {executions : List (Text × ℤ)} {i : ℕ} :
    (entries cfg executions)[i]? = some info ↔
      ∃ x, executions[i]? = some x ∧ entry cfg (newSqlInfo x.1 x.2) = info := by
  simp [entries, taken, map_eq_some_iff]

/-- Parses the two statements of the samples below: one with a literal, and one that is prepared. -/
def sampleConfig : LintConfig where
  process := fun sql =>
    if sql = "insert into t values(1)".toList then
      some ("insert into t values(?)".toList, false)
    else
      some ([], true)
  checkUncheckedSql := fun _ => []
  checker := ⟨[], id⟩

def insertSql : Text := "insert into t values(1)".toList

def selectSql : Text := "select a from t where b=?".toList

def insertKey : Text := "insert into t values(?)".toList

/-- Three insertions, then other statements up to the thirtieth, which is not one to check. -/
def unsampledExecutions : List (Text × ℤ) :=
  List.replicate 3 (insertSql, 0) ++ List.replicate 26 (selectSql, 0) ++ [("vacuum".toList, 0)] ++
    List.replicate 60 (selectSql, 1000)

end Sampling


end Lint

end TraceHarbor.SqliteLint
