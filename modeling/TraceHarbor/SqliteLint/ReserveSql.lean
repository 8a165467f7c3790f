import TraceHarbor.Lib.ExpiringMarks
import TraceHarbor.SqliteLint.Lint

/-!
# The Linter's Own Queries

`LintEnv::GetQuery` marks a statement before it executes it, so that `NotifySqlExecution` knows the
statement for one of the linter's own. `MarkReserve` inserts into a map, which leaves a mark that is
there as it is: a query that is repeated runs under the time of its first mark.
-/

namespace TraceHarbor.SqliteLint

open Lib Lib.Marks LintEnv

namespace ReserveSqlManager

/-! ## A linter with its clock -/

/-- A linter, the time, and the latest mark of every statement. -/
structure Timeline where
  lint : Lint
  clock : ℤ
  latest : Text → Option ℤ

inductive Call where
  | getQuery (sql : Text)
  | notifySqlExecution (sql : Option Text)

namespace Timeline

def init (start : ℤ) : Timeline := ⟨.init, start, fun _ => none⟩

/-- A call, some time after the one before. -/
def step (s : Timeline) : ℕ × Call → Timeline
  | (elapsed, .getQuery sql) =>
    let now := s.clock + elapsed
    ⟨{ s.lint with env := s.lint.env.markReserve sql now }, now,
      Function.update s.latest sql (some now)⟩
  | (elapsed, .notifySqlExecution sql) =>
    let now := s.clock + elapsed
    ⟨s.lint.notifySqlExecution sql now, now, s.latest⟩

def entry (s : Timeline) (sql : Text) : Option ℤ := s.lint.env.reserveSqlMap[sql]?

/-- From now on `IsReserve` says whether the latest mark is young enough, and a statement whose
mark is is not queued. -/
def Recognises (s : Timeline) : Prop :=
  ∀ sql t, s.clock ≤ t →
    ((s.lint.env.isReserveSql sql t).1 = true ↔
      Valid markReserveIntervalThreshold t (s.latest sql)) ∧
    (Valid markReserveIntervalThreshold t (s.latest sql) →
      (s.lint.notifySqlExecution (some sql) t).queue = s.lint.queue)

/-- A statement is marked only if it has no mark, or one of this very time. -/
def FreshMark (s : Timeline) : ℕ × Call → Prop
  | (elapsed, .getQuery sql) => ∀ mark ∈ s.entry sql, mark = s.clock + elapsed
  | (_, .notifySqlExecution _) => True

def Tracks (s : Timeline) : Prop :=
  ∀ sql, Follows markReserveIntervalThreshold s.clock (s.entry sql) (s.latest sql)

end Timeline

/-! ## The calls -/

theorem isReserveSql_iff (env : LintEnv) (sql : Text) (t : ℤ) :
    (env.isReserveSql sql t).1 = true ↔
      Valid markReserveIntervalThreshold t env.reserveSqlMap[sql]? := by
  unfold isReserveSql
  cases env.reserveSqlMap[sql]? with
  | none => simp
  | some mark =>
    simp only [valid_some]
    split <;> simp <;> omega

theorem get_isReserveSql (env : LintEnv) (sql : Text) (t : ℤ) (a : Text) :
    (env.isReserveSql sql t).2.reserveSqlMap[a]? = env.reserveSqlMap[a]? ∨
      ¬ Valid markReserveIntervalThreshold t env.reserveSqlMap[a]? ∧
        (env.isReserveSql sql t).2.reserveSqlMap[a]? = none := by
  unfold isReserveSql
  cases hmark : env.reserveSqlMap[sql]? with
  | none => exact .inl rfl
  | some mark =>
    simp only
    split
    · rw [OrdMap.get_erase]
      split
      · subst a
        exact .inr ⟨by rw [hmark, valid_some]; omega, rfl⟩
      · exact .inl rfl
    · exact .inl rfl

theorem env_notifySqlExecution (l : Lint) (sql : Text) (t : ℤ) :
    (l.notifySqlExecution (some sql) t).env = (l.env.isReserveSql sql t).2 := by
  simp only [Lint.notifySqlExecution]
  split <;> rfl

theorem get_markReserve (env : LintEnv) (sql : Text) (now : ℤ) (a : Text) :
    (env.markReserve sql now).reserveSqlMap[a]? =
      if a = sql then some (env.reserveSqlMap[sql]?.getD now) else env.reserveSqlMap[a]? := by
  unfold markReserve
  cases hmark : env.reserveSqlMap[sql]? with
  | none => exact OrdMap.get_insert ..
  | some mark =>
    by_cases ha : a = sql
    · rw [if_pos ha, ha]
      exact hmark
    · exact (if_neg ha).symm

namespace Timeline

variable {s : Timeline}

theorem Tracks.recognises (h : s.Tracks) : s.Recognises := by
  intro sql t ht
  have hright := (isReserveSql_iff s.lint.env sql t).trans ((h sql).right t ht)
  refine ⟨hright, fun hvalid => ?_⟩
  simp only [Lint.notifySqlExecution, if_pos (hright.mpr hvalid)]

theorem Tracks.step (h : s.Tracks) {call : ℕ × Call} (hfresh : s.FreshMark call) :
    (s.step call).Tracks := by
  intro a
  have hlater : Follows markReserveIntervalThreshold (s.clock + call.1) (s.entry a) (s.latest a) :=
    (h a).later (by omega)
  match call with
  | (elapsed, .getQuery sql) =>
    simp only [Timeline.step, entry, get_markReserve, Function.update_apply]
    split
    · cases hmark : s.lint.env.reserveSqlMap[sql]? with
      | none => exact follows_mark
      | some mark =>
        obtain rfl := hfresh mark hmark
        exact follows_mark
    · exact hlater
  | (elapsed, .notifySqlExecution none) => exact hlater
  | (elapsed, .notifySqlExecution (some sql)) =>
    simp only [Timeline.step, entry, env_notifySqlExecution]
    obtain heq | ⟨hold, heq⟩ := get_isReserveSql s.lint.env sql (s.clock + elapsed) a
    · rw [heq]
      exact hlater
    · rw [heq]
      exact hlater.look hold

theorem Tracks.not_recognises (h : s.Tracks) {call : ℕ × Call} (hfresh : ¬ s.FreshMark call) :
    ¬ (s.step call).Recognises := by
  match call with
  | (elapsed, .notifySqlExecution _) => exact absurd trivial hfresh
  | (elapsed, .getQuery sql) =>
    simp only [FreshMark, not_forall] at hfresh
    obtain ⟨mark, hmark, hne⟩ := hfresh
    have hle : mark ≤ s.clock := (h sql).1 mark <| by
      obtain heq | ⟨heq, -⟩ := (h sql).2
      · exact heq ▸ hmark
      · rw [heq] at hmark
        exact nomatch hmark
    intro hrec
    refine @not_right_of_older markReserveIntervalThreshold (s.clock + elapsed) mark (by decide)
      (by omega) fun t ht => ?_
    have h := (isReserveSql_iff _ sql t).symm.trans (hrec sql t ht).1
    simp only [Timeline.step, get_markReserve, Function.update_self, if_true] at h
    rwa [show s.lint.env.reserveSqlMap[sql]? = some mark from hmark] at h

/-- **The linter's own queries** are recognised, and not queued, in exactly the runs in which a
statement is never marked under an older mark. -/
theorem recognises_iff_freshMark (start : ℤ) (calls : List (ℕ × Call)) :
    Always step Recognises (init start) calls ↔ Meets step FreshMark (init start) calls :=
  always_iff_meets (fun _ _ h => h.step) (fun _ => Tracks.recognises)
    (fun _ _ h => h.not_recognises)
    (fun sql => by rw [entry]; exact follows_none) calls

/-- A query is repeated after 600 ms; 500 ms later the linter takes it for one of the
application's. -/
theorem repeated_query_not_recognised :
    ¬ Always step Recognises (init 0) [(0, .getQuery ['q']), (600, .getQuery ['q'])] := by
  intro h
  have hmarked := (h.2.2 ['q'] 1100 (by decide)).1.mpr ⟨600, rfl, by decide⟩
  exact absurd hmarked (by decide +kernel)

end Timeline

end ReserveSqlManager

end TraceHarbor.SqliteLint
