import TraceHarbor.Lib.Text

/-!
# Lexical Normalisation of Unix Paths

A path is a text; its components are what stands between slashes. A directory is the list of names on
the way to it from the root. `resolve` walks from a directory along components: an empty one and `.`
stay, `..` goes up, and stays at the root.
-/

namespace TraceHarbor.Lib

open List

/-! ## Walking along components -/

/-- What stands between the slashes. -/
def components (path : Text) : List Text := path.splitOn '/'

/-- One component further. -/
def enter (dir : List Text) (component : Text) : List Text :=
  if component = [] ∨ component = ['.'] then dir
  else if component = ['.', '.'] then dir.dropLast
  else dir ++ [component]

def resolve (dir : List Text) (path : List Text) : List Text := path.foldl enter dir

/-- The names of a directory are proper file names. -/
def Named (dir : List Text) : Prop := ∀ name ∈ dir, name ≠ [] ∧ '/' ∉ name

theorem resolve_append (dir path path' : List Text) :
    resolve dir (path ++ path') = resolve (resolve dir path) path' :=
  foldl_append

theorem Named.enter {dir : List Text} (h : Named dir) {component : Text} (hc : '/' ∉ component) :
    Named (enter dir component) := by
  rw [Lib.enter]
  split_ifs with hstay hup
  · exact h
  · exact fun name hname => h name (dropLast_subset dir hname)
  · intro name hname
    rcases mem_append.mp hname with hname | hname
    · exact h name hname
    · rw [mem_singleton.mp hname]
      exact ⟨fun hnil => hstay (.inl hnil), hc⟩

theorem named_resolve {dir : List Text} (h : Named dir) {path : List Text}
    (hpath : ∀ c ∈ path, '/' ∉ c) : Named (resolve dir path) := by
  induction path generalizing dir with
  | nil => exact h
  | cons c path ih =>
    exact ih (h.enter (hpath c mem_cons_self)) fun c' hc' => hpath c' (mem_cons_of_mem c hc')

/-- A walk that does not go up stays in or below its start. -/
theorem prefix_resolve {path : List Text} (h : ['.', '.'] ∉ path) (dir : List Text) :
    dir <+: resolve dir path := by
  induction path generalizing dir with
  | nil => exact prefix_refl dir
  | cons c path ih =>
    obtain ⟨hc, hpath⟩ : ['.', '.'] ≠ c ∧ ['.', '.'] ∉ path := by simpa using h
    have hdown : dir <+: enter dir c := by
      rw [enter]
      split_ifs with hstay hup
      · exact prefix_refl dir
      · exact absurd hup.symm hc
      · exact prefix_append ..
    exact hdown.trans (ih hpath _)

/-! ## Absolute paths -/

/-- The text of an absolute path. -/
def absolutePath (dir : List Text) : Text :=
  if dir = [] then ['/'] else dir.flatMap ('/' :: ·)

theorem eq_of_append_slash_prefix {a b r r' : Text} (ha : '/' ∉ a) (hb : '/' ∉ b)
    (hr' : r' = [] ∨ ∃ t, r' = '/' :: t) (h : a ++ '/' :: r <+: b ++ r') :
    a = b ∧ '/' :: r <+: r' := by
  induction a generalizing b with
  | nil =>
    cases b with
    | nil => exact ⟨rfl, h⟩
    | cons c b =>
      have hc : '/' = c := (cons_prefix_cons.mp h).1
      exact absurd (hc ▸ mem_cons_self) hb
  | cons c a ih =>
    cases b with
    | nil =>
      rcases hr' with rfl | ⟨t, rfl⟩
      · exact absurd (prefix_nil.mp h) (by simp)
      · have hc : c = '/' := (cons_prefix_cons.mp h).1
        exact absurd (hc ▸ mem_cons_self) ha
    | cons c' b =>
      obtain ⟨hc, hrest⟩ := cons_prefix_cons.mp h
      obtain ⟨heq, hpref⟩ := ih (fun h => ha (mem_cons_of_mem _ h))
        (fun h => hb (mem_cons_of_mem _ h)) hrest
      exact ⟨by rw [hc, heq], hpref⟩

theorem flatMap_slash_prefix_iff {dir dir' : List Text} (h : Named dir) (h' : Named dir') :
    dir.flatMap ('/' :: ·) ++ ['/'] <+: dir'.flatMap ('/' :: ·) ↔
      ∃ name rest, dir' = dir ++ name :: rest := by
  induction dir generalizing dir' with
  | nil =>
    cases dir' with
    | nil => simp
    | cons name rest => simp
  | cons a dir ih =>
    cases dir' with
    | nil => simp
    | cons b dir' =>
      obtain ⟨r, hr⟩ : ∃ r, dir.flatMap ('/' :: ·) ++ ['/'] = '/' :: r := by
        cases dir <;> exact ⟨_, rfl⟩
      have hdir' : dir'.flatMap ('/' :: ·) = [] ∨ ∃ t, dir'.flatMap ('/' :: ·) = '/' :: t := by
        cases dir' with
        | nil => exact .inl rfl
        | cons c dir' => exact .inr ⟨_, rfl⟩
      have hrest := ih (fun n hn => h n (mem_cons_of_mem a hn))
        (fun n hn => h' n (mem_cons_of_mem b hn))
      rw [flatMap_cons, flatMap_cons, append_assoc, hr, cons_append,
        cons_append, cons_prefix_cons]
      rw [hr] at hrest
      constructor
      · rintro ⟨-, hpref⟩
        obtain ⟨rfl, hbel⟩ := eq_of_append_slash_prefix (h a mem_cons_self).2
          (h' b mem_cons_self).2 hdir' hpref
        obtain ⟨name, rest, rfl⟩ := hrest.mp hbel
        exact ⟨name, rest, rfl⟩
      · rintro ⟨name, rest, heq⟩
        obtain ⟨rfl, rfl⟩ := cons.inj heq
        exact ⟨rfl, (prefix_append_right_inj b).mpr (hrest.mpr ⟨name, rest, rfl⟩)⟩

/-- **The text of a directory and a slash** begin the text of a path exactly if the path is below the
directory, unless the directory is the root. -/
theorem absolutePath_slash_prefix_iff {dir dir' : List Text} (h : Named dir) (h' : Named dir') :
    absolutePath dir ++ ['/'] <+: absolutePath dir' ↔
      dir ≠ [] ∧ ∃ name rest, dir' = dir ++ name :: rest := by
  by_cases hdir : dir = []
  · -- no path begins with two slashes
    subst hdir
    simp only [ne_eq, not_true_eq_false, false_and, iff_false]
    intro hpref
    cases dir' with
    | nil => simp [absolutePath] at hpref
    | cons b dir' =>
      obtain ⟨hne, hslash⟩ := h' b mem_cons_self
      obtain ⟨c, b, rfl⟩ := exists_cons_of_ne_nil hne
      have hc : '/' = c := by
        simpa [absolutePath] using hpref
      exact hslash (hc ▸ mem_cons_self)
  · have hcons : absolutePath dir = dir.flatMap ('/' :: ·) := if_neg hdir
    rw [hcons]
    by_cases hdir' : dir' = []
    · subst hdir'
      obtain ⟨a, dir, rfl⟩ := exists_cons_of_ne_nil hdir
      simp [absolutePath]
    · rw [absolutePath, if_neg hdir', flatMap_slash_prefix_iff h h']
      exact ⟨fun hex => ⟨hdir, hex⟩, fun hex => hex.2⟩

end TraceHarbor.Lib
