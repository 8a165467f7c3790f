import TraceHarbor.Lib.ExpiringMarks
import TraceHarbor.Lib.OrdMap
import TraceHarbor.Lib.Run
import TraceHarbor.Lib.Text

/-!
# Publishers that Remember across Restarts

`FilePublisher` keeps the keys that were reported, with their times, in a map and in the saved
preferences; a new publisher starts from the preferences. A key is not marked again while the map
has it, also when its mark is too old, and a mark that is not of a positive time does not count.
-/

namespace TraceHarbor.Report

open Lib Lib.Marks

/-- The map of a publisher, and the preferences, with all writes completed. -/
structure FilePublisher where
  expiredTime : ℤ
  publishedMap : OrdMap Text ℤ
  preferences : OrdMap Text ℤ

namespace FilePublisher

/-- The test of `init` and of `isPublished`. -/
def expired (expiredTime now start : ℤ) : Bool := start ≤ 0 ∨ now - start > expiredTime

/-- The `init` block: what is expired is removed from the preferences, the rest is loaded. -/
def load (expire : ℤ) (preferences : OrdMap Text ℤ) (now : ℤ) : FilePublisher :=
  let kept := preferences.filter fun _ start => !expired expire now start
  ⟨expire, kept, kept⟩

def markPublished (p : FilePublisher) (key : Option Text) (persist : Bool) (now : ℤ) :
    FilePublisher :=
  match key with
  | none => p
  | some key =>
    match p.publishedMap[key]? with
    | some _ => p
    | none =>
      { p with
        publishedMap := p.publishedMap.insert key now
        preferences := if persist then p.preferences.insert key now else p.preferences }

def remove (p : FilePublisher) (key : Text) : FilePublisher :=
  { p with publishedMap := p.publishedMap.erase key, preferences := p.preferences.erase key }

def unMarkPublished (p : FilePublisher) (key : Option Text) : FilePublisher :=
  match key with
  | none => p
  | some key =>
    match p.publishedMap[key]? with
    | none => p
    | some _ => p.remove key

def isPublished (p : FilePublisher) (key : Option Text) (now : ℤ) : Bool × FilePublisher :=
  match key with
  | none => (false, p)
  | some key =>
    match p.publishedMap[key]? with
    | none => (false, p)
    | some start => if expired p.expiredTime now start then (false, p.remove key) else (true, p)

/-! ## A history of calls -/

/-- A publisher, the time, and the latest mark of every key that was not taken back. -/
structure History where
  publisher : FilePublisher
  clock : ℤ
  latest : Text → Option ℤ

inductive Call where
  | markPublished (key : Option Text)
  | unMarkPublished (key : Option Text)
  | isPublished (key : Option Text)
  | restart

namespace History

def init (expire start : ℤ) : History := ⟨load expire ∅ start, start, fun _ => none⟩

def note (s : History) (key : Option Text) (mark : Option ℤ) : Text → Option ℤ :=
  key.elim s.latest fun key => Function.update s.latest key mark

/-- A call, some time after the one before. -/
def step (s : History) (call : ℕ × Call) : History :=
  let now := s.clock + call.1
  match call.2 with
  | .markPublished key => ⟨s.publisher.markPublished key true now, now, s.note key (some now)⟩
  | .unMarkPublished key => ⟨s.publisher.unMarkPublished key, now, s.note key none⟩
  | .isPublished key => ⟨(s.publisher.isPublished key now).2, now, s.latest⟩
  | .restart => ⟨load s.publisher.expiredTime s.publisher.preferences now, now, s.latest⟩

/-- From now on a key is published if its latest mark was not taken back and is young enough, and
only then. -/
def Remembers (s : History) : Prop :=
  ∀ key t, s.clock ≤ t →
    ((s.publisher.isPublished (some key) t).1 = true ↔
      Valid s.publisher.expiredTime t (s.latest key))

/-- A key is marked at a positive time, when the map does not have it or has this very time. -/
def FreshMark (s : History) (call : ℕ × Call) : Prop :=
  ∀ key, call.2 = .markPublished (some key) →
    0 < s.clock + call.1 ∧ ∀ start ∈ s.publisher.publishedMap[key]?, start = s.clock + call.1

/-- What the map has of a key. -/
structure Keeps (expire now : ℤ) (entry latest : Option ℤ) : Prop where
  follows : Follows expire now entry latest
  pos : ∀ start ∈ entry, 0 < start

structure Tracks (s : History) : Prop where
  saved : s.publisher.preferences = s.publisher.publishedMap
  keeps : ∀ key, Keeps s.publisher.expiredTime s.clock s.publisher.publishedMap[key]? (s.latest key)

theorem Tracks.remembers {s : History} (h : s.Tracks) : s.Remembers := by
  intro key t ht
  refine Iff.trans ?_ ((h.keeps key).follows.right t ht)
  have hpos := (h.keeps key).pos
  rw [isPublished]
  cases hentry : s.publisher.publishedMap[key]? with
  | none => simp
  | some start =>
    have hstart : 0 < start := hpos start hentry
    simp only [valid_some, expired, decide_eq_true_eq]
    split <;> simp <;> omega

variable {expire now : ℤ} {entry latest : Option ℤ}

theorem Keeps.later {t : ℤ} (h : Keeps expire now entry latest) (hle : now ≤ t) :
    Keeps expire t entry latest :=
  ⟨h.follows.later hle, h.pos⟩

/-- Removing an entry that is expired. -/
theorem Keeps.look (h : Keeps expire now entry latest) :
    Keeps expire now (entry.filter fun start => !expired expire now start) latest := by
  cases entry with
  | none => exact h
  | some start =>
    rw [Option.filter_some]
    split
    · exact h
    · have hpos : 0 < start := h.pos start rfl
      refine ⟨h.follows.look ?_, by simp⟩
      rw [valid_some]
      simp_all [expired]

/-- A call that marks a key or takes its mark back. -/
theorem tracks_update {map map' : OrdMap Text ℤ} {marks : Text → Option ℤ} {k : Text}
    {mark : Option ℤ} (hmarks : ∀ a, Keeps expire now map[a]? (marks a))
    (hkey : Keeps expire now entry mark)
    (hmap : ∀ a, map'[a]? = if a = k then entry else map[a]?) :
    Tracks ⟨⟨expire, map', map'⟩, now, Function.update marks k mark⟩ := by
  refine ⟨rfl, fun a => ?_⟩
  simp only [hmap, Function.update_apply]
  split
  · exact hkey
  · exact hmarks a

theorem Tracks.step {s : History} (h : s.Tracks) {call : ℕ × Call} (hfresh : s.FreshMark call) :
    (s.step call).Tracks := by
  obtain ⟨⟨expire, map, preferences⟩, clock, latest⟩ := s
  obtain ⟨elapsed, call⟩ := call
  obtain rfl : preferences = map := h.saved
  have hlater : ∀ a, Keeps expire (clock + elapsed) preferences[a]? (latest a) :=
    fun a => (h.keeps a).later (by simp)
  match call with
  | .markPublished none | .unMarkPublished none | .isPublished none => exact ⟨rfl, hlater⟩
  | .restart =>
    refine ⟨rfl, fun a => ?_⟩
    simpa [History.step, load] using (hlater a).look
  | .markPublished (some key) =>
    obtain ⟨hpos, hsame⟩ := hfresh key rfl
    have hmark : Keeps expire (clock + elapsed) (some (clock + elapsed)) (some (clock + elapsed)) :=
      ⟨follows_mark, by simpa using hpos⟩
    simp only [History.step, markPublished, note, if_true, Option.elim_some]
    cases hentry : preferences[key]? with
    | none => exact tracks_update hlater hmark fun a => OrdMap.get_insert ..
    | some start =>
      obtain rfl := hsame start hentry
      exact tracks_update hlater hmark fun a => by split <;> simp_all
  | .unMarkPublished (some key) =>
    have hgone : Keeps expire (clock + elapsed) none none := ⟨follows_none, by simp⟩
    simp only [History.step, unMarkPublished, note, Option.elim_some]
    cases hentry : preferences[key]? with
    | none => exact tracks_update hlater hgone fun a => by split <;> simp_all
    | some start => exact tracks_update hlater hgone fun a => OrdMap.get_erase ..
  | .isPublished (some key) =>
    have hlook := (hlater key).look
    simp only [History.step, isPublished]
    cases hentry : preferences[key]? with
    | none => exact ⟨rfl, hlater⟩
    | some start =>
      rw [hentry, Option.filter_some] at hlook
      dsimp only
      split
      next hexp =>
        rw [hexp] at hlook
        have htrks := tracks_update (k := key) hlater hlook fun a => OrdMap.get_erase ..
        rwa [Function.update_eq_self] at htrks
      · exact ⟨rfl, hlater⟩

/-- **Published marks**: a publisher remembers its marks over restarts, in every history in which a
key is marked at a positive time and not under an older mark. -/
theorem remembers_of_freshMark (expire start : ℤ) (calls : List (ℕ × Call))
    (hfresh : Meets step FreshMark (init expire start) calls) :
    Always step Remembers (init expire start) calls := by
  have hinit : (init expire start).Tracks :=
    ⟨rfl, fun key => ⟨by simpa [init, load] using follows_none, by simp [init, load]⟩⟩
  exact Always.of_invariant (fun _ _ h => Tracks.step h) (fun _ => Tracks.remembers) hinit hfresh

theorem remembers_over_restart :
    Always step Remembers (init 10 1) [(0, .markPublished (some ['k'])), (5, .restart)] :=
  remembers_of_freshMark 10 1 _ (by simp [Meets, FreshMark, init, load])

/-- A key is marked again when its mark is too old, and is not published right after it. -/
theorem second_mark_is_lost : ¬ Always step Remembers (init 10 1)
    [(0, .markPublished (some ['k'])), (20, .markPublished (some ['k']))] := by
  intro h
  have hmarked := (h.2.2 ['k'] 21 (by decide)).mpr ⟨21, rfl, by decide⟩
  exact absurd hmarked (by decide +kernel)

end History
end FilePublisher
end TraceHarbor.Report
