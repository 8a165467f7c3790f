import TraceHarbor.Lib.UnixPath

/-!
# The Zip-Slip Guard

An entry of an archive is skipped when `preventZipSlip` answers `true`. The test for the output
directory lacks its negation: names that leave the directory are written, and names with `..` in them
that stay are not. `canonicalPath` is lexical: it does not follow links, and does not fail.
-/

namespace TraceHarbor.Commons

open Lib List

/-- A directory as `File` has it: a path that is absolute or relative to the working directory. The
empty pathname names no directory. -/
structure Directory where
  path : Text
  nonempty : path ≠ []

def absoluteText (cwd path : Text) : Text :=
  if path.head? = some '/' then path else cwd ++ '/' :: path

def canonical (cwd path : Text) : List Text := resolve [] (components (absoluteText cwd path))

def canonicalPath (cwd path : Text) : Text := absolutePath (canonical cwd path)

/-- `File(output, name)`; slashes more or less make no difference to what a pathname resolves to. -/
def childOf (output : Directory) (name : Text) : Text := output.path ++ '/' :: name

def preventZipSlip (cwd : Text) (output : Directory) (zipEntryName : Text) : Bool :=
  decide (['.', '.'] <:+: zipEntryName) &&
    decide (canonicalPath cwd output.path ++ ['/'] <+: canonicalPath cwd (childOf output zipEntryName))

/-- The entry resolves to the output directory or a path inside it. -/
def Inside (cwd : Text) (output : Directory) (name : Text) : Prop :=
  canonical cwd output.path <+: canonical cwd (childOf output name)

instance (cwd : Text) (output : Directory) (name : Text) : Decidable (Inside cwd output name) :=
  inferInstanceAs (Decidable (_ <+: _))

section ZipSlip

variable (cwd : Text) (output : Directory) (name : Text)

theorem named_canonical (path : Text) : Named (canonical cwd path) :=
  named_resolve (fun _ h => absurd h not_mem_nil) fun _ hc => not_mem_of_mem_splitOn hc

theorem canonical_childOf :
    canonical cwd (childOf output name) =
      resolve (canonical cwd output.path) (components name) := by
  have habs : absoluteText cwd (childOf output name) =
      absoluteText cwd output.path ++ '/' :: name := by
    obtain ⟨c, path, hpath⟩ := exists_cons_of_ne_nil output.nonempty
    simp only [absoluteText, childOf, hpath, cons_append, head?_cons]
    split_ifs
    · rfl
    · rw [append_assoc, cons_append, cons_append]
  rw [canonical, habs, components, splitOn_append_cons_self, resolve_append]
  rfl

theorem inside_of_not_infix (h : ¬ ['.', '.'] <:+: name) : Inside cwd output name := by
  rw [Inside, canonical_childOf]
  exact prefix_resolve (fun hmem => h (infix_of_mem_splitOn hmem)) _

theorem preventZipSlip_eq_true_iff :
    preventZipSlip cwd output name = true ↔ ['.', '.'] <:+: name ∧
      canonical cwd output.path ≠ [] ∧ Inside cwd output name ∧
      canonical cwd (childOf output name) ≠ canonical cwd output.path := by
  rw [preventZipSlip, Bool.and_eq_true, decide_eq_true_eq, decide_eq_true_eq, canonicalPath,
    canonicalPath, absolutePath_slash_prefix_iff (named_canonical cwd _) (named_canonical cwd _)]
  refine and_congr_right fun _ => and_congr_right fun _ => ⟨?_, ?_⟩
  · rintro ⟨first, rest, heq⟩
    rw [Inside, heq]
    exact ⟨prefix_append .., by simp⟩
  · rintro ⟨⟨rest, heq⟩, hne⟩
    cases rest with
    | nil => exact absurd (by rw [← heq, append_nil]) hne
    | cons first rest => exact ⟨first, rest, heq.symm⟩

/-- **Containment**: exactly the names that stay in the output directory are written, if and only if
the name has no `..` in it, or the directory is the root, or the name resolves to the directory. -/
theorem written_iff_inside_iff :
    (preventZipSlip cwd output name = false ↔ Inside cwd output name) ↔
      ¬ ['.', '.'] <:+: name ∨ canonical cwd output.path = [] ∨
        canonical cwd (childOf output name) = canonical cwd output.path := by
  rw [← Bool.not_eq_true, preventZipSlip_eq_true_iff]
  by_cases hdots : ['.', '.'] <:+: name
  swap
  · simp [hdots, inside_of_not_infix cwd output name hdots]
  by_cases hroot : canonical cwd output.path = []
  · simp [hroot, Inside]
  by_cases hself : canonical cwd (childOf output name) = canonical cwd output.path
  · simp [hself, Inside]
  by_cases hins : Inside cwd output name <;> simp [hdots, hroot, hself, hins]

end ZipSlip

/-- The directory `/out`. -/
def out : Directory := ⟨"/out".toList, by decide⟩

/-- `../evil` leaves `/out` and is written, `a/../b` stays and is not. -/
theorem escaping_name_is_written :
    canonical "/".toList (childOf out "../evil".toList) = ["evil".toList] ∧
      preventZipSlip "/".toList out "../evil".toList = false ∧
      ¬ Inside "/".toList out "../evil".toList ∧
      preventZipSlip "/".toList out "a/../b".toList = true ∧
      Inside "/".toList out "a/../b".toList := by
  refine ⟨?_, ?_, ?_, ?_, ?_⟩ <;> decide +kernel

end TraceHarbor.Commons
