import Mathlib.Data.List.Basic
import Mathlib.Logic.Function.Basic

/-!
# Directory trees

A directory tree that does not change, as a process sees it: every directory has one canonical path,
and a path leads from a directory to another one, or to none. A canonical path is absolute, so that
it leads to its directory from everywhere or, where one may not search what is above, from nowhere.
-/

namespace CShellXv6

structure DirTree (δ : Type*) where
  path : δ → List Char
  chdir : δ → List Char → Option δ
  path_injective : Function.Injective path
  chdir_path : ∀ e, (∀ d, chdir d (path e) = some e) ∨ ∀ d, chdir d (path e) = none

namespace DirTree

variable {δ : Type*} (T : DirTree δ) {c d e : δ}

/-- The directory can be entered by its canonical path. -/
def Enterable (d : δ) : Prop :=
  ∀ c, T.chdir c (T.path d) = some d

/-- From a directory that can be entered by its canonical path, all that can be reached can be. -/
def Searchable : Prop :=
  ∀ d p e, T.chdir d p = some e → T.Enterable d → T.Enterable e

theorem eq_of_chdir_path (h : T.chdir c (T.path e) = some d) : d = e ∧ T.Enterable e := by
  rcases T.chdir_path e with hall | hnone
  · rw [hall c] at h
    exact ⟨(Option.some.inj h).symm, hall⟩
  · rw [hnone c] at h
    exact absurd h (by simp)

end DirTree

end CShellXv6
