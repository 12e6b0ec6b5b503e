import CShellXv6.Lib.Runs
import CShellXv6.Shell.History

/-!
# Two processes with one history

Two shells, or a shell and the child it runs `hop` in, have the same history file. A process goes
through its calls of `record_visit` one after the other, and in each of them a load of the file
comes before the save; each of the two is one step.
-/

namespace CShellXv6

namespace Shell

namespace History

/-- A process: the visits it has still to record, and what it has loaded for the first of them. -/
structure Recorder where
  todo : List (List Char)
  loaded : Option (List Visit × Int)
  deriving DecidableEq, Repr

def Recorder.done : Recorder := ⟨[], none⟩

structure Shared where
  file : Option (List Char)
  recorders : Bool → Recorder

inductive Access where
  | load (i : Bool)
  | save (i : Bool)
  deriving DecidableEq, Repr

namespace Shared

variable (s : Shared)

def set (i : Bool) (r : Recorder) : Bool → Recorder :=
  Function.update s.recorders i r

/-- The visits no process has recorded yet. -/
def todo : List (List Char) :=
  (s.recorders false).todo ++ (s.recorders true).todo

def load (i : Bool) : Shared :=
  { s with
    recorders := s.set i { s.recorders i with loaded := loadVisits .succeeding s.file } }

/-- The rest of `record_visit`. -/
def save (i : Bool) : Shared :=
  match s.recorders i with
  | ⟨path :: todo, some (visits, sequence)⟩ =>
    ⟨saveVisits .succeeding (addVisit .succeeding path visits sequence) s.file,
      s.set i ⟨todo, none⟩⟩
  | _ => s

end Shared

namespace Access

def can (a : Access) (s : Shared) : Prop :=
  match a with
  | load i => (s.recorders i).todo ≠ [] ∧ (s.recorders i).loaded = none
  | save i => (s.recorders i).todo ≠ [] ∧ (s.recorders i).loaded ≠ none

instance : ∀ (a : Access) (s : Shared), Decidable (a.can s)
  | load _, _ | save _, _ => inferInstanceAs (Decidable (_ ∧ _))

def next (a : Access) (s : Shared) : Shared :=
  match a with
  | load i => s.load i
  | save i => s.save i

/-- A process loads the file only where the other one is not between a load and its save. -/
def serial (a : Access) (s : Shared) : Prop :=
  match a with
  | load i => (s.recorders (!i)).loaded = none
  | save _ => True

instance : ∀ (a : Access) (s : Shared), Decidable (a.serial s)
  | load _, _ => inferInstanceAs (Decidable (_ = _))
  | save _, _ => inferInstanceAs (Decidable True)

end Access

/-- The visits a file holds. -/
def visitsIn (file : Option (List Char)) : List Visit :=
  ((loadVisits .succeeding file).map Prod.fst).getD []

/-- The count of a path, which is that of its first entry. -/
def countOf (visits : List Visit) (path : List Char) : Int :=
  ((visits.find? (·.path = path)).map Visit.count).getD 0

/-- Every visit made is counted, and no entry is lost. -/
structure Recorded (made : List (List Char)) (before after : List Visit) : Prop where
  count : ∀ path ∈ made, countOf after path = countOf before path + made.count path
  kept : ∀ v ∈ before, ∃ u ∈ after, u.path = v.path

end History

def sharedHistory : System History.Access History.Shared where
  can := History.Access.can
  next := History.Access.next

instance (a : History.Access) (s : History.Shared) : Decidable (sharedHistory.can a s) :=
  inferInstanceAs (Decidable (a.can s))

end Shell

end CShellXv6
