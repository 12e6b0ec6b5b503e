import CShellXv6.Lib.Decimal
import CShellXv6.Lib.Lines
import Mathlib.Data.Char
import Mathlib.Data.List.Infix
import Mathlib.Data.List.Lex
import Mathlib.Data.Prod.Lex

/-!
# The history of visits

The file in which `hop` counts the directories it has been to: one line a directory, with the count,
the sequence number of the last visit and the path. It is read as a whole, changed in memory, and
written as a whole.
-/

namespace CShellXv6

namespace Shell

namespace History

open Lines

def nul : Char := Char.ofNat 0

def longLongMin : Int := -2 ^ 63

def longLongMax : Int := 2 ^ 63 - 1

/-- The value in a `long long`. -/
def longLong (n : Int) : Int :=
  n.bmod (2 ^ 64)

def strtoll (s : List Char) : Int :=
  Decimal.read longLongMin longLongMax s

structure Visit where
  path : List Char
  count : Int
  last : Int
  deriving DecidableEq, Repr

/-- How the calls made on the history end: `true` where they succeed. `entry` are the allocations
`load_visits` makes for an entry, `append` those of `record_visit` for a new one, and `best` is the
copy `find_visit` takes of the path of an entry. -/
structure HistoryEnv where
  historyPath : Bool
  openRead : Bool
  openWrite : Bool
  entry : ℕ → Bool
  append : Bool
  best : ℕ → Bool

def HistoryEnv.succeeding : HistoryEnv where
  historyPath := true
  openRead := true
  openWrite := true
  entry _ := true
  append := true
  best _ := true

section Load

/-- What `load_visits` makes of a line: the string ends at a NUL, and a line without two tabs is
passed over. -/
def loadLine (line : List Char) : Option Visit :=
  match cut '\t' (line.takeWhile (· ≠ nul)) with
  | none => none
  | some (count, rest) =>
    match cut '\t' rest with
    | none => none
    | some (last, rest) =>
      match cut '\n' rest with
      | none => some ⟨rest, strtoll count, strtoll last⟩
      | some (path, _) => some ⟨path, strtoll count, strtoll last⟩

/-- The loop of `load_visits`, over the visits and the sequence number so far. -/
def loadLoop (env : HistoryEnv) : List (List Char) → List Visit → Int → Option (List Visit × Int)
  | [], visits, sequence => some (visits, sequence)
  | line :: lines, visits, sequence =>
    match loadLine line with
    | none => loadLoop env lines visits sequence
    | some v =>
      if env.entry visits.length = false then none
      else loadLoop env lines (visits ++ [v]) (if sequence < v.last then v.last else sequence)

/-- `load_visits`: the visits and the greatest sequence number, or `none` where an allocation fails.
There is nothing in a file that cannot be opened. -/
def loadVisits (env : HistoryEnv) (file : Option (List Char)) : Option (List Visit × Int) :=
  match if env.openRead then file else none with
  | none => some ([], 0)
  | some content => loadLoop env (lines '\n' content) [] 0

end Load

section Save

/-- What `fprintf` writes for a visit, up to the newline. -/
def visitText (v : Visit) : List Char :=
  Decimal.ofInt v.count ++ '\t' :: (Decimal.ofInt v.last ++ '\t' :: v.path)

/-- `save_visits`: the file it leaves. -/
def saveVisits (env : HistoryEnv) (visits : List Visit) (file : Option (List Char)) :
    Option (List Char) :=
  if env.openWrite then some (joinLines '\n' (visits.map visitText)) else file

end Save

/-- The loop of `record_visit`, which ends at the first entry with the path. -/
def countVisit (path : List Char) (sequence : Int) : List Visit → Option (List Visit)
  | [] => none
  | v :: vs =>
    if v.path = path then some ({ v with count := longLong (v.count + 1), last := sequence } :: vs)
    else (countVisit path sequence vs).map (v :: ·)

/-- What `record_visit` saves, with the sequence number that was loaded. -/
def addVisit (env : HistoryEnv) (path : List Char) (visits : List Visit) (sequence : Int) :
    List Visit :=
  match countVisit path (longLong (sequence + 1)) visits with
  | some visits => visits
  | none => if env.append then visits ++ [⟨path, 1, longLong (sequence + 1)⟩] else visits

/-- `record_visit`: the file it leaves. -/
def recordVisit (env : HistoryEnv) (path : List Char) (file : Option (List Char)) :
    Option (List Char) :=
  if env.historyPath = false then file
  else
    match loadVisits env file with
    | none => file
    | some (visits, sequence) => saveVisits env (addVisit env path visits sequence) file

/-- One visit after the other. -/
def recordVisits (env : HistoryEnv) (paths : List (List Char)) (file : Option (List Char)) :
    Option (List Char) :=
  paths.foldl (fun file path => recordVisit env path file) file

section Find

/-- `best`, `best_count` and `best_last`. -/
structure Best where
  path : Option (List Char)
  count : Int
  last : Int
  deriving DecidableEq, Repr

def Best.none : Best := ⟨Option.none, -1, -1⟩

/-- The rules by which a visit takes the place of the best so far. -/
def Best.better (best : Best) (v : Visit) : Bool :=
  if best.count < v.count then true
  else if v.count = best.count ∧ best.last < v.last then true
  else v.count = best.count ∧ v.last = best.last ∧ best.path.all (v.path < ·)

variable (env : HistoryEnv) (access : List Char → Bool) (name : List Char)

/-- The loop of `find_visit`, from entry `i` on. -/
def findLoop : ℕ → List Visit → Best → Best
  | _, [], best => best
  | i, v :: vs, best =>
    if access v.path = false ∨ ¬ name <:+: v.path then findLoop (i + 1) vs best
    else if best.better v then
      findLoop (i + 1) vs ⟨if env.best i then some v.path else none, v.count, v.last⟩
    else findLoop (i + 1) vs best

/-- `find_visit`; `access` says which paths exist. -/
def findVisit (file : Option (List Char)) : Option (List Char) :=
  if env.historyPath = false then none
  else
    match loadVisits env file with
    | none => none
    | some (visits, _) => (findLoop env access name 0 visits .none).path

end Find

/-- A visit that a line of the file can hold. -/
structure Storable (v : Visit) : Prop where
  newline : '\n' ∉ v.path
  nul : nul ∉ v.path
  count : longLongMin ≤ v.count ∧ v.count ≤ longLongMax
  last : longLongMin ≤ v.last ∧ v.last ≤ longLongMax

/-- The greatest sequence number, or 0. -/
def sequenceOf (visits : List Visit) : Int :=
  visits.foldl (fun sequence v => max sequence v.last) 0

/-- `find_visit` may return the entry. -/
def Candidate (access : List Char → Bool) (name : List Char) (v : Visit) : Prop :=
  access v.path = true ∧ name <:+: v.path

instance (access : List Char → Bool) (name : List Char) :
    DecidablePred (Candidate access name) :=
  fun _ => inferInstanceAs (Decidable (_ ∧ _))

/-- What orders the visits: the count, then the sequence number, then the path, the least one being
the greatest. -/
def Visit.rank (v : Visit) : Int ×ₗ Int ×ₗ (List Char)ᵒᵈ :=
  toLex (v.count, toLex (v.last, OrderDual.toDual v.path))

/-- The history says how often and how lately each of the paths was visited, in the order of their
first visits. -/
structure Frecency (paths : List (List Char)) (visits : List Visit) : Prop where
  mem : ∀ path, path ∈ visits.map Visit.path ↔ path ∈ paths
  order : (visits.map Visit.path).Pairwise fun p q => paths.idxOf p < paths.idxOf q
  count : ∀ v ∈ visits, v.count = paths.count v.path
  last : ∀ v ∈ visits, ∃ before behind, paths = before ++ v.path :: behind ∧ v.path ∉ behind
    ∧ v.last = before.length + 1

end History

end Shell

end CShellXv6
