import CShellXv6.Shell.History
import CShellXv6.Shell.Input
import CShellXv6.Shell.Jobs
import Mathlib.Data.List.Sort

/-!
# The processes of the jobs

`activities` lists, for every live job, the processes of its group. It reads them from `/proc`: the
names of its directory that start with a digit are process ids, and the file `stat` of a process
has its name in parentheses, its state, its parent and its group. Nothing in `/proc` changes while
the command runs.
-/

namespace CShellXv6

namespace Shell

namespace Activities

open History (nul)

/-- What the calls on `/proc` give: the names that `readdir` returns, and the text of a file. The
buffer that the file of a process is read into is not cleared before: `stale` is what it holds
behind the line and its NUL. -/
structure Host where
  opendir : Option (List (List Char))
  fopen : List Char → Option (List Char)
  stale : Int32 → List Char

section Reading

/-- Where the character is first. -/
def strchr (c : Char) : List Char → Option ℕ
  | [] => none
  | d :: s => if d = c then some 0 else (strchr c s).map (· + 1)

/-- Where the character is last. -/
def strrchr (c : Char) : List Char → Option ℕ
  | [] => none
  | d :: s =>
    match strrchr c s with
    | some i => some (i + 1)
    | none => if d = c then some 0 else none

/-- `%d` of `sscanf`, behind blanks: a `long` as `strtol` reads it, cut to an `int`. -/
def scanInt (s : List Char) : Option (Int32 × List Char) :=
  (Decimal.scan s).map fun (n, rest) =>
    (Int32.ofInt (max History.longLongMin (min n History.longLongMax)), rest)

/-- `sscanf` with `"%c %d %d"`, where it returns 3. -/
def scanStat : List Char → Option (Char × Int32 × Int32)
  | [] => none
  | state :: s => do
    let (ppid, s) ← scanInt s
    let (pgrp, _) ← scanInt s
    return (state, ppid, pgrp)

def statPath (pid : Int32) : List Char :=
  "/proc/".toList ++ Decimal.ofInt pid.toInt ++ "/stat".toList

/-- `readstat`: the name, the state and the group, where it returns 0. -/
def readstat (host : Host) (pid : Int32) (size : ℕ) : Option (List Char × Char × Int32) := do
  let file ← host.fopen (statPath pid)
  let (line, _) ← fgets 512 file
  let buffer := cString line
  let start ← strchr '(' buffer
  let stop ← strrchr ')' buffer
  if stop ≤ start then none
  else
    let len := stop - start - 1
    let len := if size ≤ len then size - 1 else len
    let name := (buffer.drop (start + 1)).take len
    -- two behind the parenthesis may be behind the NUL
    let (state, _, pgrp) ← scanStat (cString ((line ++ nul :: host.stale pid).drop (stop + 2)))
    return (name, state, pgrp)

end Reading

section Listing

structure Member where
  pid : Int32
  name : List Char
  state : Char
  deriving DecidableEq

def comp (a b : Member) : Int :=
  if a.pid.toInt < b.pid.toInt then -1 else if b.pid.toInt < a.pid.toInt then 1 else 0

/-- `qsort` with `comp`; the processes have different ids, so that there is one order they can be
put in. -/
def sortMembers (mems : List Member) : List Member :=
  mems.insertionSort fun a b => comp a b ≤ 0

def startsDigit (name : List Char) : Bool :=
  name.head?.any Char.isDigit

variable (host : Host)

/-- The loop of `collectgrp` over the names that are left, with the members so far. -/
def collectLoop (grp : Int32) (most : ℕ) (self : List Char) :
    List (List Char) → List Member → List Member
  | [], mems => mems
  | entry :: entries, mems =>
    if most ≤ mems.length then mems
    else if startsDigit entry = false then collectLoop grp most self entries mems
    else
      let pid := Int32.ofInt (History.strtoll entry)
      match readstat host pid 64 with
      | none => collectLoop grp most self entries mems
      | some (name, state, pgrp) =>
        if pgrp ≠ grp ∨ state = 'Z' ∨ (pid = grp ∧ name = self) then
          collectLoop grp most self entries mems
        else collectLoop grp most self entries (mems ++ [⟨pid, name, state⟩])

def collectgrp (grp : Int32) (most : ℕ) (self : List Char) : List Member :=
  match host.opendir with
  | none => []
  | some entries => sortMembers (collectLoop host grp most self entries [])

def statename (state : Char) : List Char :=
  if state = 'T' ∨ state = 't' then "Stopped".toList else "Running".toList

/-- What is printed for one job. -/
structure Report where
  number : ℕ
  pgid : Int32
  members : List Member
  deriving DecidableEq

def Member.text (m : Member) : List Char :=
  "  ".toList ++ Decimal.ofInt m.pid.toInt ++ ' ' :: m.name ++ ' ' :: statename m.state ++ ['\n']

def Report.text (r : Report) : List Char :=
  '[' :: Decimal.ofInt r.number ++ "] pgid ".toList ++ Decimal.ofInt r.pgid.toInt ++ ['\n']
    ++ r.members.flatMap Member.text

/-- One round of the loop of `runactivity`, for the job at an index. -/
def reportJob (self : List Char) (job : Jobs.Job) (index : ℕ) : Option Report :=
  let pgid := Int32.ofNat job.pid
  if job.live = false then none
  else
    match collectgrp host pgid 128 self with
    | [] => none
    | mems => some ⟨index + 1, pgid, mems⟩

/-- The name of the shell itself, empty if it is not read. -/
def selfName (shell : Int32) : List Char :=
  match readstat host shell 64 with
  | none => []
  | some (name, _, _) => name

def reports (shell : Int32) (jobs : List Jobs.Job) : List Report :=
  jobs.zipIdx.filterMap fun (job, index) => reportJob host (selfName host shell) job index

structure Result where
  value : ℕ
  out : List Char
  err : List Char
  deriving DecidableEq

def runactivity (shell : Int32) (jobs : List Jobs.Job) (tokens : List Token) : Result :=
  match tokens with
  | [] => ⟨0, [], []⟩
  | first :: rest =>
    if first.type ≠ .word ∨ first.text ≠ "activities".toList then ⟨0, [], []⟩
    else if rest ≠ [] then ⟨1, [], "activities: invalid syntax\n".toList⟩
    else ⟨1, (reports host shell jobs).flatMap Report.text, []⟩

end Listing

section Purpose

/-- A process as the kernel writes it to its file `stat`. -/
structure Process where
  pid : Int32
  name : List Char
  state : Char
  ppid : Int32
  pgrp : Int32
  fields : List Int
  short : name.length ≤ 64
  clean : ∀ c ∈ name, c ≠ nul ∧ c ≠ '\n'
  letter : state.isAlpha = true

def Process.statLine (p : Process) : List Char :=
  Decimal.ofInt p.pid.toInt ++ " (".toList ++ p.name ++ ") ".toList ++ [p.state] ++ " ".toList
    ++ Decimal.ofInt p.ppid.toInt ++ " ".toList ++ Decimal.ofInt p.pgrp.toInt
    ++ p.fields.flatMap (fun n => ' ' :: Decimal.ofInt n) ++ ['\n']

/-- The entry for a process, its name cut to what fits. -/
def Process.member (p : Process) : Member :=
  ⟨p.pid, p.name.take 63, p.state⟩

/-- The processes that count for a group: its own, but no zombie and not a leader with the name of
the shell. -/
def Process.counts (p : Process) (grp : Int32) (self : List Char) : Bool :=
  p.pgrp = grp ∧ p.state ≠ 'Z' ∧ ¬ (p.pid = grp ∧ p.name.take 63 = self)

/-- What is to be listed for a group. -/
def groupMembers (grp : Int32) (self : List Char) (ps : List Process) : List Member :=
  (ps.filter fun p => p.counts grp self).map Process.member

/-- `/proc` shows these processes: each has a directory with its file, and no other name starts
with a digit. -/
structure Shows (host : Host) (ps : List Process) : Prop where
  distinct : (ps.map Process.pid).Nodup
  names : ∃ entries, host.opendir = some entries
    ∧ entries.filter startsDigit = ps.map fun p => Decimal.ofInt p.pid.toInt
  file : ∀ p ∈ ps, host.fopen (statPath p.pid) = some p.statLine

/-- A `/proc` with these processes and nothing else. -/
def procfs (ps : List Process) (stale : Int32 → List Char) : Host where
  opendir := some (ps.map fun p => Decimal.ofInt p.pid.toInt)
  fopen := fun path => (ps.find? fun p => statPath p.pid = path).map Process.statLine
  stale := stale

end Purpose

end Activities

end Shell

end CShellXv6
