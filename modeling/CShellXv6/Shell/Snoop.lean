import CShellXv6.Lib.Insertion
import CShellXv6.Shell.History
import CShellXv6.Shell.Jobs
import CShellXv6.Shell.Launch
import Mathlib.Algebra.Ring.Int.Defs

/-!
# Counting system calls

`snoop` lets a process run from one stop to the next and counts the system calls it enters in a
table of 512 entries. A pointer into the table is the index of the entry. A turn of the loop of
`trace` is given by what the calls made in it answer, and a list of turns that ends before `trace`
returns gives `none`. A `double` is of any type with a zero, a sum and a difference, and `long` does
not overflow.
-/

namespace CShellXv6

namespace Shell

namespace Snoop

/-- `MAX_ENTRIES`. -/
def maxEntries : ℕ := 512

structure Entry (δ : Type) where
  number : Int
  calls : Int
  seconds : δ
  deriving DecidableEq, Repr

/-- The first `entry_count` of the entries. -/
structure Table (δ : Type) where
  entries : List (Entry δ)
  bounded : entries.length ≤ maxEntries

section Table

variable {δ : Type}

def Table.empty : Table δ := ⟨[], Nat.zero_le _⟩

def Table.update (t : Table δ) (i : ℕ) (f : Entry δ → Entry δ) : Table δ :=
  ⟨t.entries.modify i f, (List.length_modify f t.entries i).trans_le t.bounded⟩

theorem Table.room {t : Table δ} (h : t.entries.length ≠ maxEntries) (e : Entry δ) :
    (t.entries ++ [e]).length ≤ maxEntries := by
  have hbounded := t.bounded
  rw [List.length_append, List.length_singleton]
  omega

/-- NULL is `none`. -/
def findEntry [Zero δ] (number : Int) (t : Table δ) : Option ℕ × Table δ :=
  match t.entries.findIdx? (·.number = number) with
  | some i => (some i, t)
  | none =>
    if h : t.entries.length = maxEntries then (none, t)
    else (some t.entries.length, ⟨t.entries ++ [⟨number, 0, 0⟩], t.room h _⟩)

end Table

section Trace

/-- What PTRACE_GET_SYSCALL_INFO answers, with the clock that is read on it. -/
inductive Info (δ : Type) where
  | failed
  | entry (nr : UInt64) (now : δ)
  | exit (now : δ)
  | other
  deriving DecidableEq, Repr

inductive Ended where
  | exited (code : ℕ)
  | signaled (signal : ℕ)
  deriving DecidableEq, Repr

/-- What `waitpid` answers in the end; what is asked for about a stop matters only for that of a
system call. -/
inductive Wait (δ : Type) where
  | failed
  | ended (status : Ended)
  | stopped (signal : ℕ) (info : Info δ)
  deriving DecidableEq, Repr

/-- Whether PTRACE_SYSCALL succeeds, what `take_interrupt` returns each time `waitpid` is
interrupted, and what `waitpid` answers behind that. -/
structure Turn (δ : Type) where
  resumed : Bool
  interrupts : List Bool
  wait : Wait δ
  deriving DecidableEq, Repr

def sigint : ℕ := 2

/-- SIGTRAP|0x80. -/
def syscallStop : ℕ := 5 ||| 0x80

/-- The locals of `trace`, with the signals the process was resumed with. -/
structure Tracer (δ : Type) where
  table : Table δ
  openCall : Option ℕ
  started : δ
  deliver : ℕ
  delivered : List ℕ

/-- What `trace` returns, `*final`, what it prints, and the table behind it. -/
structure Traced (δ : Type) where
  value : ℕ
  final : Option Ended
  out : List Char
  table : Table δ

variable {δ : Type} [Zero δ] [Add δ] [Sub δ]

/-- The locals at the start of `trace`, which `run_snoop` calls with no entries. -/
def Tracer.start : Tracer δ := ⟨.empty, none, 0, 0, []⟩

/-- `(long)info.entry.nr`. -/
def callNumber (nr : UInt64) : Int := nr.toInt64.toInt

/-- What a turn does with the info it gets. -/
def Tracer.record (s : Tracer δ) : Info δ → Tracer δ
  | .entry nr now =>
    let (openCall, table) := findEntry (callNumber nr) s.table
    let table :=
      match openCall with
      | none => table
      | some i => table.update i fun e => { e with calls := e.calls + 1 }
    { s with table := table, openCall := openCall, started := now }
  | .exit now =>
    match s.openCall with
    | none => s
    | some i =>
      { s with
        table := s.table.update i fun e => { e with seconds := e.seconds + (now - s.started) },
        openCall := none }
  | .failed | .other => s

def Tracer.stopped (s : Tracer δ) (signal : ℕ) (info : Info δ) : Tracer δ :=
  if signal ≠ syscallStop then { s with deliver := signal }
  else { s with deliver := 0 }.record info

/-- The loop of `trace`. -/
def trace (attached : Bool) : List (Turn δ) → Tracer δ → Option (Traced δ)
  | [], _ => none
  | turn :: turns, s =>
    if turn.resumed = false then some ⟨0, none, [], s.table⟩
    else
      let s := { s with delivered := s.delivered ++ [s.deliver] }
      if attached = true ∧ true ∈ turn.interrupts then some ⟨0, none, ['\n'], s.table⟩
      else
        match turn.wait with
        | .failed => some ⟨0, none, [], s.table⟩
        | .ended status =>
          some ⟨1, some status, if status = .signaled sigint then ['\n'] else [], s.table⟩
        | .stopped signal info => trace attached turns (s.stopped signal info)

end Trace

section Summary

variable {δ : Type} (names : List (Option (List Char))) (format : δ → List Char)

/-- `names` is the table of the architecture. -/
def syscallName (number : Int) : Option (List Char) :=
  if number < 0 ∨ names.length ≤ number.toNat then none else names[number.toNat]?.join

/-- A line of the format `%-20s %-8s %s`. -/
def summaryLine (name calls time : List Char) : List Char :=
  name.rightpad 20 ' ' ++ ' ' :: calls.rightpad 8 ' ' ++ ' ' :: time ++ ['\n']

def summaryHeader : List Char :=
  summaryLine "syscall".toList "calls".toList "time".toList

/-- The line of an entry; `format` is `%.3f`. -/
def summaryRow (e : Entry δ) : List Char :=
  summaryLine
    (match syscallName names e.number with
      | some name => name
      | none => "syscall_".toList ++ Decimal.ofInt e.number)
    (Decimal.ofInt e.calls) (format e.seconds ++ ['s'])

/-- What `print_summary` prints, and the table as it leaves it. -/
def printSummary (t : Table δ) : List Char × Table δ :=
  let entries := Insertion.sort Entry.calls t.entries
  (summaryHeader ++ entries.flatMap (summaryRow names format),
    ⟨entries, (Insertion.sort_perm Entry.calls t.entries).length_eq.trans_le t.bounded⟩)

end Summary

section Command

/-- What PTRACE_ATTACH answers; `denied` is EPERM. -/
inductive Attach where
  | attached
  | denied
  | failed
  deriving DecidableEq, Repr

/-- What the calls made for a command answer; `absent` is the `kill` of `note_traced_exit`. -/
structure Host (δ : Type) where
  paths : Paths
  attach : Attach
  forks : Bool
  turns : List (Turn δ)
  absent : Bool

/-- What is behind a return of 0: what has been printed, the entries, and the job table with the
reports about it. -/
structure Snooped (δ : Type) where
  out : List Char
  table : Table δ
  jobs : List Jobs.Job
  reports : List Jobs.Line

/-- What `run_snoop` returns and prints. -/
structure Result where
  value : ℕ
  out : List Char
  err : List String
  jobs : List Jobs.Job
  reports : List Jobs.Line

variable {δ : Type} [Zero δ] [Add δ] [Sub δ] (host : Host δ) (jobs : List Jobs.Job)

def snoopPid (text : List Char) : Option (Except String (Snooped δ)) :=
  let pid := History.strtoll text
  if text.head?.any Char.isDigit = false ∨ text.dropWhile Char.isDigit ≠ [] ∨ pid ≤ 0
      ∨ 100000000 < pid then
    some (.error "snoop: no such process\n")
  else
    match host.attach with
    | .denied => some (.error "snoop: permission denied\n")
    | .failed => some (.error "snoop: no such process\n")
    | .attached =>
      (trace true host.turns .start).map fun r =>
        let (jobs, reports) :=
          match r.final with
          | none => (jobs, [])
          | some status =>
            Jobs.noteTracedExit jobs pid.toNat (status matches .exited _) host.absent
        .ok ⟨r.out, r.table, jobs, reports⟩

/-- `snoop_command` in the shell, with its first word. -/
def snoopCommand (text : List Char) : Option (Except String (Snooped δ)) :=
  let (name, pathOnly) := lookedUp text
  match findExecutable host.paths name pathOnly with
  | none => some (.error "snoop: command not found\n")
  | some _ =>
    if host.forks = false then some (.error "snoop: fork failed")
    else (trace false host.turns .start).map fun r => .ok ⟨r.out, r.table, jobs, []⟩

variable (names : List (Option (List Char))) (format : δ → List Char)

/-- The end of `run_snoop`. -/
def summarize : Except String (Snooped δ) → Result
  | .error message => ⟨1, [], [message], jobs, []⟩
  | .ok s => ⟨1, s.out ++ (printSummary names format s.table).1, [], s.jobs, s.reports⟩

def runSnoop (tokens : List Token) : Option Result :=
  match tokens with
  | [] => some ⟨0, [], [], jobs, []⟩
  | first :: rest =>
    if first.type ≠ .word ∨ first.text ≠ "snoop".toList then some ⟨0, [], [], jobs, []⟩
    else
      match rest with
      | [] => some ⟨1, [], ["snoop: invalid syntax\n"], jobs, []⟩
      | second :: more =>
        if second.text = "-p".toList then
          match more with
          | [pid] => (snoopPid host jobs pid.text).map (summarize jobs names format)
          | _ => some ⟨1, [], ["snoop: invalid syntax\n"], jobs, []⟩
        else (snoopCommand host jobs second.text).map (summarize jobs names format)

end Command

section Purpose

variable {δ : Type}

/-- `trace` does not return in the turn. -/
def Turn.goesOn (attached : Bool) (turn : Turn δ) : Bool :=
  turn.resumed && !(attached && turn.interrupts.contains true) && (turn.wait matches .stopped _ _)

/-- The number of the system call that is entered in a turn. -/
def Turn.entered (turn : Turn δ) : Option Int :=
  match turn.wait with
  | .stopped signal (.entry nr _) => if signal = syscallStop then some (callNumber nr) else none
  | _ => none

/-- The numbers of the entry events that are delivered, in order. -/
def entered (attached : Bool) (turns : List (Turn δ)) : List Int :=
  (turns.takeWhile (Turn.goesOn attached)).filterMap Turn.entered

/-- What the rows are to be for these entry events. -/
structure Summarizes (numbers : List Int) (rows : List (Entry δ)) : Prop where
  once : (rows.map Entry.number).Nodup
  mem_iff : ∀ n, n ∈ rows.map Entry.number ↔ n ∈ numbers
  calls : ∀ e ∈ rows, e.calls = numbers.count e.number
  total : (rows.map Entry.calls).sum = numbers.length
  ordered : rows.Pairwise fun a b =>
    b.calls < a.calls ∨ (a.calls = b.calls ∧ numbers.idxOf a.number < numbers.idxOf b.number)

end Purpose

end Snoop

end Shell

end CShellXv6
