import CShellXv6.Kernel.Proc
import CShellXv6.Lib.Runs
import Mathlib.Data.List.FinRange
import Mathlib.Logic.Function.Basic

/-!
# The process table, one critical section at a time

Any number of cores work on the process table. Every action but the tick is one critical section
under the lock of one process, and they may come in any order that the code's own checks and the
processes' positions on the cores allow; `yield`, `sleep` and `exit` give up the core before the
lock is released.

`charges` counts, from the actions so far, how often `mlfq_tick` has charged a process since its
allocation or the last boost, and `position` is where that count puts it; `charged` lists all whom
it charges.
-/

namespace CShellXv6

namespace Kernel

-- the sizes of process tables whose slots are written as numerals
scoped instance two_slots : NeZero 2 := ⟨by decide⟩

scoped instance nproc_slots : NeZero 64 := ⟨by decide⟩

variable {NPROC : ℕ} {Core : Type*}

structure State (NPROC : ℕ) (Core : Type*) where
  ticks : ℕ
  nextpid : Int
  procs : Fin NPROC → Proc
  cpu : Core → Option (Fin NPROC)

/-- The table as `procinit` leaves it. -/
def State.boot : State NPROC Core :=
  ⟨0, 1, fun _ => .zero, fun _ => none⟩

inductive Action (NPROC : ℕ) (Core : Type*) where
  | tick
  | alloc (p : Fin NPROC)
  | free (p : Fin NPROC)
  | ready (p : Fin NPROC)
  | charge (c : Core) (p : Fin NPROC)
  | boost (p : Fin NPROC)
  | visit (p : Fin NPROC)
  | dispatch (c : Core) (p : Fin NPROC)
  | yield (c : Core) (p : Fin NPROC)
  | sleepPrepare (c : Core) (p : Fin NPROC) (chan : Chan)
  | sleep (c : Core) (p : Fin NPROC)
  | wake (p : Fin NPROC) (chan : Option Chan)
  | kill (p : Fin NPROC) (pid : Int)
  | setkilled (p : Fin NPROC)
  | exit (c : Core) (p : Fin NPROC) (status : Int)
  | updateTime (p : Fin NPROC)
  deriving DecidableEq

namespace Action

/-- The process whose lock the action is under. -/
def slot : Action NPROC Core → Option (Fin NPROC)
  | tick => none
  | alloc p | free p | ready p | charge _ p | boost p | visit p | dispatch _ p | yield _ p
  | sleepPrepare _ p _ | sleep _ p | wake p _ | kill p _ | setkilled p | exit _ p _
  | updateTime p => some p

/-- What the action does to that process. -/
def body (s : State NPROC Core) (x : Proc) : Action NPROC Core → Proc
  | tick => x
  | alloc _ => x.alloc s.nextpid s.ticks
  | free _ => x.free
  | ready _ => x.ready
  | charge _ _ => (x.charge s.ticks).elim x Prod.fst
  | boost _ => x.boost
  | visit _ => x.visit s.ticks
  | dispatch _ _ => x.dispatch s.ticks
  | yield _ _ => x.yield
  | sleepPrepare _ _ chan => x.sleepPrepare chan
  | sleep _ _ => x.sleep
  | wake _ chan => x.wake chan
  | kill _ pid => x.kill pid
  | setkilled _ => x.setkilled
  | exit _ _ status => x.exit status s.ticks
  | updateTime _ => x.updateTime

/-- The process on each core behind the action. -/
def cpu [DecidableEq Core] (s : State NPROC Core) : Action NPROC Core → Core → Option (Fin NPROC)
  | dispatch c p => Function.update s.cpu c (some p)
  | yield c _ | exit c _ _ => Function.update s.cpu c none
  | sleep c p => if (s.procs p).chan ≠ none then Function.update s.cpu c none else s.cpu
  | _ => s.cpu

def next [DecidableEq Core] (a : Action NPROC Core) (s : State NPROC Core) : State NPROC Core where
  ticks := if a matches tick then incr s.ticks else s.ticks
  nextpid := if a matches alloc _ then s.nextpid + 1 else s.nextpid
  procs := a.slot.elim s.procs fun p => Function.update s.procs p (a.body s (s.procs p))
  cpu := a.cpu s

/-- When the action can happen. -/
def can (a : Action NPROC Core) (s : State NPROC Core) : Prop :=
  match a with
  | alloc p => (s.procs p).state = .unused
  | free p => (s.procs p).state = .used ∨ (s.procs p).state = .zombie
  | ready p => (s.procs p).state = .used
  | dispatch c p => (s.procs p).state = .runnable ∧ s.cpu c = none
  | charge c p | yield c p | sleepPrepare c p _ | sleep c p | exit c p _ =>
    s.cpu c = some p ∧ (s.procs p).state = .running
  | tick | boost _ | visit _ | wake _ _ | kill _ _ | setkilled _ | updateTime _ => True

end Action

instance (a : Action NPROC Core) (s : State NPROC Core) : Decidable (a.can s) :=
  match a with
  | .alloc p => inferInstanceAs (Decidable ((s.procs p).state = .unused))
  | .free p => inferInstanceAs (Decidable ((s.procs p).state = .used ∨ (s.procs p).state = .zombie))
  | .ready p => inferInstanceAs (Decidable ((s.procs p).state = .used))
  | .dispatch c p => inferInstanceAs (Decidable ((s.procs p).state = .runnable ∧ s.cpu c = none))
  | .charge c p | .yield c p | .sleepPrepare c p _ | .sleep c p | .exit c p _ =>
    inferInstanceAs (Decidable (s.cpu c = some p ∧ (s.procs p).state = .running))
  | .tick | .boost _ | .visit _ | .wake _ _ | .kill _ _ | .setkilled _ | .updateTime _ =>
    .isTrue trivial

/-- The system of critical sections. -/
def sections (NPROC : ℕ) (Core : Type*) [DecidableEq Core] :
    System (Action NPROC Core) (State NPROC Core) where
  can := Action.can
  next := Action.next

instance [DecidableEq Core] (a : Action NPROC Core) (s : State NPROC Core) :
    Decidable ((sections NPROC Core).can a s) :=
  inferInstanceAs (Decidable (a.can s))

/-- In the MLFQ build a scan queues a process before it dispatches it. -/
def Action.mlfqCan (a : Action NPROC Core) (s : State NPROC Core) : Prop :=
  a.can s ∧ match a with
    | dispatch _ p => (s.procs p).queued = true
    | _ => True

instance (a : Action NPROC Core) (s : State NPROC Core) : Decidable (a.mlfqCan s) :=
  match a with
  | .dispatch _ p => inferInstanceAs (Decidable (_ ∧ (s.procs p).queued = true))
  | .tick | .alloc _ | .free _ | .ready _ | .charge _ _ | .boost _ | .visit _ | .yield _ _
  | .sleepPrepare _ _ _ | .sleep _ _ | .wake _ _ | .kill _ _ | .setkilled _ | .exit _ _ _
  | .updateTime _ => inferInstanceAs (Decidable (_ ∧ True))

def mlfqSections (NPROC : ℕ) (Core : Type*) [DecidableEq Core] :
    System (Action NPROC Core) (State NPROC Core) where
  can := Action.mlfqCan
  next := Action.next

instance [DecidableEq Core] (a : Action NPROC Core) (s : State NPROC Core) :
    Decidable ((mlfqSections NPROC Core).can a s) :=
  inferInstanceAs (Decidable (a.mlfqCan s))

/-- `userinit` makes the first process, in the first slot. -/
def userinit : List (Action NPROC Core) :=
  ((List.finRange NPROC).take 1).flatMap fun p => [.alloc p, .ready p]

section Count

variable (p : Fin NPROC)

/-- The count of charges to `p` behind one more action. -/
def chargesStep (n : ℕ) : Action NPROC Core → ℕ
  | .alloc q | .boost q => if q = p then 0 else n
  | .charge _ q => if q = p then n + 1 else n
  | _ => n

/-- The charges to `p` since it was last allocated or boosted. -/
def charges (as : List (Action NPROC Core)) : ℕ :=
  as.foldl (chargesStep p) 0

/-- The processes that `mlfq_tick` charges, in order. -/
def charged (as : List (Action NPROC Core)) : List (Fin NPROC) :=
  as.filterMap fun
    | .charge _ p => some p
    | _ => none

/-- Queue and slice used behind `n` charges. -/
def position (n : ℕ) : Int × Int :=
  if n = 0 then (0, 0)
  else if n ≤ 4 then (1, n - 1)
  else if n ≤ 12 then (2, n - 5)
  else (3, (n - 13) % 16)

end Count

end Kernel

end CShellXv6
