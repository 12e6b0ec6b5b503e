import Mathlib.Algebra.Group.Int.Defs
import Mathlib.Algebra.Group.Nat.Defs
import Mathlib.Algebra.GroupWithZero.Nat

/-!
# Processes

The fields of `struct proc` that `p->lock` guards, and what each critical section under that lock
does to them. Tick counts are C uints, kept below `2 ^ 32`; a channel is the address slept on.
-/

namespace CShellXv6

namespace Kernel

inductive ProcState where
  | unused
  | used
  | sleeping
  | runnable
  | running
  | zombie
  deriving DecidableEq, Repr

inductive Chan where
  | ticks
  | proc (slot : ℕ)
  | other (address : ℕ)
  deriving DecidableEq, Repr

structure Proc where
  state : ProcState
  chan : Option Chan
  killed : Bool
  xstate : Int
  pid : Int
  ctime : ℕ
  etime : ℕ
  rtime : ℕ
  firstRun : Int
  priority : Int
  sliceUsed : Int
  queued : Bool
  enqTime : ℕ
  deriving DecidableEq, Repr

/-- A slot of the process table before its first use. -/
def Proc.zero : Proc :=
  ⟨.unused, none, false, 0, 0, 0, 0, 0, 0, 0, 0, false, 0⟩

/-- A uint stored in an int. -/
def asInt (n : ℕ) : Int :=
  if n < 2 ^ 31 then n else n - 2 ^ 32

def incr (n : ℕ) : ℕ :=
  (n + 1) % 2 ^ 32

def mlfqSlice : List Int := [1, 4, 8, 16]

/-- `mlfq_slice[priority]`, or `none` outside the array. -/
def sliceOf (priority : Int) : Option Int :=
  if 0 ≤ priority then mlfqSlice[priority.toNat]? else none

namespace Proc

/-- `allocproc`, once it has found the slot unused. -/
def alloc (pid : Int) (ticks : ℕ) (p : Proc) : Proc :=
  { p with
    pid := pid, state := .used, ctime := ticks, etime := 0, rtime := 0, firstRun := -1
    priority := 0, sliceUsed := 0, queued := false, enqTime := ticks }

/-- `freeproc`. -/
def free (p : Proc) : Proc :=
  { p with pid := 0, chan := none, killed := false, xstate := 0, state := .unused }

/-- The end of `kfork` and of `userinit`. -/
def ready (p : Proc) : Proc :=
  { p with state := .runnable }

/-- The section of `mlfq_tick`, with `expired`; `none` if `mlfq_slice` is read out of bounds. -/
def charge (ticks : ℕ) (p : Proc) : Option (Proc × Bool) :=
  (sliceOf p.priority).map fun slice =>
    let expired : Bool := slice ≤ p.sliceUsed + 1
    ({ p with
      priority := if expired ∧ p.priority < 3 then p.priority + 1 else p.priority
      sliceUsed := if expired then 0 else p.sliceUsed + 1
      enqTime := if expired then ticks else p.enqTime }, expired)

/-- What `mlfq_boost` does to a slot. -/
def boost (p : Proc) : Proc :=
  { p with
    priority := if p.state ≠ .unused then 0 else p.priority
    sliceUsed := if p.state ≠ .unused then 0 else p.sliceUsed }

/-- What the MLFQ scan does to a slot it visits. -/
def visit (ticks : ℕ) (p : Proc) : Proc :=
  { p with
    enqTime := if p.state = .runnable ∧ p.queued = false then ticks else p.enqTime
    queued := if p.state = .runnable ∧ p.queued = false then true else p.queued }

def dispatch (ticks : ℕ) (p : Proc) : Proc :=
  { p with
    firstRun := if p.firstRun < 0 then asInt ticks else p.firstRun
    state := .running }

def yield (p : Proc) : Proc :=
  { p with state := .runnable }

def sleepPrepare (chan : Chan) (p : Proc) : Proc :=
  { p with chan := some chan }

def sleep (p : Proc) : Proc :=
  { p with state := if p.chan ≠ none then .sleeping else p.state }

/-- What `wakeup` does to a slot. -/
def wake (chan : Option Chan) (p : Proc) : Proc :=
  { p with
    chan := if p.chan = chan then none else p.chan
    state := if p.chan = chan ∧ p.state = .sleeping then .runnable else p.state }

/-- What `kkill` does to a slot. -/
def kill (pid : Int) (p : Proc) : Proc :=
  { p with
    killed := if p.pid = pid then true else p.killed
    state := if p.pid = pid ∧ p.state = .sleeping then .runnable else p.state }

def setkilled (p : Proc) : Proc :=
  { p with killed := true }

/-- The end of `kexit`. -/
def exit (status : Int) (ticks : ℕ) (p : Proc) : Proc :=
  { p with xstate := status, etime := ticks, state := .zombie }

/-- What `update_time` does to a slot. -/
def updateTime (p : Proc) : Proc :=
  { p with rtime := if p.state = .running then incr p.rtime else p.rtime }

end Proc

/-- The comparison of the MLFQ scan. -/
def mlfqBefore (p best : Proc) : Bool :=
  p.priority < best.priority || (p.priority = best.priority && p.enqTime < best.enqTime)

/-- The comparison of the FIFO scan. -/
def fifoBefore (p best : Proc) : Bool :=
  p.ctime < best.ctime

end Kernel

end CShellXv6
