import CShellXv6.Kernel.OneCpu
import Mathlib.Data.Prod.Lex

/-!
# The three builds on one CPU, and `kwaitx`

The builds differ in their scans, in what a trap handler does behind `clockintr`, and in the boost.
The round robin scan runs a process from inside its loop over the process table, and goes on with
the next slot when it has the CPU back; interrupts are taken only at the top of the outer loop.

`kwaitx` is one event for each round through the process table: it holds `wait_lock` all the way,
so nothing comes in between. Whose child a process is is left to the caller. The MLFQ build is the
machine of `OneCpu`, which leaves a round to the process's own actions.
-/

namespace CShellXv6

namespace Kernel

variable {NPROC : ℕ}

inductive Build where
  | rr
  | fifo
  | mlfq
  deriving DecidableEq, Repr

section Statistics

/-- What `kwaitx` reports of a child; the ints are those of the C code as long as its differences
do not overflow. -/
structure Stats where
  rtime : Int
  wtime : Int
  restime : Int
  deriving DecidableEq, Repr

/-- `pp->etime - pp->ctime`, a difference of uints. -/
def Proc.turn (x : Proc) : ℕ :=
  (x.etime + 2 ^ 32 - x.ctime) % 2 ^ 32

/-- `wtime` before it is clamped. -/
def Proc.waited (x : Proc) : Int :=
  asInt x.turn - asInt x.rtime

def Proc.stats (x : Proc) : Stats where
  rtime := asInt x.rtime
  wtime := if x.waited < 0 then 0 else x.waited
  restime := if x.firstRun < 0 then -1 else x.firstRun - asInt x.ctime

end Statistics

section Wait

/-- A call of `kwaitx`: the parents of the processes, the addresses, and whether a `copyout` to an
address succeeds. -/
structure Waitx (NPROC : ℕ) where
  parent : Fin NPROC → Option (Fin NPROC)
  addr : ℕ
  rtAddr : ℕ
  wtAddr : ℕ
  restAddr : ℕ
  copyout : ℕ → Bool

/-- How a round of `kwaitx` ends. -/
inductive Waited (NPROC : ℕ) where
  | reaped (child : Fin NPROC) (pid : Int) (stored : List (ℕ × Int))
  | failed (stored : List (ℕ × Int))
  | gaveUp
  | sleeps
  deriving DecidableEq, Repr

/-- Copies out the values for the addresses that are not 0, up to the first failure: whether all
could be copied, and what was stored. -/
def copyOut (copyout : ℕ → Bool) : List (ℕ × Int) → Bool × List (ℕ × Int)
  | [] => (true, [])
  | (addr, value) :: rest =>
    if addr = 0 then copyOut copyout rest
    else if copyout addr then
      ((copyOut copyout rest).1, (addr, value) :: (copyOut copyout rest).2)
    else (false, [])

variable (call : Waitx NPROC)

/-- What there is to copy out of a child. -/
def Waitx.values (x : Proc) : List (ℕ × Int) :=
  [(call.addr, x.xstate), (call.rtAddr, x.stats.rtime), (call.wtAddr, x.stats.wtime),
    (call.restAddr, x.stats.restime)]

/-- The loop of `kwaitx` in the process `p`, over the slots still to come, with `havekids`. -/
def kwaitxLoop (p : Fin NPROC) (procs : Fin NPROC → Proc) :
    List (Fin NPROC) → Bool → Waited NPROC
  | [], havekids => if havekids = false ∨ (procs p).killed then .gaveUp else .sleeps
  | pp :: rest, havekids =>
    if call.parent pp = some p then
      if (procs pp).state = .zombie then
        match copyOut call.copyout (call.values (procs pp)) with
        | (true, stored) => .reaped pp (procs pp).pid stored
        | (false, stored) => .failed stored
      else kwaitxLoop p procs rest true
    else kwaitxLoop p procs rest havekids

def kwaitx (p : Fin NPROC) (procs : Fin NPROC → Proc) : Waited NPROC :=
  kwaitxLoop call p procs (List.finRange NPROC) false

/-- The critical sections of a round, but for the `sleep` behind it. -/
def Waited.actions (p : Fin NPROC) : Waited NPROC → List (Action NPROC Unit)
  | reaped child _ _ => [.free child]
  | failed _ | gaveUp => []
  | sleeps => [.sleepPrepare () p (.proc p)]

/-- All four addresses are given and writable. -/
structure Waitx.Writable : Prop where
  given : call.addr ≠ 0 ∧ call.rtAddr ≠ 0 ∧ call.wtAddr ≠ 0 ∧ call.restAddr ≠ 0
  copied : call.copyout call.addr = true ∧ call.copyout call.rtAddr = true
    ∧ call.copyout call.wtAddr = true ∧ call.copyout call.restAddr = true

end Wait

section Scans

/-- The loop of the FIFO scan. -/
def fifoLoop (procs : Fin NPROC → Proc) : List (Fin NPROC) → Option (Fin NPROC) →
    Option (Fin NPROC)
  | [], best => best
  | p :: ps, best =>
    if (procs p).state = .runnable ∧ best.all fun b => fifoBefore (procs p) (procs b) then
      fifoLoop procs ps (some p)
    else fifoLoop procs ps best

/-- The loop of the round robin scan, to the first RUNNABLE process, with the slots behind it. -/
def rrLoop (procs : Fin NPROC → Proc) : List (Fin NPROC) → Option (Fin NPROC) × List (Fin NPROC)
  | [] => (none, [])
  | p :: ps => if (procs p).state = .runnable then (some p, ps) else rrLoop procs ps

/-- A scan of the MLFQ build and the switch behind it: who is dispatched, and the table. -/
def mlfqRound (s : State NPROC Unit) : Option (Fin NPROC) × State NPROC Unit :=
  let (best, s) := scanLoop (List.finRange NPROC) none s
  (best, best.elim s fun p => (Action.dispatch () p).next s)

/-- A scan of the FIFO build and the switch behind it. -/
def fifoRound (s : State NPROC Unit) : Option (Fin NPROC) × State NPROC Unit :=
  let best := fifoLoop s.procs (List.finRange NPROC) none
  (best, best.elim s fun p => (Action.dispatch () p).next s)

end Scans

section Order

/-- Where a process stands in the MLFQ build; one that is not queued counts as queued now. -/
def State.mlfqKey (s : State NPROC Unit) (p : Fin NPROC) : Int ×ₗ ℕ ×ₗ Fin NPROC :=
  toLex ((s.procs p).priority,
    toLex (if (s.procs p).queued then (s.procs p).enqTime else s.ticks, p))

/-- Where a process stands in the FIFO build. -/
def State.fifoKey (s : State NPROC Unit) (p : Fin NPROC) : ℕ ×ₗ Fin NPROC :=
  toLex ((s.procs p).ctime, p)

/-- What a scan may do to a process. -/
structure ScanKeeps (chosen : Bool) (x y : Proc) : Prop where
  fields : y = { x with
    enqTime := y.enqTime, queued := y.queued, firstRun := y.firstRun, state := y.state }
  queue : ¬ (x.state = .runnable ∧ x.queued = false) → y.enqTime = x.enqTime ∧ y.queued = x.queued
  place : chosen = false → y.firstRun = x.firstRun ∧ y.state = x.state

/-- The scan dispatches the RUNNABLE process with the least key, if there is any, and leaves the
rest of the table as it is. -/
structure DispatchesLeast {κ : Type*} [LE κ] (s : State NPROC Unit) (key : Fin NPROC → κ)
    (round : Option (Fin NPROC) × State NPROC Unit) : Prop where
  chosen : ∀ p, round.1 = some p ↔ s.Runnable p ∧ ∀ q, s.Runnable q → key p ≤ key q
  idle : round.1 = none ↔ ∀ q, ¬ s.Runnable q
  running : ∀ p, round.1 = some p → (round.2.procs p).state = .running
  keeps : ∀ p, ScanKeeps (round.1 = some p) (s.procs p) (round.2.procs p)
  counters : round.2.ticks = s.ticks ∧ round.2.nextpid = s.nextpid

end Order

/-- The CPU, and the slots a round robin loop has still to look at. -/
structure Cpu (NPROC : ℕ) where
  base : State NPROC Unit
  phase : Phase NPROC
  cursor : List (Fin NPROC)

def Cpu.boot : Cpu NPROC :=
  ⟨(sections NPROC Unit).exec userinit .boot, .sched, []⟩

inductive Turn (NPROC : ℕ) where
  | event (e : Event NPROC)
  | waitx (call : Waitx NPROC)

namespace Build

variable (b : Build)

def clockintr (s : State NPROC Unit) : List (Action NPROC Unit) :=
  .tick :: (List.finRange NPROC).map (.wake · (some .ticks))
    ++ (List.finRange NPROC).map .updateTime
    ++ if b = .mlfq ∧ incr s.ticks % 48 = 0 then (List.finRange NPROC).map .boost else []

/-- Whether a timer interrupt makes the process give up the CPU. -/
def yields (p : Fin NPROC) (s : State NPROC Unit) : Bool :=
  match b with
  | rr => true
  | fifo => false
  | mlfq => mlfqTickYields p s

/-- The process a scan runs next, and the slots it has then still to look at. -/
def pick (c : Cpu NPROC) : Option (Fin NPROC) × List (Fin NPROC) :=
  match b with
  | rr => rrLoop c.base.procs (if c.cursor = [] then List.finRange NPROC else c.cursor)
  | fifo => (fifoLoop c.base.procs (List.finRange NPROC) none, [])
  | mlfq => (mlfqScan c.base, [])

/-- The critical sections of an event. -/
def actions (e : Event NPROC) (c : Cpu NPROC) : List (Action NPROC Unit) :=
  match e, c.phase with
  | .clock _, _ => b.clockintr c.base
  | .handle, .trap p user =>
    if user ∧ (c.base.procs p).killed then []
    else (if b = .mlfq then [.charge () p] else [])
      ++ if b.yields p c.base then [.yield () p] else []
  | .handle, _ => []
  | .scan, _ =>
    (if b = .mlfq then (List.finRange NPROC).map .visit else [])
      ++ ((b.pick c).1.map (.dispatch ())).toList
  | .act a, _ => [a]

/-- Who has the CPU behind an event. -/
def phase (e : Event NPROC) (c : Cpu NPROC) : Phase NPROC :=
  match e, c.phase with
  | .clock user, .running p => .trap p user
  | .handle, .trap p user =>
    if user ∧ (c.base.procs p).killed then .exiting p
    else if b.yields p c.base then .sched
    else .running p
  | .scan, .sched => (b.pick c).1.elim .sched .running
  | .act a, φ => if (a.next c.base).cpu () = none then .sched else φ
  | _, φ => φ

def cursor (e : Event NPROC) (c : Cpu NPROC) : List (Fin NPROC) :=
  if e = .scan then (b.pick c).2 else c.cursor

/-- The critical sections of a turn. -/
def work (t : Turn NPROC) (c : Cpu NPROC) : List (Action NPROC Unit) :=
  match t, c.phase with
  | .event e, _ => b.actions e c
  | .waitx call, .running p => (kwaitx call p c.base.procs).actions p
  | .waitx _, _ => []

def next (t : Turn NPROC) (c : Cpu NPROC) : Cpu NPROC where
  base := (sections NPROC Unit).exec (b.work t c) c.base
  phase := match t with
    | .event e => b.phase e c
    | .waitx _ => c.phase
  cursor := match t with
    | .event e => b.cursor e c
    | .waitx _ => c.cursor

end Build

/-- The scheduler takes interrupts only at the top of its outer loop. -/
def Turn.can (t : Turn NPROC) (c : Cpu NPROC) : Prop :=
  match t with
  | .event e => e.canIn c.base c.phase ∧ (c.phase = .sched → e = .scan ∨ c.cursor = [])
  | .waitx _ => ∃ p, c.phase = .running p

instance (t : Turn NPROC) (c : Cpu NPROC) : Decidable (t.can c) :=
  match t, c.phase with
  | .event _, _ => inferInstanceAs (Decidable (_ ∧ _))
  | .waitx _, _ => inferInstanceAs (Decidable (∃ p, c.phase = .running p))

def Build.machine (b : Build) (NPROC : ℕ) : System (Turn NPROC) (Cpu NPROC) where
  can := Turn.can
  next := b.next

instance (b : Build) (t : Turn NPROC) (c : Cpu NPROC) : Decidable ((b.machine NPROC).can t c) :=
  inferInstanceAs (Decidable (t.can c))

/-- The timer interrupts of a run. -/
def clocks (ts : List (Turn NPROC)) : ℕ :=
  ts.countP fun
    | .event (.clock _) => true
    | _ => false

/-- The values stored for a child are about its life: run time and waiting time make it up, and it
first ran no earlier than it was created and no later than its waiting allows. -/
structure Consistent (call : Waitx NPROC) (x : Proc) (stored : List (ℕ × Int)) : Prop where
  stored : ∃ rtime wtime restime : Int,
    stored = [(call.addr, x.xstate), (call.rtAddr, rtime), (call.wtAddr, wtime),
        (call.restAddr, restime)]
      ∧ rtime + wtime = x.etime - x.ctime ∧ 0 ≤ restime ∧ restime ≤ wtime
  unclamped : 0 ≤ x.waited

end Kernel

end CShellXv6
