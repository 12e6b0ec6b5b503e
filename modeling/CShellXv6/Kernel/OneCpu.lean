import CShellXv6.Kernel.Queues

/-!
# The MLFQ build on one CPU

With one CPU, what runs with interrupts off runs to its end: `clockintr`, the part of a trap
handler behind it, and a scan of the scheduler. Between them the running process does what it
likes, one critical section at a time, and a device interrupt may wake processes.

A timer interrupt is two events: `clock`, which is `clockintr`, and `handle`, which is what the
trap handler does next. `usertrap` first lets a killed process exit; `kerneltrap` does not.
-/

namespace CShellXv6

namespace Kernel

variable {NPROC : ℕ}

/-- Who has the CPU: the scheduler between two scans, a process, its trap handler behind
`clockintr`, or a process that `usertrap` sends into `kexit`. -/
inductive Phase (NPROC : ℕ) where
  | sched
  | running (p : Fin NPROC)
  | trap (p : Fin NPROC) (user : Bool)
  | exiting (p : Fin NPROC)
  deriving DecidableEq

structure Config (NPROC : ℕ) where
  base : State NPROC Unit
  phase : Phase NPROC

def Config.boot : Config NPROC :=
  ⟨(mlfqSections NPROC Unit).exec userinit .boot, .sched⟩

inductive Event (NPROC : ℕ) where
  | clock (user : Bool)
  | handle
  | scan
  | act (a : Action NPROC Unit)
  deriving DecidableEq

/-- `clockintr`, with its walks over the process table. -/
def clockintr (s : State NPROC Unit) : List (Action NPROC Unit) :=
  .tick :: (List.finRange NPROC).map (.wake · (some .ticks))
    ++ (List.finRange NPROC).map .updateTime
    ++ if incr s.ticks % 48 = 0 then (List.finRange NPROC).map .boost else []

def mlfqHigherRunnable (pri : Int) (self : Fin NPROC) (procs : Fin NPROC → Proc) : Bool :=
  (List.finRange NPROC).any fun q =>
    q ≠ self && (procs q).state = .runnable && (procs q).priority < pri

/-- `mlfq_tick` charges the process, and yields if this ended its slice or a process in a higher
queue is RUNNABLE. -/
def mlfqTickYields (p : Fin NPROC) (s : State NPROC Unit) : Bool :=
  let s' := (Action.charge () p).next s
  ((s.procs p).charge s.ticks).any Prod.snd || mlfqHigherRunnable (s'.procs p).priority p s'.procs

/-- The loop of the MLFQ scan. -/
def scanLoop : List (Fin NPROC) → Option (Fin NPROC) → State NPROC Unit →
    Option (Fin NPROC) × State NPROC Unit
  | [], best, s => (best, s)
  | p :: ps, best, s =>
    let s := (Action.visit p).next s
    if (s.procs p).state = .runnable ∧ best.all fun b => mlfqBefore (s.procs p) (s.procs b) then
      scanLoop ps (some p) s
    else scanLoop ps best s

def mlfqScan (s : State NPROC Unit) : Option (Fin NPROC) :=
  (scanLoop (List.finRange NPROC) none s).1

/-- What the process `p` may do. -/
def Action.By (p : Fin NPROC) : Action NPROC Unit → Prop
  | alloc _ | free _ | ready _ | wake _ _ | kill _ _ => True
  | sleepPrepare _ q _ | sleep _ q | setkilled q | exit _ q _ => q = p
  | tick | charge _ _ | boost _ | visit _ | dispatch _ _ | yield _ _ | updateTime _ => False

instance (p : Fin NPROC) (a : Action NPROC Unit) : Decidable (a.By p) :=
  match a with
  | .alloc _ | .free _ | .ready _ | .wake _ _ | .kill _ _ => .isTrue trivial
  | .sleepPrepare _ q _ | .sleep _ q | .setkilled q | .exit _ q _ =>
    inferInstanceAs (Decidable (q = p))
  | .tick | .charge _ _ | .boost _ | .visit _ | .dispatch _ _ | .yield _ _ | .updateTime _ =>
    .isFalse id

namespace Event

/-- The critical sections of an event. -/
def actions (e : Event NPROC) (c : Config NPROC) : List (Action NPROC Unit) :=
  match e, c.phase with
  | clock _, _ => clockintr c.base
  | handle, .trap p user =>
    if user ∧ (c.base.procs p).killed then []
    else if mlfqTickYields p c.base then [.charge () p, .yield () p]
    else [.charge () p]
  | handle, _ => []
  | scan, _ =>
    (List.finRange NPROC).map .visit ++ ((mlfqScan c.base).map (.dispatch ())).toList
  | act a, _ => [a]

/-- Who has the CPU behind an event. -/
def phase (e : Event NPROC) (c : Config NPROC) : Phase NPROC :=
  match e, c.phase with
  | clock user, .running p => .trap p user
  | handle, .trap p user =>
    if user ∧ (c.base.procs p).killed then .exiting p
    else if mlfqTickYields p c.base then .sched
    else .running p
  | scan, .sched => (mlfqScan c.base).elim .sched .running
  | act a, φ => if (a.next c.base).cpu () = none then .sched else φ
  | _, φ => φ

def next (e : Event NPROC) (c : Config NPROC) : Config NPROC :=
  ⟨(mlfqSections NPROC Unit).exec (e.actions c) c.base, e.phase c⟩

/-- Interrupts are taken by the scheduler and by a process, never inside a trap handler. -/
def canIn (s : State NPROC Unit) : Event NPROC → Phase NPROC → Prop
  | clock _, .sched | clock _, .running _ | handle, .trap _ _ | scan, .sched => True
  | act a, .running p | act a, .exiting p => a.By p ∧ a.can s
  | act a, .sched => (a matches .wake _ _)
  | clock _, .trap _ _ | clock _, .exiting _ | handle, .sched | handle, .running _
  | handle, .exiting _ | scan, .running _ | scan, .trap _ _ | scan, .exiting _
  | act _, .trap _ _ => False

end Event

instance (s : State NPROC Unit) : ∀ (e : Event NPROC) (φ : Phase NPROC), Decidable (e.canIn s φ)
  | .clock _, .sched | .clock _, .running _ | .handle, .trap _ _ | .scan, .sched => .isTrue trivial
  | .act a, .running p | .act a, .exiting p => inferInstanceAs (Decidable (a.By p ∧ a.can s))
  | .act a, .sched => inferInstanceAs (Decidable ((a matches .wake _ _) = true))
  | .clock _, .trap _ _ | .clock _, .exiting _ | .handle, .sched | .handle, .running _
  | .handle, .exiting _ | .scan, .running _ | .scan, .trap _ _ | .scan, .exiting _
  | .act _, .trap _ _ => .isFalse id

def oneCpu (NPROC : ℕ) : System (Event NPROC) (Config NPROC) where
  can e c := e.canIn c.base c.phase
  next := Event.next

instance (e : Event NPROC) (c : Config NPROC) : Decidable ((oneCpu NPROC).can e c) :=
  inferInstanceAs (Decidable (e.canIn c.base c.phase))

/-- The critical sections of a run. -/
def sectionsOf (es : List (Event NPROC)) (c : Config NPROC) : List (Action NPROC Unit) :=
  (oneCpu NPROC).trace Event.actions es c

/-- No RUNNABLE process is in a higher queue than `p`. -/
def State.First (s : State NPROC Unit) (p : Fin NPROC) : Prop :=
  ∀ q, s.Runnable q → (s.procs p).priority ≤ (s.procs q).priority

/-- Behind a boost, `p` is RUNNABLE and has its place from an earlier tick. -/
structure Boosted (c : Config NPROC) (p : Fin NPROC) : Prop where
  boost : c.base.ticks % 48 = 0
  runnable : c.base.Runnable p
  queued : (c.base.procs p).queued = true
  place : (c.base.procs p).enqTime < c.base.ticks

/-- From `c` on no process is charged twice, none is dispatched that was created or first queued
there, and fewer than `NPROC` ticks are charged. -/
structure Served (c : Config NPROC) (as : List (Action NPROC Unit)) : Prop where
  once : (charged as).Nodup
  old : ∀ d pre post, as = pre ++ .dispatch () d :: post →
    .alloc d ∉ pre ∧ (c.base.procs d).queued = true
  bound : (charged as).length < NPROC

end Kernel

end CShellXv6
