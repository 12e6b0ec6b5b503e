import CShellXv6.Kernel.Sections
import CShellXv6.Lib.Locks

/-!
# The scheduler and its locks

Any number of cores, of which one at a time takes a step: it acquires or releases a spin lock, does
the work of a critical section, looks at a process whose lock it holds, or switches. Kernel code is
kept as what is left of it to execute, so the kernel functions take the code behind them as their
last argument. Where the source depends on what is not modelled (parents, memory, device state) the
choice is left to the caller.

A core without a process is in `scheduler()`, in a scan or between two of them. An interrupt may
come whenever the core is inside of no lock, except in a scan.
-/

namespace CShellXv6

namespace Kernel

variable {NPROC : ℕ} {Core : Type*}

inductive Policy where
  | fifo
  | mlfq
  deriving DecidableEq

inductive Lock (NPROC : ℕ) where
  | proc (p : Fin NPROC)
  | wait
  | pid
  | other (address : ℕ)
  deriving DecidableEq

def Lock.tickslock : Lock NPROC :=
  .other 0

/-- What is left to execute. The core that executes it is known only then. -/
inductive Code (NPROC : ℕ) (Core : Type*) where
  | done
  | acquire (l : Lock NPROC) (k : Code NPROC Core)
  | release (l : Lock NPROC) (k : Code NPROC Core)
  | act (a : Core → Action NPROC Core) (k : Code NPROC Core)
  | read (p : Fin NPROC) (k : Proc → Code NPROC Core)
  | sched (k : Code NPROC Core)
  | panicked

namespace Code

/-- A loop over the process table that does `a` to each slot. -/
def walk (a : Fin NPROC → Action NPROC Core) (k : Code NPROC Core) : Code NPROC Core :=
  (List.finRange NPROC).foldr
    (fun q rest => .acquire (.proc q) (.act (fun _ => a q) (.release (.proc q) rest))) k

def wakeup (chan : Option Chan) : Code NPROC Core → Code NPROC Core :=
  walk (.wake · chan)

def updateTime : Code NPROC Core → Code NPROC Core :=
  walk .updateTime

def mlfqBoost : Code NPROC Core → Code NPROC Core :=
  walk .boost

def kkill (pid : Int) (k : Code NPROC Core) : Code NPROC Core :=
  (List.finRange NPROC).foldr
    (fun q rest => .acquire (.proc q) (.read q fun x =>
      if x.pid = pid then .act (fun _ => .kill q pid) (.release (.proc q) k)
      else .release (.proc q) rest)) k

def setkilled (p : Fin NPROC) (k : Code NPROC Core) : Code NPROC Core :=
  .acquire (.proc p) (.act (fun _ => .setkilled p) (.release (.proc p) k))

def killed (p : Fin NPROC) (k : Bool → Code NPROC Core) : Code NPROC Core :=
  .acquire (.proc p) (.read p fun x => .release (.proc p) (k x.killed))

def yield (p : Fin NPROC) (k : Code NPROC Core) : Code NPROC Core :=
  .acquire (.proc p) (.act (.yield · p) (.sched (.release (.proc p) k)))

def sleepPrepare (p : Fin NPROC) (chan : Chan) (k : Code NPROC Core) : Code NPROC Core :=
  .acquire (.proc p) (.act (.sleepPrepare · p chan) (.release (.proc p) k))

def sleep (p : Fin NPROC) (k : Code NPROC Core) : Code NPROC Core :=
  .acquire (.proc p) (.read p fun x =>
    if x.chan ≠ none then .act (.sleep · p) (.sched (.release (.proc p) k))
    else .release (.proc p) k)

/-- `allocproc`, which goes on to `found` with the lock of the slot held. -/
def allocproc (found : Fin NPROC → Code NPROC Core) (k : Code NPROC Core) : Code NPROC Core :=
  (List.finRange NPROC).foldr
    (fun q rest => .acquire (.proc q) (.read q fun x =>
      if x.state = .unused then
        .acquire .pid (.act (fun _ => .alloc q) (.release .pid (found q)))
      else .release (.proc q) rest)) k

/-- `kfork`, with or without enough memory for the child. -/
def kfork (memory : Bool) (k : Code NPROC Core) : Code NPROC Core :=
  allocproc (fun np =>
    if memory then
      .release (.proc np) (.acquire .wait (.release .wait
        (.acquire (.proc np) (.act (fun _ => .ready np) (.release (.proc np) k)))))
    else .act (fun _ => .free np) (.release (.proc np) k)) k

/-- `kexit` of a process with so many children. -/
def kexit (p : Fin NPROC) (status : Int) (children : ℕ) (parent : Option Chan) : Code NPROC Core :=
  .acquire .wait ((wakeup (some (.proc 0)))^[children] (wakeup parent
    (.acquire (.proc p) (.act (.exit · p status) (.release .wait (.sched .panicked))))))

/-- One round of `kwait` and of `kwaitx`; the status can be copied out or not. -/
def kwait (p : Fin NPROC) (children : List (Fin NPROC)) (copied : Bool) (k : Code NPROC Core) :
    Code NPROC Core :=
  .acquire .wait (children.foldr
    (fun q rest => .acquire (.proc q) (.read q fun x =>
      if x.state = .zombie then
        if copied then .act (fun _ => .free q) (.release (.proc q) (.release .wait k))
        else .release (.proc q) (.release .wait k)
      else .release (.proc q) rest))
    (if children = [] then .release .wait k
      else killed p fun isKilled =>
        if isKilled then .release .wait k
        else sleepPrepare p (.proc p) (.release .wait (sleep p k))))

def mlfqHigher (pri : Int) (self : Fin NPROC) (found k : Code NPROC Core) : Code NPROC Core :=
  (List.finRange NPROC).foldr
    (fun q rest =>
      if q = self then rest
      else .acquire (.proc q) (.read q fun x =>
        .release (.proc q) (if x.state = .runnable ∧ x.priority < pri then found else rest))) k

def mlfqTick (p : Fin NPROC) (k : Code NPROC Core) : Code NPROC Core :=
  .acquire (.proc p) (.read p fun x => .act (.charge · p) (.release (.proc p)
    (if (x.charge 0).any Prod.snd then yield p k
      else mlfqHigher ((x.charge 0).elim x Prod.fst).priority p (yield p k) k)))

/-- `clockintr` on the core that counts the ticks. -/
def clockintr (policy : Policy) (boosts : Bool) (k : Code NPROC Core) : Code NPROC Core :=
  .acquire .tickslock (.act (fun _ => .tick) (wakeup (some .ticks) (.release .tickslock
    (updateTime (if policy = .mlfq ∧ boosts then mlfqBoost k else k)))))

/-- A timer interrupt in user mode. A process that was killed goes into `kexit`, and not on to
`mlfq_tick`. -/
def usertrap (policy : Policy) (p : Fin NPROC) (clock boosts : Bool) (children : ℕ)
    (parent : Option Chan) : Code NPROC Core :=
  let behind := killed p fun isKilled =>
    if isKilled then kexit p (-1) children parent
    else if policy = .mlfq then mlfqTick p .done
    else .done
  if clock then clockintr policy boosts behind else behind

/-- Code under a lock of another part of the kernel, if any. -/
def under (outer : Option ℕ) (body : Code NPROC Core → Code NPROC Core) (k : Code NPROC Core) :
    Code NPROC Core :=
  outer.elim (body k) fun address =>
    .acquire (.other address) (body (.release (.other address) k))

/-- Where a new process starts. -/
def forkret (p : Fin NPROC) : Code NPROC Core :=
  .release (.proc p) .done

end Code

/-- What a process may call; in user mode it may take a timer interrupt. -/
inductive Call (NPROC : ℕ) where
  | kfork (memory : Bool)
  | kexit (status : Int) (children : ℕ) (parent : Option Chan)
  | kwait (children : List (Fin NPROC)) (copied : Bool)
  | kkill (pid : Int)
  | setkilled
  | killed
  | sleepPrepare (outer : Option ℕ) (chan : Chan)
  | sleep
  | wakeup (outer : Option ℕ) (chan : Chan)
  | usertrap (clock boosts : Bool) (children : ℕ) (parent : Option Chan)

def Call.code (policy : Policy) (p : Fin NPROC) : Call NPROC → Code NPROC Core
  | kfork memory => .kfork memory .done
  | kexit status children parent => .kexit p status children parent
  | kwait children copied => .kwait p children copied .done
  | kkill pid => .kkill pid .done
  | setkilled => .setkilled p .done
  | killed => .killed p fun _ => .done
  | sleepPrepare outer chan => .under outer (.sleepPrepare p chan) .done
  | sleep => .sleep p .done
  | wakeup outer chan => .under outer (.wakeup (some chan)) .done
  | usertrap clock boosts children parent => .usertrap policy p clock boosts children parent

/-- What comes to `kerneltrap`; on a core that does not count the ticks `clock` is false. -/
inductive Interrupt where
  | timer (clock boosts : Bool)
  | device (outer : Option ℕ) (chan : Chan)

/-- The code of an interrupt taken before `k`. -/
def Interrupt.code (policy : Policy) (p : Option (Fin NPROC)) (k : Code NPROC Core) :
    Interrupt → Code NPROC Core
  | timer clock boosts =>
    let tick := if policy = .mlfq then p.elim k (Code.mlfqTick · k) else k
    if clock then .clockintr policy boosts tick else tick
  | device outer chan => .under outer (.wakeup (some chan)) k

/-- Where a core is: in code, at a point of a scan, or in the scheduler behind a switch. -/
inductive Control (NPROC : ℕ) (Core : Type*) where
  | code (k : Code NPROC Core)
  | scan (rest : List (Fin NPROC)) (best : Option (Fin NPROC))
  | look (p : Fin NPROC) (rest : List (Fin NPROC)) (best : Option (Fin NPROC))
  | swap (p : Fin NPROC) (rest : List (Fin NPROC)) (old : Fin NPROC)
  | pass (p : Fin NPROC) (rest : List (Fin NPROC)) (best : Option (Fin NPROC))
  | back (p : Fin NPROC)

structure Machine (NPROC : ℕ) (Core : Type*) where
  base : State NPROC Core
  locks : Locks (Lock NPROC) Core
  proc : Core → Option (Fin NPROC)
  control : Core → Control NPROC Core
  context : Fin NPROC → Code NPROC Core

inductive Step (NPROC : ℕ) (Core : Type*) where
  | run (c : Core)
  | start (c : Core)
  | call (c : Core) (r : Call NPROC)
  | interrupt (c : Core) (i : Interrupt)

def Machine.boot [DecidableEq Core] : Machine NPROC Core where
  base := (sections NPROC Core).exec userinit .boot
  locks := .free
  proc _ := none
  control _ := .code .done
  context := Code.forkret

/-- A scan of the policy changes a slot it looks at like this. -/
def Policy.visit [DecidableEq Core] (policy : Policy) (p : Fin NPROC) (s : State NPROC Core) :
    State NPROC Core :=
  match policy with
  | fifo => s
  | mlfq => (Action.visit p).next s

def Policy.before (policy : Policy) (x best : Proc) : Bool :=
  match policy with
  | fifo => fifoBefore x best
  | mlfq => mlfqBefore x best

/-- The scan judges `p` better than `best`. -/
def Policy.better (policy : Policy) (p : Fin NPROC) (best : Option (Fin NPROC))
    (s : State NPROC Core) : Bool :=
  (s.procs p).state = .runnable && best.all fun b => policy.before (s.procs p) (s.procs b)

namespace Machine

variable [DecidableEq Core] (policy : Policy) (c : Core) (m : Machine NPROC Core)

def goto (control : Control NPROC Core) : Machine NPROC Core :=
  { m with control := Function.update m.control c control }

def acquire (l : Lock NPROC) : Machine NPROC Core :=
  { m with locks := m.locks.acquire c l }

def release (l : Lock NPROC) : Machine NPROC Core :=
  { m with locks := m.locks.release c l }

/-- An allocation also sets the context of the new process. -/
def act (a : Action NPROC Core) : Machine NPROC Core :=
  { m with
    base := a.next m.base
    context := match a with
      | .alloc p => Function.update m.context p (Code.forkret p)
      | _ => m.context }

def runCode : Code NPROC Core → Machine NPROC Core
  | .done | .panicked => m
  | .acquire l k => (m.acquire c l).goto c (.code k)
  | .release l k => (m.release c l).goto c (.code k)
  | .act a k => (m.act (a c)).goto c (.code k)
  | .read p k => m.goto c (.code (k (m.base.procs p)))
  | .sched k =>
    match m.proc c with
    | none => m
    | some p => { m with context := Function.update m.context p k }.goto c (.back p)

def run : Control NPROC Core → Machine NPROC Core
  | .code k => m.runCode c k
  | .scan (p :: rest) best => (m.acquire c (.proc p)).goto c (.look p rest best)
  | .look p rest best =>
    let m := { m with base := policy.visit p m.base }
    if policy.better p best m.base then
      m.goto c (best.elim (.scan rest (some p)) (.swap p rest))
    else m.goto c (.pass p rest best)
  | .swap p rest old => (m.release c (.proc old)).goto c (.scan rest (some p))
  | .pass p rest best => (m.release c (.proc p)).goto c (.scan rest best)
  | .scan [] none => m.goto c (.code .done)
  | .scan [] (some p) =>
    { m.act (.dispatch c p) with proc := Function.update m.proc c (some p) }.goto c
      (.code (m.context p))
  | .back p =>
    { m with proc := Function.update m.proc c none }.goto c (.code (.release (.proc p) .done))

def next : Step NPROC Core → Machine NPROC Core
  | .run c => m.run policy c (m.control c)
  | .start c => m.goto c (.scan (List.finRange NPROC) none)
  | .call c r => (m.proc c).elim m fun p => m.goto c (.code (r.code policy p))
  | .interrupt c i =>
    match m.control c with
    | .code k => m.goto c (.code (i.code policy (m.proc c) k))
    | _ => m

/-- Whether the core can go on by itself: a lock it asks for must be free. -/
def canRun : Control NPROC Core → Prop
  | .code .done | .code .panicked => False
  | .code (.acquire l _) => m.locks.holder l = none
  | .scan (p :: _) _ => m.locks.holder (.proc p) = none
  | .code (.release _ _) | .code (.act _ _) | .code (.read _ _) | .code (.sched _) | .scan [] _
  | .look _ _ _ | .swap _ _ _ | .pass _ _ _ | .back _ => True

def can : Step NPROC Core → Prop
  | .run c => m.canRun (m.control c)
  | .start c => (m.control c matches .code .done) ∧ m.proc c = none
  | .call c _ => (m.control c matches .code .done) ∧ (m.proc c).isSome
  | .interrupt c _ => (m.control c matches .code _) ∧ m.locks.noff c = 0

end Machine

instance [DecidableEq Core] (m : Machine NPROC Core) :
    ∀ control : Control NPROC Core, Decidable (m.canRun control)
  | .code .done | .code .panicked => .isFalse id
  | .code (.acquire l _) => inferInstanceAs (Decidable (m.locks.holder l = none))
  | .scan (p :: _) _ => inferInstanceAs (Decidable (m.locks.holder (.proc p) = none))
  | .code (.release _ _) | .code (.act _ _) | .code (.read _ _) | .code (.sched _) | .scan [] _
  | .look _ _ _ | .swap _ _ _ | .pass _ _ _ | .back _ => .isTrue trivial

instance [DecidableEq Core] (m : Machine NPROC Core) : ∀ a : Step NPROC Core, Decidable (m.can a)
  | .run c => inferInstanceAs (Decidable (m.canRun (m.control c)))
  | .start c => inferInstanceAs (Decidable ((m.control c matches .code .done) = true ∧ _ = none))
  | .call c _ => inferInstanceAs (Decidable ((m.control c matches .code .done) = true ∧ _ = true))
  | .interrupt c _ => inferInstanceAs (Decidable ((m.control c matches .code _) = true ∧ _ = 0))

/-- The critical sections of a step. -/
def Machine.actions (policy : Policy) (m : Machine NPROC Core) :
    Step NPROC Core → List (Action NPROC Core)
  | .run c =>
    match m.control c with
    | .code (.act a _) => [a c]
    | .look p _ _ => if policy = .mlfq then [.visit p] else []
    | .scan [] (some p) => [.dispatch c p]
    | _ => []
  | _ => []

/-- The critical sections of the build. -/
def Policy.sections (policy : Policy) (NPROC : ℕ) (Core : Type*) [DecidableEq Core] :
    System (Action NPROC Core) (State NPROC Core) :=
  match policy with
  | fifo => Kernel.sections NPROC Core
  | mlfq => mlfqSections NPROC Core

/-- The cores and their locks. -/
def machine (NPROC : ℕ) (Core : Type*) [DecidableEq Core] (policy : Policy) :
    System (Step NPROC Core) (Machine NPROC Core) where
  can a m := m.can a
  next a m := m.next policy a

instance [DecidableEq Core] (policy : Policy) (a : Step NPROC Core) (m : Machine NPROC Core) :
    Decidable ((machine NPROC Core policy).can a m) :=
  inferInstanceAs (Decidable (m.can a))

end Kernel

end CShellXv6
