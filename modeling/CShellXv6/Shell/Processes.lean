import CShellXv6.Shell.Jobs

/-!
# The shell and its processes

The processes a run of the shell has to do with, and what the kernel lets each of its system calls
return. A process is a child of the shell only if the shell forked it, and stays in the table as a
zombie until its parent has waited for it. A new process gets any pid that is not the id of a
process or of a group. Signals show as the steps of the processes that get them; `mayKill` tells
whether the shell is permitted to send them.

A process is known for good by the number of its birth; `leaders` and `reaped` keep these numbers
for the jobs and for what was waited for. What the shell forks starts as a copy of it, with a copy
of the job table, and runs `snoop -p` there if that is the command.
-/

namespace CShellXv6

namespace Shell

namespace Jobs

inductive Life where
  | running
  | stopped
  | zombie (normal : Bool)
  deriving DecidableEq, Repr

/-- `unreported` is a stop or a continue that no wait has returned. -/
structure Proc where
  id : ℕ
  pid : ℕ
  pgid : ℕ
  child : Bool
  life : Life
  unreported : Option Status
  mayKill : Bool
  deriving DecidableEq, Repr

namespace Proc

def alive (p : Proc) : Bool :=
  match p.life with
  | .running | .stopped => true
  | .zombie _ => false

/-- A wait for `p` may return this status. -/
def shows (p : Proc) : Status → Bool
  | .ended normal => p.life = .zombie normal
  | status => p.unreported = some status

end Proc

/-- Who waited for a process. -/
inductive Reaper where
  | handler
  | foreground
  | resume
  | trace
  | attach
  | detach
  deriving DecidableEq, Repr

/-- What a step of the shell is to the kernel: a fork into a group, or a wait that returns. -/
inductive Syscall where
  | fork (pid pgid : ℕ)
  | wait (pid : ℕ) (status : Status) (who : Reaper)
  | other
  deriving DecidableEq, Repr

structure Machine where
  shell : State
  procs : List Proc
  births : ℕ
  leaders : List (Option ℕ)
  reaped : List (ℕ × Reaper × Bool)
  copies : List (List Job)
  copyOut : List Line
  deriving DecidableEq, Repr

inductive Event where
  | shell (a : Step)
  | spawn (pid pgid : ℕ) (mayKill : Bool)
  | move (pid pgid : ℕ)
  | exit (pid : ℕ) (normal : Bool)
  | stop (pid : ℕ)
  | cont (pid : ℕ)
  | setuid (pid : ℕ) (mayKill : Bool)
  | vanish (pid : ℕ)
  | copyTraced (copy pid : ℕ) (normal : Bool)
  deriving DecidableEq, Repr

namespace Machine

variable (m : Machine)

def boot : Machine := ⟨.boot, [], 0, [], [], [], []⟩

/-- Neither a process nor a group has this id. -/
def unused (pid : ℕ) : Bool :=
  m.procs.all fun p => p.pid ≠ pid && p.pgid ≠ pid

def any (pid : ℕ) (f : Proc → Bool) : Bool :=
  m.procs.any fun p => p.pid = pid && f p

/-- `kill(-pgid, 0)` fails: no process of the group may be signalled. -/
def killFails (pgid : ℕ) : Bool :=
  m.procs.all fun p => p.pgid ≠ pgid || !p.mayKill

/-- Every process of the group may be signalled. -/
def signallable (pgid : ℕ) : Bool :=
  m.procs.all fun p => p.pgid ≠ pgid || p.mayKill

/-- The group can be joined by the process `pid`. -/
def joinable (pid pgid : ℕ) : Bool :=
  pgid = pid || m.procs.any fun p => p.pgid = pgid

def born (pid pgid : ℕ) (child mayKill : Bool) : Machine :=
  { m with
    procs := m.procs ++ [⟨m.births, pid, pgid, child, .running, none, mayKill⟩]
    births := m.births + 1 }

def update (pid : ℕ) (f : Proc → Proc) : Machine :=
  { m with procs := m.procs.map fun p => if p.pid = pid then f p else p }

def remove (pid : ℕ) : Machine :=
  { m with procs := m.procs.filter fun p => p.pid ≠ pid }

/-- A wait has returned this status of the process `pid`; a child that has ended is gone. -/
def collect (pid : ℕ) (status : Status) (who : Reaper) : Machine :=
  match status with
  | .ended normal =>
    if m.any pid (·.child) then
      { m.remove pid with
        reaped :=
          m.reaped ++ ((m.procs.find? (·.pid = pid)).map fun p => (p.id, who, normal)).toList }
    else m
  | .stopped | .continued => m.update pid ({ · with unreported := none })

/-- What a wait of the tracer may return. -/
def tracee (pid : ℕ) : Status → Bool
  | .ended normal => m.any pid (·.life = .zombie normal)
  | .stopped => m.any pid (·.alive)
  | .continued => false

def call (a : Step) : Syscall :=
  match a, m.shell.phase with
  | .reap pid status, _ => .wait pid status .handler
  | .fork pid, φ => .fork pid (φ.leader.getD pid)
  | .wait status, .waiting _ _ (pid :: _) _ => .wait pid status .foreground
  | .waitGroup pid status, _ => .wait pid status .resume
  | .snoop pid, _ => .fork pid pid
  | .attached status, .attaching pid _ => .wait pid status .attach
  | .traced status _, .tracing pid _ => .wait pid status .trace
  | .detached status, .detaching pid => .wait pid status .detach
  | _, _ => .other

def perform : Syscall → Machine
  | .fork pid pgid => { m.born pid pgid true true with copies := m.copies ++ [m.shell.jobs] }
  | .wait pid status who => m.collect pid status who
  | .other => m

/-- What the kernel lets the call in `a` return. -/
def grants (a : Step) : Bool :=
  match a, m.shell.phase with
  | .reap pid status, _ => m.any pid fun p => p.child && p.shows status
  | .reapEnd, _ => m.procs.all fun p => !p.child || (p.alive && p.unreported = none)
  | .sweep absent, .sweeping i => m.shell.jobs[i]?.all fun j => absent = m.killFails j.pid
  | .fork pid, _ | .snoop pid, _ => m.unused pid
  | .wait status, .waiting _ _ (pid :: _) _ =>
    status ≠ .continued && m.any pid fun p => p.child && p.shows status
  | .waitGroup pid status, .resuming _ pgid _ =>
    status ≠ .continued && m.any pid fun p => p.child && p.pgid = pgid && p.shows status
  | .groupDone, .resuming _ pgid _ => m.procs.all fun p => !p.child || p.pgid ≠ pgid
  | .attach pid, _ => m.any pid (·.alive)
  | .attached status, .attaching pid _ | .detached status, .detaching pid => m.tracee pid status
  | .traced status absent, .tracing pid _ =>
    m.tracee pid status && absent = (m.perform (m.call a)).killFails pid
  | _, _ => true

/-- The numbers of the leaders, for the jobs a step has entered. -/
def entered (jobs : List Job) : List (Option ℕ) :=
  (jobs.drop m.shell.jobs.length).map fun j => (m.procs.find? (·.pid = j.pid)).map Proc.id

end Machine

namespace Event

def next (e : Event) (m : Machine) : Machine :=
  match e with
  | shell a =>
    let s := a.next m.shell
    { m.perform (m.call a) with shell := s, leaders := m.leaders ++ m.entered s.jobs }
  | spawn pid pgid mayKill => m.born pid pgid false mayKill
  | move pid pgid => m.update pid ({ · with pgid := pgid })
  | exit pid normal => m.update pid ({ · with life := .zombie normal, unreported := none })
  | stop pid => m.update pid ({ · with life := .stopped, unreported := some .stopped })
  | cont pid => m.update pid ({ · with life := .running, unreported := some .continued })
  | setuid pid mayKill => m.update pid ({ · with mayKill := mayKill })
  | vanish pid => m.remove pid
  | copyTraced copy pid normal =>
    let (jobs, lines) := noteTracedExit (m.copies.getD copy []) pid normal (m.killFails pid)
    { m with copies := m.copies.set copy jobs, copyOut := m.copyOut ++ lines }

def can (e : Event) (m : Machine) : Bool :=
  match e with
  | shell a => a.allowed m.shell.jobs.length m.shell.phase && m.grants a
  | spawn pid pgid _ => m.unused pid && m.joinable pid pgid
  | move pid pgid => m.any pid (·.alive) && m.joinable pid pgid
  | exit pid _ | setuid pid _ => m.any pid (·.alive)
  | stop pid => m.any pid (·.life = .running)
  | cont pid => m.any pid (·.life = .stopped)
  | vanish pid => m.any pid fun p => !p.child && !p.alive
  | copyTraced copy pid normal => copy < m.copies.length && m.any pid (·.life = .zombie normal)

end Event

/-- The group has no process any more. -/
def Machine.Gone (m : Machine) (pgid : ℕ) : Prop :=
  ∀ p ∈ m.procs, p.pgid ≠ pgid

instance (m : Machine) (pgid : ℕ) : Decidable (m.Gone pgid) :=
  inferInstanceAs (Decidable (∀ p ∈ m.procs, p.pgid ≠ pgid))

/-- Who waited for the process with this number of birth, and whether it had exited normally. -/
def Machine.reaper (m : Machine) (id : ℕ) : Option (Reaper × Bool) :=
  (m.reaped.find? fun r => r.1 = id).map Prod.snd

/-- The lines that announce the job with this index and report its end. -/
def Line.about (i : ℕ) : Line → Bool
  | launched job _ | report job _ _ _ => job = i
  | _ => false

def State.about (s : State) (i : ℕ) : List Line :=
  s.out.filter (Line.about i)

/-- What is to be printed about the background job with index `i`, by who has waited for its
leader. -/
def Job.story (i : ℕ) (j : Job) : Option (Reaper × Bool) → List Line
  | some (.handler, normal) | some (.trace, normal) =>
    [.launched i j.pid, .report i j.name j.pid normal]
  | _ => [.launched i j.pid]

namespace Event

variable (e : Event) (m : Machine)

/-- A new process does not take the pid of a job that is still marked live. -/
def fresh : Bool :=
  match e with
  | shell (.fork pid) | shell (.snoop pid) | spawn pid _ _ =>
    m.shell.jobs.all fun j => !j.live || j.pid ≠ pid
  | _ => true

/-- The leader of a live job, or of the command in progress, does not leave its group. -/
def loyal : Bool :=
  match e with
  | move pid pgid =>
    (m.procs.all fun p => p.pid ≠ pid || p.pgid = pgid)
      || m.shell.phase.leader ≠ some pid && m.shell.jobs.all fun j => !j.live || j.pid ≠ pid
  | _ => true

/-- The waits of `snoop -p` that look at no status do not return the end of the leader of a live
job. -/
def noted : Bool :=
  match e, m.shell.phase with
  | shell (.attached (.ended _)), .attaching pid _ | shell (.detached (.ended _)), .detaching pid =>
    m.shell.jobs.all fun j => !j.live || j.pid ≠ pid || j.leaderDone
  | _, _ => true

/-- Where a stopped command enters the table, or a resumed job is put back as stopped, its leader
has not been waited for, or its end is on record. -/
def led : Bool :=
  match e, m.shell.phase with
  | shell .waited, .waiting _ leader _ stopped => !stopped || m.any leader (·.child)
  | shell (.waitGroup _ .stopped), .resuming index pgid _ =>
    m.any pgid (·.child) || m.shell.jobs[index]?.any (·.leaderDone)
  | _, _ => true

/-- No `--timeout` runs out. -/
def untimed : Bool :=
  match e with
  | shell .timeout => false
  | _ => true

/-- No copy of the shell traces to its end a process it takes for the leader of a job. -/
def uncopied : Bool :=
  match e with
  | copyTraced copy pid _ =>
    (m.copies.getD copy []).all fun j => !j.live || j.pid ≠ pid || j.leaderDone
  | _ => true

/-- A group without children of the shell has no process, and every process of a group that is
probed may be signalled. The handler probes the groups of live jobs whose leader is done, and
`note_traced_exit` that of the entry it finds, behind the wait for the leader. -/
def within : Bool :=
  match e, m.shell.phase with
  | shell .groupDone, .resuming _ pgid _ => m.procs.all fun p => p.pgid ≠ pgid || p.child
  | shell (.sweep _), .sweeping i =>
    m.shell.jobs[i]?.all fun j => !(j.live && j.leaderDone) || m.signallable j.pid
  | shell (.traced (.ended normal) absent), .tracing pid true =>
    !(m.shell.jobs.any fun j => j.live && j.pid == pid && !j.leaderDone)
      || (m.perform (m.call (.traced (.ended normal) absent))).signallable pid
  | _, _ => true

/-- The end of every job comes to be known. -/
def tracked : Bool :=
  e.fresh m && e.loyal m && e.noted m && e.led m

/-- No job is given up while it has processes. -/
def patient : Bool :=
  e.untimed && e.within m

/-- The end of every leader comes to be reported. -/
def reported : Bool :=
  e.fresh m && e.loyal m && e.noted m && e.untimed && e.uncopied m

end Event

end Jobs

/-- The shell, its children and everybody else. -/
def jobControl : System Jobs.Event Jobs.Machine where
  can e m := e.can m = true
  next := Jobs.Event.next

instance (e : Jobs.Event) (m : Jobs.Machine) : Decidable (jobControl.can e m) :=
  inferInstanceAs (Decidable (_ = true))

end Shell

end CShellXv6
