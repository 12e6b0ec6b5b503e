import CShellXv6.Lib.Runs
import CShellXv6.Shell.Parser

/-!
# The job table

The five parallel arrays of the job table are a list of entries, as long as `job_count`; an entry
is known by its index, one less than the number the user sees. A step of the shell is a system
call with what is done to the table behind it, and carries the call's result: the pid and status a
`waitpid` returns, the pid of a `fork`, whether `kill` failed.

SIGCHLD is blocked in every command, so that the handler starts only where the shell is `idle`.
-/

namespace CShellXv6

namespace Shell

namespace Jobs

def maxJobs : ℕ := 1024

structure Job where
  pid : ℕ
  name : List Char
  command : List Char
  live : Bool
  stopped : Bool
  leaderDone : Bool
  deriving DecidableEq, Repr

/-- A status as `waitpid` gives it; `normal` is WIFEXITED. -/
inductive Status where
  | ended (normal : Bool)
  | stopped
  | continued
  deriving DecidableEq, Repr

/-- What the shell prints about jobs. -/
inductive Line where
  | launched (job pid : ℕ)
  | report (job : ℕ) (name : List Char) (pid : ℕ) (normal : Bool)
  | stopped (job : ℕ) (command : List Char)
  | running (job : ℕ) (command : List Char)
  | resumed (command : List Char)
  | tooManyBackgroundJobs
  | tooManyJobs
  | noSuchJob
  | timedOut
  deriving DecidableEq, Repr

section Table

/-- The first word without its `%`, cut to the 31 characters `job_name` holds. -/
def jobName (tokens : List Token) : List Char :=
  let name := (tokens.head?.map Token.text).getD "unknown".toList
  (match name with
    | '%' :: rest => rest
    | _ => name).take 31

def saveLoop : List Token → List Char → List Char
  | [], command => command
  | t :: rest, command =>
    if command.length < 255 then
      let command := if command = [] then command else command ++ [' ']
      saveLoop rest (command ++ t.text.take (255 - command.length))
    else command

/-- `save_command`: the texts with blanks between them, cut to 255 characters. -/
def saveCommand (tokens : List Token) : List Char :=
  saveLoop tokens []

def newJob (pid : ℕ) (tokens : List Token) (stopped : Bool) : Job :=
  ⟨pid, jobName tokens, saveCommand tokens, true, stopped, false⟩

def Job.setStopped (value : Bool) (j : Job) : Job :=
  { j with stopped := value }

def Job.finish (j : Job) : Job :=
  { j with live := false, stopped := false }

/-- What the handler writes on a status of the leader. -/
def Job.note (status : Status) (j : Job) : Job :=
  match status with
  | .stopped => j.setStopped true
  | .continued => j.setStopped false
  | .ended _ => { j with leaderDone := true }

/-- What the handler prints on it. -/
def Job.reports (i : ℕ) (status : Status) (j : Job) : List Line :=
  match status with
  | .ended normal => if j.leaderDone then [] else [.report i j.name j.pid normal]
  | .stopped | .continued => []

/-- The second loop of the handler, and the end of `note_traced_exit`: `absent` says that
`kill(-pid, 0)` failed. -/
def Job.sweep (absent : Bool) (j : Job) : Job :=
  if j.live ∧ j.leaderDone ∧ absent then j.finish else j

variable (jobs : List Job)

/-- `find_job`: the index and the group of a live job. -/
def findJob (number : Int) : Option (ℕ × ℕ) :=
  if number - 1 < 0 then none
  else
    match jobs[(number - 1).toNat]? with
    | none => none
    | some j => if j.live then some ((number - 1).toNat, j.pid) else none

def setJobStopped (index : ℕ) (value : Bool) : List Job :=
  jobs.modify index (·.setStopped value)

def finishJob (index : ℕ) : List Job :=
  jobs.modify index (·.finish)

/-- `add_stopped_job`: a full table takes no entry. -/
def addStoppedJob (pgid : ℕ) (tokens : List Token) : Option (List Job) :=
  if jobs.length = maxJobs then none else some (jobs ++ [newJob pgid tokens true])

def hasStoppedJobs : Bool :=
  jobs.any fun j => j.live && j.stopped

def commandText (index : ℕ) : List Char :=
  (jobs[index]?.map Job.command).getD []

/-- The inner loop of the handler, which ends at the first live entry with this pid. -/
def noteChild (pid : ℕ) (status : Status) : List Job × List Line :=
  match jobs.findIdx? fun j => j.live && j.pid == pid with
  | none => (jobs, [])
  | some i => (jobs.modify i (·.note status), (jobs[i]?.map (·.reports i status)).getD [])

/-- The loop of `note_traced_exit`, which passes over an entry whose leader is done. -/
def noteTracedExit (pid : ℕ) (normal absent : Bool) : List Job × List Line :=
  match jobs.findIdx? fun j => j.live && j.pid == pid && !j.leaderDone with
  | none => (jobs, [])
  | some i =>
    (jobs.modify i fun j => (j.note (.ended normal)).sweep absent,
      (jobs[i]?.map (·.reports i (.ended normal))).getD [])

end Table

/-- Where the shell is: `made` are the children forked for a command, `todo` those whose status it
has still to wait for, and `byPid` tells `snoop -p` from `snoop` on a command. -/
inductive Phase where
  | idle
  | reaping
  | sweeping (i : ℕ)
  | launching (tokens : List Token) (made : List ℕ)
  | starting (tokens : List Token) (made : List ℕ)
  | waiting (tokens : List Token) (leader : ℕ) (todo : List ℕ) (stopped : Bool)
  | resuming (index pgid : ℕ) (timed : Bool)
  | attaching (pid : ℕ) (byPid : Bool)
  | tracing (pid : ℕ) (byPid : Bool)
  | detaching (pid : ℕ)
  deriving DecidableEq, Repr

/-- The leader of the command in progress. -/
def Phase.leader : Phase → Option ℕ
  | launching _ made | starting _ made => made.head?
  | waiting _ leader _ _ => some leader
  | _ => none

structure State where
  jobs : List Job
  phase : Phase
  out : List Line
  deriving DecidableEq, Repr

def State.boot : State := ⟨[], .idle, []⟩

/-- `signal` to `handled` are the SIGCHLD handler; `launch` is `runbuff` and `command` a foreground
command or pipeline, each with a `fork` for every child and `forked` behind the last. -/
inductive Step where
  | signal
  | reap (pid : ℕ) (status : Status)
  | reapEnd
  | sweep (absent : Bool)
  | handled
  | launch (tokens : List Token)
  | command (tokens : List Token)
  | fork (pid : ℕ)
  | forked
  | wait (status : Status)
  | waited
  | resume (number : ℕ) (foreground timed : Bool)
  | waitGroup (pid : ℕ) (status : Status)
  | groupDone
  | timeout
  | ping (number : ℕ)
  | attach (pid : ℕ)
  | snoop (pid : ℕ)
  | attached (status : Status)
  | traced (status : Status) (absent : Bool)
  | traceLost
  | interrupt
  | detached (status : Status)
  deriving DecidableEq, Repr

namespace State

variable (s : State)

/-- `runbuff` behind its last fork. -/
def enterLaunched (tokens : List Token) : List ℕ → State
  | [] => { s with phase := .idle }
  | leader :: _ =>
    ⟨s.jobs ++ [newJob leader tokens false], .idle, s.out ++ [.launched s.jobs.length leader]⟩

/-- The end of the foreground wait. -/
def enterStopped (tokens : List Token) (leader : ℕ) (stopped : Bool) : State :=
  if stopped then
    match addStoppedJob s.jobs leader tokens with
    | none => { s with phase := .idle, out := s.out ++ [.tooManyJobs] }
    | some jobs => ⟨jobs, .idle, s.out ++ [.stopped s.jobs.length (commandText jobs s.jobs.length)]⟩
  else { s with phase := .idle }

/-- `run_resume` up to the wait for the group. -/
def resume (number : ℕ) (foreground timed : Bool) : State :=
  match if 0 < number ∧ number ≤ 100000 then findJob s.jobs number else none with
  | none => { s with out := s.out ++ [.noSuchJob] }
  | some (index, pgid) =>
    if foreground then
      ⟨setJobStopped s.jobs index false, .resuming index pgid timed,
        s.out ++ [.resumed (commandText s.jobs index)]⟩
    else
      { s with
        jobs := setJobStopped s.jobs index false
        out := s.out ++ [.running index (commandText s.jobs index)] }

end State

namespace Step

/-- What the signal mask and the command in progress allow. -/
def allowed (a : Step) (count : ℕ) (φ : Phase) : Bool :=
  match a, φ with
  | signal, .idle | launch _, .idle | command _, .idle | resume _ _ _, .idle | ping _, .idle
  | attach _, .idle | snoop _, .idle => true
  | reap _ _, .reaping | reapEnd, .reaping => true
  | sweep _, .sweeping i => i < count
  | handled, .sweeping i => i = count
  | fork _, .launching _ _ | fork _, .starting _ _ => true
  | forked, .launching _ _ | forked, .starting _ _ => true
  | wait _, .waiting _ _ (_ :: _) _ | waited, .waiting _ _ [] _ => true
  | waitGroup _ _, .resuming _ _ _ | groupDone, .resuming _ _ _ => true
  | timeout, .resuming _ _ timed => timed
  | attached _, .attaching _ _ => true
  | traced _ _, .tracing _ _ | traceLost, .tracing _ _ => true
  | interrupt, .tracing _ byPid => byPid
  | detached _, .detaching _ => true
  | _, _ => false

def next (a : Step) (s : State) : State :=
  match a, s.phase with
  | signal, .idle => { s with phase := .reaping }
  | reap pid status, .reaping =>
    let (jobs, lines) := noteChild s.jobs pid status
    { s with jobs := jobs, out := s.out ++ lines }
  | reapEnd, .reaping => { s with phase := .sweeping 0 }
  | sweep absent, .sweeping i =>
    { s with jobs := s.jobs.modify i (·.sweep absent), phase := .sweeping (i + 1) }
  | handled, .sweeping _ => { s with phase := .idle }
  | launch tokens, .idle =>
    if s.jobs.length = maxJobs then { s with out := s.out ++ [.tooManyBackgroundJobs] }
    else { s with phase := .launching tokens [] }
  | command tokens, .idle => { s with phase := .starting tokens [] }
  | fork pid, .launching tokens made => { s with phase := .launching tokens (made ++ [pid]) }
  | fork pid, .starting tokens made => { s with phase := .starting tokens (made ++ [pid]) }
  | forked, .launching tokens made => s.enterLaunched tokens made
  | forked, .starting _ [] => { s with phase := .idle }
  | forked, .starting tokens (leader :: rest) =>
    { s with phase := .waiting tokens leader (leader :: rest) false }
  | wait status, .waiting tokens leader (_ :: todo) stopped =>
    { s with phase := .waiting tokens leader todo (stopped || status = .stopped) }
  | waited, .waiting tokens leader [] stopped => s.enterStopped tokens leader stopped
  | resume number foreground timed, .idle => s.resume number foreground timed
  | waitGroup _ .stopped, .resuming index _ _ =>
    ⟨setJobStopped s.jobs index true, .idle,
      s.out ++ [.stopped index (commandText s.jobs index)]⟩
  | groupDone, .resuming index _ _ => { s with jobs := finishJob s.jobs index, phase := .idle }
  | timeout, .resuming index _ _ =>
    ⟨finishJob s.jobs index, .idle, s.out ++ [.timedOut]⟩
  | attach pid, .idle => { s with phase := .attaching pid true }
  | snoop pid, .idle => { s with phase := .attaching pid false }
  | attached status, .attaching pid byPid =>
    { s with phase := if status = .stopped then .tracing pid byPid else .idle }
  | traced (.ended normal) absent, .tracing pid byPid =>
    if byPid then
      let (jobs, lines) := noteTracedExit s.jobs pid normal absent
      ⟨jobs, .idle, s.out ++ lines⟩
    else { s with phase := .idle }
  | traceLost, .tracing _ _ => { s with phase := .idle }
  | interrupt, .tracing pid _ => { s with phase := .detaching pid }
  | detached _, .detaching _ => { s with phase := .idle }
  | _, _ => s

/-- The step asks for an entry: `runbuff` at its start, and the end of a foreground wait that has
seen a stop. -/
def asks (a : Step) (φ : Phase) : Bool :=
  match a, φ with
  | launch _, .idle | waited, .waiting _ _ [] true => true
  | _, _ => false

/-- The step is refused an entry. -/
def refused (a : Step) (s : State) : Bool :=
  (a.next s).out = s.out ++ [.tooManyBackgroundJobs] || (a.next s).out = s.out ++ [.tooManyJobs]

/-- The job that is started by the step, as it enters the table. -/
def started (a : Step) (s : State) : List Job :=
  match a, s.phase with
  | forked, .launching tokens (leader :: _) => [newJob leader tokens false]
  | waited, .waiting tokens leader [] true =>
    if s.jobs.length = maxJobs then [] else [newJob leader tokens true]
  | _, _ => []

end Step

/-- The number of live jobs. -/
def liveCount (jobs : List Job) : ℕ :=
  jobs.countP Job.live

end Jobs

/-- The shell with every result its system calls may have. -/
def jobTable : System Jobs.Step Jobs.State where
  can a s := a.allowed s.jobs.length s.phase = true
  next := Jobs.Step.next

instance (a : Jobs.Step) (s : Jobs.State) : Decidable (jobTable.can a s) :=
  inferInstanceAs (Decidable (_ = true))

end Shell

end CShellXv6
