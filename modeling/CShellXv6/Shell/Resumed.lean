import CShellXv6.Shell.Processes
import CShellXv6.Shell.Relay

/-!
# A redirected command that is stopped

When the command it copies for is stopped, `wait_with_relay` returns, and `run_external` enters the
job and closes the pipe and the targets. The command stays a process of the machine, where `resume`
continues it. Its writes then find a pipe without a reader: it gets SIGPIPE or, if it ignores the
signal, EPIPE.

The exit and the stops of the command are steps of the machine, which the relay is told of.
-/

namespace CShellXv6

namespace Shell

namespace Resumed

/-- `closed` says that `run_external` has called `output_redirect_destroy`. -/
structure State where
  relay : Relay.State
  machine : Jobs.Machine
  closed : Bool
  deriving DecidableEq, Repr

/-- `command` is a step of the command or of the loop that copies for it, `wait` the wait that ends
the loop, `entered` the end of it in the job table, and `event` whatever else goes on. -/
inductive Step where
  | command (a : Relay.Step)
  | wait (status : Jobs.Status)
  | entered
  | destroy
  | event (e : Jobs.Event)
  deriving DecidableEq, Repr

/-- Not a step of the machine, and not the wait that ends the loop. -/
def own (a : Relay.Step) (s : Relay.State) : Bool :=
  match a with
  | .exit | .stop | .continue => false
  | .waitpid => s.life ≠ .exited && !s.unreported
  | _ => true

/-- What a step of the machine is to the command. Once the command has ended, its pid may be the one
of another process. -/
def heard (child : ℕ) (e : Jobs.Event) (s : Relay.State) : Option Relay.Step :=
  if s.life = .running ∨ s.life = .stopped then
    match e with
    | .exit pid _ => if pid = child then some .exit else none
    | .stop pid => if pid = child then some .stop else none
    | .cont pid => if pid = child then some .continue else none
    | _ => none
  else none

def isShell : Jobs.Event → Bool
  | .shell _ => true
  | _ => false

/-- The loop is over, on a stop of the command or on its end. -/
def State.Returned (s : State) : Prop :=
  s.relay.pc = .returned true ∨ s.relay.pc = .returned false

instance (s : State) : Decidable s.Returned :=
  inferInstanceAs (Decidable (_ ∨ _))

/-- A write to a pipe without a reader gets nowhere. -/
def State.command (s : State) (a : Relay.Step) : State :=
  if s.closed then
    match a with
    | .childWrite bytes => { s with relay := { s.relay with wrote := s.relay.wrote ++ bytes } }
    | a => { s with relay := a.next false s.relay }
  else { s with relay := a.next false s.relay }

section Steps

variable (child : ℕ)

def Step.next (a : Step) (s : State) : State :=
  match a with
  | command a => s.command a
  | wait status =>
    { s with
      relay := s.relay.waitpid false
      machine := (Jobs.Event.shell (.wait status)).next s.machine }
  | entered => { s with machine := (Jobs.Event.shell .waited).next s.machine }
  | destroy => { s with relay := { s.relay with readFd := false, pipe := [] }, closed := true }
  | event e =>
    { s with
      relay := ((heard child e s.relay).map (·.next false s.relay)).getD s.relay
      machine := e.next s.machine }

/-- The shell goes on to its next command once `output_redirect_destroy` is behind it. -/
def Step.can (a : Step) (s : State) : Prop :=
  match a with
  | command a => own a s.relay = true ∧ a.can s.relay
  | wait status =>
    Relay.Step.waitpid.can s.relay ∧ (s.relay.waitpid false).pc = .returned (status = .stopped)
      ∧ jobControl.can (.shell (.wait status)) s.machine
  | entered => s.Returned ∧ s.closed = false ∧ jobControl.can (.shell .waited) s.machine
  | destroy => s.Returned ∧ s.closed = false ∧ s.machine.shell.phase = .idle
  | event e =>
    jobControl.can e s.machine ∧ (isShell e = true → s.closed = true)
      ∧ ∀ a ∈ heard child e s.relay, a.can s.relay

instance (a : Step) (s : State) : Decidable (a.can child s) :=
  match a with
  | .command _ | .wait _ | .entered | .destroy => inferInstanceAs (Decidable (_ ∧ _))
  | .event e =>
    have : Decidable (∀ a ∈ heard child e s.relay, a.can s.relay) :=
      match h : heard child e s.relay with
      | none => .isTrue (by simp)
      | some a => decidable_of_iff (a.can s.relay) (by simp)
    inferInstanceAs (Decidable (_ ∧ _ ∧ _))

end Steps

/-- The shell as it enters `wait_with_relay`, on a machine where it has forked the command. -/
def start (output : OutputRedirect) (m : Jobs.Machine) : State :=
  ⟨Relay.start output, m, false⟩

/-- The loop ended on a stop of the command. -/
def State.Stopped (s : State) : Prop :=
  s.relay.pc = .returned true

instance (s : State) : Decidable s.Stopped :=
  inferInstanceAs (Decidable (_ = _))

/-- The stop is reported when there is nothing in the pipe, and the command writes nothing from then
on. -/
def Kept (a : Step) (s : State) : Prop :=
  match a with
  | .wait .stopped => s.relay.pipe = []
  | .command (.childWrite bytes) => s.Stopped → bytes = []
  | _ => True

instance (a : Step) (s : State) : Decidable (Kept a s) :=
  match a with
  | .wait .stopped => inferInstanceAs (Decidable (s.relay.pipe = []))
  | .command (.childWrite bytes) => inferInstanceAs (Decidable (s.Stopped → bytes = []))
  | .wait (.ended _) | .wait .continued | .entered | .destroy | .event _ => .isTrue trivial
  | .command .childFork | .command .childClose | .command .heirClose | .command .exit
  | .command .stop | .command .continue | .command (.poll _) | .command (.read _)
  | .command (.write _) | .command .waitpid | .command .interrupted => .isTrue trivial

end Resumed

/-- A redirected command in the foreground, and the job it may become. -/
def redirectedJob (child : ℕ) : System Resumed.Step Resumed.State where
  can := Resumed.Step.can child
  next := Resumed.Step.next child

instance (child : ℕ) (a : Resumed.Step) (s : Resumed.State) :
    Decidable ((redirectedJob child).can a s) :=
  inferInstanceAs (Decidable (a.can child s))

end Shell

end CShellXv6
