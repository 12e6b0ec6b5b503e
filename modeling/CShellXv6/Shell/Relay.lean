import CShellXv6.Lib.Runs
import CShellXv6.Shell.Pipeline

/-!
# The redirection relay

`run_external` gives a command with `>` or `>>` targets one pipe for its standard output, and
`wait_with_relay` copies what comes out of it to every target. The child and the shell take their
steps in any order; a step of the shell is one system call.

What the child forks may keep the write end open behind its exit, so that the end of the pipe may
come late. The pipe takes any number of bytes, and a `read` behind a positive `poll` does not fail.
-/

namespace CShellXv6

namespace Shell

namespace Relay

inductive Life where
  | running
  | stopped
  | exited
  | reaped
  deriving DecidableEq, Repr

/-- Where `wait_with_relay` is: `write` is in the `write_all` for the target with this number,
which has taken `written` bytes of the buffer. -/
inductive Pc where
  | poll
  | read
  | write (target : ℕ) (buffer : List UInt8) (written : ℕ)
  | waitpid
  | returned (stopped : Bool)
  deriving DecidableEq, Repr

/-- `stdout` says whether the child still has the write end, `heirs` counts the others that have
it, and `unreported` is a stop that no wait has returned. `wrote` is all the child has written,
`pipe` what of it is unread, `received` what each target has got, and `writes` are the writes that
have been made, each with the number of its target. -/
structure State where
  life : Life
  unreported : Bool
  stdout : Bool
  heirs : ℕ
  wrote : List UInt8
  pipe : List UInt8
  readFd : Bool
  received : List (List UInt8)
  writes : List (ℕ × List UInt8)
  pc : Pc
  deriving DecidableEq, Repr

inductive Step where
  | childWrite (bytes : List UInt8)
  | childFork
  | childClose
  | heirClose
  | exit
  | stop
  | continue
  | poll (ready : Bool)
  | read (bytes : ℕ)
  | write (bytes : ℕ)
  | waitpid
  | interrupted
  deriving DecidableEq, Repr

/-- Some process has the write end. -/
def State.HasWriter (s : State) : Prop :=
  s.stdout = true ∨ 0 < s.heirs

instance (s : State) : Decidable s.HasWriter :=
  inferInstanceAs (Decidable (_ ∨ _))

/-- At the head of the loop: without a read end there is nothing to poll. -/
def State.loop (s : State) : State :=
  { s with pc := if s.readFd then .poll else .waitpid }

/-- What follows once a target has taken `written` bytes of the buffer. -/
def State.writeAll (s : State) (target : ℕ) (buffer : List UInt8) (written : ℕ) : State :=
  if written < buffer.length then { s with pc := .write target buffer written }
  else if target + 1 < s.received.length then { s with pc := .write (target + 1) buffer 0 }
  else s.loop

/-- A `write` of the next `bytes` bytes of the buffer. -/
def State.put (s : State) (target : ℕ) (buffer : List UInt8) (written bytes : ℕ) : State :=
  { s with
    received := s.received.modify target (· ++ (buffer.drop written).take bytes)
    writes := s.writes ++ [(target, (buffer.drop written).take bytes)] }.writeAll
    target buffer (written + bytes)

/-- A `read` that returns this many bytes; with none the read end is closed. -/
def State.read (s : State) (bytes : ℕ) : State :=
  if bytes = 0 then { s with readFd := false, pc := .waitpid }
  else { s with pipe := s.pipe.drop bytes, pc := .write 0 (s.pipe.take bytes) 0 }

/-- `waitpid` with WUNTRACED, and with WNOHANG while the read end is open. -/
def State.waitpid (s : State) (background : Bool) : State :=
  if s.life = .exited then { s with life := .reaped, pc := .returned false }
  else if s.unreported then
    let s := { s with unreported := false }
    if background then s.loop else { s with pc := .returned true }
  else s.loop

def Step.next (background : Bool) (a : Step) (s : State) : State :=
  match a with
  | childWrite bytes => { s with wrote := s.wrote ++ bytes, pipe := s.pipe ++ bytes }
  | childFork => { s with heirs := s.heirs + 1 }
  | childClose => { s with stdout := false }
  | heirClose => { s with heirs := s.heirs - 1 }
  | exit => { s with life := .exited, stdout := false, unreported := false }
  | stop => { s with life := .stopped, unreported := true }
  | .continue => { s with life := .running, unreported := false }
  | poll ready => { s with pc := if ready then .read else .waitpid }
  | read bytes => s.read bytes
  | write bytes =>
    match s.pc with
    | .write target buffer written => s.put target buffer written bytes
    | _ => s
  | waitpid => s.waitpid background
  | interrupted => s.loop

/-- A poll comes back ready for bytes and for the end of the pipe, a read returns what there is up
to the size of the buffer, and a wait without WNOHANG comes back for a signal or a status. -/
def Step.can (a : Step) (s : State) : Prop :=
  match a with
  | childWrite _ | childFork | childClose => s.life = .running ∧ s.stdout = true
  | heirClose => 0 < s.heirs
  | exit => s.life = .running ∨ s.life = .stopped
  | stop => s.life = .running
  | .continue => s.life = .stopped
  | poll ready => s.pc = .poll ∧ (ready = true ↔ s.pipe ≠ [] ∨ ¬ s.HasWriter)
  | read bytes =>
    s.pc = .read ∧ bytes ≤ 4096 ∧ bytes ≤ s.pipe.length ∧ (bytes = 0 → s.pipe = [] ∧ ¬ s.HasWriter)
  | write bytes =>
    match s.pc with
    | .write _ buffer written => 0 < bytes ∧ written + bytes ≤ buffer.length
    | _ => False
  | waitpid => s.pc = .waitpid ∧ (s.readFd = true ∨ s.life = .exited ∨ s.unreported = true)
  | interrupted => s.pc = .waitpid ∧ s.readFd = false

instance (a : Step) (s : State) : Decidable (a.can s) :=
  match a with
  | .childWrite _ | .childFork | .childClose => inferInstanceAs (Decidable (_ ∧ _))
  | .heirClose => inferInstanceAs (Decidable (0 < s.heirs))
  | .exit => inferInstanceAs (Decidable (_ ∨ _))
  | .stop | .continue => inferInstanceAs (Decidable (s.life = _))
  | .poll _ | .read _ | .waitpid | .interrupted => inferInstanceAs (Decidable (_ ∧ _))
  | .write bytes =>
    match h : s.pc with
    | .write _ buffer written =>
      decidable_of_iff (0 < bytes ∧ written + bytes ≤ buffer.length) (by simp [Step.can, h])
    | .poll | .read | .waitpid | .returned _ => .isFalse (by simp [Step.can, h])

/-- The shell as it enters `wait_with_relay`. -/
def start (output : OutputRedirect) : State :=
  State.loop
    ⟨.running, false, true, 0, [], [], 0 ≤ output.readFd, output.files.map fun _ => [], [], .poll⟩

/-- `wait_with_relay` returned on the exit of the child. -/
def State.Returned (s : State) : Prop :=
  s.pc = .returned false

/-- Every target has what the child wrote. -/
def State.Delivered (s : State) : Prop :=
  ∀ bytes ∈ s.received, bytes = s.wrote

instance (s : State) : Decidable s.Returned :=
  inferInstanceAs (Decidable (s.pc = _))

instance (s : State) : Decidable s.Delivered :=
  inferInstanceAs (Decidable (∀ bytes ∈ s.received, bytes = s.wrote))

section Files

variable {F : Type*} [DecidableEq F]

/-- What a file has received, through all the targets that lead to it: `files` are the files of the
targets, in their order. -/
def State.into (s : State) (files : List F) (f : F) : List UInt8 :=
  (s.writes.filter fun w => files[w.1]? = some f).flatMap Prod.snd

/-- Every file has received what the child wrote. -/
def State.DeliveredTo (s : State) (files : List F) : Prop :=
  ∀ f ∈ files, s.into files f = s.wrote

instance (s : State) (files : List F) : Decidable (s.DeliveredTo files) :=
  inferInstanceAs (Decidable (∀ f ∈ files, s.into files f = s.wrote))

end Files

/-- The child does not exit on unread bytes between a poll that found none and the wait behind
it. -/
def Timely (a : Step) (s : State) : Prop :=
  a = .exit → s.pc = .waitpid → s.readFd = true → s.pipe = []

instance (a : Step) (s : State) : Decidable (Timely a s) :=
  inferInstanceAs (Decidable (_ → _))

end Relay

/-- The relay, in the shell or in a copy of it that runs in the background. -/
def waitWithRelay (background : Bool) : System Relay.Step Relay.State where
  can := Relay.Step.can
  next := Relay.Step.next background

instance (background : Bool) (a : Relay.Step) (s : Relay.State) :
    Decidable ((waitWithRelay background).can a s) :=
  inferInstanceAs (Decidable (a.can s))

end Shell

end CShellXv6
