import CShellXv6.Lib.Monitor
import CShellXv6.Lib.RingBuffer

/-!
# Pipes

`piperead`, `pipewrite` and `pipeclose` of one pipe, in any number of processes; each step is a
round of a loop, or what comes before or behind it, under the pipe's lock. The caller's memory is
what `copyin` finds at each address, and the addresses where `copyout` fails.

A file is closed when no descriptor is left for it. So a call of an end of the pipe is made while it
is open, and it is closed only once, when no process is inside of such a call.
-/

namespace CShellXv6

namespace Kernel

open Monitor (Act)

abbrev PIPESIZE : ℕ := 512

/-- `put` and `got` are the bytes that have been written and read so far, and `freed` is how often
the page of the pipe has been freed. -/
structure Pipe where
  data : Fin PIPESIZE → UInt8
  nread : BitVec 32
  nwrite : BitVec 32
  readopen : Bool
  writeopen : Bool
  put : List UInt8
  got : List UInt8
  freed : ℕ

namespace Pipe

inductive Chan where
  | nread
  | nwrite
  deriving DecidableEq

/-- Where a process is. `unseen` says that it has stored bytes since it last woke up the readers. -/
inductive Code where
  | idle (result : Int)
  | write (src : ℕ → Option UInt8) (n : Int) (i : ℕ) (unseen : Bool)
  | full (src : ℕ → Option UInt8) (n : Int) (i : ℕ)
  | wrote (n result : Int)
  | read (faults : ℕ → Bool) (n : Int)
  | copy (faults : ℕ → Bool) (n : Int) (i : ℕ)
  | copied (n result : Int)
  | ret (writable : Bool) (n result : Int)
  | close (writable : Bool)
  | closed (writable : Bool)

def index (n : BitVec 32) : Fin PIPESIZE :=
  RingBuffer.pos (by decide) n.toNat

def isOpen (d : Pipe) (writable : Bool) : Bool :=
  if writable then d.writeopen else d.readopen

def pipealloc (data : Fin PIPESIZE → UInt8) : Pipe :=
  ⟨data, 0, 0, true, true, [], [], 0⟩

def step (killed : Bool) (d : Pipe) : Code → Pipe × Act Chan Code
  | .idle r => (d, .leave (.idle r))
  | .write src n i _ =>
    if i < n then
      if d.readopen = false ∨ killed then (d, .leave (.idle (-1)))
      else if d.nwrite = d.nread + BitVec.ofNat 32 PIPESIZE then
        (d, .wakeup .nread (.full src n i))
      else match src i with
        | none => (d, .go (.wrote n (if i = 0 then -1 else i)))
        | some ch =>
          ({ d with
            data := Function.update d.data (index d.nwrite) ch
            nwrite := d.nwrite + 1
            put := d.put ++ [ch] }, .go (.write src n (i + 1) true))
    else (d, .go (.wrote n i))
  | .full src n i => (d, .wait .nwrite (.write src n i false))
  | .wrote n r => (d, .wakeup .nread (.ret true n r))
  | .read faults n =>
    if d.nread = d.nwrite ∧ d.writeopen then
      if killed then (d, .leave (.idle (-1))) else (d, .wait .nread (.read faults n))
    else (d, .go (.copy faults n 0))
  | .copy faults n i =>
    if i < n then
      if d.nread = d.nwrite then (d, .go (.copied n i))
      else if faults i then (d, .go (.copied n (if i = 0 then -1 else i)))
      else
        ({ d with nread := d.nread + 1, got := d.got ++ [d.data (index d.nread)] },
          .go (.copy faults n (i + 1)))
    else (d, .go (.copied n i))
  | .copied n r => (d, .wakeup .nwrite (.ret false n r))
  | .ret _ _ r => (d, .leave (.idle r))
  | .close true => ({ d with writeopen := false }, .wakeup .nread (.closed true))
  | .close false => ({ d with readopen := false }, .wakeup .nwrite (.closed false))
  | .closed _ =>
    if d.readopen = false ∧ d.writeopen = false then
      ({ d with freed := d.freed + 1 }, .leave (.idle 0))
    else (d, .leave (.idle 0))

/-- The end of the pipe that is in use. -/
def Code.side : Code → Option Bool
  | idle _ => none
  | write _ _ _ _ | full _ _ _ | wrote _ _ => some true
  | read _ _ | copy _ _ _ | copied _ _ => some false
  | ret writable _ _ | close writable | closed writable => some writable

/-- The end of the pipe that is being closed. -/
def Code.closing : Code → Option Bool
  | close writable | closed writable => some writable
  | _ => none

variable {T : Type*}

/-- The read that is about to return: how many bytes it was for, and its result. -/
def returning : Monitor.Status T Chan Code → Option (Int × Int)
  | .inside (.ret false n r) => some (n, r)
  | _ => none

/-- No process is inside of a call with the end, or inside of one that closes it. -/
def unused (slots : List T) (s : Monitor.State T Chan Code Pipe) (writable : Bool) : Bool :=
  slots.all fun u => (s.status u).place.side != some writable

def calls (slots : List T) (s : Monitor.State T Chan Code Pipe) : Code → Bool
  | .write _ _ 0 false =>
    s.data.writeopen && slots.all fun u => (s.status u).place.closing != some true
  | .read _ _ => s.data.readopen && slots.all fun u => (s.status u).place.closing != some false
  | .close writable => s.data.isOpen writable && unused slots s writable
  | _ => false

/-- The pipe as a monitor, for processes in the slots of the process table. -/
def monitor (slots : List T) : Monitor T Chan Code Pipe where
  slots
  step _ l killed d := step killed d l
  calls _ l s := calls slots s l

def start (data : Fin PIPESIZE → UInt8) : Monitor.State T Chan Code Pipe where
  data := pipealloc data
  holder := none
  status _ := .out (.idle 0)
  chan _ := none
  killed _ := false

end Pipe

end Kernel

end CShellXv6
