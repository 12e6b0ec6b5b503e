import CShellXv6.Shell.Pipeline
import Mathlib.Logic.Function.Basic

/-!
# Joining the inputs of a command

`join_inputs` copies two descriptors into a temporary file, one `read` and `write` after the other,
and puts the file's offset back to its start. Behind every descriptor there are an offset and, for a
temporary file, what was written to it; the content of a named file is up to the file system, which
may change from one operator of the command to the next. A call may transfer less than it was asked
to, be interrupted, or fail. An answer is taken for each call, and `none` is a copy that has had all
its answers and goes on.

The loops of `collect_command` and `stage_args` are the ones of the set-up, with the copies in them.
-/

namespace CShellXv6

namespace Shell

namespace Copying

/-- How a `read` or `write` ends: with so many bytes, if there are so many and at least one. -/
inductive Answer where
  | bytes (count : ℕ)
  | interrupted
  | failed
  deriving DecidableEq, Repr

/-- How the calls of one `join_inputs` end; the answers are those to both its copies. -/
structure JoinCalls where
  mkstemp : Bool
  answers : List Answer
  lseek : Bool
  deriving DecidableEq, Repr

/-- The offset of a descriptor, and the content of a temporary file. -/
structure File where
  bytes : List UInt8
  offset : ℕ
  deriving DecidableEq, Repr

def File.advance (count : ℕ) (f : File) : File :=
  { f with offset := f.offset + count }

def File.write (data : List UInt8) (f : File) : File :=
  ⟨f.bytes.take f.offset ++ data ++ f.bytes.drop (f.offset + data.length), f.offset + data.length⟩

def File.rewind (f : File) : File :=
  { f with offset := 0 }

structure State where
  world : World
  file : ℕ → File

namespace State

variable (s : State)

def update (fd : ℕ) (f : File → File) : State :=
  { s with file := Function.update s.file fd (f (s.file fd)) }

/-- A successful open, at the start of the file. -/
def openAs (d : Target) : Int × State :=
  let (fd, w) := Shell.openAs d s.world
  (fd, ⟨w, Function.update s.file fd.toNat ⟨[], 0⟩⟩)

def closeFd (fd : Int) : State :=
  { s with world := Shell.closeFd fd s.world }

/-- What the file behind a descriptor holds, with these contents of the named files. -/
def content (disk : List Char → List UInt8) (fd : ℕ) : List UInt8 :=
  match s.world.get fd with
  | some (.input path) => disk path
  | _ => (s.file fd).bytes

/-- What can be read from the descriptor's current position on. -/
def left (disk : List Char → List UInt8) (fd : ℕ) : List UInt8 :=
  (s.content disk fd).drop (s.file fd).offset

end State

section Join

variable (disk : List Char → List UInt8)

/-- `copy_fd`, where `buffer` is what the loop of writes has still to write: its result, and the
answers that are left. -/
def copyLoop (source dest : ℕ) :
    List Answer → List UInt8 → State → Option (Int × List Answer × State)
  | [], _, _ => none
  | .interrupted :: answers, buffer, s => copyLoop source dest answers buffer s
  | .failed :: answers, _, s => some (-1, answers, s)
  | .bytes count :: answers, [], s =>
    let buffer := (s.left disk source).take (max 1 (min count 4096))
    let s := s.update source (·.advance buffer.length)
    if buffer.length = 0 then some (0, answers, s) else copyLoop source dest answers buffer s
  | .bytes count :: answers, b :: buffer, s =>
    let data := (b :: buffer).take (max 1 count)
    copyLoop source dest answers ((b :: buffer).drop (max 1 count)) (s.update dest (·.write data))

def copyFd (source dest : Int) (answers : List Answer) (s : State) :
    Option (Int × List Answer × State) :=
  copyLoop disk source.toNat dest.toNat answers [] s

def joinInputs (calls : JoinCalls) (first second : Int) (s : State) : Option (Int × State) :=
  if calls.mkstemp = false then some (-1, (s.closeFd first).closeFd second)
  else
    let (joined, s) := s.openAs .joined
    match copyFd disk first joined calls.answers s with
    | none => none
    | some (result, answers, s) =>
      if result ≠ 0 then some (-1, ((s.closeFd joined).closeFd first).closeFd second)
      else
        match copyFd disk second joined answers s with
        | none => none
        | some (result, _, s) =>
          if result ≠ 0 ∨ calls.lseek = false then
            some (-1, ((s.closeFd joined).closeFd first).closeFd second)
          else some (joined, ((s.update joined.toNat File.rewind).closeFd first).closeFd second)

end Join

/-- How the other calls end and, for the operator with this index, how those of its join do and what
the files hold meanwhile. -/
structure Host where
  env : Env
  joins : ℕ → JoinCalls
  disk : ℕ → List Char → List UInt8

section Loops

variable (host : Host)

def openFile (i : ℕ) (d : Target) (s : State) : Int × State :=
  if host.env.openFile i then s.openAs d else (-1, s)

def calls : Calls Option State where
  openInput i path s := openFile host i (.input path) s
  openOutput i type path s := openFile host i (outputTarget type path) s
  joinInputs i first second s := joinInputs (host.disk i) (host.joins i) first second s
  closeFd fd s := s.closeFd fd
  filesRealloc := host.env.filesRealloc
  fdopen := host.env.fdopen

def collectLoop (i : ℕ) (tokens : List Token) (argv : List (List Char)) (input : Int) (s : State) :
    Option (Int × List (List Char) × Int × State) :=
  (calls host).collectLoop .list i tokens argv input s

def collectCommand (tokens : List Token) (s : State) :
    Option (Int × List (List Char) × Int × State) :=
  (calls host).collectCommand .list tokens [] s

def stageArgsLoop (i : ℕ) (tokens : List Token) (stage : Stage) (s : State) :
    Option (Int × Stage × State) :=
  ((calls host).stageArgsLoop .list i tokens stage.args stage.input stage.files s).map stage.fill

/-- `stage_args` on stage number `k`, with the tokens of its range. -/
def stageArgsOn (range : List Token) (k : ℕ) (stage : Stage) (s : State) :
    Option (Int × Stage × State) :=
  if host.env.argsCalloc k = false then some (-3, stage, s)
  else
    match stageArgsLoop host stage.start range stage s with
    | none => none
    | some (result, stage, s) =>
      if result ≠ 0 then some (result, stage, s) else some (0, settleOutput stage, s)

end Loops

section Purpose

/-- The files of the `<` redirections, with the indices of the operators from `i` on. -/
def inputFiles : ℕ → List Token → List (ℕ × List Char)
  | i, r :: t :: ts =>
    if r.type = .opLt then (i, t.text) :: inputFiles (i + 1) (t :: ts)
    else inputFiles (i + 1) (t :: ts)
  | _, _ => []

/-- The contents one behind the other: a single file is read as it is `now`; the first two are
copied at the second operator, and every other at its own. -/
def concatenation (disk : ℕ → List Char → List UInt8) (now : List Char → List UInt8) :
    List (ℕ × List Char) → List UInt8
  | [] => []
  | [(_, f)] => now f
  | (_, f) :: (i, g) :: rest => disk i f ++ disk i g ++ rest.flatMap fun r => disk r.1 r.2

/-- The calls let two files with so many bytes be joined: none fails, and at most so many are needed
besides those that are interrupted. -/
structure JoinCalls.Suffice (calls : JoinCalls) (bytes : ℕ) : Prop where
  mkstemp : calls.mkstemp = true
  lseek : calls.lseek = true
  unfailing : .failed ∉ calls.answers
  enough : 2 * bytes + 2 ≤ calls.answers.countP (· ≠ .interrupted)

/-- Every file can be opened, and no call fails. -/
structure Host.Works (host : Host) (bytes : ℕ) : Prop where
  opens : ∀ i, host.env.openFile i = true
  allocs : ∀ i, host.env.filesRealloc i = true
  args : ∀ k, host.env.argsCalloc k = true
  fdopen : host.env.fdopen = true
  joins : ∀ i, (host.joins i).Suffice bytes

end Purpose

end Copying

end Shell

end CShellXv6
