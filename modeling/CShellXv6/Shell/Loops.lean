import CShellXv6.Shell.Lexer

/-!
# The loops over the tokens of a command

`collect_command`, `prepare_output` and `stage_args` go over the tokens of a command, write its
words to an argument array and open the files behind its redirection operators. What they call is in
`Calls`, on a state `σ` of the system and in a monad, since not every `join_inputs` comes back. A
call made for a redirection is known by the index of its operator in the token list; descriptors are
C ints with -1 for none.

The arrays are those of `Words`: only the words written so far, or the array as it is in memory.
-/

namespace CShellXv6

namespace Shell

universe u v

structure Calls (m : Type u → Type v) (σ : Type u) where
  openInput : ℕ → List Char → σ → Int × σ
  openOutput : ℕ → TokenType → List Char → σ → Int × σ
  joinInputs : ℕ → Int → Int → σ → m (Int × σ)
  closeFd : Int → σ → σ
  filesRealloc : ℕ → Bool
  fdopen : Bool

/-- `argv[count++] = text` and `argv[count] = NULL`. -/
structure Words (α : Type) where
  add : α → List Char → α
  terminate : α → α

def Words.list : Words (List (List Char)) :=
  ⟨fun argv text => argv ++ [text], id⟩

structure Argv where
  slots : List (Option (List Char))
  count : ℕ
  deriving DecidableEq, Repr

namespace Argv

def calloc (n : ℕ) : Argv :=
  ⟨List.replicate n none, 0⟩

def set (argv : Argv) (text : Option (List Char)) : Argv :=
  { argv with slots := argv.slots.set argv.count text }

/-- `none` is a write behind the end of the array. -/
def add (argv : Argv) (text : List Char) : Option Argv :=
  if argv.count < argv.slots.length then
    some { argv.set (some text) with count := argv.count + 1 }
  else none

def terminate (argv : Argv) : Option Argv :=
  if argv.count < argv.slots.length then some (argv.set none) else none

end Argv

def Words.array : Words (Option Argv) :=
  ⟨fun argv text => argv.bind (·.add text), fun argv => argv.bind Argv.terminate⟩

namespace Calls

variable {m : Type u → Type v} {σ : Type u} (calls : Calls m σ)

def closeIfOpen (fd : Int) (s : σ) : σ :=
  if 0 ≤ fd then calls.closeFd fd s else s

def closeAll (fds : List Int) (s : σ) : σ :=
  fds.foldl (fun s fd => calls.closeFd fd s) s

/-- The loop of `prepare_output`, from index `i` on: its result, and the files opened so far. -/
def prepareLoop : ℕ → List Token → List Int → σ → Int × List Int × σ
  | _, [], files, s => (0, files, s)
  | i, t :: rest, files, s =>
    if t.type ≠ .opGt ∧ t.type ≠ .opGtgt then
      if t.type = .opPipe ∨ t.type = .opSemi ∨ t.type = .opAmp then (0, files, s)
      else prepareLoop (i + 1) rest files s
    else
      match rest with
      | [] => (-2, files, s)
      | f :: rest' =>
        if f.type ≠ .word then (-2, files, s)
        else
          let (fd, s) := calls.openOutput i t.type f.text s
          if fd < 0 then (-1, [], calls.closeAll files s)
          else if calls.filesRealloc i = false then
            (-1, [], calls.closeAll files (calls.closeFd fd s))
          else prepareLoop (i + 2) rest' (files ++ [fd]) s

variable [Monad m] {α : Type} (words : Words α)

/-- A descriptor becomes the input, or is joined to it. -/
def attach (i : ℕ) (input fd : Int) (s : σ) : m (Int × σ) :=
  if input < 0 then pure (fd, s) else calls.joinInputs i input fd s

/-- The loop of `collect_command`, from index `i` on: its result, `argv` and `input`. -/
def collectLoop : ℕ → List Token → α → Int → σ → m (Int × α × Int × σ)
  | _, [], argv, input, s => pure (0, argv, input, s)
  | i, t :: rest, argv, input, s =>
    if t.type = .word then collectLoop (i + 1) rest (words.add argv t.text) input s
    else if t.type = .opLt then
      match rest with
      | [] => pure (-2, argv, -1, calls.closeIfOpen input s)
      | f :: rest' =>
        if f.type ≠ .word then pure (-2, argv, -1, calls.closeIfOpen input s)
        else
          let (fd, s) := calls.openInput i f.text s
          if fd < 0 then pure (-1, argv, -1, calls.closeIfOpen input s)
          else do
            let (input, s) ← calls.attach i input fd s
            if input < 0 then pure (-1, argv, -1, s) else collectLoop (i + 2) rest' argv input s
    else if t.type = .opGt ∨ t.type = .opGtgt then
      match rest with
      | [] => pure (-2, argv, -1, calls.closeIfOpen input s)
      | f :: rest' =>
        if f.type ≠ .word then pure (-2, argv, -1, calls.closeIfOpen input s)
        else collectLoop (i + 2) rest' argv input s
    else collectLoop (i + 1) rest argv input s

/-- `collect_command`: its result, the argument array, and the descriptor behind the input stream,
or -1 for none. -/
def collectCommand (tokens : List Token) (argv : α) (s : σ) : m (Int × α × Int × σ) := do
  let (result, argv, input, s) ← calls.collectLoop words 0 tokens argv (-1) s
  if result ≠ 0 then pure (result, argv, input, s)
  else if 0 ≤ input ∧ calls.fdopen = false then pure (-1, argv, -1, calls.closeFd input s)
  else pure (0, words.terminate argv, input, s)

/-- The loop of `stage_args`, from index `i` on, over the tokens of the stage: its result, and the
stage's `args`, `input` and `files`. -/
def stageArgsLoop : ℕ → List Token → α → Int → List Int → σ → m (Int × α × Int × List Int × σ)
  | _, [], args, input, files, s => pure (0, args, input, files, s)
  | i, t :: rest, args, input, files, s =>
    if t.type = .word then stageArgsLoop (i + 1) rest (words.add args t.text) input files s
    else if t.type ≠ .opLt ∧ t.type ≠ .opGt ∧ t.type ≠ .opGtgt then
      stageArgsLoop (i + 1) rest args input files s
    else
      match rest with
      | [] => pure (-2, args, input, files, s)
      | f :: rest' =>
        if f.type ≠ .word then pure (-2, args, input, files, s)
        else if t.type = .opLt then
          let (fd, s) := calls.openInput i f.text s
          if fd < 0 then pure (-1, args, input, files, s)
          else if 0 ≤ input then do
            let (fd, s) ← calls.joinInputs i input fd s
            if fd < 0 then pure (-1, args, -1, files, s)
            else stageArgsLoop (i + 2) rest' args fd files s
          else stageArgsLoop (i + 2) rest' args fd files s
        else
          let (fd, s) := calls.openOutput i t.type f.text s
          if fd < 0 then pure (-4, args, input, files, s)
          else if calls.filesRealloc i = false then
            pure (-3, args, input, files, calls.closeFd fd s)
          else stageArgsLoop (i + 2) rest' args input (files ++ [fd]) s

end Calls

end Shell

end CShellXv6
