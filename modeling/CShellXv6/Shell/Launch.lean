import CShellXv6.Shell.Pipeline

/-!
# Starting an external command

A foreground command is started by `run_external`, which takes its argument vector from
`collect_command`. The child `runbuff` forks for a background command that is nothing but words
fills an array of its own and does not come by there. Each is followed to its call of
`exec_command`.
-/

namespace CShellXv6

namespace Shell

/-- The executable regular files, and the value of `PATH` if it is set. -/
structure Paths where
  executableFile : List Char → Bool
  path : Option (List Char)

def makePath (directory name : List Char) : List Char :=
  directory ++ '/' :: name

/-- What `strtok_r` makes of a value: it leaves out what is empty between two colons. -/
def pathParts (value : List Char) : List (List Char) :=
  (value.splitOn ':').filter (· ≠ [])

def findExecutable (paths : Paths) (name : List Char) (pathOnly : Bool) : Option (List Char) :=
  if '/' ∈ name then if paths.executableFile name then some name else none
  else if pathOnly = false ∧ paths.executableFile (makePath ['.'] name) then
    some (makePath ['.'] name)
  else
    match paths.path with
    | none => none
    | some value =>
      ((pathParts value).map fun part => makePath (if part = [] then ['.'] else part) name).find?
        paths.executableFile

/-- A call of `exec_command`, and the name and flag its path was looked up by. -/
structure Exec where
  name : List Char
  pathOnly : Bool
  path : List Char
  argv : List (List Char)
  deriving DecidableEq, Repr

/-- What becomes of a command: it is executed; or `command not found` is printed with this name; or
there is a return before any lookup, with what is printed. -/
inductive Launch where
  | exec (call : Exec)
  | notFound (name : List Char)
  | returned (value : Int) (message : String)
  deriving DecidableEq, Repr

def builtins : List String :=
  ["hop", "reveal", "peek", "locate", "activities", "resume", "ping", "spy", "snoop"]

def isBuiltin (name : List Char) : Bool :=
  builtins.any fun builtin => name = builtin.toList

def simpleExternal (tokens : List Token) : Bool :=
  tokens.length ≠ 0 && tokens.all (·.type = .word)

section Background

/-- `argv[64]` of `runbuff`, whose last entry is left for the `NULL`. -/
def argvSlots : ℕ := 64

/-- The loop that fills `argv`, from index `n` on. -/
def fillArgv : ℕ → List Token → List (List Char)
  | _, [] => []
  | n, t :: ts => if n < argvSlots - 1 then t.text :: fillArgv (n + 1) ts else []

/-- The child of `runbuff`, or `none` where it goes on to `runcomm`. -/
def runbuffChild (paths : Paths) (tokens : List Token) : Option Launch :=
  match tokens with
  | [] => none
  | first :: _ =>
    if simpleExternal tokens ∧ isBuiltin first.text = false then
      let argv := fillArgv 0 tokens
      let (cmd, pathOnly, argv) :=
        if first.text.head? = some '%' then
          (first.text.tail, true, argv.set 0 first.text.tail)
        else (first.text, false, argv)
      match findExecutable paths cmd pathOnly with
      | some path => some (.exec ⟨cmd, pathOnly, path, argv⟩)
      | none => some (.notFound cmd)
    else none

end Background

section Foreground

variable (env : Env)

/-- `run_external` to the child's call; `alloc` says whether its `calloc` succeeds. -/
def runExternal (paths : Paths) (alloc : Bool) (tokens : List Token) (w : World) : Launch :=
  match tokens with
  | [] => .returned 0 ""
  | first :: _ =>
    if first.type ≠ .word then .returned 0 ""
    else if alloc = false then .returned 1 "cshell: memory allocation failed"
    else
      let (result, argv, _, w) := collectCommand env tokens w
      if result ≠ 0 then .returned 1 "cshell: no such file or directory\n"
      else if argv.length = 0 then .returned 0 ""
      else if (prepareOutput env tokens outputRedirectInit w).1 ≠ 0 then
        .returned 1 "cshell: unable to create file for writing\n"
      else
        let (name, pathOnly) :=
          if first.text.head? = some '%' then (first.text.tail, true) else (first.text, false)
        match findExecutable paths name pathOnly with
        | none => .notFound name
        | some path => .exec ⟨name, pathOnly, path, argv.set 0 name⟩

end Foreground

/-- The name and the flag a command is looked up by, from its first word. -/
def lookedUp (text : List Char) : List Char × Bool :=
  if text.head? = some '%' then (text.tail, true) else (text, false)

end Shell

end CShellXv6
