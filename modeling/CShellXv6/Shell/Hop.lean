import CShellXv6.Lib.Directories
import CShellXv6.Lib.Runs
import CShellXv6.Shell.History
import CShellXv6.Shell.Parser

/-!
# Hop

`hop` changes the directory of the shell, keeps the one it was in as `previous_dir`, and records the
visit. An argument that is no directory is looked up in the history. `HopEnv` says how the calls of
one `do_hop` end, which changes the directory twice at most.
-/

namespace CShellXv6

namespace Shell

open History

/-- The calls of `do_hop`: `getcwd k` is the call number `k`, and `chdir k` the one of the attempt
number `k`. -/
structure HopEnv (δ : Type*) where
  getcwd : ℕ → δ → Option (List Char)
  chdir : ℕ → δ → List Char → Option δ
  access : List Char → Bool
  find : HistoryEnv
  record : HistoryEnv

/-- The directory of the shell, its `ShellState`, and the history file. -/
structure HopState (δ : Type*) where
  cwd : δ
  homeDir : List Char
  previousDir : Option (List Char)
  history : Option (List Char)
  deriving DecidableEq, Repr

section Hop

variable {δ : Type*} (env : HopEnv δ)

def changeDirectory (k : ℕ) (path : List Char) (s : HopState δ) : Int × HopState δ :=
  match env.getcwd (2 * k) s.cwd with
  | none => (-1, s)
  | some oldDir =>
    match env.chdir k s.cwd path with
    | none => (-1, s)
    | some d =>
      match env.getcwd (2 * k + 1) d with
      | none => (-1, { s with cwd := d })
      | some newDir =>
        if oldDir ≠ newDir then
          (0, { s with
            cwd := d
            previousDir := some oldDir
            history := recordVisit env.record newDir s.history })
        else (0, { s with cwd := d })

def doHop (argument : List Char) (s : HopState δ) : Int × HopState δ :=
  if argument = ['~'] then changeDirectory env 0 s.homeDir s
  else if argument = ['.'] then (0, s)
  else if argument = ['-'] then
    match s.previousDir with
    | none => (0, s)
    | some path => changeDirectory env 0 path s
  else
    let (result, s) := changeDirectory env 0 argument s
    if result = 0 then (0, s)
    else
      match findVisit env.find env.access argument s.history with
      | none => (-1, s)
      | some found => changeDirectory env 1 found s

end Hop

section RunHop

variable {σ : Type*} (hop : List Char → σ → Int × σ)

/-- The loop of `run_hop`: the calls it makes, with their results. -/
def runHopLoop : List Token → σ → List (List Char × Int) × σ
  | [], s => ([], s)
  | t :: ts, s =>
    if t.type ≠ .word then ([], s)
    else
      let (result, s) := hop t.text s
      let (calls, s) := runHopLoop ts s
      ((t.text, result) :: calls, s)

/-- `run_hop`: its result, and the calls of `do_hop`. For each one that does not return 0 a
`hop: no such directory` is printed. -/
def runHop (tokens : List Token) (s : σ) : Int × List (List Char × Int) × σ :=
  match tokens with
  | [] => (0, [], s)
  | first :: rest =>
    if first.type ≠ .word ∨ first.text ≠ "hop".toList then (0, [], s)
    else
      match rest with
      | [] =>
        let (result, s) := hop ['~'] s
        (1, [(['~'], result)], s)
      | _ :: _ => (1, runHopLoop hop rest s)

end RunHop

section Moves

variable {δ : Type*} (env : HopEnv δ)

/-- Where the `chdir` of an attempt leads from `d`, if it is made and succeeds, and whether the
`getcwd` behind it succeeds. -/
def chdirOf (k : ℕ) (path : List Char) (d : δ) : Option (δ × Bool) :=
  match env.getcwd (2 * k) d with
  | none => none
  | some _ => (env.chdir k d path).map fun e => (e, (env.getcwd (2 * k + 1) e).isSome)

/-- The last `chdir` of a `do_hop` that succeeds. -/
def lastChdir (argument : List Char) (s : HopState δ) : Option (δ × Bool) :=
  if argument = ['~'] then chdirOf env 0 s.homeDir s.cwd
  else if argument = ['.'] then none
  else if argument = ['-'] then s.previousDir.bind fun path => chdirOf env 0 path s.cwd
  else
    match chdirOf env 0 argument s.cwd with
    | some (d, true) => some (d, true)
    | first =>
      match findVisit env.find env.access argument s.history with
      | none => first
      | some found => (chdirOf env 1 found ((first.map Prod.fst).getD s.cwd)).or first

/-- No `getcwd` fails behind the last `chdir`, unless that has led to where the shell was. -/
def Settled (argument : List Char) (s : HopState δ) : Prop :=
  ∀ d, lastChdir env argument s = some (d, false) → d = s.cwd

end Moves

section Tree

variable {δ : Type*}

/-- One call of `do_hop`. -/
structure Hop where
  argument : List Char
  access : List Char → Bool
  find : HistoryEnv
  record : HistoryEnv

/-- The calls on a directory tree that does not change. -/
def HopEnv.on (T : DirTree δ) (h : Hop) : HopEnv δ where
  getcwd _ d := some (T.path d)
  chdir _ d path := T.chdir d path
  access := h.access
  find := h.find
  record := h.record

/-- `shell_state_init` in the directory `d`. -/
def HopState.init (T : DirTree δ) (d : δ) (history : Option (List Char)) : HopState δ :=
  ⟨d, T.path d, none, history⟩

def hops (T : DirTree δ) : System Hop (HopState δ) where
  can _ _ := True
  next h s := (doHop (.on T h) h.argument s).2

end Tree

end Shell

end CShellXv6
