import CShellXv6.Lib.Descriptors
import CShellXv6.Shell.Loops
import Mathlib.Data.PNat.Defs

/-!
# Redirections and pipelines

The set-up of a command's redirections and of a pipeline, in the shell process. Descriptor fields
are C ints with -1 for none, and memory fresh from `calloc` holds zeroes. `Env` says how each
system call and each allocation ends; a call made in a loop is known by its place there: the
index of its operator in the token list, or the number of its stage. An argument array is the list
of the words written to it; `collectArray` and `stageArray` have the array itself.

`fork` is seen from the shell: it fails, or returns the child's number. What a child does, and
the waiting behind a foreground pipeline, touch none of the shell's descriptors.
-/

namespace CShellXv6

namespace Shell

/-- What a descriptor refers to. -/
inductive Target where
  | inherited
  | input (path : List Char)
  | output (path : List Char) (append : Bool)
  | joined
  | relay
  | pipe (i : ℕ)
  | tee (i : ℕ)
  deriving DecidableEq, Repr

abbrev World := FdTable Target

inductive JoinOutcome where
  | joined
  | mkstempFailed
  | copyFailed
  deriving DecidableEq, Repr

/-- How the calls end: `true` where they succeed. -/
structure Env where
  openFile : ℕ → Bool
  joinInputs : ℕ → JoinOutcome
  fdopen : Bool
  filesRealloc : ℕ → Bool
  outputPipe : Bool
  stagesCalloc : Bool
  argsCalloc : ℕ → Bool
  pipesCalloc : Bool
  childrenCalloc : Bool
  pipe : ℕ → Bool
  teePipe : ℕ → Bool
  fork : ℕ → Option ℕ+
  teeFork : ℕ → Option ℕ+

/-- Every call succeeds. -/
def Env.succeeding : Env where
  openFile _ := true
  joinInputs _ := .joined
  fdopen := true
  filesRealloc _ := true
  outputPipe := true
  stagesCalloc := true
  argsCalloc _ := true
  pipesCalloc := true
  childrenCalloc := true
  pipe _ := true
  teePipe _ := true
  fork i := some i.succPNat
  teeFork i := some i.succPNat

/-- The standard descriptors, and nothing else. -/
def World.standard : World :=
  ⟨[some .inherited, some .inherited, some .inherited], []⟩

section Redirection

variable (env : Env)

/-- `close` on a C int. -/
def closeFd (fd : Int) (w : World) : World :=
  w.close fd.toNat

def closeIfOpen (fd : Int) (w : World) : World :=
  if 0 ≤ fd then closeFd fd w else w

def closeAll (fds : List Int) (w : World) : World :=
  fds.foldl (fun w fd => closeFd fd w) w

/-- A successful open. -/
def openAs (d : Target) (w : World) : Int × World :=
  (w.lowest, w.openLowest d)

/-- `open` on the file named behind the operator at index `i`. -/
def openFile (i : ℕ) (d : Target) (w : World) : Int × World :=
  if env.openFile i then openAs d w else (-1, w)

def joinInputs (i : ℕ) (first second : Int) (w : World) : Int × World :=
  match env.joinInputs i with
  | .mkstempFailed => (-1, closeFd second (closeFd first w))
  | .copyFailed =>
    let (joined, w) := openAs .joined w
    (-1, closeFd second (closeFd first (closeFd joined w)))
  | .joined =>
    let (joined, w) := openAs .joined w
    (joined, closeFd second (closeFd first w))

/-- The file a `>` or `>>` opens. -/
def outputTarget (type : TokenType) (path : List Char) : Target :=
  .output path (type = .opGtgt)

def calls : Calls Id World where
  openInput i path w := openFile env i (.input path) w
  openOutput i type path w := openFile env i (outputTarget type path) w
  joinInputs i first second w := joinInputs env i first second w
  closeFd := closeFd
  filesRealloc := env.filesRealloc
  fdopen := env.fdopen

def collectLoop (i : ℕ) (tokens : List Token) (argv : List (List Char)) (input : Int) (w : World) :
    Int × List (List Char) × Int × World :=
  ((calls env).collectLoop .list i tokens argv input w).run

def collectCommand (tokens : List Token) (w : World) : Int × List (List Char) × Int × World :=
  ((calls env).collectCommand .list tokens [] w).run

/-- `collect_command` with the array of `run_external`. -/
def collectArray (tokens : List Token) (w : World) : Int × Option Argv × Int × World :=
  ((calls env).collectCommand .array tokens (some (.calloc (tokens.length + 1))) w).run

structure OutputRedirect where
  files : List Int
  readFd : Int
  writeFd : Int
  deriving DecidableEq, Repr

def outputRedirectInit : OutputRedirect := ⟨[], -1, -1⟩

/-- `close_output_files`. -/
def closeOutputFiles (output : OutputRedirect) (w : World) : OutputRedirect × World :=
  ({ output with files := [] }, closeAll output.files w)

/-- What the loop of `prepare_output` has made. -/
def OutputRedirect.fill (output : OutputRedirect) : Int × List Int × World →
    Int × OutputRedirect × World
  | (result, files, w) => (result, { output with files := files }, w)

def prepareLoop (i : ℕ) (tokens : List Token) (output : OutputRedirect) (w : World) :
    Int × OutputRedirect × World :=
  output.fill ((calls env).prepareLoop i tokens output.files w)

def prepareOutput (tokens : List Token) (output : OutputRedirect) (w : World) :
    Int × OutputRedirect × World :=
  let (result, output, w) := prepareLoop env 0 tokens output w
  if result ≠ 0 then (result, output, w)
  else if 0 < output.files.length then
    if env.outputPipe = false then (-1, closeOutputFiles output w)
    else
      let (readFd, w) := openAs .relay w
      let (writeFd, w) := openAs .relay w
      (0, { output with readFd := readFd, writeFd := writeFd }, w)
  else (0, output, w)

end Redirection

/-- A stage of a pipeline; `files` are the first `nfiles` entries of its file array. -/
structure Stage where
  start : ℕ
  stop : ℕ
  args : List (List Char)
  input : Int
  output : Int
  files : List Int
  teeRead : Int
  teeWrite : Int
  deriving DecidableEq, Repr

/-- A stage as `calloc` leaves it. -/
def Stage.zero : Stage := ⟨0, 0, [], 0, 0, [], 0, 0⟩

/-- The stage with what the loop of `stage_args` has made. -/
def Stage.fill {σ : Type*} (stage : Stage) :
    Int × List (List Char) × Int × List Int × σ → Int × Stage × σ
  | (result, args, input, files, s) =>
    (result, { stage with args := args, input := input, files := files }, s)

section Stages

variable (env : Env)

def closePipes (pipes : List (Int × Int)) (w : World) : World :=
  pipes.foldl (fun w p => closeFd p.2 (closeFd p.1 w)) w

/-- What `free_stages` closes of one stage. -/
def freeStage (stage : Stage) (w : World) : World :=
  closeAll stage.files
    (closeIfOpen stage.teeRead (closeIfOpen stage.output (closeIfOpen stage.input w)))

def freeStages (stages : List Stage) (w : World) : World :=
  stages.foldl (fun w stage => freeStage stage w) w

def stageArgsLoop (i : ℕ) (tokens : List Token) (stage : Stage) (w : World) : Int × Stage × World :=
  stage.fill ((calls env).stageArgsLoop .list i tokens stage.args stage.input stage.files w).run

/-- The end of `stage_args`: a single output file becomes the stage's output. -/
def settleOutput (stage : Stage) : Stage :=
  match stage.files with
  | [fd] => { stage with output := fd, files := [] }
  | _ => stage

/-- `stage_args` on stage number `k`, with the tokens of its range. -/
def stageArgsOn (range : List Token) (k : ℕ) (stage : Stage) (w : World) : Int × Stage × World :=
  if env.argsCalloc k = false then (-3, stage, w)
  else
    let (result, stage, w) := stageArgsLoop env stage.start range stage w
    if result ≠ 0 then (result, stage, w) else (0, settleOutput stage, w)

def stageArgs (tokens : List Token) (k : ℕ) (stage : Stage) (w : World) : Int × Stage × World :=
  stageArgsOn env ((tokens.take stage.stop).drop stage.start) k stage w

/-- `stage_args` with its array: the result, and the array it leaves. -/
def stageArray (tokens : List Token) (k : ℕ) (stage : Stage) (w : World) : Int × Option Argv :=
  if env.argsCalloc k = false then (-3, some (.calloc 0))
  else
    let (result, args, _) := ((calls env).stageArgsLoop .array stage.start
      ((tokens.take stage.stop).drop stage.start) (some (.calloc (stage.stop - stage.start + 1)))
      stage.input stage.files w).run
    if result ≠ 0 then (result, args) else (0, Words.array.terminate args)

/-- The index of the first `;` or `&`, or the length of the list. -/
def lineEnd (tokens : List Token) : ℕ :=
  tokens.findIdx fun t => t.type = .opSemi || t.type = .opAmp

/-- The index of the first `|` between `start` and `stop`, or `stop`. -/
def pipeFrom (tokens : List Token) (start stop : ℕ) : ℕ :=
  start + ((tokens.take stop).drop start).findIdx (·.type = .opPipe)

/-- A stage with its range set and no descriptors. -/
def freshStage (start stop : ℕ) : Stage :=
  { Stage.zero with
    start := start, stop := stop, input := -1, output := -1, teeRead := -1, teeWrite := -1 }

/-- The stage loop of `make_stages`, with this many stages to go. -/
def makeStagesLoop (tokens : List Token) : ℕ → ℕ → ℕ → List Stage → World →
    Int × List Stage × World
  | 0, _, _, stages, w => (1, stages, w)
  | todo + 1, k, start, stages, w =>
    let stop := pipeFrom tokens start (lineEnd tokens)
    let (result, stage, w) := stageArgs env tokens k (freshStage start stop) w
    if result ≠ 0 then (result, [], freeStages (stages.set k stage) w)
    else makeStagesLoop tokens todo (k + 1) (stop + 1) (stages.set k stage) w

/-- The number of stages: one more than the pipe tokens before the end. -/
def stageCount (tokens : List Token) : ℕ :=
  1 + (tokens.take (lineEnd tokens)).countP (·.type = .opPipe)

def makeStages (tokens : List Token) (force : Bool) (w : World) : Int × List Stage × World :=
  if stageCount tokens = 1 ∧ force = false then (0, [], w)
  else if env.stagesCalloc = false then (-3, [], w)
  else
    makeStagesLoop env tokens (stageCount tokens) 0 0
      (List.replicate (stageCount tokens) Stage.zero) w

/-- The loop that makes the pipes between `todo + 1` stages: `none` where a `pipe` fails, and
the pipes made so far are closed. -/
def makePipes : ℕ → ℕ → List (Int × Int) → World → Option (List (Int × Int)) × World
  | 0, _, pipes, w => (some pipes, w)
  | todo + 1, i, pipes, w =>
    if env.pipe i = false then (none, closePipes pipes w)
    else
      let (readFd, w) := openAs (.pipe i) w
      let (writeFd, w) := openAs (.pipe i) w
      makePipes todo (i + 1) (pipes ++ [(readFd, writeFd)]) w

/-- A stage with two or more files gets a pipe to its tee process. -/
def makeTee (i : ℕ) (stage : Stage) (w : World) : Stage × World :=
  if 1 < stage.files.length ∧ env.teePipe i then
    let (readFd, w) := openAs (.tee i) w
    let (writeFd, w) := openAs (.tee i) w
    ({ stage with teeRead := readFd, teeWrite := writeFd, output := writeFd }, w)
  else (stage, w)

/-- The shell's write end of the tee pipe is closed once the stage has been forked. -/
def closeTee (stage : Stage) (w : World) : Stage × World :=
  if 0 ≤ stage.teeWrite then
    ({ stage with teeWrite := -1, output := -1 }, closeFd stage.teeWrite w)
  else (stage, w)

/-- The fork loop, over the stages still to be forked: the stages it leaves and the children. -/
def forkStages : ℕ → List Stage → List ℕ+ → World → List Stage × List ℕ+ × World
  | _, [], made, w => ([], made, w)
  | i, stage :: rest, made, w =>
    let (stage, w) := makeTee env i stage w
    match env.fork i with
    | none => (stage :: rest, made, w)
    | some child =>
      let made := made ++ [child] ++ if 0 ≤ stage.teeRead then (env.teeFork i).toList else []
      let (stage, w) := closeTee stage w
      let (rest, made, w) := forkStages (i + 1) rest made w
      (stage :: rest, made, w)

/-- What `pipeline` leaves: its result, what it printed to stderr, the children, and the
shell's descriptors. -/
structure Outcome where
  result : Int
  stderr : List String
  children : List ℕ+
  world : World

/-- The message for a negative result of `make_stages`. -/
def stagesMessage (result : Int) : String :=
  if result = -1 then "cshell: no such file or directory\n"
  else if result = -4 then "cshell: unable to create file for writing\n"
  else "cshell: invalid syntax\n"

/-- The first child, or -1 if there is none. -/
def leader (made : List ℕ+) : Int :=
  (made.head?.map fun child => ((child : ℕ) : Int)).getD (-1)

def pipeline (tokens : List Token) (background force : Bool) (w : World) : Outcome :=
  let failed : Int := if background then -1 else 1
  let (result, stages, w) := makeStages env tokens force w
  if result = 0 then ⟨0, [], [], w⟩
  else if result < 0 then ⟨failed, [stagesMessage result], [], w⟩
  else if env.pipesCalloc = false ∨ env.childrenCalloc = false then
    ⟨failed, ["cshell: memory allocation failed"], [], freeStages stages w⟩
  else
    match makePipes env (stages.length - 1) 0 [] w with
    | (none, w) => ⟨failed, ["cshell: pipe failed"], [], freeStages stages w⟩
    | (some pipes, w) =>
      let (stages, made, w) := forkStages env 0 stages [] w
      ⟨if background then leader made else 1, [], made, freeStages stages (closePipes pipes w)⟩

def runPipeline (tokens : List Token) (w : World) : Outcome :=
  pipeline env tokens false false w

def launchBackgroundPipeline (tokens : List Token) (w : World) : Outcome :=
  pipeline env tokens true false w

def runRedirectedBuiltin (tokens : List Token) (w : World) : Outcome :=
  pipeline env tokens false true w

end Stages

end Shell

end CShellXv6
