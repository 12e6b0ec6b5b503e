import CShellXv6.Lib.Openings
import CShellXv6.Shell.Segments
import CShellXv6.Shell.Wiring

/-!
# Redirections and the file system

The three loops that open files, over a file system: `place` says where the file of a name is, so
that several names can be those of one file. Whether an `open` succeeds is up to the files as they
are at that time, and the other calls succeed. `join_inputs` reads both its descriptors to their
ends, and a command that has a single `<` reads that file itself, behind the set-up. One descriptor
stands for all.

The set-up of an external command is that of `run_external`, and the set-up of a redirected builtin
is the one stage `make_stages` is forced to make.
-/

namespace CShellXv6

namespace Shell

namespace Files

/-- A call of `open`, for the operator at `index`. -/
structure Open where
  index : ℕ
  target : Target
  ok : Bool
  deriving DecidableEq, Repr

/-- The files, and the calls of `open` made so far. -/
structure State (ι : Type*) extends Opened ι Char where
  opens : List Open

def State.targets {ι : Type*} (s : State ι) : List Target :=
  s.opens.map Open.target

def State.AllOk {ι : Type*} (s : State ι) : Prop :=
  ∀ o ∈ s.opens, o.ok = true

def State.start {ι : Type*} (disk : Disk ι Char) : State ι :=
  ⟨.start disk, []⟩

section Setup

variable {ι : Type*} [DecidableEq ι] (place : List Char → ι)

/-- A call of `open`, for the operator at `i`. An input is joined to the input there is already. -/
def openFile (i : ℕ) (target : Target) (o : Opening ι) (s : State ι) : Bool × State ι :=
  let ok := s.disk.opens o
  (ok, { toOpened := if ok then s.toOpened.step o else s.toOpened
         opens := s.opens ++ [⟨i, target, ok⟩] })

def openInput (i : ℕ) (path : List Char) (s : State ι) : Bool × State ι :=
  openFile i (.input path) (.read (place path)) s

def openOutput (i : ℕ) (type : TokenType) (path : List Char) (s : State ι) : Bool × State ι :=
  openFile i (outputTarget type path) (.write (place path) (type = .opGtgt)) s

/-- The descriptor of a call of `open`. -/
def asFd (r : Bool × State ι) : Int × State ι :=
  (if r.1 then 0 else -1, r.2)

def calls : Calls Id (State ι) where
  openInput i path s := asFd (openInput place i path s)
  openOutput i type path s := asFd (openOutput place i type path s)
  joinInputs _ _ _ s := (0, s)
  closeFd _ s := s
  filesRealloc _ := true
  fdopen := true

def collectLoop (i : ℕ) (tokens : List Token) (argv : List (List Char)) (input : Int)
    (s : State ι) : Int × List (List Char) × Int × State ι :=
  ((calls place).collectLoop .list i tokens argv input s).run

def collectCommand (tokens : List Token) (s : State ι) : Int × List (List Char) × State ι :=
  let (result, argv, _, s) := ((calls place).collectCommand .list tokens [] s).run
  (result, argv, s)

def prepareLoop (i : ℕ) (tokens : List Token) (files : List Int) (s : State ι) :
    Int × List Int × State ι :=
  (calls place).prepareLoop i tokens files s

def prepareOutput (tokens : List Token) (s : State ι) : Int × State ι :=
  let (result, _, s) := prepareLoop place 0 tokens [] s
  (result, s)

def stageArgsLoop (i : ℕ) (tokens : List Token) (args : List (List Char)) (input : Int)
    (files : List Int) (s : State ι) : Int × List (List Char) × Int × List Int × State ι :=
  ((calls place).stageArgsLoop .list i tokens args input files s).run

/-- `stage_args` on a stage that is the whole of its segment. -/
def stageArgs (tokens : List Token) (s : State ι) : Int × List (List Char) × State ι :=
  let (result, args, _, _, s) := stageArgsLoop place 0 tokens [] (-1) [] s
  (result, args, s)

/-- The set-up in `run_external`: whether it comes to the lookup of the command. -/
def external (tokens : List Token) (s : State ι) : Bool × State ι :=
  let (result, argv, s) := collectCommand place tokens s
  if result ≠ 0 then (false, s)
  else if argv.length = 0 then (false, s)
  else
    let (result, s) := prepareOutput place tokens s
    if result ≠ 0 then (false, s) else (true, s)

/-- The set-up of a redirected builtin. -/
def builtin (tokens : List Token) (s : State ι) : Bool × State ι :=
  let (result, _, s) := stageArgs place tokens s
  if result ≠ 0 then (false, s) else (true, s)

end Setup

end Files

/-- The calls besides `open` succeed. -/
structure Env.Supplied (env : Env) : Prop where
  joins : ∀ i, env.joinInputs i = .joined
  fdopen : env.fdopen = true
  allocs : ∀ i, env.filesRealloc i = true
  pipe : env.outputPipe = true
  args : ∀ k, env.argsCalloc k = true

/-- The calls of `open` end as they did on the files. -/
def Env.Answers (env : Env) (opens : List Files.Open) : Prop :=
  ∀ o ∈ opens, env.openFile o.index = o.ok

/-- The words that do not directly follow a redirection operator; `after` says whether the first
token does. -/
def argumentsFrom : Bool → List Token → List (List Char)
  | _, [] => []
  | after, t :: ts =>
    if t.type = .word ∧ after = false then t.text :: argumentsFrom false ts
    else argumentsFrom (isRedirection t.type) ts

def arguments (tokens : List Token) : List (List Char) :=
  argumentsFrom false tokens

/-- The arguments and the `NULL` behind them. -/
def terminated (args : List (List Char)) : List (Option (List Char)) :=
  args.map some ++ [none]

/-- No write was behind the end of the array, and a function that returns 0 leaves the arguments of
the segment there, terminated, with what `calloc` made behind them. -/
def Argv.Fits (seg : List Token) (result : Int) : Option Argv → Prop
  | none => False
  | some argv => result = 0 → argv.slots.length = seg.length + 1
      ∧ argv.slots = terminated (arguments seg)
        ++ List.replicate (seg.length - (arguments seg).length) none

def Target.isInput : Target → Bool
  | .input _ => true
  | _ => false

/-- The files named by the redirections of a segment, in order. -/
def targetsOf : List Token → List Target
  | r :: t :: ts =>
    if r.type = .opLt then .input t.text :: targetsOf (t :: ts)
    else if r.type = .opGt ∨ r.type = .opGtgt then
      outputTarget r.type t.text :: targetsOf (t :: ts)
    else targetsOf (t :: ts)
  | _ => []

/-- These files at their places. -/
def openings {ι : Type*} (place : List Char → ι) : List Token → List (Opening ι)
  | r :: t :: ts =>
    if r.type = .opLt then .read (place t.text) :: openings place (t :: ts)
    else if r.type = .opGt ∨ r.type = .opGtgt then
      .write (place t.text) (r.type = .opGtgt) :: openings place (t :: ts)
    else openings place (t :: ts)
  | _ => []

/-- What the loops make of the tokens of a segment. -/
structure Classified {ι : Type*} [DecidableEq ι] (place : List Char → ι) (seg : List Token) :
    Prop where
  argv : ∀ env w, (collectCommand env seg w).1 = 0 →
    (collectCommand env seg w).2.1 = arguments seg
  args : ∀ env k w, (stageArgs env seg k (freshStage 0 seg.length) w).1 = 0 →
    (stageArgs env seg k (freshStage 0 seg.length) w).2.1.args = arguments seg
  argvFits : ∀ env w, (collectArray env seg w).1 = (collectCommand env seg w).1
    ∧ Argv.Fits seg (collectArray env seg w).1 (collectArray env seg w).2.1
  argsFit : ∀ env k w,
    let stage := freshStage 0 seg.length
    (stageArray env seg k stage w).1 = (stageArgs env seg k stage w).1
      ∧ Argv.Fits seg (stageArray env seg k stage w).1 (stageArray env seg k stage w).2
  collected : ∀ disk, (Files.collectCommand place seg (.start disk)).2.2.AllOk →
    (Files.collectCommand place seg (.start disk)).1 = 0
      ∧ (Files.collectCommand place seg (.start disk)).2.1 = arguments seg
      ∧ (Files.collectCommand place seg (.start disk)).2.2.targets = inputsOf seg
  prepared : ∀ disk, (Files.prepareOutput place seg (.start disk)).2.AllOk →
    (Files.prepareOutput place seg (.start disk)).1 = 0
      ∧ (Files.prepareOutput place seg (.start disk)).2.targets = outputsOf seg
  staged : ∀ disk, (Files.stageArgs place seg (.start disk)).2.2.AllOk →
    (Files.stageArgs place seg (.start disk)).1 = 0
      ∧ (Files.stageArgs place seg (.start disk)).2.1 = arguments seg
      ∧ (Files.stageArgs place seg (.start disk)).2.2.targets.filter (·.isInput) = inputsOf seg
      ∧ (Files.stageArgs place seg (.start disk)).2.2.targets.filter (fun d => !d.isInput)
        = outputsOf seg

end Shell

end CShellXv6
