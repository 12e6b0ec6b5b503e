import CShellXv6.Shell.Commands

/-!
# The processes of a pipeline

The fork loop again, with the descriptors of every process it makes. A child starts with a copy of
the shell's table and then works on its own, so that its table does not depend on when it runs.

A wire is what a descriptor refers to. What was open in the shell when the loop began is known by
the number it had there; the pipes of the tee processes are made later, when numbers may have come
back, and are known by their stages.
-/

namespace CShellXv6

namespace Shell

inductive End where
  | read
  | write
  deriving DecidableEq, Repr

inductive Wire where
  | shell (fd : ℕ)
  | tee (i : ℕ) (side : End)
  deriving DecidableEq, Repr

/-- What the descriptors of a process refer to. -/
def Table : Type :=
  ℕ → Option Wire

namespace Table

variable (t : Table)

/-- The shell's table where its open descriptors are those of `w`. -/
def start (w : World) : Table :=
  fun fd => if w.IsOpen fd then some (.shell fd) else none

/-- `close` on a C int, which has no effect if that is negative. -/
def close (fd : Int) : Table :=
  fun n => if (n : Int) = fd then none else t n

def closeAll (fds : List Int) : Table :=
  fds.foldl (fun t fd => t.close fd) t

/-- `dup2`, which has no effect if `old` is not open. -/
def dup2 (old : Int) (new : ℕ) : Table :=
  if 0 ≤ old then
    match t old.toNat with
    | none => t
    | some d => fun n => if n = new then some d else t n
  else t

def dup2If (c : Prop) [Decidable c] (old : Int) (new : ℕ) : Table :=
  if c then t.dup2 old new else t

def closePipes (pipes : List (Int × Int)) : Table :=
  t.closeAll (pipes.flatMap fun p => [p.1, p.2])

/-- The end of `reset_child_mask`. -/
def closeGate (gate : Option (ℕ × ℕ)) : Table :=
  match gate with
  | none => t
  | some (read, write) => t.closeAll [write, read]

/-- What `close_stage_fds` closes in the child with number `own`. -/
def closeStageFds (stages : List Stage) (own : ℕ) : Table :=
  t.closeAll (stages.zipIdx.flatMap fun (stage, j) =>
    (if j ≠ own then [stage.input, stage.output] else []) ++ stage.teeRead :: stage.files)

/-- The pipe to the tee process of stage `i`, if the stage has got one. -/
def openTee (i : ℕ) (stage : Stage) : Table :=
  fun n =>
    if (n : Int) = stage.teeRead then some (.tee i .read)
    else if (n : Int) = stage.teeWrite then some (.tee i .write)
    else t n

end Table

section Children

variable (gate : Option (ℕ × ℕ)) (pipes : List (Int × Int)) (stages : List Stage) (i : ℕ)
  (stage : Stage) (t : Table)

/-- What the child for stage `i` makes standard input and output. -/
def Table.redirect : Table :=
  let t := t.dup2If (0 < i) (pipes.getD (i - 1) (-1, -1)).1 0
  let t := t.dup2If (i + 1 < stages.length) (pipes.getD i (-1, -1)).2 1
  let t := t.dup2If (0 ≤ stage.input) stage.input 0
  t.dup2If (0 ≤ stage.output) stage.output 1

/-- The child for stage `i`, up to the command. -/
def stageChild : Table :=
  let t := (t.closeGate gate).redirect pipes stages i stage
  ((t.closePipes pipes).closeAll [stage.input, stage.output]).closeStageFds stages i

/-- The tee process of stage `i`, up to `run_tee`. -/
def teeChild : Table :=
  (((t.closeGate gate).closePipes pipes).close stage.teeWrite).closeAll
    (stages.zipIdx.flatMap fun (other, j) =>
      other.input :: if j ≠ i then [other.output] else [])

end Children

inductive Role where
  | shell
  | stage (i : ℕ)
  | tee (i : ℕ)
  deriving DecidableEq, Repr

structure Process where
  role : Role
  table : Table

/-- The fork loop, behind the stages `done`: the processes, the stages it leaves, and the shell's
table. -/
def forkProcesses (env : Env) (gate : Option (ℕ × ℕ)) (pipes : List (Int × Int)) :
    List Stage → List Stage → Table → World → List Process × List Stage × Table × World
  | done, [], t, w => ([], done, t, w)
  | done, stage :: rest, t, w =>
    let i := done.length
    let (stage, w) := makeTee env i stage w
    let t := t.openTee i stage
    let stages := done ++ stage :: rest
    match env.fork i with
    | none => ([], stages, t, w)
    | some _ =>
      let child := ⟨.stage i, stageChild gate pipes stages i stage t⟩
      let tee :=
        if 0 ≤ stage.teeRead ∧ (env.teeFork i).isSome then
          [⟨.tee i, teeChild gate pipes stages i stage t⟩]
        else []
      let t := t.close stage.teeWrite
      let (stage, w) := closeTee stage w
      let (processes, left) := forkProcesses env gate pipes (done ++ [stage]) rest t w
      (child :: tee ++ processes, left)

/-- The stages and the pipes as the fork loop finds them, what is open then, and the processes,
the shell first. -/
structure Wiring where
  stages : List Stage
  pipes : List (Int × Int)
  world : World
  processes : List Process

/-- What `pipeline` makes, if it comes to its fork loop, up to the wait for the children. -/
def wiring (env : Env) (tokens : List Token) (force : Bool) (gate : Option (ℕ × ℕ)) (w : World) :
    Option Wiring :=
  let (result, stages, w) := makeStages env tokens force w
  if result ≤ 0 then none
  else if env.pipesCalloc = false ∨ env.childrenCalloc = false then none
  else
    match makePipes env (stages.length - 1) 0 [] w with
    | (none, _) => none
    | (some pipes, w) =>
      let (processes, _, t, _) := forkProcesses env gate pipes [] stages (.start w) w
      some ⟨stages, pipes, w, ⟨.shell, t.closePipes pipes⟩ :: processes⟩

/-- The gate pipe of a background pipeline, made by `runbuff` while 0, 1 and 2 are open. -/
structure Gate (w : World) where
  read : ℕ
  write : ℕ
  isOpen_read : w.IsOpen read
  isOpen_write : w.IsOpen write
  two_lt_read : 2 < read
  two_lt_write : 2 < write

def Gate.fds {w : World} (gate : Option (Gate w)) : Option (ℕ × ℕ) :=
  gate.map fun g => (g.read, g.write)

section Intended

/-- The files behind the `<` operators of a command. -/
def inputsOf : List Token → List Target
  | r :: t :: ts =>
    if r.type = .opLt then .input t.text :: inputsOf (t :: ts) else inputsOf (t :: ts)
  | _ => []

/-- The files behind its `>` and `>>` operators. -/
def outputsOf : List Token → List Target
  | r :: t :: ts =>
    if r.type = .opGt ∨ r.type = .opGtgt then outputTarget r.type t.text :: outputsOf (t :: ts)
    else outputsOf (t :: ts)
  | _ => []

/-- What several inputs come down to. -/
def joinTargets : List Target → Option Target
  | [] => none
  | [d] => some d
  | _ :: _ :: _ => some .joined

/-- The stage has the redirections of the command `c`. -/
structure Redirected (w : World) (c : ℕ × List Token) (stage : Stage) : Prop where
  input : 0 ≤ stage.input ↔ inputsOf c.2 ≠ []
  reads : 0 ≤ stage.input → w.get stage.input.toNat = joinTargets (inputsOf c.2)
  writes : (∃ d, outputsOf c.2 = [d] ∧ stage.files = [] ∧ 0 ≤ stage.output
      ∧ w.get stage.output.toNat = some d)
    ∨ (outputsOf c.2).length ≠ 1 ∧ stage.output = -1
      ∧ List.Forall₂ (fun fd d => 0 ≤ fd ∧ w.get fd.toNat = some d) stage.files (outputsOf c.2)

variable (W : Wiring)

/-- An end of the pipe between the stages `k` and `k + 1`. -/
def Wiring.pipe (k : ℕ) (side : End) : Option Wire :=
  W.pipes[k]?.map fun p =>
    match side with
    | .read => .shell p.1.toNat
    | .write => .shell p.2.toNat

/-- What stage `i` is to read from. -/
def Wiring.stdin (i : ℕ) (stage : Stage) (c : List Token) : Option Wire :=
  if inputsOf c ≠ [] then some (.shell stage.input.toNat)
  else if i = 0 then some (.shell 0)
  else W.pipe (i - 1) .read

/-- What it is to write to. -/
def Wiring.stdout (i : ℕ) (stage : Stage) (c : List Token) : Option Wire :=
  match outputsOf c with
  | [] => if i + 1 < W.stages.length then W.pipe i .write else some (.shell 1)
  | [_] => some (.shell stage.output.toNat)
  | _ :: _ :: _ => some (.tee i .write)

/-- The processes of stage `i`. -/
def roles (i : ℕ) (c : List Token) : List Role :=
  if 1 < (outputsOf c).length then [.stage i, .tee i] else [.stage i]

/-- The descriptors of one process: a write end of a pipe is the standard output of a stage and
nothing else. -/
structure Fits (cs : List (ℕ × List Token)) (W : Wiring) (p : Process) : Prop where
  stdin : ∀ i c stage, p.role = .stage i → cs[i]? = some c → W.stages[i]? = some stage →
    p.table 0 = W.stdin i stage c.2
  stdout : ∀ i c stage, p.role = .stage i → cs[i]? = some c → W.stages[i]? = some stage →
    p.table 1 = W.stdout i stage c.2
  pipe : ∀ k wire fd, W.pipe k .write = some wire → p.table fd = some wire →
    p.role = .stage k ∧ fd = 1
  tee : ∀ k fd, p.table fd = some (.tee k .write) → p.role = .stage k ∧ fd = 1

/-- The processes of the commands `cs` are wired as the pipeline asks for. -/
structure Wired (cs : List (ℕ × List Token)) (W : Wiring) : Prop where
  pipes : W.pipes.length + 1 = cs.length
  ends : ∀ k p, W.pipes[k]? = some p →
    W.world.get p.1.toNat = some (.pipe k) ∧ W.world.get p.2.toNat = some (.pipe k)
  stages : List.Forall₂ (Redirected W.world) cs W.stages
  roles : W.processes.map Process.role
    = .shell :: cs.zipIdx.flatMap fun (c, i) => roles i c.2
  fits : ∀ p ∈ W.processes, Fits cs W p

end Intended

end Shell

end CShellXv6
