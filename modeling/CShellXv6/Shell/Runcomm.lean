import CShellXv6.Shell.Hop
import CShellXv6.Shell.Launch
import CShellXv6.Shell.Segments

/-!
# Running one segment

`runcomm` sends a redirected builtin to a process of its own, all but `hop`, which has to change the
directory of the shell. For `hop` the files are opened and closed again, and `run_hop` is then given
the tokens as they are. Of what comes behind `run_hop`, the other builtins are functions on the rest
of the shell's state, and `run_external` is followed as far as `runExternal` goes.
-/

namespace CShellXv6

namespace Shell

def hasRedirect (tokens : List Token) : Bool :=
  tokens.any fun t => isRedirection t.type

def hasPipe (tokens : List Token) : Bool :=
  tokens.any (·.type = .opPipe)

/-- `not_found`. -/
def notFound (paths : Paths) (tokens : List Token) : Bool :=
  match tokens with
  | [] => false
  | first :: _ =>
    if first.type ≠ .word then false
    else (findExecutable paths (lookedUp first.text).1 (lookedUp first.text).2).isNone

/-- `output_redirect_destroy`. -/
def outputRedirectDestroy (output : OutputRedirect) (w : World) : World :=
  (closeOutputFiles output (closeIfOpen output.writeFd (closeIfOpen output.readFd w))).2

section Setup

variable (env : Env)

/-- The loop of `runcomm` over the `<` of a `hop`, from index `i` on: whether all the files could be
opened. -/
def openInputs : ℕ → List Token → World → Bool × World
  | i, t :: f :: rest, w =>
    if t.type = .opLt then
      let (fd, w) := openFile env i (.input f.text) w
      if fd < 0 then (false, w) else openInputs (i + 1) (f :: rest) (closeFd fd w)
    else openInputs (i + 1) (f :: rest) w
  | _, _, w => (true, w)

/-- The redirections of a `hop`: the message where `runcomm` returns there. -/
def hopRedirections (tokens : List Token) (w : World) : Option String × World :=
  match openInputs env 0 tokens w with
  | (false, w) => (some "cshell: no such file or directory\n", w)
  | (true, w) =>
    let (result, output, w) := prepareOutput env tokens outputRedirectInit w
    if result ≠ 0 then
      (some "cshell: unable to create file for writing\n", outputRedirectDestroy output w)
    else (none, outputRedirectDestroy output w)

end Setup

section Runcomm

variable {σ : Type*}

/-- What `runcomm` calls. `setup`, `pipeline` and `external` are the environments of the three
places where files are opened, and `builtins` are `run_locate` to `run_snoop`. -/
structure RuncommCalls (σ : Type*) where
  setup : Env
  pipeline : Env
  external : Env
  alloc : Bool
  paths : Paths
  hop : List Char → σ → Int × σ
  builtins : List (List Token → σ → Int × σ)

/-- What a `runcomm` leaves: its value, what it printed to stderr itself, the calls of `do_hop` with
their results, what `run_external` came to if it was called, and the state. -/
structure Ran (σ : Type*) where
  value : Int
  stderr : List String
  hops : List (List Char × Int)
  launch : Option Launch
  world : World
  state : σ

/-- The chain of builtins, up to the first that does not return 0. -/
def runBuiltins : List (List Token → σ → Int × σ) → List Token → σ → Int × σ
  | [], _, s => (0, s)
  | builtin :: rest, tokens, s =>
    let (result, s) := builtin tokens s
    if result ≠ 0 then (result, s) else runBuiltins rest tokens s

variable (calls : RuncommCalls σ)

/-- `runcomm` from its call of `run_pipeline` on. -/
def runChain (tokens : List Token) (w : World) (s : σ) : Ran σ :=
  let piped := runPipeline calls.pipeline tokens w
  if piped.result ≠ 0 then ⟨1, piped.stderr, [], none, piped.world, s⟩
  else
    let (result, hops, s) := runHop calls.hop tokens s
    let stderr := (hops.filter (·.2 ≠ 0)).map fun _ => "hop: no such directory\n"
    if result ≠ 0 then ⟨1, stderr, hops, none, piped.world, s⟩
    else
      let (result, s) := runBuiltins calls.builtins tokens s
      if result ≠ 0 then ⟨1, [], [], none, piped.world, s⟩
      else
        ⟨if notFound calls.paths tokens then -1 else 1, [], [],
          some (runExternal calls.external calls.paths calls.alloc tokens piped.world),
          piped.world, s⟩

def runcomm (tokens : List Token) (w : World) (s : σ) : Ran σ :=
  match tokens with
  | [] => runChain calls tokens w s
  | first :: _ =>
    if first.type = .word ∧ isBuiltin first.text ∧ first.text ≠ "hop".toList
        ∧ hasRedirect tokens ∧ hasPipe tokens = false then
      let forced := runRedirectedBuiltin calls.setup tokens w
      ⟨1, forced.stderr, [], none, forced.world, s⟩
    else if first.type = .word ∧ first.text = "hop".toList ∧ hasRedirect tokens then
      match hopRedirections calls.setup tokens w with
      | (some message, w) => ⟨1, [message], [], none, w, s⟩
      | (none, w) => runChain calls tokens w s
    else runChain calls tokens w s

end Runcomm

/-- A segment with every redirection operator and the file name behind it removed. -/
def stripRedirects : List Token → List Token
  | [] => []
  | t :: rest =>
    if isRedirection t.type then
      match rest with
      | [] => []
      | _ :: rest' => stripRedirects rest'
    else t :: stripRedirects rest

/-- All the calls made for the redirections of a `hop` succeed. -/
structure Openable (env : Env) (seg : List Token) : Prop where
  opens : ∀ i t, seg[i]? = some t → isRedirection t.type = true → env.openFile i = true
  allocs : ∀ i t, seg[i]? = some t → t.type = .opGt ∨ t.type = .opGtgt → env.filesRealloc i = true
  pipe : env.outputPipe = true

/-- There are no redirections, or else there are arguments and all of them come before the first
redirection. -/
def HopFirst (seg : List Token) : Prop :=
  hasRedirect seg = false ∨ 1 < (stripRedirects seg).length ∧ stripRedirects seg <+: seg

instance (seg : List Token) : Decidable (HopFirst seg) :=
  inferInstanceAs (Decidable (_ ∨ _))

end Shell

end CShellXv6
