import CShellXv6.Shell.Pipeline

/-!
# The commands of a pipeline

What the stages of a pipeline stand for: the commands between its `|` tokens, each with the index
of its first token. A command's set-up succeeds if its argument array can be allocated, all its
files can be opened, each `<` behind the first can be joined to what was there, and its file
array can grow.
-/

namespace CShellXv6

namespace Shell

/-- The pieces of a token list between its `|` tokens, the first token having index `i`. -/
def commandsFrom : ℕ → List Token → List (ℕ × List Token)
  | i, [] => [(i, [])]
  | i, t :: ts =>
    if t.type = .opPipe then (i, []) :: commandsFrom (i + 1) ts
    else
      match commandsFrom (i + 1) ts with
      | [] => [(i, [t])]
      | (_, c) :: cs => (i, t :: c) :: cs

/-- The commands of the first pipeline of a line. -/
def commands (tokens : List Token) : List (ℕ × List Token) :=
  commandsFrom 0 (tokens.take (lineEnd tokens))

/-- All the calls made for the redirections of a command succeed; `hasInput` says whether a `<`
has come before. -/
def redirectsOk (env : Env) : ℕ → Bool → List Token → Bool
  | _, _, [] => true
  | i, hasInput, t :: ts =>
    if t.type = .opLt then
      env.openFile i && (!hasInput || env.joinInputs i = .joined) && redirectsOk env (i + 1) true ts
    else if t.type = .opGt || t.type = .opGtgt then
      env.openFile i && env.filesRealloc i && redirectsOk env (i + 1) hasInput ts
    else redirectsOk env (i + 1) hasInput ts

/-- All the calls made to set up stage `k` succeed. -/
def stageOk (env : Env) (k : ℕ) (c : ℕ × List Token) : Bool :=
  env.argsCalloc k && redirectsOk env c.1 false c.2

/-- All the calls made to set up the stages from `k` on succeed. -/
def stagesOk (env : Env) : ℕ → List (ℕ × List Token) → Bool
  | _, [] => true
  | k, c :: cs => stageOk env k c && stagesOk env (k + 1) cs

/-- The ranges of the stages and the `|` tokens between them make up a token list, the first
token having index `i`. -/
inductive Tiles : ℕ → List Token → List Stage → Prop where
  | last {i : ℕ} {c : List Token} {stage : Stage} (hc : ∀ t ∈ c, t.type ≠ .opPipe)
      (hstart : stage.start = i) (hstop : stage.stop = i + c.length) : Tiles i c [stage]
  | pipe {i : ℕ} {c g : List Token} {p : Token} {stage : Stage} {stages : List Stage}
      (hc : ∀ t ∈ c, t.type ≠ .opPipe) (hp : p.type = .opPipe) (hstart : stage.start = i)
      (hstop : stage.stop = i + c.length) (hg : Tiles (stage.stop + 1) g stages) :
      Tiles i (c ++ p :: g) (stage :: stages)

/-- What a segment handed on by `run_tokens` gets: its stages, if the calls made for them
succeed; no operator without a file name; and no 0 from a background pipeline. -/
structure SegmentSafe (env : Env) (seg : List Token) (w : World) : Prop where
  built : ∀ force, (makeStages env seg force w).1 = 1 ↔
    (force = true ∨ ∃ t ∈ seg, t.type = .opPipe)
      ∧ env.stagesCalloc = true ∧ stagesOk env 0 (commands seg) = true
  count : ∀ force, (makeStages env seg force w).1 = 1 →
    (makeStages env seg force w).2.1.length = 1 + seg.countP (·.type = .opPipe)
  tiles : ∀ force, (makeStages env seg force w).1 = 1 → Tiles 0 seg (makeStages env seg force w).2.1
  args : ∀ force, (makeStages env seg force w).1 = 1 →
    ∀ stage ∈ (makeStages env seg force w).2.1, stage.args ≠ []
  stageArgs : ∀ c ∈ commands seg, ∀ k w',
    (stageArgs env seg k (freshStage c.1 (c.1 + c.2.length)) w').1 ≠ -2
  makeStages : ∀ force, (makeStages env seg force w).1 ≠ -2
  collectCommand : (collectCommand env seg w).1 ≠ -2
  prepareOutput : (prepareOutput env seg outputRedirectInit w).1 ≠ -2
  background : (∃ t ∈ seg, t.type = .opPipe) → ∀ force, (pipeline env seg true force w).result ≠ 0

end Shell

end CShellXv6
