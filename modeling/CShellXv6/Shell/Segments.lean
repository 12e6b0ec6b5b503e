import CShellXv6.Shell.Lexer

/-!
# Cutting a line into segments

`run_tokens` goes over the indices of the token list, its length included, and hands the tokens
since the last cut to `runbuff` or `runcomm`. The two are given as functions on a state of any
kind. What the cutting is for is stated over segments: each is run in its turn, until a
foreground one returns a negative value.
-/

namespace CShellXv6

namespace Shell

/-- What `run_tokens` calls, on a state of type `σ`. -/
structure Handlers (σ : Type*) where
  runcomm : σ → List Token → σ × Int
  runbuff : σ → List Token → σ

section Run

variable {σ : Type*} (H : Handlers σ)

def hasType (tokens : List Token) (i : ℕ) (type : TokenType) : Bool :=
  tokens[i]?.any (·.type = type)

/-- The loop of `run_tokens` over the indices still to come. -/
def runTokensLoop (tokens : List Token) : List ℕ → ℕ → σ → σ
  | [], _, s => s
  | i :: is, start, s =>
    if i = tokens.length ∨ hasType tokens i .opSemi ∨ hasType tokens i .opAmp then
      if start < i then
        let sublist := (tokens.drop start).take (i - start)
        if i < tokens.length ∧ hasType tokens i .opAmp then
          runTokensLoop tokens is (i + 1) (H.runbuff s sublist)
        else if (H.runcomm s sublist).2 < 0 then (H.runcomm s sublist).1
        else runTokensLoop tokens is (i + 1) (H.runcomm s sublist).1
      else runTokensLoop tokens is (i + 1) s
    else runTokensLoop tokens is start s

def runTokens (tokens : List Token) (s : σ) : σ :=
  runTokensLoop H tokens (List.range' 0 (tokens.length + 1)) 0 s

/-- `run`: the state after the line, or `none` where `invalid syntax` is printed. -/
def run (alloc : ℕ → Bool) (line : List Char) (s : σ) : Option σ :=
  match lexLine alloc line with
  | none => none
  | some tokens => if parseTokens tokens = 0 then some (runTokens H tokens s) else none

end Run

/-- A segment, and the token that ends it if it is not the end of the line. -/
structure Segment where
  tokens : List Token
  terminator : Option Token
  deriving DecidableEq, Repr

def Segment.background (g : Segment) : Bool :=
  g.terminator.any (·.type = .opAmp)

/-- The segments, with their separators back in. -/
def rebuild (gs : List Segment) : List Token :=
  gs.flatMap fun g => g.tokens ++ g.terminator.toList

/-- Running segments one after the other. -/
def runSegments {σ : Type*} (H : Handlers σ) : List Segment → σ → σ
  | [], s => s
  | g :: gs, s =>
    if g.background then runSegments H gs (H.runbuff s g.tokens)
    else if (H.runcomm s g.tokens).2 < 0 then (H.runcomm s g.tokens).1
    else runSegments H gs (H.runcomm s g.tokens).1

/-- The segments cut `tokens` up: each is accepted, is not empty and holds no `;` or `&`, and
only the last may end without one of these, or with a `&` that ends the line. -/
structure Cuts (tokens : List Token) (gs : List Segment) : Prop where
  rebuild : Shell.rebuild gs = tokens
  ne_nil : ∀ g ∈ gs, g.tokens ≠ []
  plain : ∀ g ∈ gs, ∀ t ∈ g.tokens, t.type ≠ .opSemi ∧ t.type ≠ .opAmp
  accepted : ∀ g ∈ gs, parseTokens g.tokens = 0
  inner : ∀ g ∈ gs.dropLast, ∃ t, g.terminator = some t ∧ (t.type = .opSemi ∨ t.type = .opAmp)
  last : ∀ g ∈ gs.getLast?, ∀ t ∈ g.terminator, t.type = .opAmp

/-- A segment `run_tokens` hands on, with no `|` in it. -/
structure PipeFree (seg : List Token) : Prop where
  accepted : parseTokens seg = 0
  ne_nil : seg ≠ []
  plain : ∀ t ∈ seg, isSeparator t.type = false

/-- A call `run_tokens` makes. -/
inductive Call where
  | runcomm (segment : List Token)
  | runbuff (segment : List Token)
  deriving DecidableEq, Repr

def Call.segment : Call → List Token
  | runcomm segment => segment
  | runbuff segment => segment

/-- Handlers that record the calls made, `runcomm` answering as `answer` says. -/
def recorder (answer : List Call → List Token → Int) : Handlers (List Call) where
  runcomm calls segment := (calls ++ [.runcomm segment], answer calls segment)
  runbuff calls segment := calls ++ [.runbuff segment]

end Shell

end CShellXv6
