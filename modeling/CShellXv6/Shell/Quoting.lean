import CShellXv6.Shell.Lexer

/-!
# Lexing one character at a time

What the lexer is for, without its buffers: a machine that takes the line character by character.
After a `>` it waits for the next character before it settles between `>` and `>>`; a line is
well formed if the machine does not stop inside quotes or behind a backslash.

`Reading` says the same of the quotes alone: which part of the line a reader is in and whether the
last character was a backslash that takes the next one with it.

`Rendered` is the other direction: the lines that spell a token list, every word double-quoted
and any blanks between neighbours that the lexer can tell apart.
-/

namespace CShellXv6

namespace Shell

/-- Where the machine stands: outside quotes, behind a `>`, behind a backslash, inside single or
double quotes, or behind a backslash inside double quotes. -/
inductive LexMode where
  | top
  | gt
  | escape
  | single
  | double
  | doubleEscape
  deriving DecidableEq, Repr

/-- `word` is the word being read, if one has begun. -/
structure LexConfig where
  mode : LexMode
  word : Option (List Char)
  out : List Token
  deriving DecidableEq, Repr

/-- The token of a word being read. -/
def wordToken (word : Option (List Char)) : List Token :=
  word.toList.map fun w => ⟨.word, w⟩

namespace LexConfig

/-- The word being read, with `cs` behind it. -/
def put (s : LexConfig) (mode : LexMode) (cs : List Char) : LexConfig :=
  { s with mode := mode, word := some (s.word.getD [] ++ cs) }

/-- The word being read ends, and the tokens `ts` follow. -/
def emit (s : LexConfig) (mode : LexMode) (ts : List Token) : LexConfig :=
  ⟨mode, none, s.out ++ wordToken s.word ++ ts⟩

def stepTop (s : LexConfig) (c : Char) : LexConfig :=
  if isSpace c then s.emit .top []
  else if isSpecial c then
    if c = '>' then s.emit .gt [] else s.emit .top [⟨operatorType c, [c]⟩]
  else if c = '\\' then s.put .escape []
  else if c = '\'' then s.put .single []
  else if c = '"' then s.put .double []
  else s.put .top [c]

def step (s : LexConfig) (c : Char) : LexConfig :=
  match s.mode with
  | .top => s.stepTop c
  | .gt =>
    if c = '>' then s.emit .top [⟨.opGtgt, ['>', c]⟩]
    else (s.emit .top [⟨.opGt, ['>']⟩]).stepTop c
  | .escape => s.put .top [c]
  | .single => if c = '\'' then s.put .top [] else s.put .single [c]
  | .double =>
    if c = '"' then s.put .top []
    else if c = '\\' then s.put .doubleEscape []
    else s.put .double [c]
  | .doubleEscape => s.put .double (if c ≠ '"' ∧ c ≠ '\\' then ['\\', c] else [c])

/-- The tokens at the end of the line. -/
def finish (s : LexConfig) : Option (List Token) :=
  match s.mode with
  | .top => some (s.emit .top []).out
  | .gt => some (s.emit .top [⟨.opGt, ['>']⟩]).out
  | _ => none

end LexConfig

inductive QuotedPart where
  | outside
  | single
  | double
  deriving DecidableEq, Repr

/-- A reader of the line from left to right: `backslash` if the next character belongs to the
backslash just read. -/
structure Reading where
  part : QuotedPart
  backslash : Bool
  deriving DecidableEq, Repr

namespace Reading

def next (r : Reading) (c : Char) : Reading :=
  if r.backslash then ⟨r.part, false⟩
  else if c = '\\' ∧ r.part ≠ .single then ⟨r.part, true⟩
  else
    match r.part with
    | .outside =>
      if c = '\'' then ⟨.single, false⟩ else if c = '"' then ⟨.double, false⟩ else r
    | .single => if c = '\'' then ⟨.outside, false⟩ else r
    | .double => if c = '"' then ⟨.outside, false⟩ else r

/-- Where the reader is at the end of the line. -/
def ofLine (line : List Char) : Reading :=
  line.foldl next ⟨.outside, false⟩

/-- Inside quotes, or directly behind a backslash. -/
def Open (r : Reading) : Prop :=
  r.part = .single ∨ r.part = .double ∨ r.backslash = true

instance (r : Reading) : Decidable r.Open :=
  inferInstanceAs (Decidable (_ ∨ _))

end Reading

/-- A word between double quotes, with every quote and backslash escaped. -/
def quoteWord (w : List Char) : List Char :=
  '"' :: w.flatMap (fun c => if c = '"' ∨ c = '\\' then ['\\', c] else [c]) ++ ['"']

/-- The operator a token type stands for. -/
def operatorText : TokenType → List Char
  | .word => []
  | .opPipe => ['|']
  | .opAmp => ['&']
  | .opSemi => [';']
  | .opLt => ['<']
  | .opGt => ['>']
  | .opGtgt => ['>', '>']

/-- A word holds any characters but NUL, and an operator its own text. -/
def Token.Spelled (t : Token) : Prop :=
  if t.type = .word then Char.ofNat 0 ∉ t.text else t.text = operatorText t.type

instance (t : Token) : Decidable t.Spelled := by
  unfold Token.Spelled
  infer_instance

def renderToken (t : Token) : List Char :=
  if t.type = .word then quoteWord t.text else operatorText t.type

/-- Neighbours that would run together: two words, and a `>` before a `>` or `>>`. -/
def needsGap (t u : TokenType) : Bool :=
  (t = .word && u = .word) || (t = .opGt && (u = .opGt || u = .opGtgt))

/-- The line spells the token list. -/
inductive Rendered : List Token → List Char → Prop
  | nil : Rendered [] []
  | one {t : Token} : t.Spelled → Rendered [t] (renderToken t)
  | cons {t u : Token} {ts : List Token} {gap line : List Char} : t.Spelled →
      (∀ c ∈ gap, isSpace c = true) → (needsGap t.type u.type = true → gap ≠ []) →
      Rendered (u :: ts) line → Rendered (t :: u :: ts) (renderToken t ++ gap ++ line)

end Shell

end CShellXv6
