import CShellXv6.Shell.Parser
import Mathlib.Data.List.TakeWhile

/-!
# The lexer

`lex_line` walks a C string with three nested loops: the outer one, and one each for the inside
of a single-quoted and of a double-quoted part. Every loop runs on what is left of the line, the
empty list standing for its terminating NUL. A call that returns -1 is `none`.

Each request to the allocator is numbered, and `alloc` says which of them succeed. The contents
of a buffer are a list, and its capacity decides when it is grown.
-/

namespace CShellXv6

namespace Shell

/-- What a C string holds: the characters before the first NUL. -/
def cString (s : List Char) : List Char :=
  s.takeWhile (· ≠ Char.ofNat 0)

theorem cString_eq_self {s : List Char} (h : Char.ofNat 0 ∉ s) : cString s = s := by
  refine List.takeWhile_eq_self_iff.2 fun c hc => ?_
  rw [decide_eq_true_eq]
  rintro rfl
  exact h hc

structure TokenList where
  items : List Token
  capacity : ℕ
  deriving DecidableEq, Repr

/-- `data` holds the first `len` characters; the buffer is NULL while `cap` is 0. -/
structure WordBuffer where
  data : List Char
  cap : ℕ
  deriving DecidableEq, Repr

structure LexState where
  tokens : TokenList
  word : WordBuffer
  hasWord : Bool
  allocs : ℕ
  deriving DecidableEq, Repr

def isSpace (c : Char) : Bool :=
  c = ' ' || c = '\t' || c = '\n' || c = '\r'

def isSpecial (c : Char) : Bool :=
  c = '|' || c = '&' || c = ';' || c = '<' || c = '>'

/-- The type of a one-character operator. -/
def operatorType (c : Char) : TokenType :=
  if c = '|' then .opPipe
  else if c = '&' then .opAmp
  else if c = ';' then .opSemi
  else if c = '<' then .opLt
  else .opGt

variable (alloc : ℕ → Bool)

/-- One request to the allocator. -/
def LexState.request (st : LexState) : Option LexState :=
  if alloc st.allocs then some { st with allocs := st.allocs + 1 } else none

def addChar (c : Char) (st : LexState) : Option LexState := do
  let st ← if st.word.data.length = st.word.cap then do
      let st ← st.request alloc
      let newCap := if st.word.cap = 0 then 16 else st.word.cap * 2
      some { st with word := { st.word with cap := newCap } }
    else some st
  some { st with word := { st.word with data := st.word.data ++ [c] } }

def tokenListPush (type : TokenType) (text : List Char) (st : LexState) : Option LexState := do
  let st ← if st.tokens.items.length = st.tokens.capacity then do
      let st ← st.request alloc
      let newCap := if st.tokens.capacity = 0 then 8 else st.tokens.capacity * 2
      some { st with tokens := { st.tokens with capacity := newCap } }
    else some st
  let st ← st.request alloc
  some { st with tokens := { st.tokens with items := st.tokens.items ++ [⟨type, text⟩] } }

def saveWord (st : LexState) : Option LexState :=
  if st.hasWord = false then some st
  else do
    let st ← tokenListPush alloc .word (if st.word.cap = 0 then [] else st.word.data) st
    some { st with word := { st.word with data := [] }, hasWord := false }

mutual

/-- The outer loop. -/
def lexLoop : List Char → LexState → Option LexState
  | [], st => some st
  | c :: rest, st =>
    if isSpace c then do
      let st ← saveWord alloc st
      lexLoop rest st
    else if isSpecial c then do
      let st ← saveWord alloc st
      match rest with
      | [] => do
        let st ← tokenListPush alloc (operatorType c) [c] st
        lexLoop [] st
      | d :: rest' =>
        if c = '>' ∧ d = '>' then do
          let st ← tokenListPush alloc .opGtgt [c, d] st
          lexLoop rest' st
        else do
          let st ← tokenListPush alloc (operatorType c) [c] st
          lexLoop (d :: rest') st
    else
      let st := { st with hasWord := true }
      if c = '\\' then
        match rest with
        | [] => none
        | d :: rest' => do
          let st ← addChar alloc d st
          lexLoop rest' st
      else if c = '\'' then lexSingle rest st
      else if c = '"' then lexDouble rest st
      else do
        let st ← addChar alloc c st
        lexLoop rest st

/-- The loop over a single-quoted part. -/
def lexSingle : List Char → LexState → Option LexState
  | [], _ => none
  | c :: rest, st =>
    if c = '\'' then lexLoop rest st
    else do
      let st ← addChar alloc c st
      lexSingle rest st

/-- The loop over a double-quoted part. -/
def lexDouble : List Char → LexState → Option LexState
  | [], _ => none
  | c :: rest, st =>
    if c = '"' then lexLoop rest st
    else if c = '\\' then
      match rest with
      | [] => none
      | d :: rest' => do
        let st ← if d ≠ '"' ∧ d ≠ '\\' then addChar alloc '\\' st else some st
        let st ← addChar alloc d st
        lexDouble rest' st
    else do
      let st ← addChar alloc c st
      lexDouble rest st

end

/-- `token_list_init` and the zeroed word buffer. -/
def lexStart : LexState := ⟨⟨[], 0⟩, ⟨[], 0⟩, false, 0⟩

/-- `lex_line` on a token list fresh from `token_list_init`: `none` is -1, and otherwise it
returns 0 with these tokens. -/
def lexLine (line : List Char) : Option (List Token) := do
  let st ← lexLoop alloc (cString line) lexStart
  let st ← saveWord alloc st
  some st.tokens.items

end Shell

end CShellXv6
