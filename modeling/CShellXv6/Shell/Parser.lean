import Mathlib.Data.List.Basic

/-!
# Tokens and the syntax check

`parse_tokens` builds no tree: one flag, `want_command`, says whether the next token has to start
a command, and a redirection or a separator looks one token ahead. The grammar it is meant to
decide is stated beside it, as derivations over token lists.
-/

namespace CShellXv6

namespace Shell

inductive TokenType where
  | word
  | opPipe
  | opAmp
  | opSemi
  | opLt
  | opGt
  | opGtgt
  deriving DecidableEq, Repr

structure Token where
  type : TokenType
  text : List Char
  deriving DecidableEq, Repr

def isRedirection (type : TokenType) : Bool :=
  type = .opLt || type = .opGt || type = .opGtgt

def isSeparator (type : TokenType) : Bool :=
  type = .opPipe || type = .opSemi || type = .opAmp

/-- The loop of `parse_tokens` from index `i` on: the tokens from `i`, and `want_command`. -/
def parseLoop : Bool → List Token → Int
  | wantCommand, [] => if wantCommand = false then 0 else -1
  | true, t :: rest => if t.type ≠ .word then -1 else parseLoop false rest
  | false, t :: rest =>
    if t.type = .word then parseLoop false rest
    else if isRedirection t.type then
      match rest with
      | [] => -1
      | f :: rest' => if f.type ≠ .word then -1 else parseLoop false rest'
    else if isSeparator t.type then
      match rest with
      | [] => if t.type = .opAmp then 0 else -1
      | u :: rest' => parseLoop true (u :: rest')
    else -1

def parseTokens (tokens : List Token) : Int :=
  if tokens.length = 0 then 0 else parseLoop true tokens

/-- `(WORD | ('<' | '>' | '>>') WORD)*` -/
inductive Operands : List Token → Prop
  | nil : Operands []
  | word {t : Token} {ts : List Token} : t.type = .word → Operands ts → Operands (t :: ts)
  | redirection {r t : Token} {ts : List Token} : isRedirection r.type = true → t.type = .word →
      Operands ts → Operands (r :: t :: ts)

/-- `WORD (WORD | ('<' | '>' | '>>') WORD)*` -/
inductive Command : List Token → Prop
  | mk {t : Token} {ts : List Token} : t.type = .word → Operands ts → Command (t :: ts)

/-- `command ('|' command)*` -/
inductive Group : List Token → Prop
  | one {c : List Token} : Command c → Group c
  | pipe {c g : List Token} {p : Token} : Command c → p.type = .opPipe → Group g →
      Group (c ++ p :: g)

/-- `group ((';' | '&') group)*` -/
inductive Groups : List Token → Prop
  | one {g : List Token} : Group g → Groups g
  | sep {g l : List Token} {s : Token} : Group g → s.type = .opSemi ∨ s.type = .opAmp →
      Groups l → Groups (g ++ s :: l)

/-- `group ((';' | '&') group)* '&'?` -/
inductive Line : List Token → Prop
  | plain {l : List Token} : Groups l → Line l
  | amp {l : List Token} {a : Token} : Groups l → a.type = .opAmp → Line (l ++ [a])

end Shell

end CShellXv6
