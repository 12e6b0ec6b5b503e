import CShellXv6.Lib.Decimal
import CShellXv6.Shell.Lexer

/-!
# Printing files

Forwards `peek` prints a line as soon as its newline has been read. There are two ways it prints
lines in reverse: a regular file is scanned from its end in chunks, so that each line is collected
backwards, and the lines of anything else are all read before the last is printed. What is printed
is the list of the bytes written, and allocations succeed.

What the printers are for is said over the pieces between newlines: `numberUp` puts the numbers in
front of them, and `readBack` takes numbers and lines out of what was written.
-/

namespace CShellXv6

namespace Shell

namespace Peek

def newline : UInt8 := 10

def peekChunk : ℕ := 4096

theorem peekChunk_pos : 0 < peekChunk := by decide

structure PeekLine where
  data : List UInt8
  newline : Bool
  deriving DecidableEq, Repr

/-- `PeekLine line={0}`. -/
def PeekLine.zero : PeekLine := ⟨[], false⟩

def addLineChar (line : PeekLine) (c : UInt8) : PeekLine :=
  { line with data := line.data ++ [c] }

/-- `add_line`: the lines, and the line emptied. -/
def addLine (lines : List PeekLine) (line : PeekLine) (newline : Bool) :
    List PeekLine × PeekLine :=
  (lines ++ [{ line with newline := newline }], .zero)

/-- One round of the loop that turns a line around in its buffer. -/
def swapEnds (data : List UInt8) (i : ℕ) : List UInt8 :=
  (data.set i (data.getD (data.length - 1 - i) 0)).set (data.length - 1 - i) (data.getD i 0)

def turnAround (data : List UInt8) : List UInt8 :=
  (List.range (data.length / 2)).foldl swapEnds data

/-- What `printf("%lld ", number)` writes. -/
def numberText (number : Int) : List UInt8 :=
  (toString number ++ " ").toList.map fun c => c.toNat.toUInt8

def printLine (line : PeekLine) (numbered : Bool) (number : Int) (backwards : Bool) :
    List UInt8 :=
  let data := if backwards then turnAround line.data else line.data
  (if numbered ∧ 0 < data.length then numberText number else [])
    ++ (if 0 < data.length then data else []) ++ if line.newline then [newline] else []

/-- A loop over the bytes of one `read` after the other. -/
def overChunks {σ : Type} (step : σ → UInt8 → σ) (chunks : List (List UInt8)) (s : σ) : σ :=
  chunks.foldl (fun s chunk => chunk.foldl step s) s

/-- The reads of a regular file from its start. -/
def readChunks (content : List UInt8) : List (List UInt8) :=
  if content = [] then [] else content.take peekChunk :: readChunks (content.drop peekChunk)
termination_by content.length
decreasing_by
  have := List.length_pos_iff.2 ‹content ≠ []›
  have := peekChunk_pos
  rw [List.length_drop]
  omega

/-- The loop of `count_nonempty`, over `len` and `count`. -/
def countStep (s : ℕ × Int) (c : UInt8) : ℕ × Int :=
  if c = newline then (0, if 0 < s.1 then s.2 + 1 else s.2) else (s.1 + 1, s.2)

def countNonempty (content : List UInt8) : Int :=
  let (len, count) := overChunks countStep (readChunks content) (0, 0)
  if 0 < len then count + 1 else count

/-- The variables of the backward scan, and what it has printed. -/
structure Scan where
  line : PeekLine
  firstNewline : Bool
  number : Int
  out : List UInt8
  deriving DecidableEq, Repr

section Regular

variable (numbered : Bool)

def scanChar (s : Scan) (c : UInt8) : Scan :=
  if c = newline then
    if s.firstNewline ∧ s.line.data.length = 0 then
      { s with firstNewline := false, line := { s.line with newline := true } }
    else
      let line := { s.line with newline := true }
      if numbered ∧ 0 < line.data.length then
        ⟨⟨[], true⟩, false, s.number - 1, s.out ++ printLine line true s.number true⟩
      else ⟨⟨[], true⟩, false, s.number, s.out ++ printLine line false 0 true⟩
  else { s with line := addLineChar s.line c }

/-- The loop over the chunks before `position`. -/
def scanBack (content : List UInt8) (position : ℕ) (s : Scan) : Scan :=
  if 0 < position then
    let start := if peekChunk < position then position - peekChunk else 0
    let buffer := (content.drop start).take (position - start)
    scanBack content start (buffer.reverse.foldl (scanChar numbered) s)
  else s
termination_by position
decreasing_by
  have := peekChunk_pos
  split_ifs <;> omega

/-- What has been printed once the line the scan ended in is. -/
def Scan.finish (s : Scan) : List UInt8 :=
  if 0 < s.line.data.length then
    if numbered then s.out ++ printLine s.line true s.number true
    else s.out ++ printLine s.line false 0 true
  else s.out

/-- `print_reverse_regular`: what is written, and `line_number`. -/
def printReverseRegular (content : List UInt8) (lineNumber : Int) : List UInt8 × Int :=
  let remaining := countNonempty content
  let s := scanBack numbered content content.length ⟨.zero, true, lineNumber + remaining, []⟩
  (s.finish numbered, lineNumber + remaining)

end Regular

section Lines

/-- The loop of `read_all_lines`. -/
def lineStep (s : List PeekLine × PeekLine) (c : UInt8) : List PeekLine × PeekLine :=
  if c = newline then addLine s.1 s.2 true else (s.1, addLineChar s.2 c)

/-- `read_all_lines`, where the reads return these chunks. -/
def readAllLines (chunks : List (List UInt8)) : List PeekLine :=
  let (lines, line) := overChunks lineStep chunks ([], .zero)
  if 0 < line.data.length then (addLine lines line false).1 else lines

/-- The loop of `print_reverse_lines`, over `number` and what is printed. -/
def printStep (numbered : Bool) (s : Int × List UInt8) (line : PeekLine) : Int × List UInt8 :=
  if numbered ∧ 0 < line.data.length then (s.1 - 1, s.2 ++ printLine line true s.1 false)
  else (s.1, s.2 ++ printLine line false 0 false)

def printReverseLines (lines : List PeekLine) (numbered : Bool) (lineNumber : Int) :
    List UInt8 × Int :=
  let remaining : Int := lines.countP (0 < ·.data.length)
  ((lines.reverse.foldl (printStep numbered) (lineNumber + remaining, [])).2,
    lineNumber + remaining)

end Lines

section Forward

variable (numbered : Bool)

/-- The variables of `print_forward`, and what it has printed. -/
structure Forward where
  line : PeekLine
  lineNumber : Int
  out : List UInt8
  deriving DecidableEq, Repr

def forwardChar (s : Forward) (c : UInt8) : Forward :=
  if c = newline then
    let (lineNumber, number) :=
      if numbered ∧ 0 < s.line.data.length then (s.lineNumber + 1, s.lineNumber + 1)
      else (s.lineNumber, 0)
    ⟨⟨[], false⟩, lineNumber,
      s.out ++ printLine { s.line with newline := true } numbered number false⟩
  else { s with line := addLineChar s.line c }

/-- The end of `print_forward`: what is written, and `line_number`. -/
def Forward.finish (s : Forward) : List UInt8 × Int :=
  if 0 < s.line.data.length then
    let (lineNumber, number) :=
      if numbered then (s.lineNumber + 1, s.lineNumber + 1) else (s.lineNumber, 0)
    (s.out ++ printLine s.line numbered number false, lineNumber)
  else (s.out, s.lineNumber)

/-- `print_forward`, where the reads return these chunks. -/
def printForward (chunks : List (List UInt8)) (lineNumber : Int) : List UInt8 × Int :=
  (overChunks (forwardChar numbered) chunks ⟨.zero, lineNumber, []⟩).finish numbered

end Forward

section Command

inductive FileKind where
  | directory
  | regular
  | other
  deriving DecidableEq, Repr

/-- What `peek_one` finds behind an argument: whether `open` succeeds, what `fstat` says if it
does, and what the reads return. -/
structure Source where
  opens : Bool
  stat : Option FileKind
  reads : List (List UInt8)
  deriving DecidableEq, Repr

structure PeekState where
  out : List UInt8
  err : List String
  lineNumber : Int
  deriving DecidableEq, Repr

def PeekState.zero : PeekState := ⟨[], [], 0⟩

def PeekState.fail (s : PeekState) (message : String) : PeekState :=
  { s with err := s.err ++ [message] }

def PeekState.print (s : PeekState) (printer : Int → List UInt8 × Int) : PeekState :=
  let (out, lineNumber) := printer s.lineNumber
  { s with out := s.out ++ out, lineNumber := lineNumber }

def peekOne (name : List Char) (source : Source) (numbered backwards : Bool) (s : PeekState) :
    PeekState :=
  if name ≠ ['-'] ∧ source.opens = false then s.fail "peek: no such file or directory\n"
  else
    match source.stat with
    | none => s.fail "peek: no such file or directory\n"
    | some .directory => s.fail "peek: is a directory\n"
    | some .regular =>
      if backwards then s.print (printReverseRegular numbered source.reads.flatten)
      else s.print (printForward numbered source.reads)
    | some .other =>
      if backwards then s.print (printReverseLines (readAllLines source.reads) numbered)
      else s.print (printForward numbered source.reads)

/-- `numbered` and `backwards`. -/
structure PeekOptions where
  numbered : Bool
  backwards : Bool
  deriving DecidableEq, Repr

/-- The letters of one option word, or `none` behind a letter that is none. -/
def optionLetters : List Char → PeekOptions → Option PeekOptions
  | [], o => some o
  | c :: cs, o =>
    if c = 'n' then optionLetters cs { o with numbered := true }
    else if c = 'r' then optionLetters cs { o with backwards := true }
    else none

def isOption (t : Token) : Bool :=
  t.type = .word && t.text.head? = some '-' && t.text.tail ≠ []

/-- The loop over the option words: the options, and the tokens from the first that is none. -/
def peekOptions : List Token → PeekOptions → Option (PeekOptions × List Token)
  | [], o => some (o, [])
  | t :: ts, o =>
    if isOption t then (optionLetters t.text.tail o).bind (peekOptions ts) else some (o, t :: ts)

/-- `run_peek`, where `sources i` is behind the token with index `i`; standard input, where no
token names it, has the index behind the last. -/
def runPeek (sources : ℕ → Source) (tokens : List Token) : ℕ × PeekState :=
  match tokens with
  | [] => (0, .zero)
  | first :: rest =>
    if first.type ≠ .word ∨ first.text ≠ "peek".toList then (0, .zero)
    else
      match peekOptions rest ⟨false, false⟩ with
      | none => (1, PeekState.zero.fail "peek: invalid syntax\n")
      | some (o, files) =>
        let i := tokens.length - files.length
        if files.any (·.type ≠ .word) then (1, PeekState.zero.fail "peek: invalid syntax\n")
        else if files = [] then (1, peekOne ['-'] (sources i) o.numbered o.backwards .zero)
        else
          (1, (files.zipIdx i).foldl
            (fun s (t, j) => peekOne t.text (sources j) o.numbered o.backwards s) .zero)

end Command

section Purpose

/-- The pieces between newlines, each that is not empty behind its number. -/
def numberUp : Int → List (List UInt8) → List (List UInt8)
  | _, [] => []
  | lineNumber, d :: ds =>
    if d = [] then [] :: numberUp lineNumber ds
    else (numberText (lineNumber + 1) ++ d) :: numberUp (lineNumber + 1) ds

def nonemptyLines (content : List UInt8) : List (List UInt8) :=
  (content.splitOn newline).filter (· ≠ [])

/-- Contents one after the other, with every line that is not empty behind its number. -/
def numberContents : Int → List (List UInt8) → List UInt8
  | _, [] => []
  | lineNumber, content :: contents =>
    [newline].intercalate (numberUp lineNumber (content.splitOn newline))
      ++ numberContents (lineNumber + (nonemptyLines content).length) contents

/-- What `peek_one` can read of an argument. -/
def Source.content (name : List Char) (source : Source) : List UInt8 :=
  if (name = ['-'] ∨ source.opens = true)
      ∧ (source.stat = some .regular ∨ source.stat = some .other) then source.reads.flatten
  else []

/-- The tokens of `peek` with these option words and file names. -/
def peekTokens (flags names : List (List Char)) : List Token :=
  ⟨.word, "peek".toList⟩ :: (flags ++ names).map (⟨.word, ·⟩)

/-- The files `peek` goes through: the ones it is given, or standard input. -/
def filesOf (sources : ℕ → Source) (flags names : List (List Char)) :
    List (List Char × Source) :=
  ((if names = [] then [['-']] else names).zipIdx (1 + flags.length)).map
    fun f => (f.1, sources f.2)

/-- A line that was written behind a number, taken apart at its first blank. -/
def readNumbered (line : List UInt8) : Int × List UInt8 :=
  (Decimal.readSigned ((line.takeWhile (· ≠ 32)).map fun c => Char.ofNat c.toNat),
    (line.dropWhile (· ≠ 32)).tail)

/-- The numbers and texts of the lines that were written and are not empty. -/
def readBack (out : List UInt8) : List (Int × List UInt8) :=
  (nonemptyLines out).map readNumbered

end Purpose

/-- The content is empty; or it ends in a newline and does not start with one; or it is one line
without a newline, behind nothing but newlines. -/
def Agreeable (content : List UInt8) : Prop :=
  content = [] ∨ (content.getLast? = some newline ∧ content.head? ≠ some newline)
    ∨ (content.dropWhile (· = newline) ≠ [] ∧ newline ∉ content.dropWhile (· = newline))

instance : DecidablePred Agreeable :=
  fun _ => inferInstanceAs (Decidable (_ ∨ _ ∨ _))

end Peek

end Shell

end CShellXv6
