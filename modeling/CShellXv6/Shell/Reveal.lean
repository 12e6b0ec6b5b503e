import CShellXv6.Shell.Peek
import Mathlib.Data.List.Sort

/-!
# Listing directories

`reveal` reads a directory, sorts what it found by name, and prints one name after the other; with
`-t` it goes into each directory right behind the line of its name. Two paths go down with it: the
one that is opened, and the one that is shown, which starts out empty. Allocations succeed, and what
is printed is the list of the characters written. The calls `print_directory` makes of itself are
counted down, and `none` is a listing that went deeper than that.

What is below a directory is said over lists of components: `Below` goes down through directories
only, and a symbolic link is none, wherever it leads.
-/

namespace CShellXv6

namespace Shell

namespace Reveal

/-- What `st_mode` tells. -/
inductive FileKind where
  | directory
  | symlink
  | other
  deriving DecidableEq, Repr

/-- A file system that does not change: `opendir` gives the names `readdir` will return. -/
structure FileSystem where
  opendir : List Char → Option (List (List Char))
  lstat : List Char → Option FileKind
  stat : List Char → Option FileKind
  realpath : List Char → Option (List Char)

structure RevealEntry where
  name : List Char
  directory : Bool
  deriving DecidableEq, Repr

/-- The sign of what `strcmp` returns. -/
def strcmp : List Char → List Char → Int
  | [], [] => 0
  | [], _ :: _ => -1
  | _ :: _, [] => 1
  | a :: as, b :: bs =>
    if a = b then strcmp as bs else if a.toNat < b.toNat then -1 else 1

def compareEntries (a b : RevealEntry) : Int :=
  strcmp a.name b.name

/-- `qsort` with `compare_entries`; the names of a directory are different, so that there is one
order they can be put in. -/
def sortEntries (entries : List RevealEntry) : List RevealEntry :=
  entries.insertionSort fun a b => compareEntries a b ≤ 0

def joinPath (directory name : List Char) : List Char :=
  directory ++ '/' :: name

section Print

variable (fs : FileSystem) (showHidden recursive : Bool)

/-- One round of the loop of `read_entries`. -/
def readEntry (path name : List Char) : Option RevealEntry :=
  if name = ['.'] ∨ name = ['.', '.'] then none
  else if showHidden = false ∧ name.head? = some '.' then none
  else (fs.lstat (joinPath path name)).map fun kind => ⟨name, kind = .directory⟩

def readEntries (path : List Char) : Option (List RevealEntry) :=
  match fs.opendir path with
  | none => none
  | some names =>
    let entries := names.filterMap (readEntry fs showHidden path)
    some (if 1 < entries.length then sortEntries entries else entries)

/-- `child_shown`. -/
def childShown (shown name : List Char) : List Char :=
  if shown = [] then name else joinPath shown name

/-- One round of the loop of `print_directory`, which calls itself as `inside`. -/
def printEntry (inside : List Char → List Char → Option (List Char)) (path shown : List Char)
    (e : RevealEntry) : Option (List Char) :=
  let child := childShown shown e.name
  if e.directory then do
    let line := child ++ if recursive then ['/', '\n'] else ['\n']
    let below ← if recursive then inside (joinPath path e.name) child else some []
    some (line ++ below)
  else some (child ++ ['\n'])

def printEntries (inside : List Char → List Char → Option (List Char)) (path shown : List Char) :
    List RevealEntry → Option (List Char)
  | [] => some []
  | e :: entries => do
    let first ← printEntry recursive inside path shown e
    let rest ← printEntries inside path shown entries
    some (first ++ rest)

def printDirectory : ℕ → List Char → List Char → Option (List Char)
  | 0, _, _ => none
  | depth + 1, path, shown =>
    match readEntries fs showHidden path with
    | none => some []
    | some entries => printEntries recursive (printDirectory depth) path shown entries

end Print

section Command

def resolveRevealPath (fs : FileSystem) (homeDir : List Char) (previousDir : Option (List Char))
    (argument : Option (List Char)) : Option (List Char) :=
  match argument with
  | none => fs.realpath ['.']
  | some argument =>
    if argument = ['.'] then fs.realpath ['.']
    else if argument = ['~'] then fs.realpath homeDir
    else if argument = ['-'] then previousDir.bind fs.realpath
    else fs.realpath argument

/-- `show_hidden` and `recursive`. -/
structure RevealOptions where
  showHidden : Bool
  recursive : Bool
  deriving DecidableEq, Repr

/-- The letters of one option word, or `none` behind a letter that is none. -/
def optionLetters : List Char → RevealOptions → Option RevealOptions
  | [], o => some o
  | c :: cs, o =>
    if c = 'a' then optionLetters cs { o with showHidden := true }
    else if c = 't' then optionLetters cs { o with recursive := true }
    else none

/-- The loop over the option words: the options, and the tokens from the first that is none. -/
def revealOptions : List Token → RevealOptions → Option (RevealOptions × List Token)
  | [], o => some (o, [])
  | t :: ts, o =>
    if Peek.isOption t then (optionLetters t.text.tail o).bind (revealOptions ts)
    else some (o, t :: ts)

/-- What `run_reveal` returns, and what it prints. -/
structure Result where
  value : ℕ
  out : List Char
  err : List String
  deriving DecidableEq, Repr

def Result.fail (message : String) : Result := ⟨1, [], [message]⟩

section Run

variable (fs : FileSystem) (depth : ℕ) (homeDir : List Char) (previousDir : Option (List Char))

/-- The end of `run_reveal`. -/
def revealAt (o : RevealOptions) (argument : Option (List Char)) : Option Result :=
  match resolveRevealPath fs homeDir previousDir argument with
  | none => some (.fail "reveal: no such directory\n")
  | some path =>
    if fs.stat path = some .directory then
      (printDirectory fs o.showHidden o.recursive depth path []).map (⟨1, ·, []⟩)
    else some (.fail "reveal: no such directory\n")

def runReveal (tokens : List Token) : Option Result :=
  match tokens with
  | [] => some ⟨0, [], []⟩
  | first :: rest =>
    if first.type ≠ .word ∨ first.text ≠ "reveal".toList then some ⟨0, [], []⟩
    else
      match revealOptions rest ⟨false, false⟩ with
      | none => some (.fail "reveal: invalid syntax\n")
      | some (o, []) => revealAt fs depth homeDir previousDir o none
      | some (o, t :: ts) =>
        if t.type ≠ .word then some (.fail "reveal: invalid syntax\n")
        else if ts.head?.any (·.type = .word) then some (.fail "reveal: invalid syntax\n")
        else revealAt fs depth homeDir previousDir o (some t.text)

end Run

/-- The tokens of `reveal` with these option words and this argument. -/
def revealTokens (flags : List (List Char)) (argument : Option (List Char)) : List Token :=
  ⟨.word, "reveal".toList⟩ :: (flags ++ argument.toList).map (⟨.word, ·⟩)

/-- An option word of nothing but the two letters. -/
def IsFlag (flag : List Char) : Prop :=
  ∃ letters, letters ≠ [] ∧ flag = '-' :: letters ∧ ∀ c ∈ letters, c = 'a' ∨ c = 't'

end Command

section Purpose

variable (fs : FileSystem)

/-- The directory has an entry of this name. -/
def FileSystem.Holds (path name : List Char) : Prop :=
  name ∈ (fs.opendir path).getD [] ∧ name ≠ ['.'] ∧ name ≠ ['.', '.']

/-- The directories from this one on down can be read, there are finitely many, and each has every
name once. -/
inductive FileSystem.Tree : List Char → Prop where
  | directory {path : List Char} {names : List (List Char)} : fs.opendir path = some names →
    names.Nodup →
    (∀ name, fs.Holds path name →
      name ≠ [] ∧ '/' ∉ name ∧ ∃ kind, fs.lstat (joinPath path name) = some kind) →
    (∀ name, fs.Holds path name → fs.lstat (joinPath path name) = some .directory →
      FileSystem.Tree (joinPath path name)) →
    FileSystem.Tree path

/-- What is below a directory, by its relative path. -/
inductive FileSystem.Below : List Char → List (List Char) → FileKind → Prop where
  | entry {path name : List Char} {kind : FileKind} : fs.Holds path name →
    fs.lstat (joinPath path name) = some kind → FileSystem.Below path [name] kind
  | inside {path name : List Char} {rest : List (List Char)} {kind : FileKind} :
    fs.Holds path name → fs.lstat (joinPath path name) = some .directory →
    FileSystem.Below (joinPath path name) rest kind → FileSystem.Below path (name :: rest) kind

structure Entry where
  path : List (List Char)
  kind : FileKind
  deriving DecidableEq, Repr

def Entry.line (e : Entry) : List Char :=
  ['/'].intercalate e.path ++ (if e.kind = .directory then ['/'] else []) ++ ['\n']

/-- No component is the name of something hidden. -/
def Entry.Visible (e : Entry) : Prop :=
  ∀ name ∈ e.path, name.head? ≠ some '.'

/-- Everything below the directory is there once, without what is hidden unless that is shown too;
what is inside an entry stands right behind it and in front of all that is not; and the entries of a
directory are in order. -/
structure Listing (path : List Char) (showHidden : Bool) (listed : List Entry) : Prop where
  mem_iff : ∀ e, e ∈ listed ↔ fs.Below path e.path e.kind ∧ (showHidden = true ∨ e.Visible)
  once : (listed.map Entry.line).Nodup
  nested : ∀ before d after, listed = before ++ d :: after →
    ∃ inside behind, after = inside ++ behind ∧ (∀ e ∈ inside, d.path <+: e.path)
      ∧ ∀ e ∈ before ++ behind, ¬ d.path <+: e.path
  siblings : listed.Pairwise fun a b =>
    ∀ parent m n, a.path = parent ++ [m] → b.path = parent ++ [n] → strcmp m n < 0
  notFollowed : ∀ e ∈ listed, e.kind ≠ .directory → ∀ e' ∈ listed, e.path <+: e'.path → e' = e

end Purpose

end Reveal

end Shell

end CShellXv6
