import CShellXv6.Shell.Launch
import Mathlib.Data.List.TakeWhile

/-!
# Looking names up in PATH

`find_executable` returns the first executable file a name stands for, and `locate` prints all of
them. Both split the value of PATH with `strtok_r`. A path that is not absolute is looked up from
the current directory, which `locate` writes out in what it prints.

What the two are for is said over the components between colons, of which an empty one means the
current directory.
-/

namespace CShellXv6

namespace Shell

/-- The executable regular files by their absolute paths, and the current directory. -/
structure Executables where
  files : List Char → Bool
  cwd : List Char
  absolute : cwd.head? = some '/'

/-- The file a path leads to. -/
def Executables.resolve (e : Executables) (path : List Char) : List Char :=
  if path.head? = some '/' then path else makePath e.cwd path

def Executables.executableFile (e : Executables) (path : List Char) : Bool :=
  e.files (e.resolve path)

def Executables.paths (e : Executables) (value : Option (List Char)) : Paths :=
  ⟨e.executableFile, value⟩

/-- `strtok_r` with one delimiter: the next token, and what is left behind it. -/
def strtokR (delim : Char) (s : List Char) : Option (List Char × List Char) :=
  let s := s.dropWhile (· = delim)
  if s = [] then none
  else some (s.takeWhile (· ≠ delim), (s.dropWhile (· ≠ delim)).tail)

theorem strtokR_length {delim : Char} {s token rest : List Char}
    (h : strtokR delim s = some (token, rest)) : rest.length < s.length := by
  simp only [strtokR] at h
  split_ifs at h with hs
  simp only [Option.some.injEq, Prod.mk.injEq] at h
  have hskip := List.length_dropWhile_le (· = delim) s
  have hdrop := List.length_dropWhile_le (· ≠ delim) (s.dropWhile (· = delim))
  have hpos := List.length_pos_iff.2 hs
  rw [← h.2, List.length_tail]
  omega

/-- The tokens of the calls up to the one that returns NULL. -/
def strtokAll (delim : Char) (s : List Char) : List (List Char) :=
  match _h : strtokR delim s with
  | none => []
  | some (token, rest) => token :: strtokAll delim rest
termination_by s.length
decreasing_by exact strtokR_length _h

def makeCandidate (cwd directory name : List Char) : List Char :=
  if directory.head? = some '/' then makePath directory name
  else makePath cwd (makePath directory name)

section Locate

variable (e : Executables)

/-- What is printed, and `found`. -/
def searchCurrent (name : List Char) : List (List Char) × Bool :=
  let path := makeCandidate e.cwd e.cwd name
  if e.executableFile path then ([path], true) else ([], false)

def searchPath (value : Option (List Char)) (name : List Char) : List (List Char) × Bool :=
  match value with
  | none => ([], false)
  | some value =>
    (strtokAll ':' value).foldl
      (fun (out, found) directory =>
        let directory := if directory = [] then ['.'] else directory
        let path := makeCandidate e.cwd directory name
        if e.executableFile path then (out ++ [path], true) else (out, found))
      ([], false)

/-- What is printed, and whether `command not found` is. -/
def locateOne (value : Option (List Char)) (name : List Char) : List (List Char) × Bool :=
  let (here, found) := searchCurrent e name
  let (there, foundThere) := searchPath e value name
  (here ++ there, !(found || foundThere))

end Locate

/-- The directories a value of PATH names. -/
def pathComponents (value : List Char) : List (List Char) :=
  (value.splitOn ':').map fun directory => if directory = [] then ['.'] else directory

/-- The ones where there is an executable file of this name. -/
def holders (e : Executables) (value name : List Char) : List (List Char) :=
  (pathComponents value).filter fun directory => e.executableFile (makePath directory name)

end Shell

end CShellXv6
