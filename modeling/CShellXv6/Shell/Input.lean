import CShellXv6.Shell.Lexer

/-!
# The loop of `main`

`main` reads lines with `fgets` into a buffer of 1026 characters, and drops what is left of a line
that does not fit. Standard input is no terminal, no signal arrives, and what is run does not read
it; the stream is the list of the characters still to come.
-/

namespace CShellXv6

namespace Shell

/-- `CSHELL_MAX_INPUT`. -/
def maxInput : ℕ := 1024

/-- At most `n` characters, to the first newline and with it, and what is left. -/
def takeLine : ℕ → List Char → List Char × List Char
  | 0, s => ([], s)
  | _, [] => ([], [])
  | n + 1, c :: s =>
    if c = '\n' then ([c], s)
    else
      let (line, rest) := takeLine n s
      (c :: line, rest)

def fgets (size : ℕ) (stdin : List Char) : Option (List Char × List Char) :=
  if stdin = [] then none else some (takeLine (size - 1) stdin)

/-- The `getchar` loop that drops the rest of a line. -/
def drain (stdin : List Char) : List Char :=
  (stdin.dropWhile (· ≠ '\n')).tail

theorem takeLine_length : ∀ (n : ℕ) (s : List Char), (takeLine n s).2.length ≤ s.length
  | 0, _ => by simp [takeLine]
  | n + 1, [] => by simp [takeLine]
  | n + 1, c :: s => by
    have ih := takeLine_length n s
    rw [takeLine]
    split_ifs
    · simp
    · simp only [List.length_cons]
      omega

theorem fgets_length {size : ℕ} (hsize : 2 ≤ size) {stdin input rest : List Char}
    (h : fgets size stdin = some (input, rest)) : rest.length < stdin.length := by
  unfold fgets at h
  split_ifs at h with hnil
  rcases stdin with _ | ⟨c, s⟩
  · exact absurd rfl hnil
  · obtain ⟨n, hn⟩ : ∃ n, size - 1 = n + 1 := ⟨size - 2, by omega⟩
    have hlen := takeLine_length n s
    rw [hn, takeLine] at h
    simp only [Option.some.injEq] at h
    split_ifs at h
    · simp only [Prod.mk.injEq] at h
      simp [← h.2]
    · simp only [Prod.mk.injEq] at h
      rw [← h.2, List.length_cons]
      omega

theorem drain_length (stdin : List Char) : (drain stdin).length ≤ stdin.length := by
  have := List.length_dropWhile_le (· ≠ '\n') stdin
  rw [drain, List.length_tail]
  omega

/-- What `main` does with a round: it runs a line, or prints that the input is too long or that
there are stopped jobs. -/
inductive MainEvent where
  | run (line : List Char)
  | tooLong
  | stoppedJobs
  deriving DecidableEq, Repr

/-- Whether the prompt of a round can be printed, and whether there are stopped jobs in it. -/
structure MainEnv where
  prompt : ℕ → Bool
  stopped : ℕ → Bool

/-- The loop of `main` from this round on, and what `main` returns. -/
def mainLoop (env : MainEnv) (round : ℕ) (stdin : List Char) (eofAfterStopped : Bool) :
    List MainEvent × ℕ :=
  if env.prompt round = false then ([], 1)
  else
    match _h : fgets (maxInput + 2) stdin with
    | none =>
      if _hstop : env.stopped round = true ∧ eofAfterStopped = false then
        let (events, value) := mainLoop env (round + 1) stdin true
        (.stoppedJobs :: events, value)
      else ([], 0)
    | some (input, rest) =>
      let input := cString input
      if '\n' ∉ input ∧ input.length = maxInput + 2 - 1 then
        let (events, value) := mainLoop env (round + 1) (drain rest) false
        (.tooLong :: events, value)
      else if input = [] then mainLoop env (round + 1) rest false
      else
        let line := input.takeWhile (· ≠ '\n')
        if line = [] then mainLoop env (round + 1) rest false
        else
          let (events, value) := mainLoop env (round + 1) rest false
          (.run line :: events, value)
termination_by 2 * stdin.length + if eofAfterStopped then 0 else 1
decreasing_by
  · simp [_hstop.2]
  all_goals
    have := fgets_length (by simp [maxInput]) _h
    have := drain_length rest
    split_ifs <;> omega

/-- What is to become of a line that is not empty. -/
def handled (line : List Char) : MainEvent :=
  if line.length ≤ maxInput then .run line else .tooLong

/-- The lines that were run. -/
def ranLines (events : List MainEvent) : List (List Char) :=
  events.filterMap fun
    | .run line => some line
    | .tooLong | .stoppedJobs => none

end Shell

end CShellXv6
