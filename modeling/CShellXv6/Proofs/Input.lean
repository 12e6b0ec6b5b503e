import CShellXv6.Lib.Lines
import CShellXv6.Shell.Input

/-!
# Which lines are run

One round of `main` takes one line off the stream, whatever its length: a line that fits is taken
whole, and of a longer one the rest is dropped up to its newline (`mainLoop_line`, `mainLoop_rest`).
-/

namespace CShellXv6

namespace Shell

open Lines

section Taking

/-- A start without a newline that fits is taken. -/
theorem takeLine_append {y : List Char} : ∀ {d : List Char} {n : ℕ}, '\n' ∉ d → d.length ≤ n →
    takeLine n (d ++ y)
      = (d ++ (takeLine (n - d.length) y).1, (takeLine (n - d.length) y).2)
  | [], n, _, _ => by simp
  | c :: d, n + 1, h, hn => by
    simp only [List.mem_cons, not_or] at h
    rw [List.cons_append, takeLine, if_neg (Ne.symm h.1), takeLine_append h.2 (by simpa using hn),
      List.length_cons, Nat.add_sub_add_right]
    rfl

theorem takeLine_short {x d : List Char} {n : ℕ} (h : '\n' ∉ d) (hn : d.length < n) :
    takeLine n (d ++ '\n' :: x) = (d ++ ['\n'], x) := by
  obtain ⟨k, hk⟩ : ∃ k, n - d.length = k + 1 := ⟨n - d.length - 1, by omega⟩
  rw [takeLine_append h hn.le, hk, takeLine, if_pos rfl]

theorem takeLine_long {y : List Char} : ∀ {d : List Char} {n : ℕ}, '\n' ∉ d → n ≤ d.length →
    takeLine n (d ++ y) = (d.take n, d.drop n ++ y)
  | d, 0, _, _ => by simp [takeLine]
  | c :: d, n + 1, h, hn => by
    simp only [List.mem_cons, not_or] at h
    rw [List.cons_append, takeLine, if_neg (Ne.symm h.1), takeLine_long h.2 (by simpa using hn)]
    rfl

theorem takeLine_rest {d : List Char} {n : ℕ} (h : '\n' ∉ d) (hn : d.length < n) :
    takeLine n d = (d, []) := by
  have hline := takeLine_append (y := []) h hn.le
  have hnil : takeLine (n - d.length) [] = ([], []) := by
    cases n - d.length <;> rfl
  rwa [hnil, List.append_nil] at hline

theorem ne_newline {d : List Char} (h : '\n' ∉ d) : ∀ c ∈ d, decide (c ≠ '\n') = true := by
  intro c hc
  rw [decide_eq_true_eq]
  rintro rfl
  exact h hc

theorem takeWhile_line {d y : List Char} (h : '\n' ∉ d) (hy : y.takeWhile (· ≠ '\n') = []) :
    (d ++ y).takeWhile (· ≠ '\n') = d := by
  rw [List.takeWhile_append_of_pos (ne_newline h), hy, List.append_nil]

theorem drain_append {d y : List Char} (h : '\n' ∉ d) : drain (d ++ y) = drain y := by
  rw [drain, List.dropWhile_append_of_pos (ne_newline h), drain]

end Taking

section Rounds

variable {env : MainEnv} {round : ℕ}

/-- What a round does that has taken `input` off the stream. -/
theorem mainLoop_some (hprompt : env.prompt round = true) {stdin input rest : List Char}
    (hgets : fgets (maxInput + 2) stdin = some (input, rest)) (eofAfterStopped : Bool) :
    mainLoop env round stdin eofAfterStopped
      = if '\n' ∉ cString input ∧ (cString input).length = maxInput + 1 then
          (.tooLong :: (mainLoop env (round + 1) (drain rest) false).1,
            (mainLoop env (round + 1) (drain rest) false).2)
        else if (cString input).takeWhile (· ≠ '\n') = [] then mainLoop env (round + 1) rest false
        else
          (.run ((cString input).takeWhile (· ≠ '\n')) :: (mainLoop env (round + 1) rest false).1,
            (mainLoop env (round + 1) rest false).2) := by
  rw [mainLoop, if_neg (by simp [hprompt])]
  split
  · rename_i hnone
    rw [hgets] at hnone
    cases hnone
  · rename_i input' rest' hsome
    rw [hgets, Option.some.injEq, Prod.mk.injEq] at hsome
    obtain ⟨rfl, rfl⟩ := hsome
    have hnil : cString input = [] → (cString input).takeWhile (· ≠ '\n') = [] := by
      intro h
      rw [h]
      rfl
    by_cases hempty : cString input = []
    · simp [hempty]
    · simp only [hempty, if_false]
      rfl

/-- What becomes of a line. -/
def lineEvents (d : List Char) : List MainEvent :=
  if d = [] then [] else [handled d]

theorem mainLoop_short (hprompt : env.prompt round = true) {d stdin rest : List Char}
    {eofAfterStopped : Bool} {input : List Char}
    (hgets : fgets (maxInput + 2) stdin = some (input, rest)) (hinput : cString input = input)
    (hfits : ¬ ('\n' ∉ input ∧ input.length = maxInput + 1))
    (hline : input.takeWhile (· ≠ '\n') = d) (hd : d.length ≤ maxInput) :
    mainLoop env round stdin eofAfterStopped
      = (lineEvents d ++ (mainLoop env (round + 1) rest false).1,
        (mainLoop env (round + 1) rest false).2) := by
  rw [mainLoop_some hprompt hgets, hinput, if_neg hfits, hline, lineEvents, handled]
  by_cases hnil : d = []
  · simp [hnil]
  · simp [hnil, hd]

theorem mainLoop_long (hprompt : env.prompt round = true) {d y : List Char}
    {eofAfterStopped : Bool} (hd : '\n' ∉ d) (hnul : Char.ofNat 0 ∉ d)
    (hlong : maxInput < d.length) :
    mainLoop env round (d ++ y) eofAfterStopped
      = (lineEvents d ++ (mainLoop env (round + 1) (drain y) false).1,
        (mainLoop env (round + 1) (drain y) false).2) := by
  have hne : d ≠ [] := List.ne_nil_of_length_pos (by omega)
  have hgets : fgets (maxInput + 2) (d ++ y)
      = some (d.take (maxInput + 1), d.drop (maxInput + 1) ++ y) := by
    rw [fgets, if_neg (by simp [hne]), takeLine_long hd (by omega)]
    rfl
  have hinput : cString (d.take (maxInput + 1)) = d.take (maxInput + 1) :=
    cString_eq_self fun h => hnul (List.mem_of_mem_take h)
  have hover : '\n' ∉ d.take (maxInput + 1) ∧ (d.take (maxInput + 1)).length = maxInput + 1 :=
    ⟨fun h => hd (List.mem_of_mem_take h), by rw [List.length_take]; omega⟩
  have hdrain : drain (d.drop (maxInput + 1) ++ y) = drain y :=
    drain_append fun h => hd (List.mem_of_mem_drop h)
  rw [mainLoop_some hprompt hgets, hinput, if_pos hover, hdrain, lineEvents, if_neg hne, handled,
    if_neg (by omega)]
  rfl

/-- One round for a line with its newline. -/
theorem mainLoop_line (hprompt : env.prompt round = true) {d x : List Char}
    {eofAfterStopped : Bool} (hd : '\n' ∉ d) (hnul : Char.ofNat 0 ∉ d) :
    mainLoop env round (d ++ '\n' :: x) eofAfterStopped
      = (lineEvents d ++ (mainLoop env (round + 1) x false).1,
        (mainLoop env (round + 1) x false).2) := by
  by_cases hlong : maxInput < d.length
  · rw [mainLoop_long hprompt hd hnul hlong]
    rfl
  · have hgets : fgets (maxInput + 2) (d ++ '\n' :: x) = some (d ++ ['\n'], x) := by
      rw [fgets, if_neg (by simp), takeLine_short hd (by omega)]
    have hinput : cString (d ++ ['\n']) = d ++ ['\n'] := cString_eq_self (by simpa using hnul)
    exact mainLoop_short hprompt hgets hinput (by simp) (takeWhile_line hd (by simp)) (by omega)

/-- One round for a last line without one. -/
theorem mainLoop_rest (hprompt : env.prompt round = true) {d : List Char}
    {eofAfterStopped : Bool} (hne : d ≠ []) (hd : '\n' ∉ d) (hnul : Char.ofNat 0 ∉ d) :
    mainLoop env round d eofAfterStopped
      = (lineEvents d ++ (mainLoop env (round + 1) [] false).1,
        (mainLoop env (round + 1) [] false).2) := by
  by_cases hlong : maxInput < d.length
  · have h : mainLoop env round (d ++ []) eofAfterStopped = _ := mainLoop_long hprompt hd hnul hlong
    rwa [List.append_nil] at h
  · have hgets : fgets (maxInput + 2) d = some (d, []) := by
      rw [fgets, if_neg hne, takeLine_rest hd (by omega)]
    have hline : d.takeWhile (· ≠ '\n') = d := by
      simpa using takeWhile_line (y := []) hd rfl
    exact mainLoop_short hprompt hgets (cString_eq_self hnul) (by omega) hline (by omega)

/-- At the end of the stream nothing is run. -/
theorem mainLoop_eof (hprompt : ∀ k, env.prompt k = true) (eofAfterStopped : Bool) :
    (mainLoop env round [] eofAfterStopped).1.filter (· ≠ .stoppedJobs) = []
      ∧ (mainLoop env round [] eofAfterStopped).2 = 0 := by
  have hlast : ∀ k, mainLoop env k [] true = ([], 0) := by
    intro k
    rw [mainLoop]
    simp [hprompt, fgets]
  rw [mainLoop, if_neg (by simp [hprompt])]
  split
  · split_ifs
    · simp [hlast]
    · exact ⟨rfl, rfl⟩
  · rename_i h
    simp [fgets] at h

end Rounds

section Runs

variable {env : MainEnv}

theorem filter_lineEvents (d : List Char) (ds : List (List Char)) :
    (lineEvents d).filter (· ≠ .stoppedJobs) ++ (ds.filter (· ≠ [])).map handled
      = ((d :: ds).filter (· ≠ [])).map handled := by
  have hhandled : handled d ≠ .stoppedJobs := by
    unfold handled
    split_ifs <;> simp
  by_cases hnil : d = []
  · simp [lineEvents, hnil]
  · simp [lineEvents, hnil, hhandled]

/-- The rounds for the lines `ds` and the last line `r`. -/
theorem mainLoop_lines (hprompt : ∀ k, env.prompt k = true) {r : List Char} (hr : '\n' ∉ r)
    (hnulr : Char.ofNat 0 ∉ r) : ∀ {ds : List (List Char)} (round : ℕ) (eofAfterStopped : Bool),
    (∀ d ∈ ds, '\n' ∉ d) → (∀ d ∈ ds, Char.ofNat 0 ∉ d) →
    (mainLoop env round (joinLines '\n' ds ++ r) eofAfterStopped).1.filter (· ≠ .stoppedJobs)
        = ((ds ++ [r]).filter (· ≠ [])).map handled
      ∧ (mainLoop env round (joinLines '\n' ds ++ r) eofAfterStopped).2 = 0
  | [], round, eofAfterStopped, _, _ => by
    obtain ⟨hevents, hvalue⟩ := @mainLoop_eof env (round + 1) hprompt false
    by_cases hnil : r = []
    · subst hnil
      simpa using mainLoop_eof hprompt eofAfterStopped
    · rw [joinLines_nil, List.nil_append, mainLoop_rest (hprompt round) hnil hr hnulr,
        List.filter_append, hevents, List.append_nil]
      exact ⟨by simpa using filter_lineEvents r [], hvalue⟩
  | d :: ds, round, eofAfterStopped, hds, hnul => by
    obtain ⟨hd, hds⟩ := List.forall_mem_cons.1 hds
    obtain ⟨hnuld, hnul⟩ := List.forall_mem_cons.1 hnul
    obtain ⟨hevents, hvalue⟩ := mainLoop_lines hprompt hr hnulr (round + 1) false hds hnul
    rw [joinLines_cons, List.append_assoc, List.cons_append, mainLoop_line (hprompt round) hd hnuld,
      List.filter_append, hevents, filter_lineEvents]
    exact ⟨rfl, hvalue⟩

theorem ranLines_filter : ∀ events : List MainEvent,
    ranLines (events.filter (· ≠ .stoppedJobs)) = ranLines events
  | [] => rfl
  | .run line :: events => by
    simpa [ranLines] using ranLines_filter events
  | .tooLong :: events => by
    simpa [ranLines] using ranLines_filter events
  | .stoppedJobs :: events => by
    simpa [ranLines] using ranLines_filter events

theorem ranLines_handled : ∀ ds : List (List Char),
    ranLines (ds.map handled) = ds.filter (·.length ≤ maxInput)
  | [] => rfl
  | d :: ds => by
    have ih := ranLines_handled ds
    unfold ranLines at ih ⊢
    by_cases hd : d.length ≤ maxInput
    · simp [handled, hd, ih]
    · simp [handled, hd, ih]

/-- The lines of the stream that are not empty are run, or reported too long if they are longer than
`CSHELL_MAX_INPUT`, one after the other. -/
theorem main_runs_lines (hprompt : ∀ k, env.prompt k = true) {stdin : List Char}
    (hnul : Char.ofNat 0 ∉ stdin) :
    (mainLoop env 0 stdin false).1.filter (· ≠ .stoppedJobs)
        = ((stdin.splitOn '\n').filter (· ≠ [])).map handled
      ∧ ranLines (mainLoop env 0 stdin false).1
        = ((stdin.splitOn '\n').filter (· ≠ [])).filter (·.length ≤ maxInput)
      ∧ (mainLoop env 0 stdin false).2 = 0 := by
  obtain ⟨ds, r, h⟩ := exists_lines '\n' stdin
  have hnulr : Char.ofNat 0 ∉ r := fun hm => hnul (by
    rw [h.content_eq]
    exact List.mem_append_right _ hm)
  have hnulds : ∀ d ∈ ds, Char.ofNat 0 ∉ d := fun d hd hm => hnul (by
    rw [h.content_eq]
    refine List.mem_append_left _ (List.mem_flatMap.2 ⟨d, hd, ?_⟩)
    exact List.mem_append_left _ hm)
  obtain ⟨hevents, hvalue⟩ := mainLoop_lines hprompt h.rest hnulr 0 false h.lines hnulds
  rw [← h.content_eq] at hevents hvalue
  rw [h.splitOn_eq]
  refine ⟨hevents, ?_, hvalue⟩
  rw [← ranLines_filter, hevents, ranLines_handled]

/-- A line that is run, an empty one, one that is too long, and one without a newline. -/
def fourLines : List Char :=
  ['l', 's', '\n', '\n'] ++ List.replicate (maxInput + 1) 'x' ++ ['\n', 'a']

theorem main_runs_lines_four :
    (mainLoop ⟨fun _ => true, fun _ => true⟩ 0 fourLines false).1.filter (· ≠ .stoppedJobs)
        = [.run ['l', 's'], .tooLong, .run ['a']]
      ∧ ranLines (mainLoop ⟨fun _ => true, fun _ => true⟩ 0 fourLines false).1
        = [['l', 's'], ['a']] := by
  have h := @main_runs_lines ⟨fun _ => true, fun _ => true⟩ (fun _ => rfl) fourLines
    (by decide +kernel)
  rw [h.1, h.2.1]
  exact ⟨by decide +kernel, by decide +kernel⟩

end Runs

end Shell

end CShellXv6
