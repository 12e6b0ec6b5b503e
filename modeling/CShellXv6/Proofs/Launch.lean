import CShellXv6.Proofs.Pipeline
import CShellXv6.Shell.Launch

/-!
# Foreground and background commands

A command of words only is looked up by the same name in the foreground and in the background, and
found in the same place. Its arguments are the same as long as the array of `runbuff` has room for
them (`launch_agree_iff`).
-/

namespace CShellXv6

namespace Shell

theorem simpleExternal_words {tokens : List Token} (h : simpleExternal tokens = true) :
    ∀ t ∈ tokens, t.type = .word := by
  simp only [simpleExternal, Bool.and_eq_true, List.all_eq_true, decide_eq_true_eq] at h
  exact h.2

theorem fillArgv_eq : ∀ (n : ℕ) (ts : List Token),
    fillArgv n ts = (ts.take (argvSlots - 1 - n)).map (·.text)
  | _, [] => by simp [fillArgv]
  | n, t :: ts => by
    unfold fillArgv
    split_ifs with h
    · rw [fillArgv_eq (n + 1) ts, show argvSlots - 1 - n = argvSlots - 1 - (n + 1) + 1 by omega,
        List.take_succ_cons, List.map_cons]
    · rw [show argvSlots - 1 - n = 0 by omega, List.take_zero, List.map_nil]

section Words

variable (env : Env)

theorem collectLoop_words : ∀ (i : ℕ) (ts : List Token) (argv : List (List Char)) (w : World),
    (∀ t ∈ ts, t.type = .word) →
    collectLoop env i ts argv (-1) w = (0, argv ++ ts.map (·.text), -1, w)
  | _, [], argv, w, _ => by simp [collectLoop, Calls.collectLoop]
  | i, t :: ts, argv, w, h => by
    simp only [List.mem_cons, forall_eq_or_imp] at h
    rw [collectLoop_word env h.1, collectLoop_words (i + 1) ts _ w h.2]
    simp

theorem collectCommand_words {ts : List Token} (h : ∀ t ∈ ts, t.type = .word) (w : World) :
    collectCommand env ts w = (0, ts.map (·.text), -1, w) := by
  simp [collectCommand_eq, collectLoop_words env 0 ts [] w h]

theorem prepareLoop_words : ∀ (i : ℕ) (ts : List Token) (output : OutputRedirect) (w : World),
    (∀ t ∈ ts, t.type = .word) → prepareLoop env i ts output w = (0, output, w)
  | _, [], _, _, _ => rfl
  | i, t :: ts, output, w, h => by
    simp only [List.mem_cons, forall_eq_or_imp] at h
    rw [prepareLoop_word env h.1]
    exact prepareLoop_words (i + 1) ts output w h.2

theorem prepareOutput_words {ts : List Token} (h : ∀ t ∈ ts, t.type = .word) (w : World) :
    (prepareOutput env ts outputRedirectInit w).1 = 0 := by
  simp [prepareOutput, prepareLoop_words env 0 ts _ w h, outputRedirectInit]

end Words

/-- A command of words, executed with these arguments if it is found. -/
def launchWith (paths : Paths) (first : Token) (argv : List (List Char)) : Launch :=
  match findExecutable paths (lookedUp first.text).1 (lookedUp first.text).2 with
  | some path =>
    .exec ⟨(lookedUp first.text).1, (lookedUp first.text).2, path,
      argv.set 0 (lookedUp first.text).1⟩
  | none => .notFound (lookedUp first.text).1

section Agreement

variable (paths : Paths) {first : Token} {ts : List Token}

theorem runbuffChild_eq (hsimple : simpleExternal (first :: ts) = true)
    (hname : isBuiltin first.text = false) :
    runbuffChild paths (first :: ts)
      = some (launchWith paths first (((first :: ts).take (argvSlots - 1)).map (·.text))) := by
  have hargv : ((first :: ts).take (argvSlots - 1)).map (·.text)
      = first.text :: (ts.take (argvSlots - 2)).map (·.text) := rfl
  simp only [runbuffChild, hsimple, hname, fillArgv_eq, Nat.sub_zero, and_self, if_true]
  rw [hargv]
  unfold launchWith lookedUp
  by_cases hpercent : first.text.head? = some '%'
  · simp only [hpercent, if_true]
    cases findExecutable paths first.text.tail true <;> rfl
  · simp only [hpercent, if_false]
    cases findExecutable paths first.text false <;> rfl

theorem runExternal_eq (env : Env) (hsimple : simpleExternal (first :: ts) = true) (w : World) :
    runExternal env paths true (first :: ts) w
      = launchWith paths first ((first :: ts).map (·.text)) := by
  have hwords := simpleExternal_words hsimple
  simp only [runExternal, hwords first List.mem_cons_self, collectCommand_words env hwords,
    prepareOutput_words env hwords]
  unfold launchWith lookedUp
  simp only [ne_eq, not_true_eq_false, if_false, List.map_cons, List.length_cons,
    Nat.add_eq_zero_iff, Nat.one_ne_zero, and_false, Bool.true_eq_false]
  by_cases hpercent : first.text.head? = some '%'
  · simp only [hpercent, if_true]
    cases findExecutable paths first.text.tail true <;> rfl
  · simp only [hpercent, if_false]
    cases findExecutable paths first.text false <;> rfl

theorem launchWith_injective {argv argv' : List (List Char)} (hlen : argv.length ≠ argv'.length)
    (h : launchWith paths first argv = launchWith paths first argv') :
    findExecutable paths (lookedUp first.text).1 (lookedUp first.text).2 = none := by
  unfold launchWith at h
  split at h
  · simp only [Launch.exec.injEq, Exec.mk.injEq, true_and] at h
    have := congrArg List.length h
    rw [List.length_set, List.length_set] at this
    exact absurd this hlen
  · assumption

theorem launch_agree_iff (env : Env) (hsimple : simpleExternal (first :: ts) = true)
    (hname : isBuiltin first.text = false) (w : World) :
    runbuffChild paths (first :: ts) = some (runExternal env paths true (first :: ts) w)
      ↔ (first :: ts).length ≤ 63
        ∨ findExecutable paths (lookedUp first.text).1 (lookedUp first.text).2 = none := by
  rw [runbuffChild_eq paths hsimple hname, runExternal_eq paths env hsimple, Option.some.injEq]
  have hslots : argvSlots - 1 = 63 := rfl
  by_cases hlen : (first :: ts).length ≤ 63
  · rw [List.take_of_length_le (hslots ▸ hlen)]
    simp only [hlen, true_or]
  · simp only [hlen, false_or]
    constructor
    · refine launchWith_injective paths ?_
      rw [List.length_map, List.length_map, List.length_take]
      omega
    · intro hnone
      unfold launchWith
      rw [hnone]

end Agreement

/-- A `.` holds the executable `a`, and nothing else is executable. -/
def onlyA : Paths :=
  ⟨fun path => path = ['.', '/', 'a'], none⟩

theorem launch_agree_iff_pair :
    runbuffChild onlyA [⟨.word, ['a']⟩, ⟨.word, ['b']⟩]
      = some (runExternal .succeeding onlyA true [⟨.word, ['a']⟩, ⟨.word, ['b']⟩] .standard) :=
  (launch_agree_iff onlyA .succeeding (by decide) (by decide) .standard).2 (.inl (by decide))

/-- The command is the word `a` 64 times. -/
theorem background_drops_argument :
    runbuffChild onlyA (List.replicate 64 ⟨.word, ['a']⟩)
        = some (.exec ⟨['a'], false, ['.', '/', 'a'], List.replicate 63 ['a']⟩)
      ∧ runExternal .succeeding onlyA true (List.replicate 64 ⟨.word, ['a']⟩) .standard
        = .exec ⟨['a'], false, ['.', '/', 'a'], List.replicate 64 ['a']⟩ := by
  decide

end Shell

end CShellXv6
