import CShellXv6.Proofs.Loops
import CShellXv6.Proofs.Segments
import CShellXv6.Shell.Commands
import Mathlib.Algebra.Order.Group.Multiset
import Mathlib.Tactic.Abel

/-!
# The stages of an accepted segment

The stage loop finds again, by searching for `|` tokens, the commands the syntax check passed
over: with the ranges put in, it is a loop over the commands (`makeStagesLoop_eq`). A command is
a word and operands, so its stage gets an argument, and no operator in it is without its file
name.
-/

namespace CShellXv6

namespace Shell

section Pieces

theorem commandsFrom_of_pipeless : ∀ {c : List Token} (i : ℕ), (∀ t ∈ c, t.type ≠ .opPipe) →
    commandsFrom i c = [(i, c)]
  | [], _, _ => rfl
  | t :: c, i, h => by
    have ih := commandsFrom_of_pipeless (c := c) (i + 1) fun u hu => h u (by simp [hu])
    simp [commandsFrom, h t (by simp), ih]

theorem commandsFrom_append_pipe {p : Token} (hp : p.type = .opPipe) (g : List Token) :
    ∀ {c : List Token} (i : ℕ), (∀ t ∈ c, t.type ≠ .opPipe) →
      commandsFrom i (c ++ p :: g) = (i, c) :: commandsFrom (i + c.length + 1) g
  | [], i, _ => by simp [commandsFrom, hp]
  | t :: c, i, h => by
    have ih := commandsFrom_append_pipe hp g (c := c) (i + 1) fun u hu => h u (by simp [hu])
    rw [List.cons_append, commandsFrom, if_neg (h t (by simp)), ih]
    simp [Nat.add_assoc, Nat.add_comm 1]

/-- A token list is one piece, or a piece, a `|` and more. -/
theorem pipeless_or_pipe (ts : List Token) : (∀ t ∈ ts, t.type ≠ .opPipe) ∨
    ∃ c p g, ts = c ++ p :: g ∧ p.type = .opPipe ∧ ∀ t ∈ c, t.type ≠ .opPipe := by
  induction ts with
  | nil => simp
  | cons t ts ih =>
    by_cases ht : t.type = .opPipe
    · exact .inr ⟨[], t, ts, rfl, ht, by simp⟩
    rcases ih with h | ⟨c, p, g, rfl, hp, hc⟩
    · exact .inl (by simpa [ht] using h)
    · exact .inr ⟨t :: c, p, g, rfl, hp, by simpa [ht] using hc⟩

/-- Induction along the `|` tokens of a list. -/
@[elab_as_elim]
theorem pieces_induction {P : List Token → Prop}
    (one : ∀ c, (∀ t ∈ c, t.type ≠ .opPipe) → P c)
    (pipe : ∀ c p g, (∀ t ∈ c, t.type ≠ .opPipe) → p.type = .opPipe → P g → P (c ++ p :: g))
    (ts : List Token) : P ts := by
  induction hn : ts.length using Nat.strong_induction_on generalizing ts with
  | _ n ih =>
    rcases pipeless_or_pipe ts with h | ⟨c, p, g, rfl, hp, hc⟩
    · exact one ts h
    · refine pipe c p g hc hp (ih g.length ?_ g rfl)
      simp only [← hn, List.length_append, List.length_cons]
      omega

theorem length_commandsFrom (i : ℕ) (ts : List Token) :
    (commandsFrom i ts).length = 1 + ts.countP (·.type = .opPipe) := by
  induction ts using pieces_induction generalizing i with
  | one c hc =>
    rw [commandsFrom_of_pipeless i hc, List.countP_eq_zero.2 (by simpa using hc)]
    rfl
  | pipe c p g hc hp ih =>
    have hzero : c.countP (·.type = .opPipe) = 0 := List.countP_eq_zero.2 (by simpa using hc)
    rw [commandsFrom_append_pipe hp g i hc, List.length_cons, ih, List.countP_append, hzero]
    simp [hp, Nat.add_comm]

theorem Operands.pipeless {ts : List Token} (h : Operands ts) : ∀ t ∈ ts, t.type ≠ .opPipe := by
  induction h with
  | nil => simp
  | word ht _ ih => simpa [ht] using ih
  | @redirection r t ts hr ht _ ih =>
    have : r.type ≠ .opPipe := by
      intro h
      simp [h, isRedirection] at hr
    simpa [ht, this] using ih

theorem Command.operands {c : List Token} (h : Command c) : Operands c := by
  obtain ⟨ht, ho⟩ := h
  exact .word ht ho

theorem Group.command_of_mem {g : List Token} (h : Group g) :
    ∀ (i : ℕ), ∀ c ∈ commandsFrom i g, Command c.2 := by
  induction h with
  | one hc =>
    intro i c hm
    rw [commandsFrom_of_pipeless i hc.operands.pipeless, List.mem_singleton] at hm
    exact hm ▸ hc
  | pipe hc hp _ ih =>
    intro i c hm
    rw [commandsFrom_append_pipe hp _ i hc.operands.pipeless, List.mem_cons] at hm
    rcases hm with rfl | hm
    · exact hc
    · exact ih _ c hm

end Pieces

section Loop

variable (env : Env)

/-- The stage loop, with the commands given. -/
def buildStages : ℕ → List (ℕ × List Token) → List Stage → World → Int × List Stage × World
  | _, [], stages, w => (1, stages, w)
  | k, c :: cs, stages, w =>
    let (result, stage, w) := stageArgsOn env c.2 k (freshStage c.1 (c.1 + c.2.length)) w
    if result ≠ 0 then (result, [], freeStages (stages.set k stage) w)
    else buildStages (k + 1) cs (stages.set k stage) w

theorem pipeFrom_eq {tokens pre c : List Token} {e : ℕ} (hc : ∀ t ∈ c, t.type ≠ .opPipe)
    (h : tokens.take e = pre ++ c) : pipeFrom tokens pre.length e = pre.length + c.length := by
  unfold pipeFrom
  rw [h, List.drop_left, List.findIdx_eq_length.2 (by simpa using hc)]

theorem pipeFrom_eq_of_pipe {tokens pre c g : List Token} {p : Token} {e : ℕ}
    (hc : ∀ t ∈ c, t.type ≠ .opPipe) (hp : p.type = .opPipe)
    (h : tokens.take e = pre ++ (c ++ p :: g)) :
    pipeFrom tokens pre.length e = pre.length + c.length := by
  unfold pipeFrom
  rw [h, List.drop_left, List.findIdx_append, List.findIdx_eq_length.2 (by simpa using hc)]
  simp [List.findIdx_cons, hp]

theorem take_drop_range {tokens pre c rest : List Token} {e : ℕ}
    (h : tokens.take e = pre ++ (c ++ rest)) :
    (tokens.take (pre.length + c.length)).drop pre.length = c := by
  have hle : pre.length + c.length ≤ e := by
    have := congrArg List.length h
    simp only [List.length_take, List.length_append] at this
    omega
  rw [← Nat.min_eq_left hle, ← List.take_take, h, ← List.append_assoc,
    List.take_left' (by simp), List.drop_left]

theorem stageArgs_eq {tokens pre c rest : List Token} {e : ℕ}
    (h : tokens.take e = pre ++ (c ++ rest)) (k : ℕ) (w : World) :
    stageArgs env tokens k (freshStage pre.length (pre.length + c.length)) w
      = stageArgsOn env c k (freshStage pre.length (pre.length + c.length)) w := by
  have hrange := take_drop_range h
  unfold stageArgs
  rw [show (freshStage pre.length (pre.length + c.length)).stop = pre.length + c.length from rfl,
    show (freshStage pre.length (pre.length + c.length)).start = pre.length from rfl, hrange]

/-- The stage loop runs over the commands. -/
theorem makeStagesLoop_eq (tokens rest : List Token) :
    ∀ (pre : List Token), tokens.take (lineEnd tokens) = pre ++ rest →
      ∀ (k : ℕ) (stages : List Stage) (w : World),
      makeStagesLoop env tokens (commandsFrom pre.length rest).length k pre.length stages w
        = buildStages env k (commandsFrom pre.length rest) stages w := by
  induction rest using pieces_induction with
  | one c hc =>
    intro pre h k stages w
    rw [commandsFrom_of_pipeless _ hc]
    have hs := pipeFrom_eq hc h
    have ha := stageArgs_eq env (c := c) (h.trans (by rw [List.append_nil])) k w
    simp only [List.length_singleton, makeStagesLoop, buildStages, hs, ha]
  | pipe c p g hc hp ih =>
    intro pre h k stages w
    have hs := pipeFrom_eq_of_pipe hc hp h
    have ha := stageArgs_eq env h k w
    have hg := ih (pre ++ c ++ [p]) (by simpa using h)
    simp only [List.length_append, List.length_cons, List.length_nil, Nat.zero_add] at hg
    simp only [commandsFrom_append_pipe hp _ _ hc, List.length_cons, makeStagesLoop, buildStages,
      hs, ha, hg]

/-- `make_stages` goes over the commands of the line, from zeroed stages. -/
theorem makeStages_eq (tokens : List Token) (force : Bool) (w : World) :
    makeStages env tokens force w =
      if (commands tokens).length = 1 ∧ force = false then (0, [], w)
      else if env.stagesCalloc = false then (-3, [], w)
      else buildStages env 0 (commands tokens)
        (List.replicate (commands tokens).length Stage.zero) w := by
  have hlen : stageCount tokens = (commands tokens).length := by
    rw [commands, length_commandsFrom, stageCount]
  have hloop := makeStagesLoop_eq env tokens _ [] rfl 0
    (List.replicate (commands tokens).length Stage.zero) w
  unfold makeStages
  rw [hlen]
  split_ifs
  · rfl
  · rfl
  · exact hloop

end Loop

section Ledger

open FdTable

/-- The descriptor in a C int, if there is one. -/
def fdSet (fd : Int) : Multiset ℕ :=
  if 0 ≤ fd then {fd.toNat} else 0

def fileSet (fds : List Int) : Multiset ℕ :=
  (fds.map Int.toNat : List ℕ)

/-- The descriptors a stage holds. -/
def Stage.held (stage : Stage) : Multiset ℕ :=
  fdSet stage.input + fdSet stage.output + fdSet stage.teeRead + fileSet stage.files

variable {F : Set ℕ} {M : Multiset ℕ} {w : World}

theorem fdSet_natCast (n : ℕ) : fdSet n = {n} := by
  simp [fdSet]

theorem fdSet_of_neg {fd : Int} (h : fd < 0) : fdSet fd = 0 :=
  if_neg (Int.not_le.2 h)

theorem fdSet_neg_one : fdSet (-1) = 0 := rfl

theorem holds_openAs (d : Target) (h : Holds F M w) :
    Holds F (M + fdSet (openAs d w).1) (openAs d w).2 := by
  have := h.openLowest d
  rw [← Multiset.singleton_add, add_comm] at this
  simpa [openAs, fdSet_natCast] using this

theorem holds_closeFd {fd : Int} (hfd : 0 ≤ fd) (h : Holds F (M + fdSet fd) w) :
    Holds F M (closeFd fd w) := by
  rw [fdSet, if_pos hfd, add_comm, Multiset.singleton_add] at h
  exact h.close

theorem holds_closeIfOpen {fd : Int} (h : Holds F (M + fdSet fd) w) :
    Holds F M (closeIfOpen fd w) := by
  unfold closeIfOpen
  split_ifs with hfd
  · exact holds_closeFd hfd h
  · simpa [fdSet, hfd] using h

theorem holds_closeAll : ∀ {fds : List Int} {w : World}, Holds F (M + fileSet fds) w →
    Holds F M (closeAll fds w)
  | [], w, h => by simpa [fileSet, closeAll] using h
  | fd :: fds, w, h => by
    refine holds_closeAll (w := closeFd fd w) (Holds.close ?_)
    have : fd.toNat ::ₘ (M + fileSet fds) = M + fileSet (fd :: fds) := by
      simp [fileSet, ← Multiset.cons_coe]
    rwa [this]

theorem holds_freeStage {stage : Stage} (h : Holds F (M + stage.held) w) :
    Holds F M (freeStage stage w) := by
  refine holds_closeAll (holds_closeIfOpen (holds_closeIfOpen (holds_closeIfOpen ?_)))
  rw [Stage.held] at h
  rwa [show M + fileSet stage.files + fdSet stage.teeRead + fdSet stage.output
    + fdSet stage.input = M + (fdSet stage.input + fdSet stage.output + fdSet stage.teeRead
      + fileSet stage.files) by abel]

theorem openFile_eq (env : Env) (i : ℕ) (d : Target) (w : World) :
    (env.openFile i = true ∧ openFile env i d w = openAs d w)
      ∨ (env.openFile i = false ∧ openFile env i d w = (-1, w)) := by
  unfold openFile
  cases env.openFile i <;> simp

theorem openAs_nonneg (d : Target) (w : World) : 0 ≤ (openAs d w).1 := by
  simp [openAs]

/-- `join_inputs` closes both descriptors, and leaves the joined one if there is one. -/
theorem joinInputs_spec (env : Env) (i : ℕ) {first second : Int} (h1 : 0 ≤ first) (h2 : 0 ≤ second)
    (w : World) :
    ((joinInputs env i first second w).1 < 0 ↔ env.joinInputs i ≠ .joined)
      ∧ ∀ {F M}, Holds F (M + fdSet first + fdSet second) w →
        Holds F (M + fdSet (joinInputs env i first second w).1)
          (joinInputs env i first second w).2 := by
  unfold joinInputs
  cases henv : env.joinInputs i <;> simp only
  · refine ⟨by simpa using openAs_nonneg .joined w, fun {F M} h => ?_⟩
    refine holds_closeFd h2 (holds_closeFd h1 ?_)
    rw [show M + fdSet (openAs .joined w).1 + fdSet second + fdSet first
      = M + fdSet first + fdSet second + fdSet (openAs .joined w).1 by abel]
    exact holds_openAs _ h
  · refine ⟨by simp, fun {F M} h => ?_⟩
    rw [fdSet_neg_one, add_zero]
    refine holds_closeFd h2 (holds_closeFd h1 ?_)
    rwa [add_right_comm]
  · refine ⟨by simp, fun {F M} h => ?_⟩
    rw [fdSet_neg_one, add_zero]
    refine holds_closeFd h2 (holds_closeFd h1 (holds_closeFd (openAs_nonneg _ _) ?_))
    rw [show M + fdSet second + fdSet first = M + fdSet first + fdSet second by abel]
    exact holds_openAs _ h

end Ledger

section Args

open FdTable

variable {env : Env}

theorem redirectsOk_word {t : Token} (ht : t.type = .word) (i : ℕ) (b : Bool) (ts : List Token) :
    redirectsOk env i b (t :: ts) = redirectsOk env (i + 1) b ts := by
  simp [redirectsOk, ht]

theorem redirectsOk_lt {r t : Token} (hr : r.type = .opLt) (ht : t.type = .word) (i : ℕ) (b : Bool)
    (ts : List Token) : redirectsOk env i b (r :: t :: ts) =
      (env.openFile i && (!b || env.joinInputs i = .joined)
        && redirectsOk env (i + 2) true ts) := by
  rw [redirectsOk, if_pos hr, redirectsOk_word ht]

theorem redirectsOk_gt {r t : Token} (hr : r.type = .opGt ∨ r.type = .opGtgt) (ht : t.type = .word)
    (i : ℕ) (b : Bool) (ts : List Token) : redirectsOk env i b (r :: t :: ts) =
      (env.openFile i && env.filesRealloc i && redirectsOk env (i + 2) b ts) := by
  have hlt : r.type ≠ .opLt := by rcases hr with hr | hr <;> simp [hr]
  rw [redirectsOk, if_neg hlt, if_pos (by simpa using hr), redirectsOk_word ht]

/-- What the argument loop does on a command's operands. -/
structure ArgsSpec (env : Env) (i : ℕ) (ts : List Token) (stage : Stage) (w : World)
    (r : Int × Stage × World) : Prop where
  ok : r.1 = 0 ↔ redirectsOk env i (0 ≤ stage.input) ts = true
  code : r.1 = 0 ∨ r.1 = -1 ∨ r.1 = -3 ∨ r.1 = -4
  args : stage.args <+: r.2.1.args
  output : r.2.1.output = stage.output
  teeRead : r.2.1.teeRead = stage.teeRead
  teeWrite : r.2.1.teeWrite = stage.teeWrite
  start : r.2.1.start = stage.start
  stop : r.2.1.stop = stage.stop
  files : (∀ fd ∈ stage.files, 0 ≤ fd) → ∀ fd ∈ r.2.1.files, 0 ≤ fd
  holds : ∀ {F : Set ℕ} {M : Multiset ℕ}, Holds F (M + stage.held) w →
    Holds F (M + r.2.1.held) r.2.2

theorem held_input (stage : Stage) (fd : Int) :
    ({ stage with input := fd } : Stage).held
      = ({ stage with input := -1 } : Stage).held + fdSet fd := by
  simp only [Stage.held, fdSet_neg_one]
  abel

theorem held_eq (stage : Stage) :
    stage.held = ({ stage with input := -1 } : Stage).held + fdSet stage.input :=
  held_input stage stage.input

theorem held_files (stage : Stage) {fd : Int} (h : 0 ≤ fd) :
    ({ stage with files := stage.files ++ [fd] } : Stage).held = stage.held + fdSet fd := by
  have : fileSet (stage.files ++ [fd]) = fileSet stage.files + fdSet fd := by
    simp [fileSet, fdSet, h, ← Multiset.coe_add]
  simp only [Stage.held, this]
  abel

theorem files_snoc {files : List Int} {fd : Int} (h : ∀ fd ∈ files, 0 ≤ fd) (hfd : 0 ≤ fd) :
    ∀ fd' ∈ files ++ [fd], 0 ≤ fd' := by
  intro fd' hmem
  rcases List.mem_append.1 hmem with hmem | hmem
  · exact h fd' hmem
  · rw [List.mem_singleton.1 hmem]
    exact hfd

theorem held_freshStage (start stop : ℕ) : (freshStage start stop).held = 0 := rfl

@[simp] theorem stageArgsLoop_nil (i : ℕ) (stage : Stage) (w : World) :
    stageArgsLoop env i [] stage w = (0, stage, w) := rfl

theorem stageArgsLoop_word {t : Token} (ht : t.type = .word) (i : ℕ) (rest : List Token)
    (stage : Stage) (w : World) : stageArgsLoop env i (t :: rest) stage w =
      stageArgsLoop env (i + 1) rest { stage with args := stage.args ++ [t.text] } w := by
  rw [stageArgsLoop, Calls.stageArgsLoop_word _ _ ht]
  rfl

theorem stageArgsLoop_input {t f : Token} (ht : t.type = .opLt) (hf : f.type = .word) (i : ℕ)
    (rest : List Token) (stage : Stage) (w : World) :
    stageArgsLoop env i (t :: f :: rest) stage w =
      if (openFile env i (.input f.text) w).1 < 0 then
        (-1, stage, (openFile env i (.input f.text) w).2)
      else if 0 ≤ stage.input then
        let r := joinInputs env i stage.input (openFile env i (.input f.text) w).1
          (openFile env i (.input f.text) w).2
        if r.1 < 0 then (-1, { stage with input := -1 }, r.2)
        else stageArgsLoop env (i + 2) rest { stage with input := r.1 } r.2
      else stageArgsLoop env (i + 2) rest
        { stage with input := (openFile env i (.input f.text) w).1 }
        (openFile env i (.input f.text) w).2 := by
  rw [stageArgsLoop, Calls.stageArgsLoop_input _ _ ht hf]
  refine (apply_ite stage.fill _ _ _).trans (if_congr Iff.rfl rfl ?_)
  refine (apply_ite stage.fill _ _ _).trans (if_congr Iff.rfl ?_ rfl)
  exact apply_ite stage.fill _ _ _

theorem stageArgsLoop_output {t f : Token} (ht : t.type = .opGt ∨ t.type = .opGtgt)
    (hf : f.type = .word) (i : ℕ) (rest : List Token) (stage : Stage) (w : World) :
    stageArgsLoop env i (t :: f :: rest) stage w =
      let r := openFile env i (outputTarget t.type f.text) w
      if r.1 < 0 then (-4, stage, r.2)
      else if env.filesRealloc i = false then (-3, stage, closeFd r.1 r.2)
      else stageArgsLoop env (i + 2) rest { stage with files := stage.files ++ [r.1] } r.2 := by
  rw [stageArgsLoop, Calls.stageArgsLoop_output _ _ ht hf]
  refine (apply_ite stage.fill _ _ _).trans (if_congr Iff.rfl rfl ?_)
  exact apply_ite stage.fill _ _ _

/-- The loop stops here, with the stage as it is but for the input. -/
theorem ArgsSpec.ended {i : ℕ} {ts : List Token} {stage : Stage} {w w' : World} {code input : Int}
    (hok : code = 0 ↔ redirectsOk env i (decide (0 ≤ stage.input)) ts = true)
    (hcode : code = 0 ∨ code = -1 ∨ code = -3 ∨ code = -4)
    (hholds : ∀ {F : Set ℕ} {M : Multiset ℕ}, Holds F (M + stage.held) w →
      Holds F (M + ({ stage with input := input } : Stage).held) w') :
    ArgsSpec env i ts stage w (code, { stage with input := input }, w') where
  ok := hok
  code := hcode
  args := List.prefix_refl _
  output := rfl
  teeRead := rfl
  teeWrite := rfl
  start := rfl
  stop := rfl
  files := id
  holds := hholds

variable (env)

theorem stageArgsLoop_spec {ts : List Token} (h : Operands ts) :
    ∀ (i : ℕ) (stage : Stage) (w : World),
      ArgsSpec env i ts stage w (stageArgsLoop env i ts stage w) := by
  induction h using Operands.kinds with
  | nil =>
    intro i stage w
    exact .ended (by simp [redirectsOk]) (.inl rfl) id
  | @word t ts ht _ ih =>
    intro i stage w
    have h := ih (i + 1) { stage with args := stage.args ++ [t.text] } w
    rw [stageArgsLoop_word ht]
    exact { h with
      ok := by
        rw [redirectsOk_word ht]
        exact h.ok
      args := (List.prefix_append _ _).trans h.args }
  | @input r t ts hlt ht _ ih =>
    intro i stage w
    rw [stageArgsLoop_input hlt ht]
    rcases openFile_eq env i (.input t.text) w with ⟨hopen, ho⟩ | ⟨hopen, ho⟩ <;> rw [ho]
    · have hfd := openAs_nonneg (.input t.text) w
      rw [if_neg (by omega)]
      split_ifs with hin
      · obtain ⟨hj, hjoin⟩ := joinInputs_spec env i hin hfd (openAs (.input t.text) w).2
        have hheld : ∀ {F : Set ℕ} {M : Multiset ℕ}, Holds F (M + stage.held) w →
            Holds F (M + ({ stage with input := -1 } : Stage).held + fdSet stage.input
              + fdSet (openAs (.input t.text) w).1) (openAs (.input t.text) w).2 := by
          intro F M h
          rw [add_assoc M, ← held_eq]
          exact holds_openAs _ h
        simp only
        split_ifs with hneg
        · refine .ended (by simp [redirectsOk_lt hlt ht, hin, hj.1 hneg]) (.inr (.inl rfl))
            fun h => ?_
          have := hjoin (hheld h)
          rwa [fdSet_of_neg hneg, add_zero] at this
        · have h := ih (i + 2)
            { stage with input := (joinInputs env i stage.input (openAs (.input t.text) w).1
              (openAs (.input t.text) w).2).1 }
            (joinInputs env i stage.input (openAs (.input t.text) w).1
              (openAs (.input t.text) w).2).2
          have hjoined : env.joinInputs i = .joined := by
            by_contra hne
            exact hneg (hj.2 hne)
          refine { h with ok := ?_, holds := fun hw => h.holds ?_ }
          · rw [h.ok, redirectsOk_lt hlt ht]
            simp [hopen, hjoined, Int.not_lt.1 hneg]
          · rw [held_input, ← add_assoc]
            exact hjoin (hheld hw)
      · have h := ih (i + 2) { stage with input := (openAs (.input t.text) w).1 }
          (openAs (.input t.text) w).2
        refine { h with ok := ?_, holds := fun hw => h.holds ?_ }
        · rw [h.ok, redirectsOk_lt hlt ht]
          simp [hopen, hin, hfd]
        · have hnone : stage.held = ({ stage with input := -1 } : Stage).held := by
            rw [held_eq, fdSet_of_neg (Int.not_le.1 hin), add_zero]
          rw [held_input, ← hnone, ← add_assoc]
          exact holds_openAs _ hw
    · exact .ended (by simp [redirectsOk_lt hlt ht, hopen]) (.inr (.inl rfl)) id
  | @output r t ts hgt ht _ ih =>
    intro i stage w
    rw [stageArgsLoop_output hgt ht]
    rcases openFile_eq env i (outputTarget r.type t.text) w with ⟨hopen, ho⟩ | ⟨hopen, ho⟩ <;>
      rw [ho] <;> simp only
    · have hfd := openAs_nonneg (outputTarget r.type t.text) w
      rw [if_neg (by omega)]
      split_ifs with halloc
      · exact .ended (by simp [redirectsOk_gt hgt ht, halloc]) (.inr (.inr (.inl rfl)))
          fun h => holds_closeFd hfd (holds_openAs _ h)
      · have h := ih (i + 2)
          { stage with files := stage.files ++ [(openAs (outputTarget r.type t.text) w).1] }
          (openAs (outputTarget r.type t.text) w).2
        refine { h with
          ok := ?_, files := fun hf => h.files (files_snoc hf hfd), holds := fun hw => h.holds ?_ }
        · rw [h.ok, redirectsOk_gt hgt ht]
          simp [hopen, halloc]
        · rw [held_files stage hfd, ← add_assoc]
          exact holds_openAs _ hw
    · exact .ended (by simp [redirectsOk_gt hgt ht, hopen]) (.inr (.inr (.inr rfl))) id

/-- A stage set up for the command `c`. -/
structure StageReady (c : ℕ × List Token) (stage : Stage) : Prop where
  start : stage.start = c.1
  stop : stage.stop = c.1 + c.2.length
  args : Command c.2 → stage.args ≠ []
  teeRead : stage.teeRead = -1
  teeWrite : stage.teeWrite = -1
  output : 1 < stage.files.length → stage.output = -1

theorem held_settleOutput {stage : Stage} (ho : stage.output = -1)
    (hf : ∀ fd ∈ stage.files, 0 ≤ fd) : (settleOutput stage).held = stage.held := by
  unfold settleOutput
  split
  · rename_i fd hfd
    have h0 := hf fd (by simp [hfd])
    simp only [Stage.held, ho, hfd, fdSet_neg_one]
    simp only [fileSet, fdSet, h0, if_true, List.map_nil, List.map_cons, Multiset.coe_nil,
      Multiset.coe_singleton]
    abel
  · rfl

theorem ready_settleOutput {c : ℕ × List Token} {stage : Stage} (ho : stage.output = -1)
    (h : StageReady c stage) : StageReady c (settleOutput stage) := by
  unfold settleOutput
  split
  · exact ⟨h.start, h.stop, h.args, h.teeRead, h.teeWrite, by simp⟩
  · exact ⟨h.start, h.stop, h.args, h.teeRead, h.teeWrite, fun _ => ho⟩

theorem args_ne_nil {c : List Token} (h : Command c) (i : ℕ) (stage : Stage) (w : World) :
    (stageArgsLoop env i c stage w).2.1.args ≠ [] := by
  obtain @⟨t, ts, ht, ho⟩ := h
  rw [stageArgsLoop_word ht]
  have := (stageArgsLoop_spec env ho (i + 1) { stage with args := stage.args ++ [t.text] } w).args
  intro hnil
  rw [hnil, List.prefix_nil] at this
  simp at this

theorem stageArgsOn_spec {c : ℕ × List Token} (h : Operands c.2) (k : ℕ) (w : World) :
    let r := stageArgsOn env c.2 k (freshStage c.1 (c.1 + c.2.length)) w
    (r.1 = 0 ↔ stageOk env k c = true) ∧ (r.1 = 0 ∨ r.1 = -1 ∨ r.1 = -3 ∨ r.1 = -4)
      ∧ (r.1 = 0 → StageReady c r.2.1)
      ∧ ∀ {F : Set ℕ} {M : Multiset ℕ}, Holds F M w → Holds F (M + r.2.1.held) r.2.2 := by
  have hs := stageArgsLoop_spec env h c.1 (freshStage c.1 (c.1 + c.2.length)) w
  have hargs := fun hc : Command c.2 =>
    args_ne_nil env hc c.1 (freshStage c.1 (c.1 + c.2.length)) w
  unfold stageArgsOn
  rw [show (freshStage c.1 (c.1 + c.2.length)).start = c.1 from rfl]
  revert hs hargs
  generalize stageArgsLoop env c.1 c.2 (freshStage c.1 (c.1 + c.2.length)) w = r
  intro hs hargs
  obtain ⟨result, stage, w'⟩ := r
  have ho : stage.output = -1 := hs.output
  have hfiles : ∀ fd ∈ stage.files, 0 ≤ fd := hs.files (by simp [freshStage, Stage.zero])
  simp only
  split_ifs with ha hr
  · refine ⟨by simp [stageOk, ha], .inr (.inr (.inl rfl)), by simp, fun h => ?_⟩
    simpa [held_freshStage] using h
  · refine ⟨?_, hs.code, fun h0 => absurd h0 hr,
      fun h => hs.holds (by simpa [held_freshStage] using h)⟩
    have hok : ¬ redirectsOk env c.1 false c.2 = true := fun hok => hr (hs.ok.2 hok)
    simp [hr, stageOk, hok]
  · have h0 : result = 0 := not_not.1 hr
    refine ⟨?_, .inl rfl, fun _ => ?_, fun h => ?_⟩
    · have hok : redirectsOk env c.1 false c.2 = true := hs.ok.1 h0
      simp [stageOk, hok, ha]
    · exact ready_settleOutput ho ⟨hs.start, hs.stop, hargs, hs.teeRead, hs.teeWrite, fun _ => ho⟩
    · rw [held_settleOutput ho hfiles]
      exact hs.holds (by simpa [held_freshStage] using h)

end Args

section Build

open FdTable

/-- The descriptors the stages hold. -/
def heldAll (stages : List Stage) : Multiset ℕ :=
  (stages.map Stage.held).sum

theorem holds_freeStages {F : Set ℕ} {M : Multiset ℕ} : ∀ {stages : List Stage} {w : World},
    Holds F (M + heldAll stages) w → Holds F M (freeStages stages w)
  | [], w, h => by simpa [heldAll, freeStages] using h
  | stage :: stages, w, h => by
    refine holds_freeStages (w := freeStage stage w) (holds_freeStage ?_)
    rw [heldAll, List.map_cons, List.sum_cons] at h
    rwa [heldAll, add_assoc, add_comm (List.sum _)]

theorem not_isOpen_closeFd {w : World} {n : ℕ} (h : ¬ w.IsOpen n) (fd : Int) :
    ¬ (closeFd fd w).IsOpen n := by
  rw [closeFd, isOpen_close]
  tauto

theorem not_isOpen_closeIfOpen {w : World} {n : ℕ} (h : ¬ w.IsOpen n) (fd : Int) :
    ¬ (closeIfOpen fd w).IsOpen n := by
  unfold closeIfOpen
  split_ifs
  · exact not_isOpen_closeFd h fd
  · exact h

theorem not_isOpen_closeAll {n : ℕ} : ∀ (fds : List Int) {w : World}, ¬ w.IsOpen n →
    ¬ (closeAll fds w).IsOpen n
  | [], _, h => h
  | fd :: fds, w, h => not_isOpen_closeAll fds (w := closeFd fd w) (not_isOpen_closeFd h fd)

theorem not_isOpen_freeStage {w : World} {n : ℕ} (h : ¬ w.IsOpen n) (stage : Stage) :
    ¬ (freeStage stage w).IsOpen n :=
  not_isOpen_closeAll _ (not_isOpen_closeIfOpen (not_isOpen_closeIfOpen
    (not_isOpen_closeIfOpen h _) _) _)

theorem not_isOpen_freeStages {n : ℕ} : ∀ (stages : List Stage) {w : World}, ¬ w.IsOpen n →
    ¬ (freeStages stages w).IsOpen n
  | [], _, h => h
  | stage :: stages, w, h =>
    not_isOpen_freeStages stages (w := freeStage stage w) (not_isOpen_freeStage h stage)

/-- Freeing a stage that is still as `calloc` left it closes descriptor 0. -/
theorem not_isOpen_freeStages_zero : ∀ {stages : List Stage} (w : World), Stage.zero ∈ stages →
    ¬ (freeStages stages w).IsOpen 0
  | stage :: stages, w, h => by
    rcases List.mem_cons.1 h with rfl | h
    · refine not_isOpen_freeStages stages (w := freeStage Stage.zero w) ?_
      have h0 : ¬ (closeIfOpen 0 w).IsOpen 0 := by
        simp [closeIfOpen, closeFd, isOpen_close]
      exact not_isOpen_closeAll _ (not_isOpen_closeIfOpen (not_isOpen_closeIfOpen h0 _) _)
    · exact not_isOpen_freeStages_zero (freeStage stage w) h

variable (env : Env)

theorem set_built {k : ℕ} {built : List Stage} (hk : built.length = k) (n : ℕ) (stage : Stage) :
    (built ++ List.replicate (n + 1) Stage.zero).set k stage
      = built ++ [stage] ++ List.replicate n Stage.zero := by
  rw [List.replicate_succ, List.set_append_right _ _ (by omega), hk, Nat.sub_self]
  simp

/-- How building the stages can end: with a stage for every command; in the last stage, with
everything given back; or in an earlier one, with descriptor 0 closed. -/
theorem buildStages_spec : ∀ (cs : List (ℕ × List Token)), (∀ c ∈ cs, Operands c.2) →
    ∀ (k : ℕ) (built : List Stage) (w : World), built.length = k →
      let r := buildStages env k cs (built ++ List.replicate cs.length Stage.zero) w
      (r.1 = 1 ∧ stagesOk env k cs = true ∧ ∃ new, r.2.1 = built ++ new
          ∧ List.Forall₂ StageReady cs new
          ∧ ∀ {F : Set ℕ} {M : Multiset ℕ}, Holds F (M + heldAll built) w →
            Holds F (M + heldAll (built ++ new)) r.2.2)
        ∨ ((r.1 = -1 ∨ r.1 = -3 ∨ r.1 = -4) ∧ stagesOk env k cs = false
          ∧ (stagesOk env k cs.dropLast = true
              ∧ (∀ {F : Set ℕ} {M : Multiset ℕ}, Holds F (M + heldAll built) w → Holds F M r.2.2)
            ∨ stagesOk env k cs.dropLast = false ∧ ¬ r.2.2.IsOpen 0))
  | [], _, k, built, w, _ => by
    refine .inl ⟨rfl, rfl, [], by simp [buildStages], .nil, fun h => ?_⟩
    simpa [buildStages] using h
  | c :: cs, hcs, k, built, w, hk => by
    obtain ⟨hok, hcode, hready, hholds⟩ := stageArgsOn_spec env (hcs c (by simp)) k w
    simp only [buildStages, List.length_cons, set_built hk]
    revert hok hcode hready hholds
    generalize stageArgsOn env c.2 k (freshStage c.1 (c.1 + c.2.length)) w = r
    intro hok hcode hready hholds
    obtain ⟨result, stage, w'⟩ := r
    simp only at hok hcode hready hholds ⊢
    have hheld : ∀ {F : Set ℕ} {M : Multiset ℕ}, Holds F (M + heldAll built) w →
        Holds F (M + heldAll (built ++ [stage])) w' := by
      intro F M h
      have := hholds h
      simpa [heldAll, add_assoc] using this
    split_ifs with hr
    · have hbad : stageOk env k c = false := by
        rcases hb : stageOk env k c
        · rfl
        · exact absurd (hok.2 hb) hr
      refine .inr ⟨hcode.resolve_left hr, by simp [stagesOk, hbad], ?_⟩
      rcases cs with _ | ⟨d, cs⟩
      · refine .inl ⟨rfl, fun h => holds_freeStages ?_⟩
        simpa using hheld h
      · refine .inr ⟨by simp [stagesOk, hbad], not_isOpen_freeStages_zero _ ?_⟩
        simp
    · have hgood : stageOk env k c = true := hok.1 (not_not.1 hr)
      have ih := buildStages_spec cs (fun d hd => hcs d (by simp [hd])) (k + 1) (built ++ [stage])
        w' (by simp [hk])
      simp only at ih
      rcases ih with ⟨h1, h2, new, h3, h4, h5⟩ | ⟨h1, h2, h3⟩
      · refine .inl ⟨h1, by simp [stagesOk, hgood, h2], stage :: new, h3.trans (by simp),
          .cons (hready (not_not.1 hr)) h4, fun h => ?_⟩
        simpa using h5 (hheld h)
      · refine .inr ⟨h1, by simp [stagesOk, h2], ?_⟩
        have hne : cs ≠ [] := by
          rintro rfl
          simp [stagesOk] at h2
        rw [List.dropLast_cons_of_ne_nil hne]
        rcases h3 with ⟨h3, h4⟩ | ⟨h3, h4⟩
        · exact .inl ⟨by simp [stagesOk, hgood, h3], fun h => h4 (hheld h)⟩
        · exact .inr ⟨by simp [stagesOk, h3], h4⟩

end Build

end Shell

end CShellXv6
