import CShellXv6.Proofs.Pipeline
import CShellXv6.Shell.Wiring

/-!
# What the stages are redirected to

The descriptors in the stages and in the pipe array refer to what they were opened for: an open
takes a number that is not in use, and what is closed on the way is the stage's own input.
-/

namespace CShellXv6

namespace Shell

open FdTable

/-- Whatever is open in `w` refers to the same thing in `w'`. -/
def Keeps (w w' : World) : Prop :=
  ∀ fd, w.IsOpen fd → w'.get fd = w.get fd

theorem isOpen_of_get {w : World} {fd : ℕ} {d : Target} (h : w.get fd = some d) : w.IsOpen fd := by
  rw [FdTable.IsOpen, h]
  rfl

theorem Keeps.refl (w : World) : Keeps w w :=
  fun _ _ => rfl

theorem Keeps.isOpen {w w' : World} (h : Keeps w w') {fd : ℕ} (hfd : w.IsOpen fd) :
    w'.IsOpen fd := by
  rw [FdTable.IsOpen, h fd hfd]
  exact hfd

theorem Keeps.trans {w w' w'' : World} (h : Keeps w w') (h' : Keeps w' w'') : Keeps w w'' :=
  fun fd hfd => (h' fd (h.isOpen hfd)).trans (h fd hfd)

theorem Keeps.get {w w' : World} (h : Keeps w w') {fd : ℕ} {d : Target}
    (hfd : w.get fd = some d) : w'.get fd = some d :=
  (h fd (isOpen_of_get hfd)).trans hfd

theorem ne_openAs {w : World} {fd : ℕ} (hfd : w.IsOpen fd) (d : Target) :
    (fd : Int) ≠ (openAs d w).1 := by
  intro h
  have : fd = w.lowest := by simpa [openAs] using h
  exact w.not_isOpen_lowest (this ▸ hfd)

theorem keeps_openAs (d : Target) (w : World) : Keeps w (openAs d w).2 := by
  intro fd hfd
  have hne : fd ≠ w.lowest := fun h => w.not_isOpen_lowest (h ▸ hfd)
  rw [openAs, get_openLowest, if_neg hne]

theorem get_openAs (d : Target) (w : World) : (openAs d w).2.get (openAs d w).1.toNat = some d := by
  simp [openAs, get_openLowest]

theorem get_closeFd {fd : ℕ} {n : Int} (hn : 0 ≤ n) (hne : (fd : Int) ≠ n) (w : World) :
    (closeFd n w).get fd = w.get fd := by
  rw [closeFd, get_close, if_neg (by omega)]

section Args

variable {env : Env}

/-- What a stage refers to whose operands so far asked for these files. -/
structure Refers (w : World) (stage : Stage) (ins outs : List Target) : Prop where
  input : 0 ≤ stage.input ↔ ins ≠ []
  reads : 0 ≤ stage.input → w.get stage.input.toNat = joinTargets ins
  files : List.Forall₂ (fun fd d => 0 ≤ fd ∧ w.get fd.toNat = some d) stage.files outs
  apart : ∀ fd ∈ stage.files, fd ≠ stage.input

theorem inputsOf_word {t : Token} (ht : t.type = .word) (ts : List Token) :
    inputsOf (t :: ts) = inputsOf ts := by
  cases ts <;> simp [inputsOf, ht]

theorem outputsOf_word {t : Token} (ht : t.type = .word) (ts : List Token) :
    outputsOf (t :: ts) = outputsOf ts := by
  cases ts <;> simp [outputsOf, ht]

theorem inputsOf_lt {r t : Token} (hr : r.type = .opLt) (ht : t.type = .word)
    (ts : List Token) : inputsOf (r :: t :: ts) = .input t.text :: inputsOf ts := by
  rw [inputsOf, if_pos hr, inputsOf_word ht]

theorem inputsOf_gt {r t : Token} (hr : r.type = .opGt ∨ r.type = .opGtgt)
    (ht : t.type = .word) (ts : List Token) : inputsOf (r :: t :: ts) = inputsOf ts := by
  rw [inputsOf, if_neg (by rcases hr with hr | hr <;> simp [hr]), inputsOf_word ht]

theorem outputsOf_lt {r t : Token} (hr : r.type = .opLt) (ht : t.type = .word)
    (ts : List Token) : outputsOf (r :: t :: ts) = outputsOf ts := by
  rw [outputsOf, if_neg (by simp [hr]), outputsOf_word ht]

theorem outputsOf_gt {r t : Token} (hr : r.type = .opGt ∨ r.type = .opGtgt)
    (ht : t.type = .word) (ts : List Token) :
    outputsOf (r :: t :: ts) = outputTarget r.type t.text :: outputsOf ts := by
  rw [outputsOf, if_pos hr, outputsOf_word ht]

theorem files_keep {w w' : World} {fds : List Int} {ds : List Target}
    (h : List.Forall₂ (fun fd d => 0 ≤ fd ∧ w.get fd.toNat = some d) fds ds)
    (hkeep : ∀ fd ∈ fds, 0 ≤ fd → w.IsOpen fd.toNat → w'.get fd.toNat = w.get fd.toNat) :
    List.Forall₂ (fun fd d => 0 ≤ fd ∧ w'.get fd.toNat = some d) fds ds := by
  induction h with
  | nil => exact .nil
  | cons hfd _ ih =>
    refine .cons ⟨hfd.1, ?_⟩ (ih fun fd hm => hkeep fd (by simp [hm]))
    rw [hkeep _ (by simp) hfd.1 (isOpen_of_get hfd.2), hfd.2]

theorem isOpen_of_mem {w : World} {fds : List Int} {ds : List Target}
    (h : List.Forall₂ (fun fd d => 0 ≤ fd ∧ w.get fd.toNat = some d) fds ds) :
    ∀ fd ∈ fds, 0 ≤ fd ∧ w.IsOpen fd.toNat := by
  induction h with
  | nil => simp
  | cons hfd _ ih =>
    intro fd hm
    rcases List.mem_cons.1 hm with rfl | hm
    · exact ⟨hfd.1, isOpen_of_get hfd.2⟩
    · exact ih fd hm

theorem exists_joinTargets : ∀ {ins : List Target}, ins ≠ [] → ∃ d, joinTargets ins = some d
  | [d], _ => ⟨d, rfl⟩
  | _ :: _ :: _, _ => ⟨.joined, rfl⟩

theorem Refers.exists_get {w : World} {stage : Stage} {ins outs : List Target}
    (h : Refers w stage ins outs) (h0 : 0 ≤ stage.input) :
    ∃ d, w.get stage.input.toNat = some d := by
  rw [h.reads h0]
  exact exists_joinTargets (h.input.1 h0)

theorem Refers.openInput {w : World} {stage : Stage} {ins outs : List Target}
    (h : Refers w stage ins outs) (hnone : ¬ 0 ≤ stage.input) (d : Target) :
    Refers (openAs d w).2 { stage with input := (openAs d w).1 } (ins ++ [d]) outs := by
  have hins : ins = [] := by
    by_contra hne
    exact hnone (h.input.2 hne)
  subst hins
  refine ⟨by simp [openAs], fun _ => get_openAs d w,
    files_keep h.files fun fd _ _ hfd => keeps_openAs d w _ hfd, fun fd hm => ?_⟩
  obtain ⟨h0, hfd⟩ := isOpen_of_mem h.files fd hm
  rw [← Int.toNat_of_nonneg h0]
  exact ne_openAs hfd d

theorem Refers.openOutput {w : World} {stage : Stage} {ins outs : List Target}
    (h : Refers w stage ins outs) (d : Target) :
    Refers (openAs d w).2 { stage with files := stage.files ++ [(openAs d w).1] } ins
      (outs ++ [d]) := by
  refine ⟨h.input, fun h0 => ?_, ?_, fun fd hm => ?_⟩
  · obtain ⟨d', hd'⟩ := h.exists_get h0
    rw [keeps_openAs d w _ (isOpen_of_get hd'), h.reads h0]
  · exact List.rel_append (files_keep h.files fun fd _ _ hfd => keeps_openAs d w _ hfd)
      (.cons ⟨openAs_nonneg d w, get_openAs d w⟩ .nil)
  · rcases List.mem_append.1 hm with hm | hm
    · exact h.apart fd hm
    · intro hfd
      rw [List.mem_singleton.1 hm] at hfd
      have h0 : 0 ≤ stage.input := by
        rw [← hfd]
        exact openAs_nonneg d w
      obtain ⟨d', hd'⟩ := h.exists_get h0
      refine ne_openAs (isOpen_of_get hd') d ?_
      rw [Int.toNat_of_nonneg h0, hfd]

/-- Joining leaves alone all but its two inputs. -/
theorem get_joinInputs {i : ℕ} {first second : Int} {w : World} (h1 : 0 ≤ first) (h2 : 0 ≤ second)
    (hjoined : env.joinInputs i = .joined) {fd : ℕ} (hfd : w.IsOpen fd)
    (hfirst : (fd : Int) ≠ first) (hsecond : (fd : Int) ≠ second) :
    (joinInputs env i first second w).2.get fd = w.get fd := by
  simp only [joinInputs, hjoined]
  rw [get_closeFd h2 hsecond, get_closeFd h1 hfirst, keeps_openAs .joined w fd hfd]

theorem joinInputs_new {i : ℕ} {first second : Int} {w : World} (h1 : 0 ≤ first) (h2 : 0 ≤ second)
    (hjoined : env.joinInputs i = .joined) (hfirst : w.IsOpen first.toNat)
    (hsecond : w.IsOpen second.toNat) :
    let r := joinInputs env i first second w
    0 ≤ r.1 ∧ r.2.get r.1.toNat = some .joined
      ∧ ∀ fd : ℕ, w.IsOpen fd → (fd : Int) ≠ r.1 := by
  have hne1 := ne_openAs hfirst .joined
  have hne2 := ne_openAs hsecond .joined
  rw [Int.toNat_of_nonneg h1] at hne1
  rw [Int.toNat_of_nonneg h2] at hne2
  have h0 := openAs_nonneg .joined w
  simp only [joinInputs, hjoined]
  refine ⟨h0, ?_, fun fd hfd => ne_openAs hfd .joined⟩
  rw [get_closeFd h2 (by omega), get_closeFd h1 (by omega), get_openAs]

theorem Refers.join {i : ℕ} {w : World} {stage : Stage} {ins outs : List Target}
    (h : Refers w stage ins outs) (hin : 0 ≤ stage.input) (d : Target)
    (hjoined : env.joinInputs i = .joined) :
    let r := joinInputs env i stage.input (openAs d w).1 (openAs d w).2
    Refers r.2 { stage with input := r.1 } (ins ++ [d]) outs
      ∧ ∀ fd : ℕ, w.IsOpen fd → (fd : Int) ≠ stage.input →
        r.2.IsOpen fd ∧ (fd : Int) ≠ r.1 ∧ r.2.get fd = w.get fd := by
  intro r
  have hsecond := openAs_nonneg d w
  have hkeeps := keeps_openAs d w
  obtain ⟨d', hd'⟩ := h.exists_get hin
  obtain ⟨h0, hget, hnew⟩ := joinInputs_new (i := i) hin hsecond hjoined
    (hkeeps.isOpen (isOpen_of_get hd')) (isOpen_of_get (get_openAs d w))
  have hframe : ∀ fd : ℕ, w.IsOpen fd → (fd : Int) ≠ stage.input → r.2.get fd = w.get fd := by
    intro fd hfd hne
    have hjoin := get_joinInputs (i := i) hin hsecond hjoined (hkeeps.isOpen hfd) hne
      (ne_openAs hfd d)
    rw [hjoin, hkeeps fd hfd]
  refine ⟨⟨by simpa using h0, fun _ => ?_, files_keep h.files fun fd hm hfd0 hfd => ?_,
    fun fd hm => ?_⟩, fun fd hfd hne => ⟨?_, hnew fd (hkeeps.isOpen hfd), hframe fd hfd hne⟩⟩
  · rw [hget]
    match ins, h.input.1 hin with
    | [_], _ => rfl
    | _ :: _ :: _, _ => rfl
  · refine hframe _ hfd ?_
    rw [Int.toNat_of_nonneg hfd0]
    exact h.apart fd hm
  · obtain ⟨hfd0, hfd⟩ := isOpen_of_mem h.files fd hm
    rw [← Int.toNat_of_nonneg hfd0]
    exact hnew _ (hkeeps.isOpen hfd)
  · rw [FdTable.IsOpen, hframe fd hfd hne]
    exact hfd

/-- A stage refers to the files of the operands it has gone over, and nothing but its input is
closed on the way. -/
theorem stageArgsLoop_refers (env : Env) {ts : List Token} (h : Operands ts) :
    ∀ (i : ℕ) (stage : Stage) (w : World) (ins outs : List Target), Refers w stage ins outs →
      (stageArgsLoop env i ts stage w).1 = 0 →
      Refers (stageArgsLoop env i ts stage w).2.2 (stageArgsLoop env i ts stage w).2.1
          (ins ++ inputsOf ts) (outs ++ outputsOf ts)
        ∧ ∀ fd : ℕ, w.IsOpen fd → (fd : Int) ≠ stage.input →
          (stageArgsLoop env i ts stage w).2.2.get fd = w.get fd := by
  induction h using Operands.kinds with
  | nil =>
    intro i stage w ins outs hrefers _
    exact ⟨by simpa [inputsOf, outputsOf] using hrefers, fun _ _ _ => rfl⟩
  | @word t ts ht _ ih =>
    intro i stage w ins outs hrefers
    rw [stageArgsLoop_word ht, inputsOf_word ht, outputsOf_word ht]
    exact ih (i + 1) { stage with args := stage.args ++ [t.text] } w ins outs
      ⟨hrefers.input, hrefers.reads, hrefers.files, hrefers.apart⟩
  | @input r t ts hlt ht _ ih =>
    intro i stage w ins outs hrefers
    have hins : ins ++ inputsOf (r :: t :: ts) = ins ++ [.input t.text] ++ inputsOf ts := by
      rw [inputsOf_lt hlt ht, List.append_assoc, List.singleton_append]
    rw [stageArgsLoop_input hlt ht, hins, outputsOf_lt hlt ht]
    rcases openFile_eq env i (.input t.text) w with ⟨-, ho⟩ | ⟨-, ho⟩ <;> rw [ho]
    · rw [if_neg (Int.not_lt.2 (openAs_nonneg _ w))]
      split_ifs with hin
      · simp only
        split_ifs with hneg
        · simp
        · have hjoined : env.joinInputs i = .joined := by
            by_contra hne
            exact hneg ((joinInputs_spec env i hin (openAs_nonneg _ w) _).1.2 hne)
          obtain ⟨hnext, hkeep⟩ := hrefers.join hin (.input t.text) hjoined
          intro h0
          obtain ⟨hend, hkeep'⟩ := ih _ _ _ _ _ hnext h0
          refine ⟨hend, fun fd hfd hne => ?_⟩
          obtain ⟨hopen, hne', hget⟩ := hkeep fd hfd hne
          rw [hkeep' fd hopen hne', hget]
      · intro h0
        obtain ⟨hend, hkeep⟩ := ih _ _ _ _ _ (hrefers.openInput hin (.input t.text)) h0
        refine ⟨hend, fun fd hfd _ => ?_⟩
        rw [hkeep fd ((keeps_openAs _ w).isOpen hfd) (ne_openAs hfd (.input t.text)),
          keeps_openAs _ w fd hfd]
    · simp
  | @output r t ts hgt ht _ ih =>
    intro i stage w ins outs hrefers
    have houts : outs ++ outputsOf (r :: t :: ts)
        = outs ++ [outputTarget r.type t.text] ++ outputsOf ts := by
      rw [outputsOf_gt hgt ht, List.append_assoc, List.singleton_append]
    rw [stageArgsLoop_output hgt ht, inputsOf_gt hgt ht, houts]
    rcases openFile_eq env i (outputTarget r.type t.text) w with ⟨-, ho⟩ | ⟨-, ho⟩ <;> rw [ho]
    · simp only
      rw [if_neg (Int.not_lt.2 (openAs_nonneg _ w))]
      split_ifs
      · simp
      · intro h0
        obtain ⟨hend, hkeep⟩ := ih _ _ _ _ _ (hrefers.openOutput (outputTarget r.type t.text)) h0
        refine ⟨hend, fun fd hfd hne => ?_⟩
        rw [hkeep fd ((keeps_openAs _ w).isOpen hfd) hne, keeps_openAs _ w fd hfd]
    · simp

theorem Refers.settleOutput {w : World} {stage : Stage} {c : ℕ × List Token}
    (h : Refers w stage (inputsOf c.2) (outputsOf c.2)) (hout : stage.output = -1) :
    Redirected w c (settleOutput stage) := by
  have hlength := h.files.length_eq
  unfold Shell.settleOutput
  split
  · rename_i fd hfiles
    have hfile := h.files
    rw [hfiles] at hfile
    obtain ⟨d, outs, hfd, hnil, houts⟩ := List.forall₂_cons_left_iff.1 hfile
    rw [List.forall₂_nil_left_iff.1 hnil] at houts
    exact ⟨h.input, h.reads, .inl ⟨d, houts, rfl, hfd.1, hfd.2⟩⟩
  · rename_i hfiles
    refine ⟨h.input, h.reads, .inr ⟨fun hone => ?_, hout, h.files⟩⟩
    obtain ⟨fd, hfd⟩ := List.length_eq_one_iff.1 (hlength.trans hone)
    exact hfiles fd hfd

theorem stageArgsOn_redirected (env : Env) {c : ℕ × List Token} (h : Operands c.2) (k : ℕ)
    (w : World) :
    let r := stageArgsOn env c.2 k (freshStage c.1 (c.1 + c.2.length)) w
    r.1 = 0 → Redirected r.2.2 c r.2.1 ∧ Keeps w r.2.2 := by
  have hfresh : Refers w (freshStage c.1 (c.1 + c.2.length)) [] [] :=
    ⟨by simp [freshStage], by simp [freshStage], .nil, by simp [freshStage, Stage.zero]⟩
  have hspec := stageArgsLoop_spec env h c.1 (freshStage c.1 (c.1 + c.2.length)) w
  have hrefers := stageArgsLoop_refers env h c.1 _ w [] [] hfresh
  unfold stageArgsOn
  split_ifs with hcalloc
  · simp
  · simp only
    split_ifs with hresult
    · exact fun h0 => absurd h0 hresult
    · intro _
      obtain ⟨hend, hkeep⟩ := hrefers (not_not.1 hresult)
      refine ⟨hend.settleOutput hspec.output, fun fd hfd => hkeep fd hfd ?_⟩
      show (fd : Int) ≠ -1
      omega

theorem Redirected.keep {w w' : World} {c : ℕ × List Token} {stage : Stage}
    (h : Redirected w c stage) (hkeeps : Keeps w w') : Redirected w' c stage := by
  refine ⟨h.input, fun h0 => ?_, h.writes.imp ?_ ?_⟩
  · obtain ⟨d, hd⟩ := exists_joinTargets (h.input.1 h0)
    rw [hd]
    exact hkeeps.get ((h.reads h0).trans hd)
  · exact fun ⟨d, houts, hfiles, h0, hd⟩ => ⟨d, houts, hfiles, h0, hkeeps.get hd⟩
  · exact fun ⟨houts, hout, hfiles⟩ =>
      ⟨houts, hout, files_keep hfiles fun fd _ _ hfd => hkeeps _ hfd⟩

variable (env)

theorem buildStages_redirected : ∀ (cs : List (ℕ × List Token)), (∀ c ∈ cs, Operands c.2) →
    ∀ (k : ℕ) (done : List (ℕ × List Token)) (built : List Stage) (w : World), built.length = k →
      List.Forall₂ (Redirected w) done built →
      let r := buildStages env k cs (built ++ List.replicate cs.length Stage.zero) w
      r.1 = 1 → List.Forall₂ (Redirected r.2.2) (done ++ cs) r.2.1 ∧ Keeps w r.2.2
  | [], _, k, done, built, w, _, h => by
    simpa [buildStages] using ⟨h, Keeps.refl w⟩
  | c :: cs, hcs, k, done, built, w, hk, h => by
    have hstage := stageArgsOn_redirected env (hcs c (by simp)) k w
    have hcode := (stageArgsOn_spec env (hcs c (by simp)) k w).2.1
    simp only [buildStages, List.length_cons, set_built hk]
    split_ifs with hr
    · intro h1
      omega
    · obtain ⟨hredirected, hkeeps⟩ := hstage (not_not.1 hr)
      intro h1
      obtain ⟨hend, hkeeps'⟩ := buildStages_redirected cs (fun d hd => hcs d (by simp [hd])) (k + 1)
        (done ++ [c]) _ _ (by simp [hk])
        (List.rel_append (h.imp fun _ _ hr => hr.keep hkeeps) (.cons hredirected .nil)) h1
      exact ⟨by simpa using hend, hkeeps.trans hkeeps'⟩

theorem makeStages_redirected {tokens : List Token} (h : parseTokens tokens = 0) (force : Bool)
    (w : World) :
    let r := makeStages env tokens force w
    r.1 = 1 → List.Forall₂ (Redirected r.2.2) (commands tokens) r.2.1 ∧ Keeps w r.2.2 := by
  simp only [makeStages_eq]
  split_ifs
  · simp
  · simp
  · exact buildStages_redirected env (commands tokens) (operands_of_mem_commands h) 0 [] [] w rfl
      .nil

/-- The ends of the pipes made so far. -/
def Ends (w : World) (pipes : List (Int × Int)) : Prop :=
  ∀ k p, pipes[k]? = some p →
    w.get p.1.toNat = some (.pipe k) ∧ w.get p.2.toNat = some (.pipe k)

theorem makePipes_ends : ∀ (todo i : ℕ) (pipes : List (Int × Int)) (w : World), pipes.length = i →
    Ends w pipes → ∀ pipes' w', makePipes env todo i pipes w = (some pipes', w') →
      pipes'.length = i + todo ∧ Ends w' pipes' ∧ Keeps w w'
  | 0, i, pipes, w, hi, h, pipes', w', hmake => by
    obtain ⟨rfl, rfl⟩ : pipes = pipes' ∧ w = w' := by simpa [makePipes] using hmake
    exact ⟨hi, h, .refl w⟩
  | todo + 1, i, pipes, w, hi, h, pipes', w', hmake => by
    simp only [makePipes] at hmake
    split_ifs at hmake
    · simp at hmake
    · have hread := keeps_openAs (.pipe i) w
      have hwrite := keeps_openAs (.pipe i) (openAs (.pipe i) w).2
      have hnext : Ends (openAs (.pipe i) (openAs (.pipe i) w).2).2
          (pipes ++ [((openAs (.pipe i) w).1, (openAs (.pipe i) (openAs (.pipe i) w).2).1)]) := by
        intro k p hp
        rw [List.getElem?_append] at hp
        split_ifs at hp with hk
        · exact ⟨(hread.trans hwrite).get (h k p hp).1, (hread.trans hwrite).get (h k p hp).2⟩
        · have hlt := (List.getElem?_eq_some_iff.1 hp).1
          rw [List.length_singleton] at hlt
          obtain rfl : k = i := by omega
          rw [hi, Nat.sub_self, List.getElem?_cons_zero] at hp
          rw [← Option.some.inj hp]
          exact ⟨hwrite.get (get_openAs _ w), get_openAs _ _⟩
      obtain ⟨hlength, hends, hkeeps⟩ :=
        makePipes_ends todo (i + 1) _ _ (by simp [hi]) hnext pipes' w' hmake
      exact ⟨by omega, hends, (hread.trans hwrite).trans hkeeps⟩

end Args

end Shell

end CShellXv6
