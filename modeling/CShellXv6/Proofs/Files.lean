import CShellXv6.Proofs.Redirects
import CShellXv6.Shell.Files

/-!
# Two ways to set up redirections

Each of the three loops opens the files of an accepted segment in one order, whatever the words
between them (`Follows`): `collect_command` those to read, `prepare_output` the others, `stage_args`
all of them as they stand.
-/

namespace CShellXv6

namespace Shell

open Opened

section Tokens

variable {ι : Type*} (place : List Char → ι)

theorem openings_word {t : Token} (ht : t.type = .word) (ts : List Token) :
    openings place (t :: ts) = openings place ts := by
  cases ts <;> simp [openings, ht]

theorem openings_input {r t : Token} (hr : r.type = .opLt) (ht : t.type = .word)
    (ts : List Token) :
    openings place (r :: t :: ts) = .read (place t.text) :: openings place ts := by
  rw [openings, if_pos hr, openings_word place ht]

theorem openings_output {r t : Token} (hr : r.type = .opGt ∨ r.type = .opGtgt)
    (ht : t.type = .word) (ts : List Token) :
    openings place (r :: t :: ts)
      = .write (place t.text) (r.type = .opGtgt) :: openings place ts := by
  rw [openings, if_neg (by rcases hr with hr | hr <;> simp [hr]), if_pos hr,
    openings_word place ht]

theorem targetsOf_word {t : Token} (ht : t.type = .word) (ts : List Token) :
    targetsOf (t :: ts) = targetsOf ts := by
  cases ts <;> simp [targetsOf, ht]

theorem targetsOf_input {r t : Token} (hr : r.type = .opLt) (ht : t.type = .word)
    (ts : List Token) : targetsOf (r :: t :: ts) = .input t.text :: targetsOf ts := by
  rw [targetsOf, if_pos hr, targetsOf_word ht]

theorem targetsOf_output {r t : Token} (hr : r.type = .opGt ∨ r.type = .opGtgt)
    (ht : t.type = .word) (ts : List Token) :
    targetsOf (r :: t :: ts) = outputTarget r.type t.text :: targetsOf ts := by
  rw [targetsOf, if_neg (by rcases hr with hr | hr <;> simp [hr]), if_pos hr, targetsOf_word ht]

theorem filter_targetsOf : ∀ ts : List Token,
    (targetsOf ts).filter (·.isInput) = inputsOf ts
      ∧ (targetsOf ts).filter (fun d => !d.isInput) = outputsOf ts
  | [] => ⟨rfl, rfl⟩
  | [_] => ⟨rfl, rfl⟩
  | r :: t :: ts => by
    obtain ⟨h1, h2⟩ := filter_targetsOf (t :: ts)
    unfold targetsOf inputsOf outputsOf
    rcases r with ⟨type, text⟩
    have hin : ∀ path, (Target.input path).isInput = true := fun _ => rfl
    have hout : ∀ path append, (Target.output path append).isInput = false := fun _ _ => rfl
    cases type <;> simp [h1, h2, hin, hout, outputTarget]

theorem argumentsFrom_word {t : Token} (ht : t.type = .word) (ts : List Token) :
    argumentsFrom false (t :: ts) = t.text :: argumentsFrom false ts := by
  simp [argumentsFrom, ht]

theorem argumentsFrom_input {r t : Token} (hr : r.type = .opLt) (ht : t.type = .word)
    (ts : List Token) : argumentsFrom false (r :: t :: ts) = argumentsFrom false ts := by
  simp [argumentsFrom, hr, ht, isRedirection]

theorem argumentsFrom_output {r t : Token} (hr : r.type = .opGt ∨ r.type = .opGtgt)
    (ht : t.type = .word) (ts : List Token) :
    argumentsFrom false (r :: t :: ts) = argumentsFrom false ts := by
  rcases hr with hr | hr <;> simp [argumentsFrom, hr, ht, isRedirection]

theorem length_argumentsFrom : ∀ (after : Bool) (ts : List Token),
    (argumentsFrom after ts).length ≤ ts.length
  | _, [] => by simp [argumentsFrom]
  | after, t :: ts => by
    unfold argumentsFrom
    split_ifs
    · simpa using length_argumentsFrom _ ts
    · exact (length_argumentsFrom _ ts).trans (by simp)

end Tokens

namespace Files

variable {ι : Type*} [DecidableEq ι]

/-- From `s` the files `os` have been opened in this order, under the names `targets`. -/
structure Follows (os : List (Opening ι)) (targets : List Target) (s : State ι) (result : Int)
    (s' : State ι) : Prop where
  run : openAll os s.toOpened = (decide (result = 0), s'.toOpened)
  opens : ∃ new, s'.opens = s.opens ++ new ∧ (result = 0 ↔ ∀ o ∈ new, o.ok = true)
    ∧ (result = 0 → new.map Open.target = targets)

theorem Follows.nil (s : State ι) : Follows [] [] s 0 s :=
  ⟨rfl, [], by simp, by simp, by simp⟩

theorem Follows.cons {i : ℕ} {o : Opening ι} {target : Target} {os : List (Opening ι)}
    {targets : List Target} {s s' : State ι} {result : Int}
    (hok : ¬ (openFile i target o s).1 = false)
    (h : Follows os targets (openFile i target o s).2 result s') :
    Follows (o :: os) (target :: targets) s result s' := by
  obtain ⟨hrun, new, hnew, hall, htargets⟩ := h
  have hopens : s.disk.opens o = true := by
    rw [Bool.not_eq_false] at hok
    exact hok
  refine ⟨?_, ⟨i, target, true⟩ :: new, ?_, ?_, fun h => ?_⟩
  · rw [openAll, if_pos hopens, ← hrun]
    simp [openFile, hopens]
  · simp [hnew, openFile, hopens]
  · simpa using hall
  · simp [htargets h]

theorem Follows.fail {i : ℕ} {o : Opening ι} {target : Target} {s : State ι} {result : Int}
    (hok : (openFile i target o s).1 = false) (hresult : result ≠ 0) (os : List (Opening ι))
    (targets : List Target) : Follows (o :: os) targets s result (openFile i target o s).2 := by
  have hopens : s.disk.opens o = false := hok
  refine ⟨?_, [⟨i, target, false⟩], ?_, by simp [hresult], fun h => absurd h hresult⟩
  · simp [openAll, openFile, hopens, hresult]
  · simp [openFile, hopens]

theorem Follows.of_allOk {os : List (Opening ι)} {targets : List Target} {disk : Disk ι Char}
    {result : Int} {s' : State ι} (h : Follows os targets (.start disk) result s')
    (hok : s'.AllOk) : result = 0 ∧ s'.targets = targets := by
  obtain ⟨-, new, hnew, hall, htargets⟩ := h
  rw [State.start, List.nil_append] at hnew
  have hzero : result = 0 := hall.2 fun o ho => hok o (by rwa [hnew])
  exact ⟨hzero, by rw [State.targets, hnew, htargets hzero]⟩

variable (place : List Char → ι)

@[simp] theorem closeIfOpen_calls (fd : Int) (s : State ι) :
    (calls place).closeIfOpen fd s = s :=
  ite_self s

@[simp] theorem closeAll_calls (fds : List Int) (s : State ι) : (calls place).closeAll fds s = s :=
  List.foldl_fixed fds

@[simp] theorem attach_calls (i : ℕ) (input : Int) (s : State ι) :
    (calls place).attach i input 0 s = pure (0, s) :=
  ite_self _

theorem collectLoop_word {t : Token} (ht : t.type = .word) (i : ℕ) (rest : List Token)
    (argv : List (List Char)) (input : Int) (s : State ι) :
    collectLoop place i (t :: rest) argv input s
      = collectLoop place (i + 1) rest (argv ++ [t.text]) input s := by
  rw [collectLoop, Calls.collectLoop_word _ _ ht]
  rfl

theorem collectLoop_input {t f : Token} (ht : t.type = .opLt) (hf : f.type = .word) (i : ℕ)
    (rest : List Token) (argv : List (List Char)) (input : Int) (s : State ι) :
    collectLoop place i (t :: f :: rest) argv input s =
      let r := openInput place i f.text s
      if r.1 = false then (-1, argv, -1, r.2)
      else collectLoop place (i + 2) rest argv 0 r.2 := by
  have hcall : (calls place).openInput i f.text s = asFd (openInput place i f.text s) := rfl
  rw [collectLoop, Calls.collectLoop_input _ _ ht hf, hcall]
  rcases openInput place i f.text s with ⟨_ | _, s⟩ <;> simp [asFd, collectLoop]

theorem collectLoop_output {t f : Token} (ht : t.type = .opGt ∨ t.type = .opGtgt)
    (hf : f.type = .word) (i : ℕ) (rest : List Token) (argv : List (List Char)) (input : Int)
    (s : State ι) :
    collectLoop place i (t :: f :: rest) argv input s
      = collectLoop place (i + 2) rest argv input s := by
  rw [collectLoop, Calls.collectLoop_output _ _ ht hf]
  rfl

theorem prepareLoop_output {t f : Token} (ht : t.type = .opGt ∨ t.type = .opGtgt)
    (hf : f.type = .word) (i : ℕ) (rest : List Token) (files : List Int) (s : State ι) :
    prepareLoop place i (t :: f :: rest) files s =
      let r := openOutput place i t.type f.text s
      if r.1 = false then (-1, [], r.2)
      else prepareLoop place (i + 2) rest (files ++ [0]) r.2 := by
  have hcall : (calls place).openOutput i t.type f.text s
      = asFd (openOutput place i t.type f.text s) := rfl
  have halloc : (calls place).filesRealloc i = true := rfl
  rw [prepareLoop, Calls.prepareLoop_output _ ht hf, hcall]
  rcases openOutput place i t.type f.text s with ⟨_ | _, s⟩ <;> simp [asFd, halloc, prepareLoop]

theorem stageArgsLoop_word {t : Token} (ht : t.type = .word) (i : ℕ) (rest : List Token)
    (args : List (List Char)) (input : Int) (files : List Int) (s : State ι) :
    stageArgsLoop place i (t :: rest) args input files s
      = stageArgsLoop place (i + 1) rest (args ++ [t.text]) input files s := by
  rw [stageArgsLoop, Calls.stageArgsLoop_word _ _ ht]
  rfl

theorem stageArgsLoop_input {t f : Token} (ht : t.type = .opLt) (hf : f.type = .word) (i : ℕ)
    (rest : List Token) (args : List (List Char)) (input : Int) (files : List Int) (s : State ι) :
    stageArgsLoop place i (t :: f :: rest) args input files s =
      let r := openInput place i f.text s
      if r.1 = false then (-1, args, input, files, r.2)
      else stageArgsLoop place (i + 2) rest args 0 files r.2 := by
  have hcall : (calls place).openInput i f.text s = asFd (openInput place i f.text s) := rfl
  have hjoin : ∀ fd s, (calls place).joinInputs i input fd s = pure (0, s) := fun _ _ => rfl
  rw [stageArgsLoop, Calls.stageArgsLoop_input _ _ ht hf, hcall]
  rcases openInput place i f.text s with ⟨_ | _, s⟩ <;> simp [asFd, hjoin, stageArgsLoop]

theorem stageArgsLoop_output {t f : Token} (ht : t.type = .opGt ∨ t.type = .opGtgt)
    (hf : f.type = .word) (i : ℕ) (rest : List Token) (args : List (List Char)) (input : Int)
    (files : List Int) (s : State ι) :
    stageArgsLoop place i (t :: f :: rest) args input files s =
      let r := openOutput place i t.type f.text s
      if r.1 = false then (-4, args, input, files, r.2)
      else stageArgsLoop place (i + 2) rest args input (files ++ [0]) r.2 := by
  have hcall : (calls place).openOutput i t.type f.text s
      = asFd (openOutput place i t.type f.text s) := rfl
  have halloc : (calls place).filesRealloc i = true := rfl
  rw [stageArgsLoop, Calls.stageArgsLoop_output _ _ ht hf, hcall]
  rcases openOutput place i t.type f.text s with ⟨_ | _, s⟩ <;> simp [asFd, halloc, stageArgsLoop]

theorem collectLoop_follows {ts : List Token} (h : Operands ts) :
    ∀ (i : ℕ) (argv : List (List Char)) (input : Int) (s : State ι),
      let r := collectLoop place i ts argv input s
      Follows ((reads (openings place ts)).map .read) (inputsOf ts) s r.1 r.2.2.2
        ∧ (r.1 = 0 → r.2.1 = argv ++ argumentsFrom false ts) := by
  induction h using Operands.kinds with
  | nil =>
    intro i argv input s
    exact ⟨.nil s, fun _ => (List.append_nil argv).symm⟩
  | @word t ts ht _ ih =>
    intro i argv input s
    obtain ⟨h1, h2⟩ := ih (i + 1) (argv ++ [t.text]) input s
    rw [collectLoop_word place ht, openings_word place ht, inputsOf_word ht, argumentsFrom_word ht]
    exact ⟨h1, fun h => by simp [h2 h]⟩
  | @input r t ts hlt ht _ ih =>
    intro i argv input s
    rw [collectLoop_input place hlt ht, openings_input place hlt ht, reads, List.map_cons,
      inputsOf_lt hlt ht, argumentsFrom_input hlt ht]
    simp only
    split_ifs with hok
    · exact ⟨.fail hok (by simp) _ _, by simp⟩
    · obtain ⟨h1, h2⟩ := ih (i + 2) argv 0 (openInput place i t.text s).2
      exact ⟨.cons hok h1, h2⟩
  | @output r t ts hgt ht _ ih =>
    intro i argv input s
    rw [collectLoop_output place hgt ht, openings_output place hgt ht, reads,
      inputsOf_gt hgt ht, argumentsFrom_output hgt ht]
    exact ih (i + 2) argv input s

theorem prepareLoop_follows {ts : List Token} (h : Operands ts) :
    ∀ (i : ℕ) (files : List Int) (s : State ι),
      let r := prepareLoop place i ts files s
      Follows (writes (openings place ts)) (outputsOf ts) s r.1 r.2.2 := by
  induction h using Operands.kinds with
  | nil =>
    intro i files s
    exact .nil s
  | @word t ts ht _ ih =>
    intro i files s
    rw [prepareLoop, Calls.prepareLoop_word _ ht, openings_word place ht, outputsOf_word ht]
    exact ih (i + 1) files s
  | @input r t ts hlt ht _ ih =>
    intro i files s
    rw [prepareLoop, Calls.prepareLoop_input _ hlt ht, openings_input place hlt ht, writes,
      outputsOf_lt hlt ht]
    exact ih (i + 2) files s
  | @output r t ts hgt ht _ ih =>
    intro i files s
    rw [prepareLoop_output place hgt ht, openings_output place hgt ht, writes,
      outputsOf_gt hgt ht]
    simp only
    split_ifs with hok
    · exact .fail hok (by simp) _ _
    · exact .cons hok (ih (i + 2) _ _)

theorem stageArgsLoop_follows {ts : List Token} (h : Operands ts) :
    ∀ (i : ℕ) (args : List (List Char)) (input : Int) (files : List Int) (s : State ι),
      let r := stageArgsLoop place i ts args input files s
      Follows (openings place ts) (targetsOf ts) s r.1 r.2.2.2.2
        ∧ (r.1 = 0 → r.2.1 = args ++ argumentsFrom false ts) := by
  induction h using Operands.kinds with
  | nil =>
    intro i args input files s
    exact ⟨.nil s, fun _ => (List.append_nil args).symm⟩
  | @word t ts ht _ ih =>
    intro i args input files s
    obtain ⟨h1, h2⟩ := ih (i + 1) (args ++ [t.text]) input files s
    rw [stageArgsLoop_word place ht, openings_word place ht, targetsOf_word ht,
      argumentsFrom_word ht]
    exact ⟨h1, fun h => by simp [h2 h]⟩
  | @input r t ts hlt ht _ ih =>
    intro i args input files s
    rw [stageArgsLoop_input place hlt ht, openings_input place hlt ht, targetsOf_input hlt ht,
      argumentsFrom_input hlt ht]
    simp only
    split_ifs with hok
    · exact ⟨.fail hok (by simp) _ _, by simp⟩
    · obtain ⟨h1, h2⟩ := ih (i + 2) args 0 files (openInput place i t.text s).2
      exact ⟨.cons hok h1, h2⟩
  | @output r t ts hgt ht _ ih =>
    intro i args input files s
    rw [stageArgsLoop_output place hgt ht, openings_output place hgt ht, targetsOf_output hgt ht,
      argumentsFrom_output hgt ht]
    simp only
    split_ifs with hok
    · exact ⟨.fail hok (by simp) _ _, by simp⟩
    · obtain ⟨h1, h2⟩ := ih (i + 2) args input (files ++ [0])
        (openOutput place i r.type t.text s).2
      exact ⟨.cons hok h1, h2⟩

theorem collectCommand_eq (seg : List Token) (s : State ι) :
    collectCommand place seg s =
      let r := collectLoop place 0 seg [] (-1) s
      (r.1, r.2.1, r.2.2.2) := by
  change (let r := collectLoop place 0 seg [] (-1) s
    let q := if r.1 ≠ 0 then r
      else if 0 ≤ r.2.2.1 ∧ true = false then (-1, r.2.1, -1, r.2.2.2) else (0, r.2)
    (q.1, q.2.1, q.2.2.2)) = _
  by_cases hzero : (collectLoop place 0 seg [] (-1) s).1 = 0 <;> simp [hzero]

theorem external_eq {seg : List Token} (h : Command seg) (s : State ι) :
    external place seg s =
      let c := collectLoop place 0 seg [] (-1) s
      let p := prepareLoop place 0 seg [] c.2.2.2
      if c.1 = 0 then (decide (p.1 = 0), p.2.2) else (false, c.2.2.2) := by
  obtain ⟨-, hargv⟩ := collectLoop_follows place h.operands 0 [] (-1) s
  have hargs : argumentsFrom false seg ≠ [] := by
    obtain ⟨ht, -⟩ := h
    simp [argumentsFrom_word ht]
  unfold external prepareOutput
  rw [collectCommand_eq]
  by_cases hzero : (collectLoop place 0 seg [] (-1) s).1 = 0
  · have hlength : (collectLoop place 0 seg [] (-1) s).2.1.length ≠ 0 := by
      simpa [hargv hzero] using hargs
    simp only [hzero, ne_eq, not_true, if_false, hlength, if_true]
    split_ifs with hp <;> simp [hp]
  · simp [hzero]

/-- The set-up of an external command opens the files to read first. -/
theorem external_openAll {seg : List Token} (h : Command seg) (disk : Disk ι Char) :
    openAll (readsFirst (openings place seg)) (start disk)
      = ((external place seg (.start disk)).1, (external place seg (.start disk)).2.toOpened) := by
  have hcollect : openAll ((reads (openings place seg)).map .read) (start disk) = _ :=
    (collectLoop_follows place h.operands 0 [] (-1) (.start disk)).1.run
  have hprepare := (prepareLoop_follows place h.operands 0 []
    (collectLoop place 0 seg [] (-1) (.start disk)).2.2.2).run
  rw [readsFirst, openAll_append, hcollect, external_eq place h]
  by_cases hzero : (collectLoop place 0 seg [] (-1) (.start disk)).1 = 0
  · simp [hzero, hprepare]
  · simp [hzero]

theorem builtin_eq (seg : List Token) (s : State ι) :
    builtin place seg s =
      let r := stageArgsLoop place 0 seg [] (-1) [] s
      (decide (r.1 = 0), r.2.2.2.2) := by
  unfold builtin stageArgs
  by_cases hzero : (stageArgsLoop place 0 seg [] (-1) [] s).1 = 0 <;> simp [hzero]

theorem builtin_openAll {seg : List Token} (h : Operands seg) (disk : Disk ι Char) :
    openAll (openings place seg) (start disk)
      = ((builtin place seg (.start disk)).1, (builtin place seg (.start disk)).2.toOpened) := by
  rw [builtin_eq]
  exact (stageArgsLoop_follows place h 0 [] (-1) [] (.start disk)).1.run

end Files

section Arguments

variable (env : Env)

/-- The words written so far are the first arguments, and all of them if the loop comes to its
end. -/
theorem collectLoop_arguments {ts : List Token} (h : Operands ts) :
    ∀ (i : ℕ) (argv : List (List Char)) (input : Int) (w : World),
      let r := collectLoop env i ts argv input w
      r.2.1 <+: argv ++ argumentsFrom false ts
        ∧ (r.1 = 0 → r.2.1 = argv ++ argumentsFrom false ts) := by
  induction h using Operands.kinds with
  | nil =>
    exact fun i argv input w => ⟨List.prefix_append _ _, fun _ => (List.append_nil argv).symm⟩
  | @word t ts ht _ ih =>
    intro i argv input w
    have := ih (i + 1) (argv ++ [t.text]) input w
    rwa [List.append_assoc, List.singleton_append, ← argumentsFrom_word ht,
      ← collectLoop_word env ht] at this
  | @input r t ts hlt ht _ ih =>
    intro i argv input w
    rw [collectLoop_input env hlt ht, argumentsFrom_input hlt ht]
    simp only
    split_ifs
    · exact ⟨List.prefix_append _ _, by simp⟩
    · exact ih _ _ _ _
    · exact ⟨List.prefix_append _ _, by simp⟩
    · exact ih _ _ _ _
  | @output r t ts hgt ht _ ih =>
    intro i argv input w
    rw [collectLoop_output env hgt ht, argumentsFrom_output hgt ht]
    exact ih _ _ _ _

theorem stageArgsLoop_arguments {ts : List Token} (h : Operands ts) :
    ∀ (i : ℕ) (stage : Stage) (w : World),
      let r := stageArgsLoop env i ts stage w
      r.2.1.args <+: stage.args ++ argumentsFrom false ts
        ∧ (r.1 = 0 → r.2.1.args = stage.args ++ argumentsFrom false ts) := by
  induction h using Operands.kinds with
  | nil =>
    exact fun i stage w => ⟨List.prefix_append _ _, fun _ => (List.append_nil stage.args).symm⟩
  | @word t ts ht _ ih =>
    intro i stage w
    have := ih (i + 1) { stage with args := stage.args ++ [t.text] } w
    rwa [List.append_assoc, List.singleton_append, ← argumentsFrom_word ht,
      ← stageArgsLoop_word ht] at this
  | @input r t ts hlt ht _ ih =>
    intro i stage w
    rw [stageArgsLoop_input hlt ht, argumentsFrom_input hlt ht]
    simp only
    split_ifs
    · exact ⟨List.prefix_append _ _, by simp⟩
    · exact ⟨List.prefix_append _ _, by simp⟩
    · exact ih _ _ _
    · exact ih _ _ _
  | @output r t ts hgt ht _ ih =>
    intro i stage w
    rw [stageArgsLoop_output hgt ht, argumentsFrom_output hgt ht]
    simp only
    split_ifs
    · exact ⟨List.prefix_append _ _, by simp⟩
    · exact ⟨List.prefix_append _ _, by simp⟩
    · exact ih _ _ _

/-- A stage that is the whole of its segment. -/
theorem stageArgs_whole (seg : List Token) (k : ℕ) (w : World) :
    stageArgs env seg k (freshStage 0 seg.length) w
      = stageArgsOn env seg k (freshStage 0 seg.length) w := by
  simp [stageArgs, freshStage]

theorem settleOutput_args (stage : Stage) : (settleOutput stage).args = stage.args := by
  unfold settleOutput
  split <;> rfl

theorem collectCommand_arguments {seg : List Token} (h : Operands seg) (w : World)
    (hzero : (collectCommand env seg w).1 = 0) :
    (collectCommand env seg w).2.1 = arguments seg := by
  have hloop := (collectLoop_arguments env h 0 [] (-1) w).2
  rw [collectCommand_eq] at hzero ⊢
  simp only at hzero ⊢
  split_ifs at hzero ⊢ with hne
  · exact absurd hzero hne
  · simp at hzero
  · exact hloop (not_not.1 hne)

theorem stageArgs_arguments {seg : List Token} (h : Operands seg) (k : ℕ) (w : World)
    (hzero : (stageArgs env seg k (freshStage 0 seg.length) w).1 = 0) :
    (stageArgs env seg k (freshStage 0 seg.length) w).2.1.args = arguments seg := by
  have hloop := (stageArgsLoop_arguments env h 0 (freshStage 0 seg.length) w).2
  rw [stageArgs_whole] at hzero ⊢
  unfold stageArgsOn at hzero ⊢
  simp only at hzero ⊢
  split_ifs at hzero ⊢ with halloc hne
  · simp at hzero
  · exact absurd hzero hne
  · rw [settleOutput_args]
    exact hloop (not_not.1 hne)

end Arguments

section Arrays

/-- An array with these words and `room` for more. -/
def Argv.of (words : List (List Char)) (room : ℕ) : Argv :=
  ⟨words.map some ++ List.replicate room none, words.length⟩

theorem Argv.add_of (words : List (List Char)) (room : ℕ) (text : List Char) :
    (Argv.of words (room + 1)).add text = some (Argv.of (words ++ [text]) room) := by
  have hlt : (Argv.of words (room + 1)).count < (Argv.of words (room + 1)).slots.length := by
    simp [Argv.of]
  rw [Argv.add, if_pos hlt]
  simp [Argv.of, Argv.set, List.set_append_right, List.replicate_succ]

theorem Argv.terminate_of (words : List (List Char)) (room : ℕ) :
    (Argv.of words (room + 1)).terminate = some (Argv.of words (room + 1)) := by
  have hlt : (Argv.of words (room + 1)).count < (Argv.of words (room + 1)).slots.length := by
    simp [Argv.of]
  rw [Argv.terminate, if_pos hlt]
  simp [Argv.of, Argv.set, List.set_append_right, List.replicate_succ]

/-- The array of `calloc` with these words written to it. -/
def written (size : ℕ) (words : List (List Char)) : Option Argv :=
  words.foldl Words.array.add (some (.calloc size))

theorem written_snoc (size : ℕ) (words : List (List Char)) (text : List Char) :
    written size (Words.list.add words text) = Words.array.add (written size words) text := by
  simp [written, Words.list]

theorem written_eq : ∀ (words words' : List (List Char)) (room : ℕ), words'.length ≤ room →
    words'.foldl Words.array.add (some (Argv.of words room))
      = some (Argv.of (words ++ words') (room - words'.length))
  | words, [], room, _ => by simp
  | words, text :: words', room, h => by
    obtain ⟨room, rfl⟩ : ∃ n, room = n + 1 := ⟨room - 1, by simp at h; omega⟩
    have hadd : Words.array.add (some (Argv.of words (room + 1))) text
        = some (Argv.of (words ++ [text]) room) := Argv.add_of words room text
    rw [List.foldl_cons, hadd, written_eq _ words' room (by simpa using h)]
    simp

theorem written_arguments {seg : List Token} {words : List (List Char)}
    (hwords : words <+: arguments seg) : written (seg.length + 1) words
      = some (Argv.of words (seg.length - words.length + 1)) := by
  have hlen := hwords.length_le.trans (length_argumentsFrom false seg)
  have hroom : seg.length + 1 - words.length = seg.length - words.length + 1 := by omega
  rw [← hroom]
  exact written_eq [] words (seg.length + 1) (by omega)

theorem fits_of_ne_zero {seg : List Token} {words : List (List Char)} {result : Int}
    (hwords : words <+: arguments seg) (hresult : result ≠ 0) :
    Argv.Fits seg result (written (seg.length + 1) words) := by
  rw [written_arguments hwords]
  exact fun h => absurd h hresult

theorem fits_terminate (seg : List Token) :
    Argv.Fits seg 0 (Words.array.terminate (written (seg.length + 1) (arguments seg))) := by
  have hlen : (arguments seg).length ≤ seg.length := length_argumentsFrom false seg
  have hterm : Words.array.terminate (written (seg.length + 1) (arguments seg))
      = some (Argv.of (arguments seg) (seg.length - (arguments seg).length + 1)) := by
    rw [written_arguments (List.prefix_refl _)]
    exact Argv.terminate_of _ _
  rw [hterm]
  refine fun _ => ⟨?_, ?_⟩
  · simp only [Argv.of, List.length_append, List.length_map, List.length_replicate]
    omega
  · simp [Argv.of, terminated, List.replicate_succ]

variable (env : Env)

theorem collectArray_eq {seg : List Token} (h : Operands seg) (w : World) :
    collectArray env seg w =
      let r := collectLoop env 0 seg [] (-1) w
      let argv := written (seg.length + 1) r.2.1
      if r.1 ≠ 0 then (r.1, argv, r.2.2)
      else if 0 ≤ r.2.2.1 ∧ env.fdopen = false then (-1, argv, -1, closeFd r.2.2.1 r.2.2.2)
      else (0, Words.array.terminate argv, r.2.2) := by
  have hloop := (calls env).collectLoop_map (written_snoc (seg.length + 1)) h 0 [] (-1) w
  have hnil : written (seg.length + 1) [] = some (.calloc (seg.length + 1)) := rfl
  rw [hnil] at hloop
  rw [collectArray, Calls.collectCommand, hloop]
  rfl

theorem collectArray_fits {seg : List Token} (h : Operands seg) (w : World) :
    (collectArray env seg w).1 = (collectCommand env seg w).1
      ∧ Argv.Fits seg (collectArray env seg w).1 (collectArray env seg w).2.1 := by
  obtain ⟨hwords, hall⟩ := collectLoop_arguments env h 0 [] (-1) w
  rw [collectArray_eq env h, collectCommand_eq]
  simp only
  split_ifs with hresult
  · exact ⟨rfl, fits_of_ne_zero hwords hresult⟩
  · exact ⟨rfl, fits_of_ne_zero hwords (by simp)⟩
  · rw [hall (not_not.1 hresult)]
    exact ⟨rfl, fits_terminate seg⟩

theorem stageArray_eq {seg : List Token} (h : Operands seg) (k : ℕ) (w : World) :
    stageArray env seg k (freshStage 0 seg.length) w =
      if env.argsCalloc k = false then (-3, some (.calloc 0))
      else
        let r := stageArgsLoop env 0 seg (freshStage 0 seg.length) w
        let args := written (seg.length + 1) r.2.1.args
        if r.1 ≠ 0 then (r.1, args) else (0, Words.array.terminate args) := by
  have hloop := (calls env).stageArgsLoop_map (written_snoc (seg.length + 1)) h 0 [] (-1) [] w
  have hnil : written (seg.length + 1) [] = some (.calloc (seg.length + 1)) := rfl
  have hrange : (seg.take seg.length).drop 0 = seg := by simp
  rw [hnil] at hloop
  have hstage : stageArray env seg k (freshStage 0 seg.length) w =
      if env.argsCalloc k = false then (-3, some (.calloc 0))
      else
        let r := ((calls env).stageArgsLoop .array 0 ((seg.take seg.length).drop 0)
          (some (.calloc (seg.length + 1))) (-1) [] w).run
        if r.1 ≠ 0 then (r.1, r.2.1) else (0, Words.array.terminate r.2.1) := rfl
  rw [hstage, hrange, hloop]
  rfl

theorem stageArray_fits {seg : List Token} (h : Operands seg) (k : ℕ) (w : World) :
    (stageArray env seg k (freshStage 0 seg.length) w).1
        = (stageArgs env seg k (freshStage 0 seg.length) w).1
      ∧ Argv.Fits seg (stageArray env seg k (freshStage 0 seg.length) w).1
        (stageArray env seg k (freshStage 0 seg.length) w).2 := by
  obtain ⟨hwords, hall⟩ := stageArgsLoop_arguments env h 0 (freshStage 0 seg.length) w
  have hstart : (freshStage 0 seg.length).start = 0 := rfl
  rw [stageArray_eq env h, stageArgs_whole, stageArgsOn, hstart]
  simp only
  split_ifs with halloc hresult
  · exact ⟨rfl, fun h => absurd h (by simp)⟩
  · exact ⟨rfl, fits_of_ne_zero hwords hresult⟩
  · rw [hall (not_not.1 hresult)]
    exact ⟨rfl, fits_terminate seg⟩

end Arrays

section Descriptors

open Files

variable {ι : Type*} [DecidableEq ι] (place : List Char → ι) {env : Env}

theorem Files.Follows.mem {os : List (Opening ι)} {targets : List Target} {s s' : State ι}
    {result : Int} (h : Follows os targets s result s') {o : Open} (ho : o ∈ s.opens) :
    o ∈ s'.opens := by
  obtain ⟨-, new, hnew, -⟩ := h
  rw [hnew]
  exact List.mem_append_left _ ho

/-- What the environment says about the operator at `i` is what the files said. -/
theorem Env.Answers.at {i : ℕ} {target : Target} {o : Opening ι} {s s' : State ι}
    (h : env.Answers s'.opens)
    (hsub : ∀ e ∈ (Files.openFile i target o s).2.opens, e ∈ s'.opens) :
    env.openFile i = (Files.openFile i target o s).1 :=
  h ⟨i, target, _⟩ (hsub _ (by simp [Files.openFile]))

theorem Env.Answers.opened {i : ℕ} {target : Target} {o : Opening ι} {os : List (Opening ι)}
    {targets : List Target} {s s' : State ι} {result : Int} (h : env.Answers s'.opens)
    (hok : ¬ (Files.openFile i target o s).1 = false)
    (hfollows : Follows os targets (Files.openFile i target o s).2 result s') :
    ¬ env.openFile i = false := by
  rw [h.at fun _ he => hfollows.mem he]
  exact hok

theorem openFile_neg_iff (i : ℕ) (d : Target) (w : World) :
    (openFile env i d w).1 < 0 ↔ env.openFile i = false := by
  rcases h : env.openFile i <;> simp [openFile, h, openAs]

theorem joinInputs_nonneg {i : ℕ} (h : env.joinInputs i = .joined) (first second : Int)
    (w : World) : ¬ (joinInputs env i first second w).1 < 0 := by
  simp [joinInputs, h, openAs]

theorem collectLoop_files (henv : env.Supplied) {ts : List Token} (h : Operands ts) :
    ∀ (i : ℕ) (argv : List (List Char)) (fd : Int) (s : State ι) (input : Int) (w : World),
      env.Answers (Files.collectLoop place i ts argv fd s).2.2.2.opens →
      (collectLoop env i ts argv input w).1 = (Files.collectLoop place i ts argv fd s).1 := by
  induction h using Operands.kinds with
  | nil => exact fun i argv fd s input w _ => rfl
  | @word t ts ht _ ih =>
    intro i argv fd s input w hans
    rw [Files.collectLoop_word place ht] at hans ⊢
    rw [collectLoop_word env ht]
    exact ih _ _ _ _ _ _ hans
  | @input r t ts hlt ht hts ih =>
    intro i argv fd s input w hans
    rw [Files.collectLoop_input place hlt ht] at hans ⊢
    rw [collectLoop_input env hlt ht]
    simp only [openFile_neg_iff] at hans ⊢
    by_cases hok : (openInput place i t.text s).1 = false
    · rw [if_pos hok] at hans
      rw [if_pos ((hans.at fun _ he => he).trans hok), if_pos hok]
    · rw [if_neg hok] at hans
      have hfollows := (Files.collectLoop_follows place hts (i + 2) argv 0
        (openInput place i t.text s).2).1
      have hopen := hans.opened hok hfollows
      have hinput : ¬ (if input < 0 then openFile env i (.input t.text) w
          else joinInputs env i input (openFile env i (.input t.text) w).1
            (openFile env i (.input t.text) w).2).1 < 0 := by
        split_ifs
        · rwa [openFile_neg_iff]
        · exact joinInputs_nonneg (henv.joins i) _ _ _
      rw [if_neg hopen, if_neg hinput, if_neg hok]
      exact ih _ _ _ _ _ _ hans
  | @output r t ts hgt ht _ ih =>
    intro i argv fd s input w hans
    rw [Files.collectLoop_output place hgt ht] at hans ⊢
    rw [collectLoop_output env hgt ht]
    exact ih _ _ _ _ _ _ hans

theorem prepareLoop_files (henv : env.Supplied) {ts : List Token} (h : Operands ts) :
    ∀ (i : ℕ) (files : List Int) (s : State ι) (output : OutputRedirect) (w : World),
      env.Answers (Files.prepareLoop place i ts files s).2.2.opens →
      (prepareLoop env i ts output w).1 = (Files.prepareLoop place i ts files s).1 := by
  induction h using Operands.kinds with
  | nil => exact fun i files s output w _ => rfl
  | @word t ts ht _ ih =>
    intro i files s output w hans
    rw [Files.prepareLoop, Calls.prepareLoop_word _ ht] at hans ⊢
    rw [prepareLoop_word env ht]
    exact ih _ _ _ _ _ hans
  | @input r t ts hlt ht _ ih =>
    intro i files s output w hans
    rw [Files.prepareLoop, Calls.prepareLoop_input _ hlt ht] at hans ⊢
    rw [prepareLoop_input env hlt ht]
    exact ih _ _ _ _ _ hans
  | @output r t ts hgt ht hts ih =>
    intro i files s output w hans
    rw [Files.prepareLoop_output place hgt ht] at hans ⊢
    rw [prepareLoop_output env hgt ht]
    simp only [openFile_neg_iff] at hans ⊢
    by_cases hok : (openOutput place i r.type t.text s).1 = false
    · rw [if_pos hok] at hans
      rw [if_pos ((hans.at fun _ he => he).trans hok), if_pos hok]
    · rw [if_neg hok] at hans
      have hfollows := Files.prepareLoop_follows place hts (i + 2) (files ++ [0])
        (openOutput place i r.type t.text s).2
      rw [if_neg (hans.opened hok hfollows), if_neg (by simp [henv.allocs]), if_neg hok]
      exact ih _ _ _ _ _ hans

theorem stageArgsLoop_files (henv : env.Supplied) {ts : List Token} (h : Operands ts) :
    ∀ (i : ℕ) (args : List (List Char)) (fd : Int) (files : List Int) (s : State ι)
      (stage : Stage) (w : World),
      env.Answers (Files.stageArgsLoop place i ts args fd files s).2.2.2.2.opens →
      (stageArgsLoop env i ts stage w).1
        = (Files.stageArgsLoop place i ts args fd files s).1 := by
  induction h using Operands.kinds with
  | nil => exact fun i args fd files s stage w _ => rfl
  | @word t ts ht _ ih =>
    intro i args fd files s stage w hans
    rw [Files.stageArgsLoop_word place ht] at hans ⊢
    rw [stageArgsLoop_word ht]
    exact ih _ _ _ _ _ _ _ hans
  | @input r t ts hlt ht hts ih =>
    intro i args fd files s stage w hans
    rw [Files.stageArgsLoop_input place hlt ht] at hans ⊢
    rw [stageArgsLoop_input hlt ht]
    simp only [openFile_neg_iff] at hans ⊢
    by_cases hok : (openInput place i t.text s).1 = false
    · rw [if_pos hok] at hans
      rw [if_pos ((hans.at fun _ he => he).trans hok), if_pos hok]
    · rw [if_neg hok] at hans
      have hfollows := (Files.stageArgsLoop_follows place hts (i + 2) args 0 files
        (openInput place i t.text s).2).1
      rw [if_neg (hans.opened hok hfollows), if_neg hok]
      split_ifs with hin hneg
      · exact absurd hneg (joinInputs_nonneg (henv.joins i) _ _ _)
      · exact ih _ _ _ _ _ _ _ hans
      · exact ih _ _ _ _ _ _ _ hans
  | @output r t ts hgt ht hts ih =>
    intro i args fd files s stage w hans
    rw [Files.stageArgsLoop_output place hgt ht] at hans ⊢
    rw [stageArgsLoop_output hgt ht]
    simp only [openFile_neg_iff] at hans ⊢
    by_cases hok : (openOutput place i r.type t.text s).1 = false
    · rw [if_pos hok] at hans
      rw [if_pos ((hans.at fun _ he => he).trans hok), if_pos hok]
    · rw [if_neg hok] at hans
      have hfollows := (Files.stageArgsLoop_follows place hts (i + 2) args fd (files ++ [0])
        (openOutput place i r.type t.text s).2).1
      rw [if_neg (hans.opened hok hfollows), if_neg (by simp [henv.allocs]), if_neg hok]
      exact ih _ _ _ _ _ _ _ hans

theorem collectCommand_zero_iff (hfdopen : env.fdopen = true) (seg : List Token) (w : World) :
    (collectCommand env seg w).1 = 0 ↔ (collectLoop env 0 seg [] (-1) w).1 = 0 := by
  by_cases hzero : (collectLoop env 0 seg [] (-1) w).1 = 0 <;>
    simp [collectCommand_eq, hzero, hfdopen]

theorem prepareOutput_zero_iff (hpipe : env.outputPipe = true) (seg : List Token)
    (output : OutputRedirect) (w : World) :
    (prepareOutput env seg output w).1 = 0 ↔ (prepareLoop env 0 seg output w).1 = 0 := by
  by_cases hzero : (prepareLoop env 0 seg output w).1 = 0
  · simp only [prepareOutput, hzero, hpipe]
    split_ifs <;> simp_all
  · simp [prepareOutput, hzero]

/-- The set-up of an external command ends on the files as it does on the descriptors. -/
theorem external_iff_descriptors (henv : env.Supplied) {seg : List Token} (h : Command seg)
    (disk : Disk ι Char) (hans : env.Answers (external place seg (.start disk)).2.opens)
    (w w' : World) :
    (external place seg (.start disk)).1 = true
      ↔ (collectCommand env seg w).1 = 0
        ∧ (prepareOutput env seg outputRedirectInit w').1 = 0 := by
  rw [collectCommand_zero_iff henv.fdopen, prepareOutput_zero_iff henv.pipe]
  rw [external_eq place h] at hans ⊢
  simp only at hans ⊢
  split_ifs at hans ⊢ with hzero
  · have hmem := fun e he => (prepareLoop_follows place h.operands 0 []
      (Files.collectLoop place 0 seg [] (-1) (.start disk)).2.2.2).mem (o := e) he
    have hcollect := collectLoop_files place henv h.operands 0 [] (-1) (.start disk) (-1) w
      fun e he => hans e (hmem e he)
    have hprepare := prepareLoop_files place henv h.operands 0 [] _ outputRedirectInit w' hans
    simp [hcollect, hzero, hprepare]
  · have hcollect := collectLoop_files place henv h.operands 0 [] (-1) (.start disk) (-1) w hans
    simp [hcollect, hzero]

theorem builtin_iff_descriptors (henv : env.Supplied) {seg : List Token} (h : Operands seg)
    (disk : Disk ι Char) (hans : env.Answers (builtin place seg (.start disk)).2.opens) (k : ℕ)
    (w : World) :
    (builtin place seg (.start disk)).1 = true
      ↔ (stageArgs env seg k (freshStage 0 seg.length) w).1 = 0 := by
  rw [builtin_eq] at hans ⊢
  have hloop := stageArgsLoop_files place henv h 0 [] (-1) [] (.start disk)
    (freshStage 0 seg.length) w hans
  have hstart : (freshStage 0 seg.length).start = 0 := rfl
  rw [stageArgs_whole, stageArgsOn, if_neg (by simp [henv.args]), hstart]
  by_cases hzero : (Files.stageArgsLoop place 0 seg [] (-1) [] (.start disk)).1 = 0 <;>
    simp [hloop, hzero]

end Descriptors

section Main

variable {ι : Type*} [DecidableEq ι] (place : List Char → ι)

/-- All the loops take the same words for arguments and the same words for files. -/
theorem segment_classified (seg : List Token) (hseg : PipeFree seg) : Classified place seg where
  argv env w := collectCommand_arguments env hseg.command.operands w
  args env k w := stageArgs_arguments env hseg.command.operands k w
  argvFits env w := collectArray_fits env hseg.command.operands w
  argsFit env k w := stageArray_fits env hseg.command.operands k w
  collected disk hok := by
    rw [Files.collectCommand_eq] at hok ⊢
    obtain ⟨hfollows, hargv⟩ :=
      Files.collectLoop_follows place hseg.command.operands 0 [] (-1) (.start disk)
    obtain ⟨hzero, htargets⟩ := hfollows.of_allOk hok
    exact ⟨hzero, hargv hzero, htargets⟩
  prepared disk hok :=
    (Files.prepareLoop_follows place hseg.command.operands 0 [] (.start disk)).of_allOk hok
  staged disk hok := by
    obtain ⟨hfollows, hargs⟩ :=
      Files.stageArgsLoop_follows place hseg.command.operands 0 [] (-1) [] (.start disk)
    obtain ⟨hzero, htargets⟩ := hfollows.of_allOk hok
    obtain ⟨hin, hout⟩ := filter_targetsOf seg
    refine ⟨hzero, hargs hzero, ?_, ?_⟩
    · rw [← hin, ← htargets]
      rfl
    · rw [← hout, ← htargets]
      rfl

/-- `cmd < a x > b y >> c`. -/
theorem segment_classified_mixed :
    let seg : List Token := [⟨.word, "cmd".toList⟩, ⟨.opLt, ['<']⟩, ⟨.word, ['a']⟩, ⟨.word, ['x']⟩,
      ⟨.opGt, ['>']⟩, ⟨.word, ['b']⟩, ⟨.word, ['y']⟩, ⟨.opGtgt, ['>', '>']⟩, ⟨.word, ['c']⟩]
    PipeFree seg ∧ Classified (fun path : List Char => path) seg := by
  intro seg
  have hseg : PipeFree seg := ⟨by decide, by decide, by decide⟩
  exact ⟨hseg, segment_classified _ seg hseg⟩

/-- The two set-ups have the same effect where it makes no difference that one of them opens its
inputs first. -/
theorem setups_agree_iff (disk : Disk ι Char) (seg : List Token) (hseg : PipeFree seg) :
    let e := Files.external place seg (.start disk)
    let b := Files.builtin place seg (.start disk)
    SameEffect (e.1, e.2.toOpened) (b.1, b.2.toOpened) ↔ OrderFree disk (openings place seg) := by
  intro e b
  rw [← Files.external_openAll place hseg.command,
    ← Files.builtin_openAll place hseg.command.operands]
  exact sameEffect_iff disk (openings place seg)

/-- Files `a` and `b`, and room for others. -/
def aAndB : Disk (List Char) Char where
  file path :=
    if path = ['a'] then some ⟨['x'], true, true⟩
    else if path = ['b'] then some ⟨['y'], true, true⟩
    else none
  creatable _ := true
  newReadable := true
  newWritable := true

def reading (path : List Char) : List Token := [⟨.opLt, ['<']⟩, ⟨.word, path⟩]

def writing (path : List Char) : List Token := [⟨.opGt, ['>']⟩, ⟨.word, path⟩]

def redirected (operands : List (List Token)) : List Token :=
  ⟨.word, "cmd".toList⟩ :: operands.flatten

/-- `cmd > c < a < b`. -/
theorem setups_agree_iff_copied :
    let seg := redirected [writing ['c'], reading ['a'], reading ['b']]
    let e := Files.external id seg (.start aAndB)
    let b := Files.builtin id seg (.start aAndB)
    SameEffect (e.1, e.2.toOpened) (b.1, b.2.toOpened) ∧ OrderFree aAndB (openings id seg) := by
  intro seg e b
  have hseg : PipeFree seg := ⟨by decide, by decide, by decide⟩
  have hfree : OrderFree aAndB (openings id seg) := by decide
  exact ⟨(setups_agree_iff id aAndB seg hseg).2 hfree, hfree⟩

/-- `cmd > c < d` creates a file in one set-up only, `cmd > c < c` succeeds in one only, and
`cmd > a < a < b` presents `a` in one only. -/
theorem setups_differ :
    let external operands := Files.external id (redirected operands) (.start aAndB)
    let builtin operands := Files.builtin id (redirected operands) (.start aAndB)
    ((external [writing ['c'], reading ['d']]).2.touched = []
        ∧ (builtin [writing ['c'], reading ['d']]).2.touched = [['c']])
      ∧ ((external [writing ['c'], reading ['c']]).1 = false
        ∧ (builtin [writing ['c'], reading ['c']]).1 = true)
      ∧ (external [writing ['a'], reading ['a'], reading ['b']]).1 = true
      ∧ (builtin [writing ['a'], reading ['a'], reading ['b']]).1 = true
      ∧ (external [writing ['a'], reading ['a'], reading ['b']]).2.input = some ['x', 'y']
      ∧ (builtin [writing ['a'], reading ['a'], reading ['b']]).2.input = some ['y']
      ∧ ∀ operands ∈ [[writing ['c'], reading ['d']], [writing ['c'], reading ['c']],
          [writing ['a'], reading ['a'], reading ['b']]], PipeFree (redirected operands) := by
  refine ⟨⟨by decide, by decide⟩, ⟨by decide, by decide⟩, by decide, by decide, by decide,
    by decide, ?_⟩
  simp only [List.forall_mem_cons, List.not_mem_nil, false_imp_iff, implies_true, and_true]
  exact ⟨⟨by decide, by decide, by decide⟩, ⟨by decide, by decide, by decide⟩,
    ⟨by decide, by decide, by decide⟩⟩

end Main

end Shell

end CShellXv6
