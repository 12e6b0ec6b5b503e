import CShellXv6.Proofs.Redirects

/-!
# How a pipeline is wired

All the numbers in the stages and in the pipe array are different from each other and from the
standard descriptors, so that a child's closes leave its standard input and output alone and take
everything else the shell has opened. The shell itself has a write end of a tee pipe only between
the open and the forks of its stage.
-/

namespace CShellXv6

namespace Shell

open FdTable

namespace Table

variable (t : Table)

theorem closeAll_apply : ∀ (fds : List Int) (t : Table) (fd : ℕ),
    t.closeAll fds fd = if (fd : Int) ∈ fds then none else t fd
  | [], _, _ => by simp [closeAll]
  | n :: fds, t, fd => by
    have ih := closeAll_apply fds (t.close n) fd
    show (t.close n).closeAll fds fd = _
    rw [ih, close]
    by_cases hn : (fd : Int) = n <;> by_cases hfds : (fd : Int) ∈ fds <;> simp [hn, hfds]

theorem closeAll_eq_some {t : Table} {fds : List Int} {fd : ℕ} {wire : Wire} :
    t.closeAll fds fd = some wire ↔ (fd : Int) ∉ fds ∧ t fd = some wire := by
  rw [closeAll_apply]
  split_ifs with h <;> simp [h]

theorem closePipes_eq_some {t : Table} {pipes : List (Int × Int)} {fd : ℕ} {wire : Wire} :
    t.closePipes pipes fd = some wire
      ↔ (∀ p ∈ pipes, (fd : Int) ≠ p.1 ∧ (fd : Int) ≠ p.2) ∧ t fd = some wire := by
  rw [closePipes, closeAll_eq_some]
  simp

theorem closeGate_eq_some {t : Table} {gate : Option (ℕ × ℕ)} {fd : ℕ} {wire : Wire} :
    t.closeGate gate fd = some wire ↔ (∀ g ∈ gate, fd ≠ g.1 ∧ fd ≠ g.2) ∧ t fd = some wire := by
  unfold closeGate
  cases gate with
  | none => simp
  | some g =>
    rw [closeAll_eq_some]
    simp [and_comm]

section Dup

variable {t : Table} {c : Prop} [Decidable c] {old : Int} {new fd : ℕ}

theorem dup2If_of_ne (h : fd ≠ new) : t.dup2If c old new fd = t fd := by
  unfold dup2If dup2
  split_ifs
  · cases t old.toNat with
    | none => rfl
    | some wire => exact if_neg h
  · rfl
  · rfl

theorem dup2If_of_not (h : ¬ c) : t.dup2If c old new = t :=
  if_neg h

theorem dup2If_new {wire : Wire} (hc : c) (h0 : 0 ≤ old) (h : t old.toNat = some wire) :
    t.dup2If c old new new = some wire := by
  unfold dup2If dup2
  rw [if_pos hc, if_pos h0, h]
  exact if_pos rfl

end Dup

end Table

section Apart

variable {F : Set ℕ} {w : World}

theorem mem_fdSet {fd : ℕ} {n : Int} : fd ∈ fdSet n ↔ (fd : Int) = n := by
  unfold fdSet
  split_ifs with h
  · rw [Multiset.mem_singleton]
    omega
  · simp only [Multiset.notMem_zero, false_iff]
    omega

theorem mem_sum_map {α : Type} {f : α → Multiset ℕ} {x : ℕ} {a : α} :
    ∀ {l : List α}, a ∈ l → x ∈ f a → x ∈ (l.map f).sum
  | b :: l, hm, hx => by
    rw [List.map_cons, List.sum_cons, Multiset.mem_add]
    rcases List.mem_cons.1 hm with rfl | hm
    · exact .inl hx
    · exact .inr (mem_sum_map hm hx)

/-- The descriptors in the pipe array and in the stages are none of those in `F`. -/
structure Apart (F : Set ℕ) (pipes : List (Int × Int)) (stages : List Stage) : Prop where
  pipes : ∀ p ∈ pipes, ∀ fd ∈ F, (fd : Int) ≠ p.1 ∧ (fd : Int) ≠ p.2
  stages : ∀ stage ∈ stages, ∀ fd ∈ F, (fd : Int) ≠ stage.input ∧ (fd : Int) ≠ stage.output
    ∧ (fd : Int) ≠ stage.teeRead ∧ (fd : Int) ∉ stage.files

theorem apart_of_holds {pipes : List (Int × Int)} {stages : List Stage}
    (h : Holds F (pipeSet pipes + heldAll stages) w) : Apart F pipes stages := by
  have hpipe : ∀ p ∈ pipes, ∀ fd ∈ F, fd ∉ fdSet p.1 + fdSet p.2 := fun p hp fd hfd hm =>
    h.disjoint fd (Multiset.mem_add.2 (.inl (mem_sum_map hp hm))) hfd
  have hstage : ∀ stage ∈ stages, ∀ fd ∈ F, fd ∉ stage.held := fun stage hs fd hfd hm =>
    h.disjoint fd (Multiset.mem_add.2 (.inr (mem_sum_map hs hm))) hfd
  constructor
  · intro p hp fd hfd
    have hnot := hpipe p hp fd hfd
    rw [Multiset.mem_add, mem_fdSet, mem_fdSet, not_or] at hnot
    exact hnot
  · intro stage hs fd hfd
    have hnot := hstage stage hs fd hfd
    simp only [Stage.held, Multiset.mem_add, mem_fdSet, not_or] at hnot
    obtain ⟨⟨⟨hin, hout⟩, htee⟩, hfiles⟩ := hnot
    refine ⟨hin, hout, htee, fun hm => hfiles ?_⟩
    exact Multiset.mem_coe.2 (List.mem_map.2 ⟨fd, hm, by simp⟩)

/-- The two ends of a pipe have different numbers. -/
theorem ends_ne {pipes : List (Int × Int)} {M : Multiset ℕ} (h : Holds F (pipeSet pipes + M) w)
    {p : Int × Int} (hp : p ∈ pipes) (h1 : 0 ≤ p.1) : p.1 ≠ p.2 := by
  intro heq
  obtain ⟨l, r, rfl⟩ := List.append_of_mem hp
  have hnodup := h.nodup
  have hle : fdSet p.1 + fdSet p.2 ≤ pipeSet (l ++ p :: r) + M := by
    have hsum : pipeSet (l ++ p :: r) + M
        = (pipeSet l + pipeSet r + M) + (fdSet p.1 + fdSet p.2) := by
      simp only [pipeSet, List.map_append, List.map_cons, List.sum_append, List.sum_cons]
      abel
    rw [hsum]
    exact Multiset.le_add_left _ _
  have hpair := Multiset.nodup_of_le hle hnodup
  rw [← heq] at hpair
  exact Multiset.disjoint_left.1 (Multiset.nodup_add.1 hpair).2.2
    (mem_fdSet.2 (Int.toNat_of_nonneg h1)) (mem_fdSet.2 (Int.toNat_of_nonneg h1))

end Apart

section Children

variable {pipes : List (Int × Int)} {stages : List Stage} {i : ℕ} {stage : Stage} {t : Table}
  {wire : Wire}

theorem redirect_of_ne {fd : ℕ} (h0 : fd ≠ 0) (h1 : fd ≠ 1) :
    t.redirect pipes stages i stage fd = t fd := by
  simp only [Table.redirect, Table.dup2If_of_ne h0, Table.dup2If_of_ne h1]

theorem redirect_zero_of_input (h0 : 0 ≤ stage.input) (hne : stage.input.toNat ≠ 0)
    (hne' : stage.input.toNat ≠ 1) (h : t stage.input.toNat = some wire) :
    t.redirect pipes stages i stage 0 = some wire := by
  rw [Table.redirect, Table.dup2If_of_ne Nat.zero_ne_one]
  refine Table.dup2If_new h0 h0 ?_
  rw [Table.dup2If_of_ne hne', Table.dup2If_of_ne hne, h]

theorem redirect_zero_of_pipe (hin : ¬ 0 ≤ stage.input) (hi : 0 < i) {p : Int × Int}
    (hp : pipes[i - 1]? = some p) (h0 : 0 ≤ p.1) (h : t p.1.toNat = some wire) :
    t.redirect pipes stages i stage 0 = some wire := by
  have hd : pipes.getD (i - 1) (-1, -1) = p := by
    rw [List.getD_eq_getElem?_getD, hp, Option.getD_some]
  rw [Table.redirect, Table.dup2If_of_ne Nat.zero_ne_one, Table.dup2If_of_not hin,
    Table.dup2If_of_ne Nat.zero_ne_one, hd]
  exact Table.dup2If_new hi h0 h

theorem redirect_zero_of_first (hin : ¬ 0 ≤ stage.input) (hi : ¬ 0 < i) :
    t.redirect pipes stages i stage 0 = t 0 := by
  rw [Table.redirect, Table.dup2If_of_ne Nat.zero_ne_one, Table.dup2If_of_not hin,
    Table.dup2If_of_ne Nat.zero_ne_one, Table.dup2If_of_not hi]

theorem redirect_one_of_output (h0 : 0 ≤ stage.output) (hne : stage.output.toNat ≠ 0)
    (hne' : stage.output.toNat ≠ 1) (h : t stage.output.toNat = some wire) :
    t.redirect pipes stages i stage 1 = some wire := by
  rw [Table.redirect]
  refine Table.dup2If_new h0 h0 ?_
  rw [Table.dup2If_of_ne hne, Table.dup2If_of_ne hne', Table.dup2If_of_ne hne, h]

theorem redirect_one_of_pipe (hout : ¬ 0 ≤ stage.output) (hi : i + 1 < stages.length)
    {p : Int × Int} (hp : pipes[i]? = some p) (h0 : 0 ≤ p.2) (hne : p.2.toNat ≠ 0)
    (h : t p.2.toNat = some wire) : t.redirect pipes stages i stage 1 = some wire := by
  have hd : pipes.getD i (-1, -1) = p := by rw [List.getD_eq_getElem?_getD, hp, Option.getD_some]
  rw [Table.redirect, Table.dup2If_of_not hout, Table.dup2If_of_ne Nat.one_ne_zero, hd]
  refine Table.dup2If_new hi h0 ?_
  rw [Table.dup2If_of_ne hne, h]

theorem redirect_one_of_last (hout : ¬ 0 ≤ stage.output) (hi : ¬ i + 1 < stages.length) :
    t.redirect pipes stages i stage 1 = t 1 := by
  rw [Table.redirect, Table.dup2If_of_not hout, Table.dup2If_of_ne Nat.one_ne_zero,
    Table.dup2If_of_not hi, Table.dup2If_of_ne Nat.one_ne_zero]

variable {gate : Option (ℕ × ℕ)}

theorem stageChild_eq_some {fd : ℕ} : stageChild gate pipes stages i stage t fd = some wire
    ↔ (∀ other ∈ stages.zipIdx, (fd : Int) ∉ (if other.2 ≠ i then [other.1.input, other.1.output]
        else []) ++ other.1.teeRead :: other.1.files)
      ∧ ((fd : Int) ≠ stage.input ∧ (fd : Int) ≠ stage.output)
      ∧ (∀ p ∈ pipes, (fd : Int) ≠ p.1 ∧ (fd : Int) ≠ p.2)
      ∧ (t.closeGate gate).redirect pipes stages i stage fd = some wire := by
  simp only [stageChild, Table.closeStageFds, Table.closeAll_eq_some, Table.closePipes_eq_some,
    List.mem_flatMap, not_exists, not_and, List.mem_cons, List.not_mem_nil, or_false, not_or,
    and_assoc]

theorem teeChild_eq_some {fd : ℕ} (h : teeChild gate pipes stages i stage t fd = some wire) :
    (fd : Int) ≠ stage.teeWrite ∧ (∀ p ∈ pipes, (fd : Int) ≠ p.1 ∧ (fd : Int) ≠ p.2)
      ∧ t fd = some wire := by
  obtain ⟨-, h⟩ := Table.closeAll_eq_some.1 h
  have hclose : (((t.closeGate gate).closePipes pipes).closeAll [stage.teeWrite]) fd
      = some wire := h
  obtain ⟨htee, h⟩ := Table.closeAll_eq_some.1 hclose
  obtain ⟨hpipes, h⟩ := Table.closePipes_eq_some.1 h
  exact ⟨by simpa using htee, hpipes, (Table.closeGate_eq_some.1 h).2⟩

end Children

section Loop

variable {F : Set ℕ} {W : Wiring} {done rest : List Stage} {stage : Stage} {t : Table} {w : World}
  {env : Env}

/-- The shell before it forks the stages `rest`. -/
structure Looped (F : Set ℕ) (W : Wiring) (done rest : List Stage) (t : Table) (w : World) :
    Prop where
  holds : Holds F (pipeSet W.pipes + heldAll (done ++ rest)) w
  shell : ∀ fd, W.world.IsOpen fd → t fd = some (.shell fd)
  only : ∀ fd n, t fd = some (.shell n) → n = fd
  isOpen : ∀ fd, t fd ≠ none → w.IsOpen fd
  tee : ∀ fd j, t fd ≠ some (.tee j .write)
  untied : ∀ stage ∈ rest, Untied stage

/-- The shell when it forks `stage`. -/
structure Forking (F : Set ℕ) (W : Wiring) (done : List Stage) (stage : Stage) (rest : List Stage)
    (t : Table) (w : World) : Prop where
  holds : Holds F (pipeSet W.pipes + heldAll (done ++ stage :: rest)) w
  shell : ∀ fd, W.world.IsOpen fd → t fd = some (.shell fd)
  only : ∀ fd n, t fd = some (.shell n) → n = fd
  isOpen : ∀ fd, t fd ≠ none → w.IsOpen fd
  tee : ∀ fd j, t fd = some (.tee j .write) → j = done.length ∧ (fd : Int) = stage.teeWrite
  tied : 0 ≤ stage.teeWrite → stage.output = stage.teeWrite
    ∧ t stage.teeWrite.toNat = some (.tee done.length .write)

theorem heldAll_middle (done rest : List Stage) (stage : Stage) (M : Multiset ℕ) :
    M + heldAll (done ++ stage :: rest) = M + heldAll done + heldAll rest + stage.held := by
  simp only [heldAll, List.map_append, List.map_cons, List.sum_append, List.sum_cons]
  abel

/-- A stage with one file or none goes on as it is, and one with more gets its tee pipe. -/
theorem makeTee_cases (htee : ∀ i, env.teePipe i = true) (i : ℕ) (stage : Stage) (w : World) :
    stage.files.length ≤ 1 ∧ makeTee env i stage w = (stage, w)
      ∨ 1 < stage.files.length ∧ makeTee env i stage w =
        ({ stage with
            teeRead := (openAs (.tee i) w).1
            teeWrite := (openAs (.tee i) (openAs (.tee i) w).2).1
            output := (openAs (.tee i) (openAs (.tee i) w).2).1 },
          (openAs (.tee i) (openAs (.tee i) w).2).2) := by
  unfold makeTee
  by_cases h : 1 < stage.files.length
  · exact .inr ⟨h, by simp [h, htee]⟩
  · exact .inl ⟨by omega, by simp [h]⟩

theorem Looped.forking (h : Looped F W done (stage :: rest) t w)
    (htee : ∀ i, env.teePipe i = true) :
    Forking F W done (makeTee env done.length stage w).1 rest
      (t.openTee done.length (makeTee env done.length stage w).1)
      (makeTee env done.length stage w).2 := by
  have huntied := h.untied stage (by simp)
  have hholds : Holds F (pipeSet W.pipes + heldAll (done ++ (makeTee env done.length stage w).1
      :: rest)) (makeTee env done.length stage w).2 := by
    rw [heldAll_middle]
    refine (makeTee_spec env huntied done.length w).2 ?_
    rw [← heldAll_middle]
    exact h.holds
  rcases makeTee_cases htee done.length stage w with ⟨-, hmake⟩ | ⟨-, hmake⟩ <;>
    rw [hmake] at hholds ⊢
  · have hnone : t.openTee done.length stage = t := by
      funext n
      have hn : ¬ (n : Int) = -1 := by omega
      simp only [Table.openTee, huntied.teeRead, huntied.teeWrite, if_neg hn]
    rw [hnone]
    exact ⟨hholds, h.shell, h.only, h.isOpen, fun fd j hfd => absurd hfd (h.tee fd j),
      fun h0 => by simp [huntied.teeWrite] at h0⟩
  · have hread := keeps_openAs (.tee done.length) w
    have hwrite := keeps_openAs (.tee done.length) (openAs (.tee done.length) w).2
    have hopen_read := isOpen_of_get (get_openAs (.tee done.length) w)
    have hopen_write := isOpen_of_get
      (get_openAs (.tee done.length) (openAs (.tee done.length) w).2)
    have hne := ne_openAs hopen_read (.tee done.length)
    rw [Int.toNat_of_nonneg (openAs_nonneg _ _)] at hne
    refine ⟨hholds, fun fd hfd => ?_, fun fd n hfd => ?_, fun fd hfd => ?_, fun fd j hfd => ?_,
      fun h0 => ⟨rfl, ?_⟩⟩
    · have hopen : w.IsOpen fd := h.isOpen fd (by rw [h.shell fd hfd]; simp)
      rw [Table.openTee, if_neg (ne_openAs hopen _), if_neg (ne_openAs (hread.isOpen hopen) _)]
      exact h.shell fd hfd
    · unfold Table.openTee at hfd
      split_ifs at hfd
      · simp at hfd
      · simp at hfd
      · exact h.only fd n hfd
    · unfold Table.openTee at hfd
      split_ifs at hfd with h1 h2
      · have hfd' : fd = (openAs (.tee done.length) w).1.toNat := by
          simp only at h1
          omega
        rw [hfd']
        exact hwrite.isOpen hopen_read
      · have hfd' : fd = (openAs (.tee done.length) (openAs (.tee done.length) w).2).1.toNat := by
          simp only at h2
          omega
        rw [hfd']
        exact hopen_write
      · exact hwrite.isOpen (hread.isOpen (h.isOpen fd hfd))
    · unfold Table.openTee at hfd
      split_ifs at hfd with h1 h2
      · simp at hfd
      · simp only [Option.some.injEq, Wire.tee.injEq, and_true] at hfd
        exact ⟨hfd.symm, h2⟩
      · exact absurd hfd (h.tee fd j)
    · simp only [Table.openTee, Int.toNat_of_nonneg h0]
      rw [if_neg (Ne.symm hne)]
      exact if_pos trivial

theorem Forking.looped (h : Forking F W done stage rest t w)
    (huntied : ∀ stage ∈ rest, Untied stage) :
    Looped F W (done ++ [(closeTee stage w).1]) rest (t.close stage.teeWrite)
      (closeTee stage w).2 := by
  have hholds : Holds F (pipeSet W.pipes + heldAll (done ++ [(closeTee stage w).1] ++ rest))
      (closeTee stage w).2 := by
    rw [List.append_assoc, List.singleton_append, heldAll_middle]
    refine closeTee_holds (fun h0 => (h.tied h0).1) ?_
    rw [← heldAll_middle]
    exact h.holds
  refine ⟨hholds, fun fd hfd => ?_, fun fd n hfd => ?_, fun fd hfd => ?_, fun fd j hfd => ?_,
    huntied⟩
  · rw [Table.close, if_neg]
    · exact h.shell fd hfd
    · intro hn
      have htied := (h.tied (by omega)).2
      rw [show stage.teeWrite.toNat = fd by omega, h.shell fd hfd] at htied
      simp at htied
  · unfold Table.close at hfd
    split_ifs at hfd
    exact h.only fd n hfd
  · unfold Table.close at hfd
    split_ifs at hfd with hn
    · exact absurd rfl hfd
    · have hopen := h.isOpen fd hfd
      unfold closeTee
      split_ifs with h0
      · rw [closeFd, isOpen_close]
        exact ⟨by omega, hopen⟩
      · exact hopen
  · unfold Table.close at hfd
    split_ifs at hfd with hn
    exact hn (h.tee fd j hfd).2

/-- What the fork loop starts from, with the gate of a background pipeline. -/
structure Setup (F : Set ℕ) (cs : List (ℕ × List Token)) (W : Wiring) (gate : Option (ℕ × ℕ)) :
    Prop where
  zero : 0 ∈ F
  one : 1 ∈ F
  gate : ∀ g ∈ gate, (g.1 ∈ F ∧ g.2 ∈ F) ∧ 1 < g.1 ∧ 1 < g.2
  count : W.pipes.length + 1 = W.stages.length
  nonneg : ∀ p ∈ W.pipes, 0 ≤ p.1 ∧ 0 ≤ p.2
  ends : Ends W.world W.pipes
  stages : List.Forall₂ (Redirected W.world) cs W.stages
  holds : Holds F (pipeSet W.pipes + heldAll W.stages) W.world

variable {cs : List (ℕ × List Token)} {gate : Option (ℕ × ℕ)}

theorem Setup.redirected (h : Setup F cs W gate) {i : ℕ} {c : ℕ × List Token} {stage : Stage}
    (hc : cs[i]? = some c) (hs : W.stages[i]? = some stage) : Redirected W.world c stage := by
  obtain ⟨hi, rfl⟩ := List.getElem?_eq_some_iff.1 hc
  obtain ⟨hi', rfl⟩ := List.getElem?_eq_some_iff.1 hs
  exact List.forall₂_iff_get.1 h.stages |>.2 i hi hi'

theorem inputsOf_input : ∀ {c : List Token} {d : Target}, d ∈ inputsOf c → ∃ path, d = .input path
  | [], _, h => by simp [inputsOf] at h
  | [_], _, h => by simp [inputsOf] at h
  | r :: t :: ts, d, h => by
    unfold inputsOf at h
    split_ifs at h
    · rcases List.mem_cons.1 h with rfl | h
      · exact ⟨t.text, rfl⟩
      · exact inputsOf_input h
    · exact inputsOf_input h

theorem outputsOf_output : ∀ {c : List Token} {d : Target}, d ∈ outputsOf c →
    ∃ path append, d = .output path append
  | [], _, h => by simp [outputsOf] at h
  | [_], _, h => by simp [outputsOf] at h
  | r :: t :: ts, d, h => by
    unfold outputsOf at h
    split_ifs at h
    · rcases List.mem_cons.1 h with rfl | h
      · exact ⟨t.text, _, rfl⟩
      · exact outputsOf_output h
    · exact outputsOf_output h

theorem joinTargets_ne_pipe {c : List Token} {k : ℕ} :
    joinTargets (inputsOf c) ≠ some (.pipe k) := by
  intro h
  match hins : inputsOf c, h with
  | [d], h =>
    obtain ⟨path, rfl⟩ := inputsOf_input (c := c) (d := d) (by simp [hins])
    simp [joinTargets] at h

/-- What a write end is. -/
theorem pipe_eq_some {k : ℕ} {wire : Wire} (h : W.pipe k .write = some wire) :
    ∃ p, W.pipes[k]? = some p ∧ wire = .shell p.2.toNat := by
  unfold Wiring.pipe at h
  obtain ⟨p, hp, rfl⟩ := Option.map_eq_some_iff.1 h
  exact ⟨p, hp, rfl⟩

theorem Setup.not_pipe_of_mem (h : Setup F cs W gate) {k fd : ℕ} (hfd : fd ∈ F) :
    W.pipe k .write ≠ some (.shell fd) := by
  intro hpipe
  obtain ⟨p, hp, hwire⟩ := pipe_eq_some hpipe
  have hmem := List.mem_of_getElem? hp
  refine ((apart_of_holds h.holds).pipes p hmem fd hfd).2 ?_
  rw [Wire.shell.inj hwire, Int.toNat_of_nonneg (h.nonneg p hmem).2]

theorem Setup.not_pipe_of_get (h : Setup F cs W gate) {k fd : ℕ} {d : Target}
    (hget : W.world.get fd = some d) (hd : d ≠ .pipe k) :
    W.pipe k .write ≠ some (.shell fd) := by
  intro hpipe
  obtain ⟨p, hp, hwire⟩ := pipe_eq_some hpipe
  rw [Wire.shell.inj hwire, (h.ends k p hp).2] at hget
  exact hd (Option.some.inj hget).symm

/-- What the shell opened for the fork loop is in a child's table where the shell has it. -/
theorem Forking.gated (h : Forking F W done stage rest t w) (hsetup : Setup F cs W gate) {fd : ℕ}
    (hopen : W.world.IsOpen fd) (hfd : fd ∉ F ∨ fd ≤ 1) :
    t.closeGate gate fd = some (.shell fd) := by
  refine Table.closeGate_eq_some.2 ⟨fun g hg => ?_, h.shell fd hopen⟩
  obtain ⟨⟨h1, h2⟩, h3, h4⟩ := hsetup.gate g hg
  rcases hfd with hfd | hfd
  · exact ⟨fun he => hfd (he ▸ h1), fun he => hfd (he ▸ h2)⟩
  · omega

theorem Setup.isOpen_of_mem (h : Setup F cs W gate) {fd : ℕ} (hfd : fd ∈ F) :
    W.world.IsOpen fd :=
  (h.holds.isOpen fd).2 (.inl hfd)

/-- What is read from is not a write end. -/
theorem Setup.stdin_wire (h : Setup F cs W gate) {i : ℕ} {c : ℕ × List Token} {stage : Stage}
    (hc : cs[i]? = some c) (hs : W.stages[i]? = some stage) :
    ∃ n, W.stdin i stage c.2 = some (.shell n) ∧ ∀ k, W.pipe k .write ≠ some (.shell n) := by
  have hredirected := h.redirected hc hs
  have hi := (List.getElem?_eq_some_iff.1 hs).1
  have hcount := h.count
  unfold Wiring.stdin
  split_ifs with hins hfirst
  · obtain ⟨d, hd⟩ := exists_joinTargets hins
    refine ⟨_, rfl, fun k => h.not_pipe_of_get
      ((hredirected.reads (hredirected.input.2 hins)).trans hd) ?_⟩
    rintro rfl
    exact joinTargets_ne_pipe hd
  · exact ⟨0, rfl, fun k => h.not_pipe_of_mem h.zero⟩
  · have hp : W.pipes[i - 1]? = some (W.pipes.get ⟨i - 1, by omega⟩) :=
      List.getElem?_eq_getElem (by omega)
    set p := W.pipes.get ⟨i - 1, by omega⟩
    have hmem := List.mem_of_getElem? hp
    refine ⟨p.1.toNat, by simp [Wiring.pipe, hp], fun k hpipe => ?_⟩
    by_cases hk : k = i - 1
    · subst hk
      obtain ⟨q, hq, hwire⟩ := pipe_eq_some hpipe
      obtain rfl := Option.some.inj (hp.symm.trans hq)
      have hnonneg := h.nonneg _ hmem
      have hsame := Wire.shell.inj hwire
      exact ends_ne h.holds hmem hnonneg.1 (by omega)
    · exact h.not_pipe_of_get (h.ends _ _ hp).1 (by simpa using Ne.symm hk) hpipe

/-- What stage `i` writes to is a write end only if it is its own. -/
theorem Setup.stdout_wire (h : Setup F cs W gate) {i : ℕ} {c : ℕ × List Token} {stage : Stage}
    (hc : cs[i]? = some c) (hs : W.stages[i]? = some stage) :
    W.stdout i stage c.2 = some (.tee i .write)
      ∨ ∃ n, W.stdout i stage c.2 = some (.shell n)
        ∧ ∀ k, W.pipe k .write = some (.shell n) → k = i := by
  have hredirected := h.redirected hc hs
  have hcount := h.count
  unfold Wiring.stdout
  split
  · refine .inr ?_
    split_ifs with hlast
    · have hp : W.pipes[i]? = some (W.pipes.get ⟨i, by omega⟩) :=
        List.getElem?_eq_getElem (by omega)
      set p := W.pipes.get ⟨i, by omega⟩
      refine ⟨p.2.toNat, by simp [Wiring.pipe, hp], fun k hpipe => ?_⟩
      by_contra hk
      exact h.not_pipe_of_get (h.ends _ _ hp).2 (by simpa using Ne.symm hk) hpipe
    · exact ⟨1, rfl, fun k hpipe => absurd hpipe (h.not_pipe_of_mem h.one)⟩
  · rename_i d houts
    rcases hredirected.writes with ⟨d', houts', -, -, hget⟩ | ⟨hlength, -⟩
    · obtain ⟨path, append, rfl⟩ := outputsOf_output (c := c.2) (d := d') (by simp [houts'])
      exact .inr ⟨_, rfl, fun k hpipe => absurd hpipe (h.not_pipe_of_get hget (by simp))⟩
    · simp [houts] at hlength
  · exact .inl rfl

theorem Forking.apart (h : Forking F W done stage rest t w) :
    Apart F W.pipes (done ++ stage :: rest) :=
  apart_of_holds h.holds

/-- The closes of a child leave the standard descriptors. -/
theorem Forking.stageChild_of_mem (h : Forking F W done stage rest t w) {fd : ℕ} (hfd : fd ∈ F)
    {wire : Wire} (hwire : (t.closeGate gate).redirect W.pipes (done ++ stage :: rest) done.length
      stage fd = some wire) :
    stageChild gate W.pipes (done ++ stage :: rest) done.length stage t fd = some wire := by
  refine stageChild_eq_some.2 ⟨fun other hother => ?_, ?_, fun p hp => h.apart.pipes p hp fd hfd,
    hwire⟩
  · obtain ⟨hin, hout, htee, hfiles⟩ :=
      h.apart.stages other.1 (List.fst_mem_of_mem_zipIdx hother) fd hfd
    split_ifs <;> simp [hin, hout, htee, hfiles]
  · obtain ⟨hin, hout, -⟩ := h.apart.stages stage (by simp) fd hfd
    exact ⟨hin, hout⟩

/-- How the stage that is forked comes from the one the loop was given. -/
inductive Made (original stage : Stage) : Prop where
  | same (hfiles : original.files.length ≤ 1) (h : stage = original)
  | tied (hfiles : 1 < original.files.length) (hin : stage.input = original.input)
      (h0 : 0 ≤ stage.teeWrite)

theorem Made.input {original : Stage} (h : Made original stage) :
    stage.input = original.input := by
  rcases h with ⟨-, rfl⟩ | ⟨-, hin, -⟩
  · rfl
  · exact hin

section Child

variable (h : Forking F W done stage rest t w) (hsetup : Setup F cs W gate) {original : Stage}
  {c : ℕ × List Token} (hc : cs[done.length]? = some c)
  (hs : W.stages[done.length]? = some original)
  (hlength : (done ++ stage :: rest).length = W.stages.length) (hmade : Made original stage)

include h hsetup hc hs hmade

theorem Forking.stdin : stageChild gate W.pipes (done ++ stage :: rest) done.length stage t 0
    = W.stdin done.length original c.2 := by
  have hredirected := hsetup.redirected hc hs
  have hi := (List.getElem?_eq_some_iff.1 hs).1
  have hcount := hsetup.count
  unfold Wiring.stdin
  split_ifs with hins hfirst
  · have h0 := hredirected.input.2 hins
    obtain ⟨d, hd⟩ := exists_joinTargets hins
    have hopen := isOpen_of_get ((hredirected.reads h0).trans hd)
    rw [← hmade.input] at h0 hopen ⊢
    have hnot : stage.input.toNat ∉ F := fun hfd =>
      (h.apart.stages stage (by simp) _ hfd).1 (Int.toNat_of_nonneg h0)
    refine h.stageChild_of_mem hsetup.zero (redirect_zero_of_input h0 (fun he => hnot ?_)
      (fun he => hnot ?_) (h.gated hsetup hopen (.inl hnot)))
    · rw [he]
      exact hsetup.zero
    · rw [he]
      exact hsetup.one
  · have hin : ¬ 0 ≤ stage.input := by
      rw [hmade.input, hredirected.input]
      exact hins
    refine h.stageChild_of_mem hsetup.zero ?_
    rw [redirect_zero_of_first hin (by omega)]
    exact h.gated hsetup (hsetup.isOpen_of_mem hsetup.zero) (.inr (by omega))
  · have hin : ¬ 0 ≤ stage.input := by
      rw [hmade.input, hredirected.input]
      exact hins
    have hp : W.pipes[done.length - 1]? = some (W.pipes.get ⟨done.length - 1, by omega⟩) :=
      List.getElem?_eq_getElem (by omega)
    set p := W.pipes.get ⟨done.length - 1, by omega⟩
    have hmem := List.mem_of_getElem? hp
    have h0 := (hsetup.nonneg p hmem).1
    have hnot : p.1.toNat ∉ F := fun hfd =>
      (h.apart.pipes p hmem _ hfd).1 (Int.toNat_of_nonneg h0)
    rw [Wiring.pipe, hp]
    exact h.stageChild_of_mem hsetup.zero (redirect_zero_of_pipe hin (by omega) hp h0
      (h.gated hsetup (isOpen_of_get (hsetup.ends _ _ hp).1) (.inl hnot)))

include hlength

theorem Forking.stdout : stageChild gate W.pipes (done ++ stage :: rest) done.length stage t 1
    = W.stdout done.length original c.2 := by
  have hredirected := hsetup.redirected hc hs
  have hcount := hsetup.count
  have hout : ∀ wire, 0 ≤ stage.output → t stage.output.toNat = some wire →
      stageChild gate W.pipes (done ++ stage :: rest) done.length stage t 1 = some wire := by
    intro wire h0 hwire
    have hnot : stage.output.toNat ∉ F := fun hfd =>
      (h.apart.stages stage (by simp) _ hfd).2.1 (Int.toNat_of_nonneg h0)
    refine h.stageChild_of_mem hsetup.one (redirect_one_of_output h0 (fun he => hnot ?_)
      (fun he => hnot ?_) (Table.closeGate_eq_some.2 ⟨fun g hg => ?_, hwire⟩))
    · rw [he]
      exact hsetup.zero
    · rw [he]
      exact hsetup.one
    · obtain ⟨⟨h1, h2⟩, -⟩ := hsetup.gate g hg
      exact ⟨fun he => hnot (he ▸ h1), fun he => hnot (he ▸ h2)⟩
  unfold Wiring.stdout
  split
  · rename_i houts
    rcases hredirected.writes with ⟨d, hone, -⟩ | ⟨-, hnone, hfiles⟩
    · simp [houts] at hone
    rw [houts, List.forall₂_nil_right_iff] at hfiles
    obtain ⟨-, rfl⟩ | ⟨htwo, -, -⟩ := hmade
    swap
    · simp [hfiles] at htwo
    have hneg : ¬ 0 ≤ stage.output := by omega
    split_ifs with hlast
    · have hp : W.pipes[done.length]? = some (W.pipes.get ⟨done.length, by omega⟩) :=
        List.getElem?_eq_getElem (by omega)
      set p := W.pipes.get ⟨done.length, by omega⟩
      have hmem := List.mem_of_getElem? hp
      have h0 := (hsetup.nonneg p hmem).2
      have hnot : p.2.toNat ∉ F := fun hfd =>
        (h.apart.pipes p hmem _ hfd).2 (Int.toNat_of_nonneg h0)
      rw [Wiring.pipe, hp]
      exact h.stageChild_of_mem hsetup.one (redirect_one_of_pipe hneg (by omega) hp h0
        (fun he => hnot (by rw [he]; exact hsetup.zero))
        (h.gated hsetup (isOpen_of_get (hsetup.ends _ _ hp).2) (.inl hnot)))
    · refine h.stageChild_of_mem hsetup.one ?_
      rw [redirect_one_of_last hneg (by omega)]
      exact h.gated hsetup (hsetup.isOpen_of_mem hsetup.one) (.inr (by omega))
  · rename_i d houts
    rcases hredirected.writes with ⟨d', -, hfiles, h0, hget⟩ | ⟨hone, -⟩
    · obtain ⟨-, rfl⟩ | ⟨htwo, -, -⟩ := hmade
      · exact hout _ h0 (h.shell _ (isOpen_of_get hget))
      · simp [hfiles] at htwo
    · simp [houts] at hone
  · rename_i d d' ds houts
    rcases hredirected.writes with ⟨d'', hone, -⟩ | ⟨-, -, hfiles⟩
    · simp [houts] at hone
    · have htwo := hfiles.length_eq
      rw [houts, List.length_cons, List.length_cons] at htwo
      obtain ⟨hone, -⟩ | ⟨-, -, h0⟩ := hmade
      · omega
      · obtain ⟨htied, hwire⟩ := h.tied h0
        rw [← htied] at h0 hwire
        exact hout _ h0 hwire

theorem Forking.fits_stage : Fits cs W ⟨.stage done.length,
    stageChild gate W.pipes (done ++ stage :: rest) done.length stage t⟩ := by
  have hzero := h.stdin hsetup hc hs hmade
  have hone := h.stdout hsetup hc hs hlength hmade
  have hother : ∀ fd wire, fd ≠ 0 → fd ≠ 1 →
      stageChild gate W.pipes (done ++ stage :: rest) done.length stage t fd = some wire →
      ((fd : Int) ≠ stage.output ∧ ∀ p ∈ W.pipes, (fd : Int) ≠ p.2) ∧ t fd = some wire := by
    intro fd wire h0 h1 hfd
    obtain ⟨-, ⟨-, hout⟩, hpipes, hredirect⟩ := stageChild_eq_some.1 hfd
    rw [redirect_of_ne h0 h1] at hredirect
    exact ⟨⟨hout, fun p hp => (hpipes p hp).2⟩, (Table.closeGate_eq_some.1 hredirect).2⟩
  have hsame : ∀ i c' stage', Role.stage done.length = .stage i → cs[i]? = some c' →
      W.stages[i]? = some stage' → done.length = i ∧ c' = c ∧ stage' = original := by
    intro i c' stage' hrole hc' hs'
    obtain rfl := Role.stage.inj hrole
    exact ⟨rfl, Option.some.inj (hc'.symm.trans hc), Option.some.inj (hs'.symm.trans hs)⟩
  refine ⟨fun i c' stage' hrole hc' hs' => ?_, fun i c' stage' hrole hc' hs' => ?_,
    fun k wire fd hpipe hfd => ?_, fun k fd hfd => ?_⟩
  · obtain ⟨rfl, rfl, rfl⟩ := hsame i c' stage' hrole hc' hs'
    exact hzero
  · obtain ⟨rfl, rfl, rfl⟩ := hsame i c' stage' hrole hc' hs'
    exact hone
  · simp only at hfd
    by_cases h0 : fd = 0
    · obtain ⟨n, hn, hnot⟩ := hsetup.stdin_wire hc hs
      rw [h0] at hfd
      rw [← hfd, hzero, hn] at hpipe
      exact absurd hpipe (hnot k)
    by_cases h1 : fd = 1
    · rw [h1] at hfd
      rw [hone] at hfd
      rcases hsetup.stdout_wire hc hs with htee | ⟨n, hn, hown⟩
      · obtain ⟨p, -, hwire⟩ := pipe_eq_some hpipe
        rw [htee, hwire] at hfd
        simp at hfd
      · rw [← hfd, hn] at hpipe
        exact ⟨by rw [hown k hpipe], h1⟩
    · obtain ⟨⟨-, hnot⟩, ht⟩ := hother fd wire h0 h1 hfd
      obtain ⟨p, hp, rfl⟩ := pipe_eq_some hpipe
      have hmem := List.mem_of_getElem? hp
      refine absurd ?_ (hnot p hmem)
      rw [← h.only fd _ ht, Int.toNat_of_nonneg (hsetup.nonneg p hmem).2]
  · simp only at hfd
    by_cases h0 : fd = 0
    · obtain ⟨n, hn, -⟩ := hsetup.stdin_wire hc hs
      rw [h0] at hfd
      rw [hzero, hn] at hfd
      simp at hfd
    by_cases h1 : fd = 1
    · rw [h1] at hfd
      rw [hone] at hfd
      rcases hsetup.stdout_wire hc hs with htee | ⟨n, hn, -⟩
      · rw [htee] at hfd
        simp only [Option.some.injEq, Wire.tee.injEq, and_true] at hfd
        exact ⟨by rw [hfd], h1⟩
      · rw [hn] at hfd
        simp at hfd
    · obtain ⟨⟨hnot, -⟩, ht⟩ := hother fd _ h0 h1 hfd
      obtain ⟨-, htee⟩ := h.tee fd k ht
      refine absurd ?_ hnot
      rw [(h.tied (by omega)).1, htee]

end Child

theorem Forking.fits_tee (h : Forking F W done stage rest t w) (hsetup : Setup F cs W gate) :
    Fits cs W ⟨.tee done.length,
      teeChild gate W.pipes (done ++ stage :: rest) done.length stage t⟩ := by
  refine ⟨fun _ _ _ hrole => absurd hrole (by simp), fun _ _ _ hrole => absurd hrole (by simp),
    fun k wire fd hpipe hfd => ?_, fun k fd hfd => ?_⟩
  · obtain ⟨-, hpipes, ht⟩ := teeChild_eq_some hfd
    obtain ⟨p, hp, rfl⟩ := pipe_eq_some hpipe
    have hmem := List.mem_of_getElem? hp
    refine absurd ?_ (hpipes p hmem).2
    rw [← h.only fd _ ht, Int.toNat_of_nonneg (hsetup.nonneg p hmem).2]
  · obtain ⟨hnot, -, ht⟩ := teeChild_eq_some hfd
    exact absurd (h.tee fd k ht).2 hnot

theorem Looped.fits_shell (h : Looped F W done rest t w) (hsetup : Setup F cs W gate) :
    Fits cs W ⟨.shell, t.closePipes W.pipes⟩ := by
  refine ⟨fun _ _ _ hrole => absurd hrole (by simp), fun _ _ _ hrole => absurd hrole (by simp),
    fun k wire fd hpipe hfd => ?_, fun k fd hfd => ?_⟩
  · obtain ⟨hpipes, ht⟩ := Table.closePipes_eq_some.1 hfd
    obtain ⟨p, hp, rfl⟩ := pipe_eq_some hpipe
    have hmem := List.mem_of_getElem? hp
    refine absurd ?_ (hpipes p hmem).2
    rw [← h.only fd _ ht, Int.toNat_of_nonneg (hsetup.nonneg p hmem).2]
  · exact absurd (Table.closePipes_eq_some.1 hfd).2 (h.tee fd k)

theorem made_makeTee (htee : ∀ i, env.teePipe i = true) (i : ℕ) (stage : Stage) (w : World) :
    Made stage (makeTee env i stage w).1 := by
  rcases makeTee_cases htee i stage w with ⟨hfiles, hmake⟩ | ⟨hfiles, hmake⟩ <;> rw [hmake]
  · exact .same hfiles rfl
  · exact .tied hfiles rfl (openAs_nonneg (.tee i) _)

/-- A stage has a tee process if its command has two outputs or more. -/
theorem Redirected.tee {c : ℕ × List Token} (h : Redirected W.world c stage)
    (huntied : Untied stage) (htee : ∀ i, env.teePipe i = true) (i : ℕ) (w : World) :
    0 ≤ (makeTee env i stage w).1.teeRead ↔ 1 < (outputsOf c.2).length := by
  have hfiles : 1 < stage.files.length ↔ 1 < (outputsOf c.2).length := by
    rcases h.writes with ⟨d, houts, hnil, -⟩ | ⟨-, -, hfiles⟩
    · simp [houts, hnil]
    · rw [hfiles.length_eq]
  rw [← hfiles]
  rcases makeTee_cases htee i stage w with ⟨hle, hmake⟩ | ⟨hlt, hmake⟩ <;> rw [hmake]
  · simp only [huntied.teeRead]
    omega
  · exact iff_of_true (openAs_nonneg (.tee i) w) hlt

theorem forkProcesses_fits (hsetup : Setup F cs W gate) (htee : ∀ i, env.teePipe i = true)
    (hfork : ∀ i, (env.fork i).isSome = true) (hteeFork : ∀ i, (env.teeFork i).isSome = true) :
    ∀ (rest done : List Stage) (t : Table) (w : World), Looped F W done rest t w →
      W.stages.drop done.length = rest → done.length + rest.length = W.stages.length →
      let r := forkProcesses env gate W.pipes done rest t w
      (∀ p ∈ r.1, Fits cs W p)
        ∧ r.1.map Process.role
          = ((cs.drop done.length).zipIdx done.length).flatMap (fun (c, i) => roles i c.2)
        ∧ ∃ done' w', Looped F W done' [] r.2.2.1 w'
  | [], done, t, w, h, _, hlength => by
    have hcs : cs.drop done.length = [] := by
      rw [List.drop_eq_nil_iff, hsetup.stages.length_eq]
      simp at hlength
      omega
    refine ⟨by simp [forkProcesses], by simp [forkProcesses, hcs], done, w, h⟩
  | stage :: rest, done, t, w, h, hrest, hlength => by
    have hforking := h.forking htee
    have hmade := made_makeTee htee done.length stage w
    have hs : W.stages[done.length]? = some stage := by
      rw [← List.head?_drop, hrest]
      rfl
    have hlt : done.length < cs.length := by
      rw [hsetup.stages.length_eq]
      exact (List.getElem?_eq_some_iff.1 hs).1
    have hc : cs[done.length]? = some cs[done.length] := List.getElem?_eq_getElem hlt
    have htees := (hsetup.redirected hc hs).tee (h.untied stage (by simp)) htee done.length w
    have hcount : (done ++ (makeTee env done.length stage w).1 :: rest).length
        = W.stages.length := by
      rw [← hlength, List.length_append, List.length_cons, List.length_cons]
    have hlooped := hforking.looped fun s hm => h.untied s (by simp [hm])
    obtain ⟨hfits, hroles, hend⟩ := forkProcesses_fits hsetup htee hfork hteeFork rest _ _ _ hlooped
      (by rw [List.length_append, List.length_singleton, ← List.drop_drop, hrest]; rfl)
      (by simp only [List.length_append, List.length_cons, List.length_nil] at hlength ⊢; omega)
    obtain ⟨child, hchild⟩ := Option.isSome_iff_exists.1 (hfork done.length)
    simp only [forkProcesses, hchild, hteeFork, and_true]
    refine ⟨fun p hp => ?_, ?_, hend⟩
    · rcases List.mem_append.1 hp with hp | hp
      · rcases List.mem_cons.1 hp with rfl | hp
        · exact hforking.fits_stage hsetup hc hs hcount hmade
        · split_ifs at hp
          · rw [List.mem_singleton.1 hp]
            exact hforking.fits_tee hsetup
          · exact absurd hp List.not_mem_nil
      · exact hfits p hp
    · rw [List.map_append, hroles, List.drop_eq_getElem_cons hlt, List.zipIdx_cons,
        List.flatMap_cons, List.length_append, List.length_singleton]
      refine congrArg (· ++ _) ?_
      simp only [roles, ← htees]
      split_ifs <;> rfl

/-- The fork loop makes the children, and leaves the stages and the descriptors, that it does
when it is seen from the shell. -/
theorem forkProcesses_forkStages (env : Env) (gate : Option (ℕ × ℕ)) (pipes : List (Int × Int)) :
    ∀ (rest done : List Stage) (made : List ℕ+) (t : Table) (w : World),
      let r := forkProcesses env gate pipes done rest t w
      let s := forkStages env done.length rest made w
      r.2.1 = done ++ s.1 ∧ r.2.2.2 = s.2.2 ∧ made.length + r.1.length = s.2.1.length
  | [], done, made, t, w => by simp [forkProcesses, forkStages]
  | stage :: rest, done, made, t, w => by
    simp only [forkProcesses, forkStages]
    generalize makeTee env done.length stage w = r
    obtain ⟨stage, w⟩ := r
    cases env.fork done.length with
    | none => simp
    | some child =>
      simp only
      generalize closeTee stage w = r
      obtain ⟨closed, w⟩ := r
      have hlength : (done ++ [closed]).length = done.length + 1 := by simp
      have ih := forkProcesses_forkStages env gate pipes rest (done ++ [closed])
        (made ++ [child] ++ if 0 ≤ stage.teeRead then (env.teeFork done.length).toList else [])
        ((t.openTee done.length stage).close stage.teeWrite) w
      rw [hlength] at ih
      obtain ⟨hstages, hworld, hchildren⟩ := ih
      refine ⟨by rw [hstages]; simp, hworld, ?_⟩
      rw [← hchildren]
      cases env.teeFork done.length <;> by_cases htee : 0 ≤ stage.teeRead <;> simp [htee] <;> omega

end Loop

section Pipeline

variable {env : Env} {tokens : List Token} {force : Bool} {gate : Option (ℕ × ℕ)} {w : World}
  {W : Wiring}

/-- How `pipeline` comes to its fork loop. -/
structure Reaches (env : Env) (tokens : List Token) (force : Bool) (gate : Option (ℕ × ℕ))
    (w : World) (W : Wiring) : Prop where
  made : 0 < (makeStages env tokens force w).1
  stages : W.stages = (makeStages env tokens force w).2.1
  calloc : ¬ (env.pipesCalloc = false ∨ env.childrenCalloc = false)
  pipes : makePipes env (W.stages.length - 1) 0 [] (makeStages env tokens force w).2.2
    = (some W.pipes, W.world)
  processes : W.processes = ⟨.shell, (forkProcesses env gate W.pipes [] W.stages (.start W.world)
      W.world).2.2.1.closePipes W.pipes⟩
    :: (forkProcesses env gate W.pipes [] W.stages (.start W.world) W.world).1

theorem reaches_of_wiring (h : wiring env tokens force gate w = some W) :
    Reaches env tokens force gate w W := by
  unfold wiring at h
  simp only at h
  split_ifs at h with hpos halloc
  split at h
  · exact absurd h (by simp)
  · rename_i pipes w' hpipes
    obtain rfl := Option.some.inj h
    exact ⟨by omega, rfl, halloc, hpipes, rfl⟩

/-- The children `pipeline` counts are the processes it makes. -/
theorem wiring_children (h : wiring env tokens force gate w = some W) (background : Bool) :
    (pipeline env tokens background force w).children.length + 1 = W.processes.length := by
  have hreaches := reaches_of_wiring h
  have hpos := hreaches.made
  have hloop := (forkProcesses_forkStages env gate W.pipes W.stages [] [] (.start W.world)
    W.world).2.2
  have hpipes := hreaches.pipes
  rw [hreaches.processes, List.length_cons]
  rw [hreaches.stages] at hpipes hloop ⊢
  unfold pipeline
  simp only [if_neg (show ¬ (makeStages env tokens force w).1 = 0 by omega),
    if_neg (show ¬ (makeStages env tokens force w).1 < 0 by omega), if_neg hreaches.calloc, hpipes]
  simpa using hloop.symm

theorem looped_start {F : Set ℕ} (hholds : Holds F (pipeSet W.pipes + heldAll W.stages) W.world)
    (huntied : ∀ stage ∈ W.stages, Untied stage) :
    Looped F W [] W.stages (.start W.world) W.world := by
  refine ⟨by simpa using hholds, fun fd hfd => if_pos hfd, fun fd n hfd => ?_, fun fd hfd => ?_,
    fun fd j hfd => ?_, huntied⟩
  · unfold Table.start at hfd
    split_ifs at hfd
    exact (Wire.shell.inj (Option.some.inj hfd)).symm
  · unfold Table.start at hfd
    split_ifs at hfd with hopen
    · exact hopen
    · exact absurd rfl hfd
  · unfold Table.start at hfd
    split_ifs at hfd
    simp at hfd

theorem makePipes_some (hpipe : ∀ i, env.pipe i = true) : ∀ (todo i : ℕ) (pipes : List (Int × Int))
    (w : World), ∃ pipes' w', makePipes env todo i pipes w = (some pipes', w')
  | 0, _, pipes, w => ⟨pipes, w, rfl⟩
  | todo + 1, i, pipes, w => by
    simp only [makePipes, hpipe, Bool.true_eq_false, if_false]
    exact makePipes_some hpipe todo (i + 1) _ _

theorem setup_of_reaches (hacc : parseTokens tokens = 0) {slots : List (Option Target)}
    (hstd : ∀ fd ≤ 2, (⟨slots, []⟩ : World).IsOpen fd) (gate : Option (Gate ⟨slots, []⟩))
    (h : Reaches env tokens force (Gate.fds gate) ⟨slots, []⟩ W) :
    Setup {fd | (⟨slots, []⟩ : World).IsOpen fd} (commands tokens) W (Gate.fds gate)
      ∧ ∀ stage ∈ W.stages, Untied stage := by
  have hspec := makeStages_spec env hacc force ⟨slots, []⟩
  have hmade := h.made
  have hone : (makeStages env tokens force ⟨slots, []⟩).1 = 1 := by
    rcases hspec with ⟨hr, -⟩ | ⟨hr, -⟩ | ⟨hr, -⟩ <;> omega
  obtain ⟨hredirected, -⟩ := makeStages_redirected env hacc force ⟨slots, []⟩ hone
  rcases hspec with ⟨hr, -⟩ | ⟨-, -, -, -, hready, hholds⟩ | ⟨hr, -⟩
  · omega
  · rw [← h.stages] at hready hredirected hholds
    have hheld := hholds (Holds.start slots)
    obtain ⟨hlength, hends, hkeeps⟩ := makePipes_ends env _ 0 [] _ rfl
      (fun _ _ hp => by simp at hp) _ _ h.pipes
    obtain ⟨hnonneg, hpipes⟩ := makePipes_spec env (W.stages.length - 1) 0 []
      (makeStages env tokens force ⟨slots, []⟩).2.2 (by simp)
    rw [h.pipes] at hnonneg hpipes
    have hpos : 0 < W.stages.length := by
      rw [← hready.length_eq, commands, length_commandsFrom]
      omega
    refine ⟨⟨hstd 0 (by omega), hstd 1 (by omega), ?_, by omega, hnonneg, hends,
      hredirected.imp fun _ _ hr => hr.keep hkeeps, ?_⟩, untied_of_ready hready⟩
    · intro g hg
      obtain ⟨gate', hgate, rfl⟩ := Option.map_eq_some_iff.1 hg
      have h1 := gate'.two_lt_read
      have h2 := gate'.two_lt_write
      exact ⟨⟨gate'.isOpen_read, gate'.isOpen_write⟩, by simp only; omega, by simp only; omega⟩
    · have hstart := hpipes (M := 0 + heldAll W.stages) (by simpa [pipeSet] using hheld)
      simpa [add_comm] using hstart
  · omega

end Pipeline

/-- On an accepted line, with the pipes and forks of the fork loop succeeding and 0, 1 and 2 open,
the processes a pipeline makes are wired as its commands ask for; and it makes them if every other
call succeeds, too. -/
theorem pipeline_wired (env : Env) (tokens : List Token) (hacc : parseTokens tokens = 0)
    (htee : ∀ i, env.teePipe i = true) (hfork : ∀ i, (env.fork i).isSome = true)
    (hteeFork : ∀ i, (env.teeFork i).isSome = true) (force : Bool) (slots : List (Option Target))
    (hstd : ∀ fd ≤ 2, (⟨slots, []⟩ : World).IsOpen fd) (gate : Option (Gate ⟨slots, []⟩)) :
    (∀ W, wiring env tokens force (Gate.fds gate) ⟨slots, []⟩ = some W →
      Wired (commands tokens) W)
    ∧ ((1 < (commands tokens).length ∨ force = true) →
      env.stagesCalloc = true → stagesOk env 0 (commands tokens) = true →
      env.pipesCalloc = true → env.childrenCalloc = true → (∀ i, env.pipe i = true) →
      (wiring env tokens force (Gate.fds gate) ⟨slots, []⟩).isSome = true) := by
  constructor
  · intro W hW
    have hreaches := reaches_of_wiring hW
    obtain ⟨hsetup, huntied⟩ := setup_of_reaches hacc hstd gate hreaches
    obtain ⟨hfits, hroles, done, w, hend⟩ := forkProcesses_fits hsetup htee hfork hteeFork W.stages
      [] _ _ (looped_start hsetup.holds huntied) rfl (by simp)
    refine ⟨by rw [hsetup.count, hsetup.stages.length_eq], hsetup.ends, hsetup.stages, ?_, ?_⟩
    · rw [hreaches.processes, List.map_cons, hroles]
      rfl
    · rw [hreaches.processes]
      intro p hp
      rcases List.mem_cons.1 hp with rfl | hp
      · exact hend.fits_shell hsetup
      · exact hfits p hp
  · intro hcount hstages hok hpipes hchildren hpipe
    have hone : (makeStages env tokens force ⟨slots, []⟩).1 = 1 := by
      rcases makeStages_spec env hacc force ⟨slots, []⟩ with
        ⟨-, hlength, hforce, -⟩ | ⟨hr, -⟩ | ⟨-, ⟨hbad, -⟩ | ⟨-, hbad, -⟩⟩
      · simp [hlength, hforce] at hcount
      · exact hr
      · simp [hstages] at hbad
      · simp [hok] at hbad
    obtain ⟨pipes, w, hmake⟩ := makePipes_some hpipe
      ((makeStages env tokens force ⟨slots, []⟩).2.1.length - 1) 0 []
      (makeStages env tokens force ⟨slots, []⟩).2.2
    simp [wiring, hone, hpipes, hchildren, hmake]

/-- `a > x > y | b < z`. -/
def teePipeline : List Token :=
  [⟨.word, ['a']⟩, ⟨.opGt, ['>']⟩, ⟨.word, ['x']⟩, ⟨.opGt, ['>']⟩, ⟨.word, ['y']⟩,
    ⟨.opPipe, ['|']⟩, ⟨.word, ['b']⟩, ⟨.opLt, ['<']⟩, ⟨.word, ['z']⟩]

theorem pipeline_wired_teePipeline :
    ∃ W, wiring .succeeding teePipeline false none World.standard = some W
      ∧ Wired (commands teePipeline) W
      ∧ W.processes.map Process.role = [.shell, .stage 0, .tee 0, .stage 1] := by
  obtain ⟨hwired, hsome⟩ := pipeline_wired .succeeding teePipeline (by decide) (fun _ => rfl)
    (fun _ => rfl) (fun _ => rfl) false
    [some .inherited, some .inherited, some .inherited] (by decide) none
  obtain ⟨W, hW⟩ := Option.isSome_iff_exists.1
    (hsome (by decide) rfl (by decide) rfl rfl fun _ => rfl)
  exact ⟨W, hW, hwired W hW, (hwired W hW).roles⟩

end Shell

end CShellXv6
