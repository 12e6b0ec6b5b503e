import CShellXv6.Proofs.Stages

/-!
# Pipelines of accepted segments

What `run_tokens` hands on is a group of the grammar, so its stages tile it and every operator
has its file name. The descriptors are followed through the pipes and the forks: each is with a
stage or in the pipe array until it is closed. The one way out that does not give back exactly
what was taken is a failure before the last stage, where the stages not reached yet are freed
as `calloc` left them.
-/

namespace CShellXv6

namespace Shell

section Line

theorem lineEnd_append {g : List Token} (hg : ∀ t ∈ g, t.type ≠ .opSemi ∧ t.type ≠ .opAmp)
    (rest : List Token) (hrest : ∀ t ∈ rest.head?, t.type = .opSemi ∨ t.type = .opAmp) :
    lineEnd (g ++ rest) = g.length := by
  unfold lineEnd
  rw [List.findIdx_append, List.findIdx_eq_length.2 (by simpa using hg)]
  rcases rest with _ | ⟨t, rest⟩
  · simp
  · rcases hrest t rfl with ht | ht <;> simp [List.findIdx_cons, ht]

theorem take_lineEnd_append {g : List Token} (hg : ∀ t ∈ g, t.type ≠ .opSemi ∧ t.type ≠ .opAmp)
    (rest : List Token) (hrest : ∀ t ∈ rest.head?, t.type = .opSemi ∨ t.type = .opAmp) :
    (g ++ rest).take (lineEnd (g ++ rest)) = g := by
  rw [lineEnd_append hg rest hrest, List.take_left]

theorem Group.take_lineEnd {g : List Token} (h : Group g) : g.take (lineEnd g) = g := by
  have := take_lineEnd_append h.plain [] (by simp)
  simpa using this

theorem Groups.first {l : List Token} (h : Groups l) (tail : List Token)
    (htail : ∀ t ∈ tail.head?, t.type = .opSemi ∨ t.type = .opAmp) :
    Group ((l ++ tail).take (lineEnd (l ++ tail))) := by
  rcases h with hg | @⟨g, l, t, hg, ht, -⟩
  · rwa [take_lineEnd_append hg.plain tail htail]
  · rw [List.append_assoc, take_lineEnd_append hg.plain _ (by simpa using ht)]
    exact hg

/-- The tokens before the first `;` or `&` of an accepted line are a group. -/
theorem Line.first {l : List Token} (h : Line l) : Group (l.take (lineEnd l)) := by
  rcases h with hl | ⟨hl, ha⟩
  · simpa using hl.first [] (by simp)
  · exact hl.first [_] (by simp [ha])

theorem operands_of_mem_commands {tokens : List Token} (h : parseTokens tokens = 0) :
    ∀ c ∈ commands tokens, Operands c.2 := by
  intro c hc
  by_cases hne : tokens = []
  · subst hne
    rw [List.mem_singleton.1 hc]
    exact .nil
  · exact ((line_of_accepted h hne).first.command_of_mem 0 c hc).operands

/-- A line without separators is a group. -/
theorem Line.group {l : List Token} (h : Line l)
    (hl : ∀ t ∈ l, t.type ≠ .opSemi ∧ t.type ≠ .opAmp) : Group l := by
  have hend : lineEnd l = l.length := by simpa using lineEnd_append hl [] (by simp)
  have := h.first
  rwa [hend, List.take_length] at this

theorem PipeFree.command {seg : List Token} (h : PipeFree seg) : Command seg := by
  have hplain : ∀ t ∈ seg, t.type ≠ .opPipe ∧ t.type ≠ .opSemi ∧ t.type ≠ .opAmp := by
    simpa [isSeparator, and_assoc] using h.plain
  have hline := line_of_accepted h.accepted h.ne_nil
  rcases hline.group fun t ht => (hplain t ht).2 with hc | ⟨-, hp, -⟩
  · exact hc
  · exact absurd hp (hplain _ (by simp)).1

theorem Cuts.group {tokens : List Token} {gs : List Segment} (h : Cuts tokens gs) {g : Segment}
    (hg : g ∈ gs) : Group g.tokens :=
  (line_of_accepted (h.accepted g hg) (h.ne_nil g hg)).group (h.plain g hg)

/-- The calls made while segments are run are on these segments. -/
theorem runSegments_recorder (answer : List Call → List Token → Int) :
    ∀ (gs : List Segment) (calls : List Call), ∀ call ∈ runSegments (recorder answer) gs calls,
      call ∈ calls ∨ ∃ g ∈ gs, call.segment = g.tokens
  | [], _, _, h => .inl h
  | g :: gs, calls, call, h => by
    have hnext : ∀ new : Call, new.segment = g.tokens →
        call ∈ calls ++ [new] ∨ (∃ g' ∈ gs, call.segment = g'.tokens) →
        call ∈ calls ∨ ∃ g' ∈ g :: gs, call.segment = g'.tokens := by
      rintro new hnew (hm | ⟨g', hm, hseg⟩)
      · rcases List.mem_append.1 hm with hm | hm
        · exact .inl hm
        · rw [List.mem_singleton.1 hm]
          exact .inr ⟨g, by simp, hnew⟩
      · exact .inr ⟨g', by simp [hm], hseg⟩
    unfold runSegments at h
    split_ifs at h
    · exact hnext (.runbuff g.tokens) rfl (runSegments_recorder answer gs _ call h)
    · exact hnext (.runcomm g.tokens) rfl (.inl h)
    · exact hnext (.runcomm g.tokens) rfl (runSegments_recorder answer gs _ call h)

end Line

section Redirection

/-- Every redirection operator stands before a word. -/
inductive Named : List Token → Prop
  | nil : Named []
  | other {t : Token} {ts : List Token} : isRedirection t.type = false → Named ts → Named (t :: ts)
  | redirection {r t : Token} {ts : List Token} : isRedirection r.type = true → t.type = .word →
      Named ts → Named (r :: t :: ts)

theorem Operands.named_append {ts rest : List Token} (h : Operands ts) (hr : Named rest) :
    Named (ts ++ rest) := by
  induction h with
  | nil => exact hr
  | word ht _ ih => exact .other (by simp [ht, isRedirection]) ih
  | redirection hr ht _ ih => exact .redirection hr ht ih

theorem Group.named {g : List Token} (h : Group g) : Named g := by
  induction h with
  | one hc => simpa using hc.operands.named_append .nil
  | pipe hc hp _ ih => exact hc.operands.named_append (.other (by simp [hp, isRedirection]) ih)

variable (env : Env)

theorem collectLoop_word {t : Token} (ht : t.type = .word) (i : ℕ) (rest : List Token)
    (argv : List (List Char)) (input : Int) (w : World) :
    collectLoop env i (t :: rest) argv input w
      = collectLoop env (i + 1) rest (argv ++ [t.text]) input w := by
  rw [collectLoop, Calls.collectLoop_word _ _ ht]
  rfl

theorem collectLoop_input {t f : Token} (ht : t.type = .opLt) (hf : f.type = .word) (i : ℕ)
    (rest : List Token) (argv : List (List Char)) (input : Int) (w : World) :
    collectLoop env i (t :: f :: rest) argv input w =
      let r := openFile env i (.input f.text) w
      if r.1 < 0 then (-1, argv, -1, closeIfOpen input r.2)
      else
        let q := if input < 0 then r else joinInputs env i input r.1 r.2
        if q.1 < 0 then (-1, argv, -1, q.2) else collectLoop env (i + 2) rest argv q.1 q.2 := by
  rw [collectLoop, Calls.collectLoop_input _ _ ht hf]
  rfl

theorem collectLoop_output {t f : Token} (ht : t.type = .opGt ∨ t.type = .opGtgt)
    (hf : f.type = .word) (i : ℕ) (rest : List Token) (argv : List (List Char)) (input : Int)
    (w : World) :
    collectLoop env i (t :: f :: rest) argv input w
      = collectLoop env (i + 2) rest argv input w := by
  rw [collectLoop, Calls.collectLoop_output _ _ ht hf]
  rfl

theorem collectLoop_ne {ts : List Token} (h : Named ts) :
    ∀ (i : ℕ) (argv : List (List Char)) (input : Int) (w : World),
      (collectLoop env i ts argv input w).1 ≠ -2 := by
  induction h with
  | nil => simp [collectLoop, Calls.collectLoop]
  | @other t ts ht _ ih =>
    intro i argv input w
    have hlt : t.type ≠ .opLt := fun h => by simp [h, isRedirection] at ht
    have hgt : ¬ (t.type = .opGt ∨ t.type = .opGtgt) := by
      rintro (h | h) <;> simp [h, isRedirection] at ht
    by_cases hword : t.type = .word
    · rw [collectLoop_word env hword]
      exact ih _ _ _ _
    · rw [collectLoop, Calls.collectLoop_other _ _ hword hlt hgt]
      exact ih _ _ _ _
  | @redirection r t ts hr ht _ ih =>
    intro i argv input w
    by_cases hlt : r.type = .opLt
    · rw [collectLoop_input env hlt ht]
      simp only
      split_ifs <;> first | exact ih _ _ _ _ | simp
    · have hgt : r.type = .opGt ∨ r.type = .opGtgt := by
        simpa [isRedirection, hlt] using hr
      rw [collectLoop_output env hgt ht]
      exact ih _ _ _ _

theorem collectCommand_eq (ts : List Token) (w : World) :
    collectCommand env ts w =
      let r := collectLoop env 0 ts [] (-1) w
      if r.1 ≠ 0 then r
      else if 0 ≤ r.2.2.1 ∧ env.fdopen = false then (-1, r.2.1, -1, closeFd r.2.2.1 r.2.2.2)
      else (0, r.2) :=
  rfl

theorem collectCommand_ne {ts : List Token} (h : Named ts) (w : World) :
    (collectCommand env ts w).1 ≠ -2 := by
  have hloop := collectLoop_ne env h 0 [] (-1) w
  rw [collectCommand_eq]
  simp only
  split_ifs
  · exact hloop
  · simp
  · simp

theorem prepareLoop_word {t : Token} (ht : t.type = .word) (i : ℕ) (rest : List Token)
    (output : OutputRedirect) (w : World) :
    prepareLoop env i (t :: rest) output w = prepareLoop env (i + 1) rest output w := by
  rw [prepareLoop, Calls.prepareLoop_word _ ht]
  rfl

theorem prepareLoop_input {t f : Token} (ht : t.type = .opLt) (hf : f.type = .word) (i : ℕ)
    (rest : List Token) (output : OutputRedirect) (w : World) :
    prepareLoop env i (t :: f :: rest) output w = prepareLoop env (i + 2) rest output w := by
  rw [prepareLoop, Calls.prepareLoop_input _ ht hf]
  rfl

theorem prepareLoop_output {t f : Token} (ht : t.type = .opGt ∨ t.type = .opGtgt)
    (hf : f.type = .word) (i : ℕ) (rest : List Token) (output : OutputRedirect) (w : World) :
    prepareLoop env i (t :: f :: rest) output w =
      let r := openFile env i (outputTarget t.type f.text) w
      if r.1 < 0 then (-1, closeOutputFiles output r.2)
      else if env.filesRealloc i = false then (-1, closeOutputFiles output (closeFd r.1 r.2))
      else prepareLoop env (i + 2) rest { output with files := output.files ++ [r.1] } r.2 := by
  rw [prepareLoop, Calls.prepareLoop_output _ ht hf]
  refine (apply_ite output.fill _ _ _).trans (if_congr Iff.rfl rfl ?_)
  exact apply_ite output.fill _ _ _

theorem prepareLoop_ne {ts : List Token} (h : Named ts) :
    ∀ (i : ℕ) (output : OutputRedirect) (w : World), (prepareLoop env i ts output w).1 ≠ -2 := by
  induction h with
  | nil => simp [prepareLoop, Calls.prepareLoop, OutputRedirect.fill]
  | @other t ts ht _ ih =>
    intro i output w
    have hgt : t.type ≠ .opGt ∧ t.type ≠ .opGtgt := by
      constructor <;> intro h <;> simp [h, isRedirection] at ht
    rw [prepareLoop, Calls.prepareLoop_other _ hgt]
    split_ifs
    · simp [OutputRedirect.fill]
    · exact ih _ _ _
  | @redirection r t ts hr ht _ ih =>
    intro i output w
    by_cases hlt : r.type = .opLt
    · rw [prepareLoop_input env hlt ht]
      exact ih _ _ _
    · have hgt : r.type = .opGt ∨ r.type = .opGtgt := by
        simpa [isRedirection, hlt] using hr
      rw [prepareLoop_output env hgt ht]
      simp only
      split_ifs
      · simp
      · simp
      · exact ih _ _ _

theorem prepareOutput_ne {ts : List Token} (h : Named ts) (output : OutputRedirect) (w : World) :
    (prepareOutput env ts output w).1 ≠ -2 := by
  have hloop := prepareLoop_ne env h 0 output w
  unfold prepareOutput
  simp only
  split_ifs
  · exact hloop
  all_goals simp

end Redirection

section Segment

variable (env : Env)

/-- How `make_stages` ends on an accepted line. -/
theorem makeStages_spec {tokens : List Token} (h : parseTokens tokens = 0) (force : Bool)
    (w : World) :
    let r := makeStages env tokens force w
    (r.1 = 0 ∧ (commands tokens).length = 1 ∧ force = false ∧ r.2.2 = w)
      ∨ (r.1 = 1 ∧ ((commands tokens).length ≠ 1 ∨ force = true) ∧ env.stagesCalloc = true
        ∧ stagesOk env 0 (commands tokens) = true ∧ List.Forall₂ StageReady (commands tokens) r.2.1
        ∧ ∀ {F : Set ℕ} {M : Multiset ℕ}, FdTable.Holds F M w →
          FdTable.Holds F (M + heldAll r.2.1) r.2.2)
      ∨ ((r.1 = -1 ∨ r.1 = -3 ∨ r.1 = -4)
        ∧ ((env.stagesCalloc = false ∧ r.2.2 = w)
          ∨ (env.stagesCalloc = true ∧ stagesOk env 0 (commands tokens) = false
            ∧ (stagesOk env 0 (commands tokens).dropLast = true
                ∧ (∀ {F : Set ℕ} {M : Multiset ℕ}, FdTable.Holds F M w → FdTable.Holds F M r.2.2)
              ∨ stagesOk env 0 (commands tokens).dropLast = false ∧ ¬ r.2.2.IsOpen 0)))) := by
  simp only [makeStages_eq]
  split_ifs with h1 h2
  · exact .inl ⟨rfl, h1.1, h1.2, rfl⟩
  · exact .inr (.inr ⟨.inr (.inl rfl), .inl ⟨h2, rfl⟩⟩)
  · have hcalloc : env.stagesCalloc = true := by simpa using h2
    have hforce : (commands tokens).length ≠ 1 ∨ force = true := by
      rw [not_and_or] at h1
      simpa using h1
    have hspec := buildStages_spec env (commands tokens) (operands_of_mem_commands h) 0 [] w rfl
    simp only [List.nil_append] at hspec
    rcases hspec with ⟨hr, hok, new, hnew, hready, hholds⟩ | ⟨hr, hok, hend⟩
    · refine .inr (.inl ⟨hr, hforce, hcalloc, hok, hnew ▸ hready, fun hF => ?_⟩)
      rw [hnew]
      exact hholds (by simpa [heldAll] using hF)
    · refine .inr (.inr ⟨hr, .inr ⟨hcalloc, hok, ?_⟩⟩)
      rcases hend with ⟨hlast, hholds⟩ | hclosed
      · exact .inl ⟨hlast, fun hF => hholds (by simpa [heldAll] using hF)⟩
      · exact .inr hclosed

theorem tiles_of_ready {ts : List Token} :
    ∀ {i : ℕ} {stages : List Stage}, List.Forall₂ StageReady (commandsFrom i ts) stages →
      Tiles i ts stages := by
  induction ts using pieces_induction with
  | one c hc =>
    intro i stages h
    rw [commandsFrom_of_pipeless i hc] at h
    obtain ⟨stage, rest, hready, hnil, rfl⟩ := List.forall₂_cons_left_iff.1 h
    rw [List.forall₂_nil_left_iff.1 hnil]
    exact .last hc hready.start hready.stop
  | pipe c p g hc hp ih =>
    intro i stages h
    rw [commandsFrom_append_pipe hp g i hc] at h
    obtain ⟨stage, rest, hready, hrest, rfl⟩ := List.forall₂_cons_left_iff.1 h
    refine .pipe hc hp hready.start hready.stop (ih ?_)
    rwa [hready.stop]

theorem args_of_ready {cs : List (ℕ × List Token)} {stages : List Stage}
    (h : List.Forall₂ StageReady cs stages) (hc : ∀ c ∈ cs, Command c.2) :
    ∀ stage ∈ stages, stage.args ≠ [] := by
  induction h with
  | nil => simp
  | cons hready _ ih =>
    intro stage hm
    rcases List.mem_cons.1 hm with rfl | hm
    · exact hready.args (hc _ (by simp))
    · exact ih (fun c hm => hc c (by simp [hm])) stage hm

/-- A command of a list stands in it where its index says. -/
theorem mem_commandsFrom {ts : List Token} :
    ∀ (pre : List Token) {c : ℕ × List Token}, c ∈ commandsFrom pre.length ts →
      ∃ before rest, c.1 = before.length ∧ pre ++ ts = before ++ (c.2 ++ rest) := by
  induction ts using pieces_induction with
  | one d hd =>
    intro pre c hc
    rw [commandsFrom_of_pipeless _ hd, List.mem_singleton] at hc
    exact ⟨pre, [], by simp [hc], by simp [hc]⟩
  | pipe d p g hd hp ih =>
    intro pre c hc
    rw [commandsFrom_append_pipe hp g _ hd, List.mem_cons] at hc
    rcases hc with rfl | hc
    · exact ⟨pre, p :: g, rfl, rfl⟩
    · obtain ⟨before, rest, hi, happ⟩ := ih (pre ++ d ++ [p])
        (by simpa [Nat.add_assoc] using hc)
      exact ⟨before, rest, hi, by simpa using happ⟩

theorem stageArgs_ne {seg : List Token} (h : Group seg) {c : ℕ × List Token}
    (hc : c ∈ commands seg) (k : ℕ) (w : World) :
    (stageArgs env seg k (freshStage c.1 (c.1 + c.2.length)) w).1 ≠ -2 := by
  rw [commands, h.take_lineEnd] at hc
  obtain ⟨before, rest, hi, happ⟩ := mem_commandsFrom [] hc
  obtain ⟨i, tokens⟩ := c
  obtain rfl : i = before.length := hi
  have hops : Operands tokens := (h.command_of_mem 0 _ hc).operands
  have hspec := stageArgsOn_spec env (c := (before.length, tokens)) hops k w
  rw [stageArgs_eq env (h.take_lineEnd.trans happ)]
  have := hspec.2.1
  simp only at this ⊢
  omega

theorem leader_ne_zero (made : List ℕ+) : leader made ≠ 0 := by
  rcases made with _ | ⟨child, made⟩
  · simp [leader]
  · simp [leader]

theorem pipeline_background_ne {tokens : List Token} (h : parseTokens tokens = 0)
    (hpipe : (commands tokens).length ≠ 1) (force : Bool) (w : World) :
    (pipeline env tokens true force w).result ≠ 0 := by
  have hspec := makeStages_spec env h force w
  have hne : (makeStages env tokens force w).1 ≠ 0 := by
    rcases hspec with ⟨-, hone, -⟩ | ⟨hr, -⟩ | ⟨hr, -⟩
    · exact absurd hone hpipe
    · simp [hr]
    · omega
  unfold pipeline
  simp only [if_true, if_neg hne]
  split_ifs
  · simp
  · simp
  · split
    · simp
    · exact leader_ne_zero _

theorem one_lt_length_commands {seg : List Token} (h : Group seg) :
    (commands seg).length ≠ 1 ↔ ∃ t ∈ seg, t.type = .opPipe := by
  rw [commands, h.take_lineEnd, length_commandsFrom]
  have hpos := List.countP_pos_iff (p := fun t : Token => t.type = .opPipe) (l := seg)
  simp only [decide_eq_true_eq] at hpos
  rw [← hpos]
  omega

theorem Group.safe {seg : List Token} (h : Group seg) (w : World) : SegmentSafe env seg w := by
  have hspec := fun force => makeStages_spec env h.accepted force w
  have hready : ∀ force, (makeStages env seg force w).1 = 1 →
      List.Forall₂ StageReady (commandsFrom 0 seg) (makeStages env seg force w).2.1 := by
    intro force h1
    rcases hspec force with ⟨hr, -⟩ | ⟨-, -, -, -, hready, -⟩ | ⟨hr, -⟩
    · omega
    · rwa [commands, h.take_lineEnd] at hready
    · omega
  refine ⟨fun force => ?_, fun force h1 => ?_, fun force h1 => tiles_of_ready (hready force h1),
    fun force h1 => args_of_ready (hready force h1) (h.command_of_mem 0),
    fun c hc k w' => stageArgs_ne env h hc k w', fun force => ?_, collectCommand_ne env h.named w,
    prepareOutput_ne env h.named _ w, fun hpipe force => ?_⟩
  · rw [← one_lt_length_commands h]
    rcases hspec force with ⟨hr, hone, hforce, -⟩ | ⟨hr, hlen, hcalloc, hok, -⟩
      | ⟨hr, ⟨hcalloc, -⟩ | ⟨-, hok, -⟩⟩
    · rw [hr]
      simp [hone, hforce]
    · rw [hr]
      simpa [hcalloc, hok] using hlen.symm
    · have : (makeStages env seg force w).1 ≠ 1 := by omega
      simp [this, hcalloc]
    · have : (makeStages env seg force w).1 ≠ 1 := by omega
      simp [this, hok]
  · rw [← (hready force h1).length_eq, length_commandsFrom]
  · rcases hspec force with ⟨hr, -⟩ | ⟨hr, -⟩ | ⟨hr, -⟩ <;> omega
  · exact pipeline_background_ne env h.accepted ((one_lt_length_commands h).2 hpipe) force w

end Segment

/-- On every segment `run_tokens` hands on from an accepted line the stages are the commands
between its pipes, each with an argument, no operator lacks its file name, and a background
pipeline does not return 0. -/
theorem segmentSafe_of_call (tokens : List Token) (h : parseTokens tokens = 0)
    (answer : List Call → List Token → Int) (call : Call)
    (hcall : call ∈ runTokens (recorder answer) tokens []) (env : Env) (w : World) :
    SegmentSafe env call.segment w := by
  have hne : tokens ≠ [] := by
    rintro rfl
    simp [runTokens_nil] at hcall
  obtain ⟨gs, hcuts, hrun⟩ := (line_of_accepted h hne).exists_cuts
  rw [hrun] at hcall
  rcases runSegments_recorder answer gs [] call hcall with hm | ⟨g, hg, hseg⟩
  · simp at hm
  · rw [hseg]
    exact (hcuts.group hg).safe env w

theorem segmentSafe_of_call_pipe :
    let tokens : List Token := [⟨.word, ['a']⟩, ⟨.opPipe, ['|']⟩, ⟨.word, ['b']⟩]
    (parseTokens tokens = 0 ∧ Call.runcomm tokens ∈ runTokens (recorder fun _ _ => 0) tokens [])
      ∧ SegmentSafe .succeeding tokens .standard :=
  ⟨by decide, segmentSafe_of_call [⟨.word, ['a']⟩, ⟨.opPipe, ['|']⟩, ⟨.word, ['b']⟩] (by decide)
    (fun _ _ => 0) (.runcomm _) (by decide) .succeeding .standard⟩

section Descriptors

open FdTable

variable (env : Env) {F : Set ℕ} {M : Multiset ℕ}

/-- The descriptors in the pipe array. -/
def pipeSet (pipes : List (Int × Int)) : Multiset ℕ :=
  (pipes.map fun p => fdSet p.1 + fdSet p.2).sum

theorem holds_closePipes : ∀ {pipes : List (Int × Int)} {w : World},
    (∀ p ∈ pipes, 0 ≤ p.1 ∧ 0 ≤ p.2) → Holds F (M + pipeSet pipes) w →
      Holds F M (closePipes pipes w)
  | [], w, _, h => by simpa [pipeSet, closePipes] using h
  | p :: pipes, w, hp, h => by
    obtain ⟨h1, h2⟩ := hp p (by simp)
    refine holds_closePipes (w := closeFd p.2 (closeFd p.1 w)) (fun q hq => hp q (by simp [hq]))
      (holds_closeFd h2 (holds_closeFd h1 ?_))
    rw [show M + pipeSet pipes + fdSet p.2 + fdSet p.1 = M + pipeSet (p :: pipes) by
      simp only [pipeSet, List.map_cons, List.sum_cons]; abel]
    exact h

theorem makePipes_spec : ∀ (todo i : ℕ) (pipes : List (Int × Int)) (w : World),
    (∀ p ∈ pipes, 0 ≤ p.1 ∧ 0 ≤ p.2) →
      let r := makePipes env todo i pipes w
      (∀ p ∈ r.1.getD [], 0 ≤ p.1 ∧ 0 ≤ p.2)
        ∧ ∀ {F : Set ℕ} {M : Multiset ℕ}, Holds F (M + pipeSet pipes) w →
          Holds F (M + pipeSet (r.1.getD [])) r.2
  | 0, i, pipes, w, hp => ⟨hp, fun h => h⟩
  | todo + 1, i, pipes, w, hp => by
    simp only [makePipes]
    split_ifs with henv
    · refine ⟨by simp, fun h => ?_⟩
      simpa [pipeSet] using holds_closePipes hp h
    · have hread := openAs_nonneg (.pipe i) w
      have hwrite := openAs_nonneg (.pipe i) (openAs (.pipe i) w).2
      have ih := makePipes_spec todo (i + 1)
        (pipes ++ [((openAs (.pipe i) w).1, (openAs (.pipe i) (openAs (.pipe i) w).2).1)])
        (openAs (.pipe i) (openAs (.pipe i) w).2).2 (by
          intro p hm
          rcases List.mem_append.1 hm with hm | hm
          · exact hp p hm
          · rw [List.mem_singleton.1 hm]
            exact ⟨hread, hwrite⟩)
      refine ⟨ih.1, fun h => ih.2 ?_⟩
      have := holds_openAs (.pipe i) (holds_openAs (.pipe i) h)
      simpa [pipeSet, add_assoc] using this

/-- A stage no tee process has been made for. -/
structure Untied (stage : Stage) : Prop where
  teeRead : stage.teeRead = -1
  teeWrite : stage.teeWrite = -1
  output : 1 < stage.files.length → stage.output = -1

theorem makeTee_spec {stage : Stage} (hs : Untied stage) (i : ℕ) (w : World) :
    let r := makeTee env i stage w
    (0 ≤ r.1.teeWrite → r.1.output = r.1.teeWrite)
      ∧ ∀ {F : Set ℕ} {M : Multiset ℕ},
        Holds F (M + stage.held) w → Holds F (M + r.1.held) r.2 := by
  unfold makeTee
  split_ifs with htee
  · refine ⟨fun _ => rfl, fun {F M} h => ?_⟩
    have hheld : ∀ r o : Int, ({ stage with teeRead := r, teeWrite := o, output := o } : Stage).held
        = stage.held + fdSet r + fdSet o := by
      intro r o
      simp only [Stage.held, hs.teeRead, hs.output htee.1, fdSet_neg_one]
      abel
    simp only [hheld, ← add_assoc]
    exact holds_openAs (.tee i) (holds_openAs (.tee i) h)
  · exact ⟨fun h => by simp [hs.teeWrite] at h, fun h => h⟩

theorem closeTee_holds {stage : Stage} (hs : 0 ≤ stage.teeWrite → stage.output = stage.teeWrite)
    {w : World} (h : Holds F (M + stage.held) w) :
    Holds F (M + (closeTee stage w).1.held) (closeTee stage w).2 := by
  unfold closeTee
  split_ifs with htee
  · refine holds_closeFd htee ?_
    have hheld : ({ stage with teeWrite := -1, output := -1 } : Stage).held + fdSet stage.teeWrite
        = stage.held := by
      simp only [Stage.held, hs htee, fdSet_neg_one]
      abel
    rwa [add_assoc, hheld]
  · exact h

theorem heldAll_cons (stage : Stage) (stages : List Stage) :
    heldAll (stage :: stages) = stage.held + heldAll stages := by
  simp [heldAll]

theorem forkStages_holds : ∀ (i : ℕ) (stages : List Stage) (made : List ℕ+) (w : World)
    (M : Multiset ℕ), (∀ stage ∈ stages, Untied stage) → Holds F (M + heldAll stages) w →
      Holds F (M + heldAll (forkStages env i stages made w).1) (forkStages env i stages made w).2.2
  | _, [], _, _, _, _, h => h
  | i, stage :: rest, made, w, M, hs, h => by
    obtain ⟨htee, hmake⟩ := makeTee_spec env (hs stage (by simp)) i w
    have h1 : Holds F (M + heldAll rest + (makeTee env i stage w).1.held)
        (makeTee env i stage w).2 := by
      refine hmake ?_
      rwa [add_assoc, add_comm (heldAll rest), ← heldAll_cons]
    simp only [forkStages]
    cases env.fork i with
    | none =>
      simp only [heldAll_cons]
      rwa [add_comm (Stage.held _), ← add_assoc]
    | some child =>
      have h2 := closeTee_holds htee h1
      rw [add_right_comm] at h2
      have ih := forkStages_holds (i + 1) rest
        (made ++ [child] ++ if 0 ≤ (makeTee env i stage w).1.teeRead then (env.teeFork i).toList
          else []) _ _ (fun stage hm => hs stage (by simp [hm])) h2
      simp only [heldAll_cons, ← add_assoc]
      exact ih

theorem stagesOk_dropLast : ∀ {cs : List (ℕ × List Token)} {k : ℕ}, stagesOk env k cs = true →
    stagesOk env k cs.dropLast = true
  | [], _, h => h
  | [_], _, _ => rfl
  | c :: d :: cs, k, h => by
    rw [stagesOk, Bool.and_eq_true] at h
    rw [List.dropLast_cons_of_ne_nil (by simp), stagesOk, Bool.and_eq_true]
    exact ⟨h.1, stagesOk_dropLast h.2⟩

theorem untied_of_ready {cs : List (ℕ × List Token)} {stages : List Stage}
    (h : List.Forall₂ StageReady cs stages) : ∀ stage ∈ stages, Untied stage := by
  induction h with
  | nil => simp
  | cons hready _ ih =>
    intro stage hm
    rcases List.mem_cons.1 hm with rfl | hm
    · exact ⟨hready.teeRead, hready.teeWrite, hready.output⟩
    · exact ih stage hm

/-- With its stages made, a pipeline gives back all it took. -/
theorem pipeline_holds_of_stages {tokens : List Token} (background : Bool) {force : Bool}
    {w : World} (hr : (makeStages env tokens force w).1 = 1)
    (huntied : ∀ stage ∈ (makeStages env tokens force w).2.1, Untied stage)
    (h : Holds F (M + heldAll (makeStages env tokens force w).2.1)
      (makeStages env tokens force w).2.2) :
    Holds F M (pipeline env tokens background force w).world := by
  unfold pipeline
  revert hr huntied h
  generalize makeStages env tokens force w = r
  obtain ⟨result, stages, w'⟩ := r
  intro hr huntied h
  simp only at hr huntied h
  subst hr
  simp only [one_ne_zero, if_false, Int.reduceLT]
  by_cases halloc : env.pipesCalloc = false ∨ env.childrenCalloc = false
  · rw [if_pos halloc]
    exact holds_freeStages h
  · rw [if_neg halloc]
    have hspec := makePipes_spec env (stages.length - 1) 0 [] w' (by simp)
    have hpipes := hspec.2 (show Holds F (M + heldAll stages + pipeSet []) w' by
      simpa [pipeSet] using h)
    split
    · rename_i w'' hmake
      rw [hmake] at hpipes
      exact holds_freeStages (by simpa [pipeSet] using hpipes)
    · rename_i pipes w'' hmake
      rw [hmake] at hpipes hspec
      simp only [Option.getD_some] at hpipes hspec
      rw [add_right_comm] at hpipes
      have hfork := forkStages_holds env 0 stages [] w'' _ huntied hpipes
      rw [add_right_comm] at hfork
      exact holds_freeStages (holds_closePipes hspec.1 hfork)

theorem pipeline_world_of_nonpos {tokens : List Token} {background force : Bool} {w : World}
    (hr : (makeStages env tokens force w).1 ≤ 0) :
    (pipeline env tokens background force w).world = (makeStages env tokens force w).2.2 := by
  unfold pipeline
  by_cases h0 : (makeStages env tokens force w).1 = 0
  · simp only [if_pos h0]
  · simp only [if_neg h0, if_pos (show (makeStages env tokens force w).1 < 0 by omega)]

end Descriptors

/-- On an accepted line `pipeline` leaves the shell's descriptors as they were, with everything
it opened closed once, exactly if no stage before the last fails to be set up once the stage
array is there. -/
theorem pipeline_restored_iff (env : Env) (tokens : List Token) (hacc : parseTokens tokens = 0)
    (background force : Bool) (slots : List (Option Target))
    (hstd : ∀ fd ≤ 2, (⟨slots, []⟩ : World).IsOpen fd) :
    FdTable.Restored {fd | (⟨slots, []⟩ : World).IsOpen fd}
        (pipeline env tokens background force ⟨slots, []⟩).world
      ↔ env.stagesCalloc = false ∨ stagesOk env 0 (commands tokens).dropLast = true := by
  have hstart := FdTable.Holds.start slots
  have hspec := makeStages_spec env hacc force ⟨slots, []⟩
  simp only at hspec
  rcases hspec with ⟨hr, hone, -, hw⟩ | ⟨hr, -, -, hok, hready, hholds⟩
    | ⟨hr, ⟨hcalloc, hw⟩ | ⟨hcalloc, -, ⟨hlast, hholds⟩ | ⟨hlast, hclosed⟩⟩⟩
  · rw [pipeline_world_of_nonpos env (by omega), hw]
    obtain ⟨c, hc⟩ := List.length_eq_one_iff.1 hone
    simp [hstart.restored, hc, stagesOk]
  · have := pipeline_holds_of_stages env background hr (untied_of_ready hready)
      (hholds hstart)
    simp [this.restored, stagesOk_dropLast env hok]
  · rw [pipeline_world_of_nonpos env (by omega), hw]
    simp [hstart.restored, hcalloc]
  · rw [pipeline_world_of_nonpos env (by omega)]
    simp [(hholds hstart).restored, hlast]
  · rw [pipeline_world_of_nonpos env (by omega)]
    have := FdTable.not_restored_of_not_isOpen (F := {fd | (⟨slots, []⟩ : World).IsOpen fd})
      (hstd 0 (by omega)) hclosed
    simp [this, hcalloc, hlast]

/-- `a < x | b`, where the file `x` cannot be opened. -/
def missingInput : List Token :=
  [⟨.word, ['a']⟩, ⟨.opLt, ['<']⟩, ⟨.word, ['x']⟩, ⟨.opPipe, ['|']⟩, ⟨.word, ['b']⟩]

def Env.missing : Env :=
  { Env.succeeding with openFile := fun i => i ≠ 1 }

theorem pipeline_restored_iff_missing :
    (parseTokens missingInput = 0 ∧ ∀ fd ≤ 2, World.standard.IsOpen fd)
      ∧ (FdTable.Restored {fd | World.standard.IsOpen fd}
          (pipeline .missing missingInput false false .standard).world
        ↔ Env.missing.stagesCalloc = false
          ∨ stagesOk .missing 0 (commands missingInput).dropLast = true) :=
  ⟨by decide, pipeline_restored_iff .missing missingInput (by decide) false false _ (by decide)⟩

/-- The shell loses its standard input. -/
theorem runPipeline_closes_stdin :
    parseTokens missingInput = 0 ∧ (∀ fd ≤ 2, World.standard.IsOpen fd)
      ∧ ¬ (runPipeline .missing missingInput .standard).world.IsOpen 0
      ∧ ¬ FdTable.Restored {fd | World.standard.IsOpen fd}
        (runPipeline .missing missingInput .standard).world := by
  have hclosed : ¬ (runPipeline .missing missingInput .standard).world.IsOpen 0 := by decide
  exact ⟨by decide, by decide, hclosed, FdTable.not_restored_of_not_isOpen
    (F := {fd | World.standard.IsOpen fd}) (show World.standard.IsOpen 0 by decide) hclosed⟩

end Shell

end CShellXv6
