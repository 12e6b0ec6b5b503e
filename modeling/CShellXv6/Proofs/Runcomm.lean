import CShellXv6.Proofs.Pipeline
import CShellXv6.Shell.Runcomm

/-!
# Hop with redirections

Where all the files can be opened, `runcomm` comes to `run_hop` with the tokens it was given. That
takes the words up to the first redirection, and what it makes of no words at all is decided on the
number of tokens.
-/

namespace CShellXv6

namespace Shell

section Setup

variable (env : Env)

theorem openInputs_true : ∀ (i : ℕ) (ts : List Token) (w : World),
    (∀ j t, ts[j]? = some t → isRedirection t.type = true → env.openFile (i + j) = true) →
    (openInputs env i ts w).1 = true
  | _, [], _, _ => by simp [openInputs]
  | _, [_], _, _ => by simp [openInputs]
  | i, t :: f :: rest, w, h => by
    have hrest : ∀ j u, (f :: rest)[j]? = some u → isRedirection u.type = true →
        env.openFile (i + 1 + j) = true := by
      intro j u hu hr
      rw [Nat.add_assoc, Nat.add_comm 1]
      exact h (j + 1) u hu hr
    unfold openInputs
    split_ifs with ht
    · have hopen : env.openFile i = true := h 0 t rfl (by simp [isRedirection, ht])
      have hfd := openAs_nonneg (.input f.text) w
      simp only [openFile, hopen, if_true]
      rw [if_neg (by omega)]
      exact openInputs_true _ _ _ hrest
    · exact openInputs_true _ _ _ hrest

theorem prepareLoop_zero {ts : List Token} (h : Operands ts) :
    ∀ (i : ℕ) (output : OutputRedirect) (w : World),
      (∀ j t, ts[j]? = some t → isRedirection t.type = true → env.openFile (i + j) = true) →
      (∀ j t, ts[j]? = some t → t.type = .opGt ∨ t.type = .opGtgt →
        env.filesRealloc (i + j) = true) →
      (prepareLoop env i ts output w).1 = 0 := by
  induction h using Operands.kinds with
  | nil => simp [prepareLoop, Calls.prepareLoop, OutputRedirect.fill]
  | @word t ts ht _ ih =>
    intro i output w hopen halloc
    rw [prepareLoop_word env ht]
    refine ih _ _ _ (fun j u hu => ?_) (fun j u hu => ?_) <;> rw [Nat.add_assoc, Nat.add_comm 1]
    · exact hopen (j + 1) u hu
    · exact halloc (j + 1) u hu
  | @input r t ts hlt ht _ ih =>
    intro i output w hopen halloc
    rw [prepareLoop_input env hlt ht]
    refine ih _ _ _ (fun j u hu => ?_) (fun j u hu => ?_) <;> rw [Nat.add_assoc, Nat.add_comm 2]
    · exact hopen (j + 2) u hu
    · exact halloc (j + 2) u hu
  | @output r t ts hgt ht _ ih =>
    intro i output w hopen halloc
    have hfd := openAs_nonneg (outputTarget r.type t.text) w
    have hopened : env.openFile i = true :=
      hopen 0 r rfl (by rcases hgt with h | h <;> simp [isRedirection, h])
    have halloced : env.filesRealloc i = true := halloc 0 r rfl hgt
    rw [prepareLoop_output env hgt ht]
    simp only [openFile, hopened, if_true, halloced]
    rw [if_neg (by omega), if_neg (by simp)]
    refine ih _ _ _ (fun j u hu => ?_) (fun j u hu => ?_) <;> rw [Nat.add_assoc, Nat.add_comm 2]
    · exact hopen (j + 2) u hu
    · exact halloc (j + 2) u hu

theorem hopRedirections_none {seg : List Token} (h : Operands seg) (hopen : Openable env seg)
    (w : World) : (hopRedirections env seg w).1 = none := by
  have hinputs := openInputs_true env 0 seg w (by simpa using hopen.opens)
  have hloop := fun w => prepareLoop_zero env h 0 outputRedirectInit w
    (by simpa using hopen.opens) (by simpa using hopen.allocs)
  unfold hopRedirections
  rcases hr : openInputs env 0 seg w with ⟨ok, w'⟩
  obtain rfl : ok = true := by simpa [hr] using hinputs
  have hprepare : (prepareOutput env seg outputRedirectInit w').1 = 0 := by
    unfold prepareOutput
    simp only [hloop w', hopen.pipe]
    split_ifs <;> simp_all
  simp [hprepare]

end Setup

section Hops

variable {σ : Type*} (hop : List Char → σ → Int × σ)

theorem runHopLoop_calls : ∀ (ts : List Token) (s : σ),
    (runHopLoop hop ts s).1.map Prod.fst = (ts.takeWhile (·.type = .word)).map Token.text
  | [], _ => rfl
  | t :: ts, s => by
    unfold runHopLoop
    by_cases ht : t.type = .word
    · simp [ht, runHopLoop_calls ts]
    · simp [ht]

/-- The arguments `run_hop` comes to, from the tokens behind `hop`. -/
theorem runHop_calls {first : Token} (hword : first.type = .word)
    (htext : first.text = "hop".toList) (rest : List Token) (s : σ) :
    (runHop hop (first :: rest) s).1 = 1
      ∧ (runHop hop (first :: rest) s).2.1.map Prod.fst
        = if rest = [] then [['~']] else (rest.takeWhile (·.type = .word)).map Token.text := by
  rcases rest with _ | ⟨t, rest⟩
  · simp [runHop, hword, htext]
  · have hcalls := runHopLoop_calls hop (t :: rest) s
    simp only [runHop, hword, htext]
    exact ⟨rfl, hcalls⟩

end Hops

section Runcomm

variable {σ : Type*} (calls : RuncommCalls σ)

theorem stageCount_of_pipeless {seg : List Token} (h : ∀ t ∈ seg, t.type ≠ .opPipe) :
    stageCount seg = 1 := by
  have hzero : (seg.take (lineEnd seg)).countP (·.type = .opPipe) = 0 :=
    List.countP_eq_zero.2 fun t ht => by simpa using h t (List.mem_of_mem_take ht)
  rw [stageCount, hzero]

theorem runChain_hops {first : Token} {rest : List Token} (hword : first.type = .word)
    (htext : first.text = "hop".toList) (hpipe : ∀ t ∈ first :: rest, t.type ≠ .opPipe) (w : World)
    (s : σ) :
    (runChain calls (first :: rest) w s).hops.map Prod.fst
      = if rest = [] then [['~']] else (rest.takeWhile (·.type = .word)).map Token.text := by
  have hpiped : (runPipeline calls.pipeline (first :: rest) w).result = 0 := by
    simp [runPipeline, pipeline, makeStages, stageCount_of_pipeless hpipe]
  obtain ⟨hone, hcalls⟩ := runHop_calls calls.hop hword htext rest s
  unfold runChain
  simp only [hpiped, hone]
  exact hcalls

theorem runcomm_hops {first : Token} {rest : List Token} (h : Command (first :: rest))
    (htext : first.text = "hop".toList) (hopen : Openable calls.setup (first :: rest)) (w : World)
    (s : σ) :
    (runcomm calls (first :: rest) w s).hops.map Prod.fst
      = if rest = [] then [['~']] else (rest.takeWhile (·.type = .word)).map Token.text := by
  have hpipe := h.operands.pipeless
  have hnone := hopRedirections_none calls.setup h.operands hopen w
  obtain ⟨hword, -⟩ := h
  unfold runcomm
  simp only
  rw [if_neg (by simp [htext])]
  split
  · rcases hr : hopRedirections calls.setup (first :: rest) w with ⟨message, w'⟩
    obtain rfl : message = none := by simpa [hr] using hnone
    exact runChain_hops calls hword htext hpipe w' s
  · exact runChain_hops calls hword htext hpipe w s

end Runcomm

section Strip

theorem stripRedirects_word {t : Token} (ht : t.type = .word) (ts : List Token) :
    stripRedirects (t :: ts) = t :: stripRedirects ts := by
  cases ts <;> simp [stripRedirects, isRedirection, ht]

theorem stripRedirects_redirection {r : Token} (hr : isRedirection r.type = true) (t : Token)
    (ts : List Token) : stripRedirects (r :: t :: ts) = stripRedirects ts := by
  rw [stripRedirects, if_pos hr]

theorem stripRedirects_words {ts : List Token} (h : Operands ts) :
    ∀ t ∈ stripRedirects ts, t.type = .word := by
  induction h with
  | nil => simp [stripRedirects]
  | word ht _ ih => simpa [stripRedirects_word ht, ht] using ih
  | redirection hr ht _ ih => simpa [stripRedirects_redirection hr] using ih

/-- What is left of words and redirections begins with the words before the first redirection. -/
theorem takeWhile_strip {ts : List Token} (h : Operands ts) :
    ts.takeWhile (·.type = .word) <+: stripRedirects ts := by
  induction h with
  | nil => simp
  | word ht _ ih => simpa [stripRedirects_word ht, ht] using ih
  | @redirection r t ts hr ht _ ih =>
    have hne : r.type ≠ .word := by
      intro h
      simp [h, isRedirection] at hr
    simp [hne]

theorem strip_of_plain {ts : List Token} (h : Operands ts) (hplain : hasRedirect ts = false) :
    stripRedirects ts = ts := by
  induction h with
  | nil => rfl
  | word ht _ ih =>
    rw [stripRedirects_word ht, ih (by simpa [hasRedirect, isRedirection, ht] using hplain)]
  | redirection hr ht _ ih => simp [hasRedirect, hr] at hplain

theorem operands_of_words : ∀ {ts : List Token}, (∀ t ∈ ts, t.type = .word) → Operands ts
  | [], _ => .nil
  | _ :: _, h => .word (h _ (by simp)) (operands_of_words fun u hu => h u (by simp [hu]))

theorem openable_of_words (env : Env) {ts : List Token} (hwords : ∀ t ∈ ts, t.type = .word)
    (hpipe : env.outputPipe = true) : Openable env ts := by
  refine ⟨fun i t ht hr => ?_, fun i t ht hr => ?_, hpipe⟩
  · simp [isRedirection, hwords t (List.mem_of_getElem? ht)] at hr
  · simp [hwords t (List.mem_of_getElem? ht)] at hr

theorem takeWhile_eq_strip_iff {ts : List Token} (h : Operands ts) :
    (ts.takeWhile (·.type = .word)).map Token.text = (stripRedirects ts).map Token.text
      ↔ stripRedirects ts <+: ts := by
  have hbegins := takeWhile_strip h
  constructor
  · intro heq
    rw [← hbegins.eq_of_length (by simpa using congrArg List.length heq)]
    exact List.takeWhile_prefix _
  · intro hpre
    have hle : stripRedirects ts <+: ts.takeWhile (·.type = .word) := by
      obtain ⟨rest, hrest⟩ := hpre
      conv_rhs => rw [← hrest]
      rw [List.takeWhile_append_of_pos (by simpa using stripRedirects_words h)]
      exact List.prefix_append _ _
    rw [hbegins.eq_of_length (Nat.le_antisymm hbegins.length_le hle.length_le)]

end Strip

section Main

variable {σ : Type*}

/-- The calls of `do_hop` are those of the segment without its redirections if the arguments come
first and there are any. -/
theorem hop_calls_iff (calls : RuncommCalls σ) (seg : List Token) (hseg : PipeFree seg)
    (hhop : seg.head?.map Token.text = some "hop".toList) (hopen : Openable calls.setup seg)
    (w : World) (s : σ) :
    (runcomm calls seg w s).hops.map Prod.fst
        = (runcomm calls (stripRedirects seg) w s).hops.map Prod.fst
      ↔ HopFirst seg := by
  obtain @⟨first, rest, hword, hrest⟩ := hseg.command
  have htext : first.text = "hop".toList := by simpa using hhop
  have hwords := stripRedirects_words hrest
  have hplain : ∀ t ∈ first :: stripRedirects rest, t.type = .word := by simpa [hword] using hwords
  have hself : (stripRedirects rest).takeWhile (·.type = .word) = stripRedirects rest :=
    List.takeWhile_eq_self_iff.2 (by simpa using hwords)
  rw [stripRedirects_word hword, runcomm_hops calls (.mk hword hrest) htext hopen,
    runcomm_hops calls (.mk hword (operands_of_words hwords)) htext
      (openable_of_words calls.setup hplain hopen.pipe), hself, HopFirst, stripRedirects_word hword,
    List.cons_prefix_cons]
  have hcons : hasRedirect (first :: rest) = hasRedirect rest := by
    simp [hasRedirect, isRedirection, hword]
  rw [hcons]
  rcases hredirect : hasRedirect rest
  · have htake := hself
    rw [strip_of_plain hrest hredirect] at htake ⊢
    simp [htake]
  have hne : rest ≠ [] := by
    rintro rfl
    simp [hasRedirect] at hredirect
  by_cases hnil : stripRedirects rest = []
  · have htake := takeWhile_strip hrest
    rw [hnil, List.prefix_nil] at htake
    simp [hne, hnil, htake]
  · have hpos := List.length_pos_of_ne_nil hnil
    rw [if_neg hne, if_neg hnil, takeWhile_eq_strip_iff hrest]
    simp [hpos]

def hopToken : Token := ⟨.word, "hop".toList⟩

/-- `hop a > out b`, where the file stands between the arguments. -/
def hopAcross : List Token :=
  [hopToken, ⟨.word, ['a']⟩, ⟨.opGt, ['>']⟩, ⟨.word, "out".toList⟩, ⟨.word, ['b']⟩]

/-- `hop > out`. -/
def hopInto : List Token :=
  [hopToken, ⟨.opGt, ['>']⟩, ⟨.word, "out".toList⟩]

/-- Every call succeeds, `do_hop` too. -/
def RuncommCalls.succeeding : RuncommCalls Unit where
  setup := .succeeding
  pipeline := .succeeding
  external := .succeeding
  alloc := true
  paths := ⟨fun _ => false, none⟩
  hop _ s := (0, s)
  builtins := []

theorem openable_succeeding (seg : List Token) : Openable Env.succeeding seg :=
  ⟨fun _ _ _ _ => rfl, fun _ _ _ _ => rfl, rfl⟩

/-- `hop a b > out`. -/
theorem hop_calls_iff_behind :
    let seg : List Token := [hopToken, ⟨.word, ['a']⟩, ⟨.word, ['b']⟩, ⟨.opGt, ['>']⟩,
      ⟨.word, "out".toList⟩]
    (runcomm .succeeding seg .standard ()).hops.map Prod.fst
        = (runcomm .succeeding (stripRedirects seg) .standard ()).hops.map Prod.fst
      ∧ HopFirst seg := by
  intro seg
  have hseg : PipeFree seg := ⟨by decide, by decide, by decide⟩
  have hiff := hop_calls_iff .succeeding seg hseg rfl (openable_succeeding seg) .standard ()
  have hfirst : HopFirst seg := by decide
  exact ⟨hiff.2 hfirst, hfirst⟩

theorem hop_drops_argument :
    PipeFree hopAcross ∧ Openable RuncommCalls.succeeding.setup hopAcross
      ∧ (runcomm .succeeding hopAcross .standard ()).hops.map Prod.fst = [['a']]
      ∧ (runcomm .succeeding (stripRedirects hopAcross) .standard ()).hops.map Prod.fst
        = [['a'], ['b']]
      ∧ PipeFree hopInto ∧ Openable RuncommCalls.succeeding.setup hopInto
      ∧ (runcomm .succeeding hopInto .standard ()).hops.map Prod.fst = []
      ∧ (runcomm .succeeding (stripRedirects hopInto) .standard ()).hops.map Prod.fst
        = [['~']] := by
  refine ⟨⟨by decide, by decide, by decide⟩, openable_succeeding _, by decide, by decide,
    ⟨by decide, by decide, by decide⟩, openable_succeeding _, by decide, by decide⟩

end Main

end Shell

end CShellXv6
