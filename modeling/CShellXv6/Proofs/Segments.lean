import CShellXv6.Proofs.Parser
import CShellXv6.Shell.Segments

/-!
# The segments of an accepted line

The cutting loop is followed along a derivation of the line: over a group it makes no cut
(`runTokensLoop_plain`), and at the separator behind it, or at the end, it cuts exactly there.
-/

namespace CShellXv6

namespace Shell

theorem Operands.plain {ts : List Token} (h : Operands ts) :
    ∀ t ∈ ts, t.type ≠ .opSemi ∧ t.type ≠ .opAmp := by
  induction h with
  | nil => simp
  | word ht _ ih =>
    intro u hu
    rcases List.mem_cons.1 hu with rfl | hu
    · simp [ht]
    · exact ih u hu
  | @redirection r t ts hr ht _ ih =>
    intro u hu
    rcases List.mem_cons.1 hu with rfl | hu
    · constructor <;> intro h <;> simp [h, isRedirection] at hr
    rcases List.mem_cons.1 hu with rfl | hu
    · simp [ht]
    · exact ih u hu

theorem Command.plain {c : List Token} (h : Command c) :
    ∀ t ∈ c, t.type ≠ .opSemi ∧ t.type ≠ .opAmp := by
  obtain ⟨ht, ho⟩ := h
  exact (Operands.word ht ho).plain

theorem Group.plain {g : List Token} (h : Group g) :
    ∀ t ∈ g, t.type ≠ .opSemi ∧ t.type ≠ .opAmp := by
  induction h with
  | one hc => exact hc.plain
  | @pipe c g p hc hp _ ih =>
    intro t ht
    rcases List.mem_append.1 ht with ht | ht
    · exact hc.plain t ht
    rcases List.mem_cons.1 ht with rfl | ht
    · simp [hp]
    · exact ih t ht

theorem Group.accepted {g : List Token} (h : Group g) : parseTokens g = 0 :=
  (Line.plain (.one h)).accepted

section Loop

variable {σ : Type*} (H : Handlers σ)

/-- The loop makes no cut at a token that is neither `;` nor `&`. -/
theorem runTokensLoop_plain {tokens pre : List Token} (rest : List Token) :
    ∀ (b a : List Token), (∀ t ∈ b, t.type ≠ .opSemi ∧ t.type ≠ .opAmp) →
      tokens = pre ++ (a ++ b) ++ rest → ∀ s,
      runTokensLoop H tokens (List.range' (pre.length + a.length) (b.length + rest.length + 1))
          pre.length s
        = runTokensLoop H tokens
            (List.range' (pre.length + (a ++ b).length) (rest.length + 1)) pre.length s
  | [], a, _, _, s => by simp
  | t :: b, a, hb, htok, s => by
    have hget : tokens[pre.length + a.length]? = some t := by
      rw [htok]
      simp
    have hcut : ¬ (pre.length + a.length = tokens.length
        ∨ hasType tokens (pre.length + a.length) .opSemi
        ∨ hasType tokens (pre.length + a.length) .opAmp) := by
      have ht := hb t (by simp)
      have hlen : pre.length + a.length ≠ tokens.length := by
        rw [htok]
        simp only [List.length_append, List.length_cons]
        omega
      simp [hasType, hget, ht.1, ht.2, hlen]
    have hlist : List.range' (pre.length + a.length) ((t :: b).length + rest.length + 1)
        = (pre.length + a.length)
          :: List.range' (pre.length + (a ++ [t]).length) (b.length + rest.length + 1) := by
      rw [show (t :: b).length + rest.length + 1 = (b.length + rest.length + 1) + 1 by
        simp only [List.length_cons]; omega, List.range'_succ]
      simp [Nat.add_assoc]
    rw [hlist]
    conv_lhs => unfold runTokensLoop
    rw [if_neg hcut, runTokensLoop_plain rest b (a ++ [t]) (fun u hu => hb u (by simp [hu]))
      (by rw [htok]; simp) s]
    simp

/-- At the end of the line, or at the separator behind it, the loop hands on the segment. -/
theorem runTokensLoop_segment {tokens pre seg rest : List Token} (hne : seg ≠ [])
    (hseg : ∀ t ∈ seg, t.type ≠ .opSemi ∧ t.type ≠ .opAmp) (htok : tokens = pre ++ seg ++ rest)
    (hrest : ∀ t ∈ rest.head?, t.type = .opSemi ∨ t.type = .opAmp) (s : σ) :
    runTokensLoop H tokens (List.range' pre.length ((seg ++ rest).length + 1)) pre.length s
      = let next := runTokensLoop H tokens
          (List.range' (pre.length + seg.length + 1) rest.length) (pre.length + seg.length + 1)
        if rest.head?.any (·.type = .opAmp) then next (H.runbuff s seg)
        else if (H.runcomm s seg).2 < 0 then (H.runcomm s seg).1
        else next (H.runcomm s seg).1 := by
  have hplain := runTokensLoop_plain H rest seg [] hseg (by simpa using htok) s
  simp only [List.length_nil, Nat.add_zero, List.nil_append] at hplain
  rw [List.length_append, hplain, List.range'_succ]
  have hpos := List.length_pos_of_ne_nil hne
  have hsub : (tokens.drop pre.length).take (pre.length + seg.length - pre.length) = seg := by
    rw [htok]
    simp
  have hget : tokens[pre.length + seg.length]? = rest.head? := by
    rw [htok, List.getElem?_append_right (by simp)]
    simp [List.head?_eq_getElem?]
  have htype : ∀ type, hasType tokens (pre.length + seg.length) type
      = rest.head?.any (·.type = type) := by
    intro type
    rw [hasType, hget]
  have hlen : tokens.length = pre.length + seg.length + rest.length := by
    rw [htok]
    simp [Nat.add_assoc]
  conv_lhs => unfold runTokensLoop
  rw [htype, htype, hsub, hlen]
  rcases rest with _ | ⟨t, rest⟩
  · simp [hpos]
  · by_cases ht : t.type = .opAmp
    · simp [hpos, ht]
    · have hsemi : t.type = .opSemi := (hrest t (by simp)).resolve_right ht
      simp [hpos, hsemi]

/-- Behind a last `&` nothing is left. -/
theorem runTokensLoop_done (tokens : List Token) (n : ℕ) (s : σ) :
    runTokensLoop H tokens [n] n s = s ∧ runTokensLoop H tokens [] n s = s := by
  refine ⟨?_, rfl⟩
  unfold runTokensLoop
  split_ifs <;> first | rfl | omega

end Loop

theorem Cuts.one {seg tail : List Token} (hne : seg ≠ [])
    (hseg : ∀ t ∈ seg, t.type ≠ .opSemi ∧ t.type ≠ .opAmp) (hacc : parseTokens seg = 0)
    (htail : tail = [] ∨ ∃ a : Token, a.type = .opAmp ∧ tail = [a]) :
    Cuts (seg ++ tail) [⟨seg, tail.head?⟩] := by
  refine ⟨?_, by simpa using hne, by simpa using hseg, by simpa using hacc, by simp, ?_⟩
  · rcases htail with rfl | ⟨a, -, rfl⟩ <;> simp [Shell.rebuild]
  · rcases htail with rfl | ⟨a, ha, rfl⟩ <;> simp_all

theorem Cuts.cons {seg l : List Token} {t : Token} {gs : List Segment} (hne : seg ≠ [])
    (hseg : ∀ t ∈ seg, t.type ≠ .opSemi ∧ t.type ≠ .opAmp) (hacc : parseTokens seg = 0)
    (ht : t.type = .opSemi ∨ t.type = .opAmp) (h : Cuts l gs) (hl : l ≠ []) :
    Cuts (seg ++ t :: l) (⟨seg, some t⟩ :: gs) := by
  have hgs : gs ≠ [] := by
    rintro rfl
    exact hl (by simpa [Shell.rebuild] using h.rebuild.symm)
  refine ⟨?_, ?_, ?_, ?_, ?_, ?_⟩
  · have := h.rebuild
    simp only [Shell.rebuild] at this ⊢
    simp [this]
  · simpa [hne] using h.ne_nil
  · intro g hg
    rcases List.mem_cons.1 hg with rfl | hg
    · exact hseg
    · exact h.plain g hg
  · simpa [hacc] using h.accepted
  · rw [List.dropLast_cons_of_ne_nil hgs]
    intro g hg
    rcases List.mem_cons.1 hg with rfl | hg
    · exact ⟨t, rfl, ht⟩
    · exact h.inner g hg
  · rw [List.getLast?_cons_of_ne_nil hgs]
    exact h.last

/-- The loop over a derived line, with its last `&` or without, is the run of its segments. -/
theorem Groups.runTokensLoop {l : List Token} (h : Groups l) :
    ∀ {tail : List Token}, (tail = [] ∨ ∃ a : Token, a.type = .opAmp ∧ tail = [a]) →
      ∃ gs, Cuts (l ++ tail) gs ∧ ∀ (σ : Type) (H : Handlers σ) (tokens pre : List Token) (s : σ),
        tokens = pre ++ (l ++ tail) →
          runTokensLoop H tokens (List.range' pre.length ((l ++ tail).length + 1)) pre.length s
            = runSegments H gs s := by
  induction h with
  | @one g hg =>
    intro tail htail
    refine ⟨[⟨g, tail.head?⟩], .one hg.ne_nil hg.plain hg.accepted htail,
      fun σ H tokens pre s htok => ?_⟩
    rw [runTokensLoop_segment H hg.ne_nil hg.plain (by simpa using htok)
      (by rcases htail with rfl | ⟨a, ha, rfl⟩ <;> simp_all)]
    rcases htail with rfl | ⟨a, ha, rfl⟩
    · simp [runSegments, Segment.background, (runTokensLoop_done H _ _ _).2]
    · simp [runSegments, Segment.background, ha, (runTokensLoop_done H _ _ _).1]
  | @sep g l t hg ht hl ih =>
    intro tail htail
    obtain ⟨gs, hcuts, hrun⟩ := ih htail
    refine ⟨⟨g, some t⟩ :: gs, ?_, fun σ H tokens pre s htok => ?_⟩
    · rw [List.append_assoc, List.cons_append]
      exact .cons hg.ne_nil hg.plain hg.accepted ht hcuts (by simp [hl.ne_nil])
    · have hnext : ∀ s, Shell.runTokensLoop H tokens
          (List.range' (pre.length + g.length + 1) (t :: (l ++ tail)).length)
          (pre.length + g.length + 1) s = runSegments H gs s := by
        intro s
        have := hrun σ H tokens (pre ++ g ++ [t]) s (by simpa using htok)
        simpa [Nat.add_assoc] using this
      rw [List.append_assoc, List.cons_append,
        runTokensLoop_segment H hg.ne_nil hg.plain (by simpa using htok) (by simpa using ht)]
      simp only [hnext, runSegments, Segment.background, List.head?_cons, Option.any_some]

theorem Line.exists_cuts {tokens : List Token} (h : Line tokens) :
    ∃ gs, Cuts tokens gs ∧ ∀ (σ : Type) (H : Handlers σ) (s : σ),
      runTokens H tokens s = runSegments H gs s := by
  rcases h with hl | @⟨l, a, hl, ha⟩
  · obtain ⟨gs, hcuts, hrun⟩ := hl.runTokensLoop (.inl rfl)
    refine ⟨gs, by simpa using hcuts, fun σ H s => ?_⟩
    simpa [runTokens] using hrun σ H tokens [] s (by simp)
  · obtain ⟨gs, hcuts, hrun⟩ := hl.runTokensLoop (.inr ⟨a, ha, rfl⟩)
    refine ⟨gs, hcuts, fun σ H s => ?_⟩
    simpa [runTokens] using hrun σ H (l ++ [a]) [] s (by simp)

theorem runTokens_nil {σ : Type*} (H : Handlers σ) (s : σ) : runTokens H [] s = s :=
  (runTokensLoop_done H [] 0 s).1

/-- `run_tokens` cuts every accepted line into segments that are accepted themselves, and runs
exactly these, each in its mode and in order, up to a foreground one that returns a negative
value. -/
theorem runTokens_eq_runSegments (tokens : List Token) (h : parseTokens tokens = 0) :
    ∃ gs, Cuts tokens gs ∧ ∀ (σ : Type) (H : Handlers σ) (s : σ),
      runTokens H tokens s = runSegments H gs s := by
  by_cases hne : tokens = []
  · subst hne
    exact ⟨[], ⟨rfl, by simp, by simp, by simp, by simp, by simp⟩, fun σ H s => runTokens_nil H s⟩
  · exact (line_of_accepted h hne).exists_cuts

theorem runTokens_eq_runSegments_amp :
    let tokens : List Token := [⟨.word, ['a']⟩, ⟨.opAmp, ['&']⟩, ⟨.word, ['b']⟩]
    parseTokens tokens = 0 ∧ ∃ gs, Cuts tokens gs ∧ ∀ (σ : Type) (H : Handlers σ) (s : σ),
      runTokens H tokens s = runSegments H gs s :=
  ⟨by decide, runTokens_eq_runSegments _ (by decide)⟩

end Shell

end CShellXv6
