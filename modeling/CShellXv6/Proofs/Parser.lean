import CShellXv6.Shell.Parser

/-!
# The syntax check decides the grammar

A derivation is run through the loop piece by piece: after a command or a group the loop is at
the tokens behind it with `want_command` off. Conversely, a run that returns 0 is cut at the
first separator it passes, and the pieces are put together from the right.
-/

namespace CShellXv6

namespace Shell

theorem parseLoop_word {t : Token} (ht : t.type = .word) (b : Bool) (rest : List Token) :
    parseLoop b (t :: rest) = parseLoop false rest := by
  cases b <;> cases rest <;> simp [parseLoop, ht]

theorem parseLoop_redirection {r : Token} (hr : isRedirection r.type = true) (t : Token)
    (rest : List Token) :
    parseLoop false (r :: t :: rest) = if t.type = .word then parseLoop false rest else -1 := by
  have hw : r.type ≠ .word := by
    intro h
    simp [h, isRedirection] at hr
  simp [parseLoop, hw, hr]

theorem Operands.parseLoop {ts : List Token} (h : Operands ts) (rest : List Token) :
    parseLoop false (ts ++ rest) = Shell.parseLoop false rest := by
  induction h with
  | nil => rfl
  | word ht _ ih => rw [List.cons_append, parseLoop_word ht, ih]
  | redirection hr ht _ ih =>
    rw [List.cons_append, List.cons_append, parseLoop_redirection hr, if_pos ht, ih]

theorem Command.parseLoop {c : List Token} (h : Command c) (rest : List Token) :
    parseLoop true (c ++ rest) = Shell.parseLoop false rest := by
  obtain ⟨ht, ho⟩ := h
  rw [List.cons_append, parseLoop_word ht, ho.parseLoop]

theorem Command.ne_nil {c : List Token} (h : Command c) : c ≠ [] := by
  obtain ⟨-, -⟩ := h
  simp

theorem Group.ne_nil {g : List Token} (h : Group g) : g ≠ [] := by
  rcases h with h | ⟨-, -, -⟩
  · exact h.ne_nil
  · simp

theorem Groups.ne_nil {l : List Token} (h : Groups l) : l ≠ [] := by
  rcases h with h | ⟨-, -, -⟩
  · exact h.ne_nil
  · simp

/-- Behind a separator that is not the last token, the loop wants a command. -/
theorem parseLoop_separator {s : Token} (hs : isSeparator s.type = true) {l : List Token}
    (hl : l ≠ []) : parseLoop false (s :: l) = parseLoop true l := by
  have hw : s.type ≠ .word := by
    intro h
    simp [h, isSeparator] at hs
  have hr : isRedirection s.type = false := by
    cases h : s.type <;> simp_all [isSeparator, isRedirection]
  rcases l with _ | ⟨u, rest⟩
  · exact absurd rfl hl
  · conv_lhs => unfold parseLoop
    simp [hw, hr, hs]

theorem Group.parseLoop {g : List Token} (h : Group g) (rest : List Token) :
    parseLoop true (g ++ rest) = Shell.parseLoop false rest := by
  induction h with
  | one hc => exact hc.parseLoop rest
  | @pipe c g p hc hp hg ih =>
    have hs : isSeparator p.type = true := by simp [isSeparator, hp]
    rw [List.append_assoc, hc.parseLoop, List.cons_append,
      parseLoop_separator hs (by simp [hg.ne_nil]), ih]

theorem Groups.parseLoop {l : List Token} (h : Groups l) (rest : List Token) :
    parseLoop true (l ++ rest) = Shell.parseLoop false rest := by
  induction h with
  | one hg => exact hg.parseLoop rest
  | @sep g l s hg hs hl ih =>
    have hs' : isSeparator s.type = true := by
      rcases hs with hs | hs <;> simp [isSeparator, hs]
    rw [List.append_assoc, hg.parseLoop, List.cons_append,
      parseLoop_separator hs' (by simp [hl.ne_nil]), ih]

theorem Line.parseLoop {l : List Token} (h : Line l) : parseLoop true l = 0 := by
  rcases h with h | @⟨l, a, h, ha⟩
  · simpa [Shell.parseLoop] using h.parseLoop []
  · rw [h.parseLoop]
    simp [Shell.parseLoop, ha, isRedirection, isSeparator]

/-- What the loop accepts with `want_command` off: operands, and then the end, a last `&`, or a
separator with more tokens behind it that are accepted in turn. -/
theorem parseLoop_false_cases : ∀ {ts : List Token}, parseLoop false ts = 0 →
    ∃ o tail, ts = o ++ tail ∧ Operands o ∧ (tail = [] ∨ (∃ a, a.type = .opAmp ∧ tail = [a])
      ∨ ∃ s l, isSeparator s.type = true ∧ tail = s :: l ∧ l ≠ [] ∧ parseLoop true l = 0)
  | [], _ => ⟨[], [], rfl, .nil, .inl rfl⟩
  | t :: rest, h => by
    by_cases ht : t.type = .word
    · have h' : parseLoop false rest = 0 := by rwa [parseLoop_word ht] at h
      obtain ⟨o, tail, rfl, ho, htail⟩ := parseLoop_false_cases h'
      exact ⟨t :: o, tail, rfl, .word ht ho, htail⟩
    by_cases hr : isRedirection t.type = true
    · rcases rest with _ | ⟨f, rest⟩
      · simp [parseLoop, ht, hr] at h
      rw [parseLoop_redirection hr] at h
      split_ifs at h with hf
      obtain ⟨o, tail, rfl, ho, htail⟩ := parseLoop_false_cases h
      exact ⟨t :: f :: o, tail, rfl, .redirection hr hf ho, htail⟩
    by_cases hs : isSeparator t.type = true
    · rcases rest with _ | ⟨u, rest⟩
      · by_cases ha : t.type = .opAmp
        · exact ⟨[], [t], rfl, .nil, .inr (.inl ⟨t, ha, rfl⟩)⟩
        · simp [parseLoop, ht, hr, hs, ha] at h
      · rw [parseLoop_separator hs (by simp)] at h
        exact ⟨[], t :: u :: rest, rfl, .nil, .inr (.inr ⟨t, u :: rest, hs, rfl, by simp, h⟩)⟩
    · rcases rest with _ | ⟨u, rest⟩ <;> simp [parseLoop, ht, hr, hs] at h

theorem parseLoop_true_cases {ts : List Token} (h : parseLoop true ts = 0) :
    ∃ c tail, ts = c ++ tail ∧ Command c ∧ (tail = [] ∨ (∃ a, a.type = .opAmp ∧ tail = [a])
      ∨ ∃ s l, isSeparator s.type = true ∧ tail = s :: l ∧ l ≠ [] ∧ parseLoop true l = 0) := by
  rcases ts with _ | ⟨t, rest⟩
  · simp [parseLoop] at h
  by_cases ht : t.type = .word
  · obtain ⟨o, tail, rfl, ho, htail⟩ := parseLoop_false_cases (by rwa [parseLoop_word ht] at h)
    exact ⟨t :: o, tail, rfl, .mk ht ho, htail⟩
  · simp [parseLoop, ht] at h

theorem Groups.cons_pipe {c l : List Token} {p : Token} (hc : Command c) (hp : p.type = .opPipe)
    (h : Groups l) : Groups (c ++ p :: l) := by
  rcases h with hg | @⟨g, l, s, hg, hs, hl⟩
  · exact .one (.pipe hc hp hg)
  · have := Groups.sep (Group.pipe hc hp hg) hs hl
    simpa using this

theorem Line.cons_separator {c l : List Token} {s : Token} (hc : Command c)
    (hs : isSeparator s.type = true) (h : Line l) : Line (c ++ s :: l) := by
  have key : ∀ {l}, Groups l → Groups (c ++ s :: l) := by
    intro l hl
    by_cases hp : s.type = .opPipe
    · exact .cons_pipe hc hp hl
    · refine .sep (.one hc) ?_ hl
      simpa [isSeparator, hp] using hs
  rcases h with h | @⟨l, a, h, ha⟩
  · exact .plain (key h)
  · have := Line.amp (key h) ha
    simpa using this

theorem line_of_parseLoop : ∀ (n : ℕ) {ts : List Token}, ts.length ≤ n → parseLoop true ts = 0 →
    Line ts
  | 0, ts, hn, h => by
    have : ts = [] := List.eq_nil_of_length_eq_zero (by omega)
    simp [this, parseLoop] at h
  | n + 1, ts, hn, h => by
    obtain ⟨c, tail, rfl, hc, rfl | ⟨a, ha, rfl⟩ | ⟨s, l, hs, rfl, -, hl⟩⟩ := parseLoop_true_cases h
    · simpa using Line.plain (.one (.one hc))
    · exact .amp (.one (.one hc)) ha
    · refine Line.cons_separator hc hs (line_of_parseLoop n ?_ hl)
      have := List.length_pos_of_ne_nil hc.ne_nil
      simp only [List.length_append, List.length_cons] at hn
      omega

theorem line_of_accepted {tokens : List Token} (h : parseTokens tokens = 0) (hne : tokens ≠ []) :
    Line tokens := by
  rw [parseTokens, if_neg (by simpa using hne)] at h
  exact line_of_parseLoop _ (Nat.le_refl _) h

theorem Line.accepted {tokens : List Token} (h : Line tokens) : parseTokens tokens = 0 := by
  unfold parseTokens
  split_ifs
  · rfl
  · exact h.parseLoop

/-- `parse_tokens` accepts the empty list and what the grammar derives, and nothing else. -/
theorem parseTokens_iff_line (tokens : List Token) :
    parseTokens tokens = 0 ↔ tokens = [] ∨ Line tokens := by
  constructor
  · intro h
    by_cases hne : tokens = []
    · exact .inl hne
    · exact .inr (line_of_accepted h hne)
  · rintro (rfl | h)
    · rfl
    · exact h.accepted

end Shell

end CShellXv6
