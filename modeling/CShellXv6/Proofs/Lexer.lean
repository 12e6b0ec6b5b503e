import CShellXv6.Shell.Quoting

/-!
# The lexer is the character machine, and undoes quoting

With every allocation granted, `lex_line` returns what the machine has at the end of the line
(`lexLine_eq_finish`): the loops and the machine go through the line together, the buffers of
the one showing the word and the tokens of the other.

A rendered line takes the machine from one token to the next (`foldl_gap_token`), so the machine
ends with the tokens the line spells.

The machine only appends to its tokens and is back at its start behind a blank or an operator, so
lexing goes through concatenation; and of its mode all that counts for acceptance is what a reader
of the quotes alone keeps (`reading_step`).
-/

namespace CShellXv6

namespace Shell

namespace LexConfig

theorem stepTop_space (s : LexConfig) {c : Char} (h : isSpace c = true) :
    s.stepTop c = s.emit .top [] := by
  simp [stepTop, h]

theorem stepTop_gt (s : LexConfig) : s.stepTop '>' = s.emit .gt [] := by
  simp [stepTop, isSpace, isSpecial]

theorem isSpace_of_isSpecial {c : Char} (h : isSpecial c = true) : isSpace c = false := by
  simp only [isSpecial, Bool.or_eq_true, decide_eq_true_eq] at h
  rcases h with (((rfl | rfl) | rfl) | rfl) | rfl <;> decide

theorem stepTop_operator (s : LexConfig) {c : Char} (h : isSpecial c = true) (hc : c ≠ '>') :
    s.stepTop c = s.emit .top [⟨operatorType c, [c]⟩] := by
  simp [stepTop, isSpace_of_isSpecial h, h, hc]

theorem stepTop_backslash (s : LexConfig) : s.stepTop '\\' = s.put .escape [] := by
  simp [stepTop, isSpace, isSpecial]

theorem stepTop_single (s : LexConfig) : s.stepTop '\'' = s.put .single [] := by
  simp [stepTop, isSpace, isSpecial]

theorem stepTop_double (s : LexConfig) : s.stepTop '"' = s.put .double [] := by
  simp [stepTop, isSpace, isSpecial]

end LexConfig

section Buffers

variable {alloc : ℕ → Bool}

/-- The buffers hold the word being read and the tokens so far. -/
structure Shows (st : LexState) (word : Option (List Char)) (out : List Token) : Prop where
  items : st.tokens.items = out
  has : st.hasWord = word.isSome
  data : st.word.data = word.getD []
  cap : st.word.data.length ≤ st.word.cap

theorem addChar_shows (ha : ∀ k, alloc k = true) {st : LexState} {w : List Char}
    {out : List Token} (h : Shows st (some w) out) (c : Char) :
    ∃ st', addChar alloc c st = some st' ∧ Shows st' (some (w ++ [c])) out := by
  obtain ⟨h1, h2, h3, h4⟩ := h
  simp only [Option.getD_some] at h3
  unfold addChar
  split_ifs with hfull
  · simp only [LexState.request, ha, if_true, Option.bind_eq_bind, Option.bind_some,
      Option.some.injEq, exists_eq_left']
    refine ⟨h1, h2, by simp [h3], ?_⟩
    simp only [List.length_append, List.length_singleton]
    split_ifs <;> omega
  · simp only [Option.bind_eq_bind, Option.bind_some, Option.some.injEq, exists_eq_left']
    refine ⟨h1, h2, by simp [h3], ?_⟩
    simp only [List.length_append, List.length_singleton]
    omega

theorem tokenListPush_shows (ha : ∀ k, alloc k = true) {st : LexState}
    {word : Option (List Char)} {out : List Token} (h : Shows st word out) (type : TokenType)
    (text : List Char) :
    ∃ st', tokenListPush alloc type text st = some st'
      ∧ Shows st' word (out ++ [⟨type, text⟩]) := by
  obtain ⟨h1, h2, h3, h4⟩ := h
  unfold tokenListPush
  split_ifs with hfull <;>
    simp only [LexState.request, ha, if_true, Option.bind_eq_bind, Option.bind_some,
      Option.some.injEq, exists_eq_left'] <;>
    exact ⟨by simp [h1], h2, h3, h4⟩

theorem saveWord_shows (ha : ∀ k, alloc k = true) {st : LexState} {word : Option (List Char)}
    {out : List Token} (h : Shows st word out) :
    ∃ st', saveWord alloc st = some st' ∧ Shows st' none (out ++ wordToken word) := by
  have h' := h
  obtain ⟨h1, h2, h3, h4⟩ := h
  unfold saveWord
  rcases word with _ | w
  · simp only [Option.isSome_none] at h2
    exact ⟨st, by simp [h2], by simp [wordToken, h1], h2, h3, h4⟩
  · simp only [Option.isSome_some] at h2
    simp only [Option.getD_some] at h3
    have htext : (if st.word.cap = 0 then [] else st.word.data) = w := by
      split_ifs with hc
      · rw [← h3]
        exact (List.eq_nil_of_length_eq_zero (by omega)).symm
      · exact h3
    obtain ⟨st', hst', hs⟩ := tokenListPush_shows ha h' .word w
    refine ⟨{ st' with word := { st'.word with data := [] }, hasWord := false }, ?_, hs.items, rfl,
      rfl, by simp⟩
    rw [if_neg (by simp [h2]), htext, hst']
    rfl

theorem shows_hasWord {st : LexState} {word : Option (List Char)} {out : List Token}
    (h : Shows st word out) :
    Shows { st with hasWord := true } (some (word.getD [])) out :=
  ⟨h.items, rfl, h.data, h.cap⟩

/-- What is left to do at the end of the line. -/
def lexEnd (alloc : ℕ → Bool) (r : Option LexState) : Option (List Token) :=
  (r.bind (saveWord alloc)).map fun st => st.tokens.items

/-- The loops and the machine agree on this rest of a line. -/
structure Agree (alloc : ℕ → Bool) (l : List Char) : Prop where
  loop : ∀ {st : LexState} {word : Option (List Char)} {out : List Token}, Shows st word out →
    lexEnd alloc (lexLoop alloc l st) = (l.foldl LexConfig.step ⟨.top, word, out⟩).finish
  single : ∀ {st : LexState} {w : List Char} {out : List Token}, Shows st (some w) out →
    lexEnd alloc (lexSingle alloc l st) = (l.foldl LexConfig.step ⟨.single, some w, out⟩).finish
  double : ∀ {st : LexState} {w : List Char} {out : List Token}, Shows st (some w) out →
    lexEnd alloc (lexDouble alloc l st) = (l.foldl LexConfig.step ⟨.double, some w, out⟩).finish

theorem agree_nil (ha : ∀ k, alloc k = true) : Agree alloc [] where
  loop h := by
    obtain ⟨st', hst', hs⟩ := saveWord_shows ha h
    simp [lexEnd, lexLoop, hst', hs.items, LexConfig.finish, LexConfig.emit]
  single _ := rfl
  double _ := rfl

section Cons

variable {c : Char} {rest : List Char} {st : LexState} {word : Option (List Char)} {w : List Char}
  {out : List Token}

theorem lexLoop_operator (ha : ∀ k, alloc k = true) (hop : isSpecial c = true)
    (hrest : Agree alloc rest) (htail : Agree alloc rest.tail) (h : Shows st word out) :
    lexEnd alloc (lexLoop alloc (c :: rest) st)
      = ((c :: rest).foldl LexConfig.step ⟨.top, word, out⟩).finish := by
  obtain ⟨st₁, hst₁, hs₁⟩ := saveWord_shows ha h
  obtain ⟨st₂, hst₂, hs₂⟩ := tokenListPush_shows ha hs₁ (operatorType c) [c]
  unfold lexLoop
  rw [if_neg (by simp [LexConfig.isSpace_of_isSpecial hop]), if_pos hop]
  simp only [hst₁, Option.bind_eq_bind, Option.bind_some]
  rcases rest with _ | ⟨d, rest⟩
  · simp only [hst₂, Option.bind_some]
    rw [hrest.loop hs₂]
    by_cases hgt : c = '>'
    · subst hgt
      simp [LexConfig.step, LexConfig.stepTop_gt, LexConfig.emit, LexConfig.finish, wordToken,
        operatorType]
    · simp [LexConfig.step, LexConfig.stepTop_operator _ hop hgt, LexConfig.emit]
  · simp only
    split_ifs with hgg
    · obtain ⟨st₃, hst₃, hs₃⟩ := tokenListPush_shows ha hs₁ .opGtgt [c, d]
      simp only [hst₃, Option.bind_some]
      rw [List.tail_cons] at htail
      rw [htail.loop hs₃]
      obtain ⟨rfl, rfl⟩ := hgg
      simp [LexConfig.step, LexConfig.stepTop_gt, LexConfig.emit, wordToken]
    · simp only [hst₂, Option.bind_some]
      rw [hrest.loop hs₂]
      by_cases hgt : c = '>'
      · have hd : d ≠ '>' := fun hd => hgg ⟨hgt, hd⟩
        subst hgt
        simp [LexConfig.step, LexConfig.stepTop_gt, LexConfig.emit, hd, wordToken, operatorType]
      · simp [LexConfig.step, LexConfig.stepTop_operator _ hop hgt, LexConfig.emit]

theorem lexLoop_backslash (ha : ∀ k, alloc k = true) (htail : Agree alloc rest.tail)
    (h : Shows st word out) :
    lexEnd alloc (lexLoop alloc ('\\' :: rest) st)
      = (('\\' :: rest).foldl LexConfig.step ⟨.top, word, out⟩).finish := by
  unfold lexLoop
  rw [if_neg (by decide), if_neg (by decide), if_pos rfl]
  rcases rest with _ | ⟨d, rest⟩
  · simp [LexConfig.step, LexConfig.stepTop_backslash, LexConfig.put, LexConfig.finish, lexEnd]
  · obtain ⟨st₂, hst₂, hs₂⟩ := addChar_shows ha (shows_hasWord h) d
    simp only [hst₂, Option.bind_eq_bind, Option.bind_some]
    rw [List.tail_cons] at htail
    rw [htail.loop hs₂]
    simp [LexConfig.step, LexConfig.stepTop_backslash, LexConfig.put]

theorem lexLoop_cons (ha : ∀ k, alloc k = true) (hrest : Agree alloc rest)
    (htail : Agree alloc rest.tail) (h : Shows st word out) :
    lexEnd alloc (lexLoop alloc (c :: rest) st)
      = ((c :: rest).foldl LexConfig.step ⟨.top, word, out⟩).finish := by
  by_cases hop : isSpecial c = true
  · exact lexLoop_operator ha hop hrest htail h
  by_cases hbs : c = '\\'
  · subst hbs
    exact lexLoop_backslash ha htail h
  unfold lexLoop
  split_ifs with hsp hsq hdq
  · obtain ⟨st₁, hst₁, hs₁⟩ := saveWord_shows ha h
    simp only [hst₁, Option.bind_eq_bind, Option.bind_some]
    rw [hrest.loop hs₁]
    simp [LexConfig.step, LexConfig.stepTop, LexConfig.emit, hsp]
  · subst hsq
    rw [hrest.single (shows_hasWord h)]
    simp [LexConfig.step, LexConfig.stepTop_single, LexConfig.put]
  · subst hdq
    rw [hrest.double (shows_hasWord h)]
    simp [LexConfig.step, LexConfig.stepTop_double, LexConfig.put]
  · obtain ⟨st₂, hst₂, hs₂⟩ := addChar_shows ha (shows_hasWord h) c
    simp only [hst₂, Option.bind_eq_bind, Option.bind_some]
    rw [hrest.loop hs₂]
    simp [LexConfig.step, LexConfig.stepTop, LexConfig.put, hsp, hop, hbs, hsq, hdq]

theorem lexSingle_cons (ha : ∀ k, alloc k = true) (hrest : Agree alloc rest)
    (h : Shows st (some w) out) :
    lexEnd alloc (lexSingle alloc (c :: rest) st)
      = ((c :: rest).foldl LexConfig.step ⟨.single, some w, out⟩).finish := by
  unfold lexSingle
  split_ifs with hc
  · rw [hrest.loop h]
    simp [LexConfig.step, LexConfig.put, hc]
  · obtain ⟨st', hst', hs⟩ := addChar_shows ha h c
    simp only [hst', Option.bind_eq_bind, Option.bind_some]
    rw [hrest.single hs]
    simp [LexConfig.step, LexConfig.put, hc]

theorem lexDouble_cons (ha : ∀ k, alloc k = true) (hrest : Agree alloc rest)
    (htail : Agree alloc rest.tail) (h : Shows st (some w) out) :
    lexEnd alloc (lexDouble alloc (c :: rest) st)
      = ((c :: rest).foldl LexConfig.step ⟨.double, some w, out⟩).finish := by
  unfold lexDouble
  split_ifs with hc hbs
  · rw [hrest.loop h]
    simp [LexConfig.step, LexConfig.put, hc]
  · rcases rest with _ | ⟨d, rest⟩
    · simp [LexConfig.step, LexConfig.put, hbs, LexConfig.finish, lexEnd]
    · simp only [Option.bind_eq_bind]
      rw [List.tail_cons] at htail
      split_ifs with hd
      · obtain ⟨st₁, hst₁, hs₁⟩ := addChar_shows ha h '\\'
        obtain ⟨st₂, hst₂, hs₂⟩ := addChar_shows ha hs₁ d
        simp only [hst₁, hst₂, Option.bind_some]
        rw [htail.double hs₂]
        simp [LexConfig.step, LexConfig.put, hbs, hd]
      · obtain ⟨st₂, hst₂, hs₂⟩ := addChar_shows ha h d
        simp only [hst₂, Option.bind_some]
        rw [htail.double hs₂]
        simp [LexConfig.step, LexConfig.put, hbs, hd]
  · obtain ⟨st', hst', hs⟩ := addChar_shows ha h c
    simp only [hst', Option.bind_eq_bind, Option.bind_some]
    rw [hrest.double hs]
    simp [LexConfig.step, LexConfig.put, hc, hbs]

end Cons

theorem agree_cons (ha : ∀ k, alloc k = true) {c : Char} {rest : List Char}
    (hrest : Agree alloc rest) (htail : Agree alloc rest.tail) : Agree alloc (c :: rest) :=
  ⟨lexLoop_cons ha hrest htail, lexSingle_cons ha hrest, lexDouble_cons ha hrest htail⟩

/-- An operator and a backslash look one character ahead, so that both rests are needed. -/
theorem agree (ha : ∀ k, alloc k = true) : ∀ l : List Char, Agree alloc l
  | [] => agree_nil ha
  | [_] => agree_cons ha (agree_nil ha) (agree_nil ha)
  | _ :: d :: rest => agree_cons ha (agree ha (d :: rest)) (agree ha rest)

/-- With every allocation granted, the lexer returns what the machine has at the end. -/
theorem lexLine_eq_finish (ha : ∀ k, alloc k = true) (line : List Char) :
    lexLine alloc line = ((cString line).foldl LexConfig.step ⟨.top, none, []⟩).finish := by
  have h : Shows lexStart none [] := ⟨rfl, rfl, rfl, by simp [lexStart]⟩
  rw [← (agree ha (cString line)).loop h]
  unfold lexLine lexEnd
  rcases lexLoop alloc (cString line) lexStart with _ | st
  · rfl
  · rcases hs : saveWord alloc st with _ | st' <;> simp [hs]

end Buffers

section Rendering

theorem foldl_quoted : ∀ (w u : List Char) (out : List Token),
    (w.flatMap fun c => if c = '"' ∨ c = '\\' then ['\\', c] else [c]).foldl LexConfig.step
      ⟨.double, some u, out⟩ = ⟨.double, some (u ++ w), out⟩
  | [], u, out => by simp
  | c :: w, u, out => by
    have hstep : (if c = '"' ∨ c = '\\' then ['\\', c] else [c]).foldl LexConfig.step
        ⟨.double, some u, out⟩ = ⟨.double, some (u ++ [c]), out⟩ := by
      split_ifs with hc
      · have hc' : ¬ (c ≠ '"' ∧ c ≠ '\\') := by tauto
        simp only [List.foldl_cons, List.foldl_nil, LexConfig.step, LexConfig.put, if_neg hc']
        simp
      · push Not at hc
        simp [LexConfig.step, LexConfig.put, hc]
    rw [List.flatMap_cons, List.foldl_append, hstep, foldl_quoted w]
    simp

theorem foldl_quoteWord (w : List Char) (out : List Token) :
    (quoteWord w).foldl LexConfig.step ⟨.top, none, out⟩ = ⟨.top, some w, out⟩ := by
  have h : LexConfig.step ⟨.top, none, out⟩ '"' = ⟨.double, some [], out⟩ := by
    simp [LexConfig.step, LexConfig.stepTop_double, LexConfig.put]
  rw [quoteWord, List.cons_append, List.foldl_cons, h, List.foldl_append, foldl_quoted]
  simp [LexConfig.step, LexConfig.put]

/-- The machine right behind the token `t`, with the tokens `prev` before it. -/
def behind (prev : List Token) (t : Token) : LexConfig :=
  match t.type with
  | .word => ⟨.top, some t.text, prev⟩
  | .opGt => ⟨.gt, none, prev⟩
  | _ => ⟨.top, none, prev ++ [t]⟩

theorem Token.Spelled.text {t : Token} (h : t.Spelled) (ht : t.type ≠ .word) :
    t = ⟨t.type, operatorText t.type⟩ := by
  unfold Token.Spelled at h
  rw [if_neg ht] at h
  rw [← h]

theorem foldl_renderToken {t : Token} (h : t.Spelled) (out : List Token) :
    (renderToken t).foldl LexConfig.step ⟨.top, none, out⟩ = behind out t := by
  by_cases ht : t.type = .word
  · simp [renderToken, ht, foldl_quoteWord, behind]
  · rw [h.text ht]
    unfold renderToken
    rw [if_neg ht]
    cases htt : t.type <;> simp_all [operatorText, behind, LexConfig.step, LexConfig.stepTop,
      LexConfig.emit, isSpace, isSpecial, wordToken, operatorType]

theorem finish_behind {t : Token} (h : t.Spelled) (prev : List Token) :
    (behind prev t).finish = some (prev ++ [t]) := by
  by_cases ht : t.type = .word
  · obtain ⟨type, text⟩ := t
    subst ht
    simp [behind, LexConfig.finish, LexConfig.emit, wordToken]
  · rw [h.text ht]
    cases htt : t.type <;> simp_all [operatorText, behind, LexConfig.finish, LexConfig.emit,
      wordToken]

theorem step_behind_space {t : Token} (h : t.Spelled) (prev : List Token) {c : Char}
    (hc : isSpace c = true) : (behind prev t).step c = ⟨.top, none, prev ++ [t]⟩ := by
  have hgt : c ≠ '>' := by
    rintro rfl
    simp [isSpace] at hc
  by_cases ht : t.type = .word
  · obtain ⟨type, text⟩ := t
    subst ht
    simp [behind, LexConfig.step, LexConfig.stepTop_space _ hc, LexConfig.emit, wordToken]
  · rw [h.text ht]
    cases htt : t.type <;> simp_all [operatorText, behind, LexConfig.step,
      LexConfig.stepTop_space _ hc, LexConfig.emit, wordToken]

theorem foldl_spaces (out : List Token) : ∀ {gap : List Char}, (∀ c ∈ gap, isSpace c = true) →
    gap.foldl LexConfig.step ⟨.top, none, out⟩ = ⟨.top, none, out⟩
  | [], _ => rfl
  | c :: gap, h => by
    have hc : LexConfig.step ⟨.top, none, out⟩ c = ⟨.top, none, out⟩ := by
      simp [LexConfig.step, LexConfig.stepTop_space _ (h c (by simp)), LexConfig.emit, wordToken]
    rw [List.foldl_cons, hc]
    exact foldl_spaces out fun d hd => h d (by simp [hd])

/-- Where two tokens need no gap, the machine reads the second as from a fresh start. -/
theorem foldl_renderToken_behind {t u : Token} (ht : t.Spelled) (hu : u.Spelled)
    (hg : needsGap t.type u.type = false) (prev : List Token) :
    (renderToken u).foldl LexConfig.step (behind prev t) = behind (prev ++ [t]) u := by
  rw [← foldl_renderToken hu]
  obtain ⟨c, r, hcr⟩ : ∃ c r, renderToken u = c :: r := by
    unfold renderToken quoteWord
    cases u.type <;> simp [operatorText]
  have hc : (behind prev t).step c = LexConfig.step ⟨.top, none, prev ++ [t]⟩ c := by
    by_cases hw : t.type = .word
    · have huw : u.type ≠ .word := by
        intro h
        simp [needsGap, hw, h] at hg
      unfold renderToken at hcr
      rw [if_neg huw] at hcr
      have hsp : isSpecial c = true := by
        cases hut : u.type <;> simp_all [operatorText] <;> (rw [← hcr.1]; decide)
      obtain ⟨type, text⟩ := t
      subst hw
      by_cases hgt : c = '>'
      · subst hgt
        simp [behind, LexConfig.step, LexConfig.stepTop_gt, LexConfig.emit, wordToken]
      · simp [behind, LexConfig.step, LexConfig.stepTop_operator _ hsp hgt, LexConfig.emit,
          wordToken]
    · rw [ht.text hw]
      by_cases htg : t.type = .opGt
      · have hgt : c ≠ '>' := by
          rintro rfl
          unfold renderToken quoteWord at hcr
          cases hut : u.type <;> simp_all [operatorText, needsGap]
        simp [htg, behind, LexConfig.step, hgt, LexConfig.emit, wordToken, operatorText]
      · cases htt : t.type <;> simp_all [behind, operatorText]
  rw [hcr, List.foldl_cons, List.foldl_cons, hc]

theorem foldl_gap_token {t u : Token} (ht : t.Spelled) (hu : u.Spelled) {gap : List Char}
    (hgap : ∀ c ∈ gap, isSpace c = true) (hneed : needsGap t.type u.type = true → gap ≠ [])
    (prev : List Token) :
    (gap ++ renderToken u).foldl LexConfig.step (behind prev t) = behind (prev ++ [t]) u := by
  rcases gap with _ | ⟨c, gap⟩
  · have hg : needsGap t.type u.type = false := by
      rcases h : needsGap t.type u.type
      · rfl
      · exact absurd rfl (hneed h)
    exact foldl_renderToken_behind ht hu hg prev
  · rw [List.cons_append, List.foldl_cons, step_behind_space ht prev (hgap c (by simp)),
      List.foldl_append, foldl_spaces _ fun d hd => hgap d (by simp [hd]), foldl_renderToken hu]

theorem Rendered.head_spelled {t : Token} {ts : List Token} {line : List Char}
    (h : Rendered (t :: ts) line) : t.Spelled := by
  cases h <;> assumption

/-- Behind the first token, the rest of a rendered line brings the machine to the end of the
list. -/
theorem Rendered.finish_rest {ts : List Token} {line : List Char} (h : Rendered ts line) :
    ∀ {t : Token} {us : List Token}, ts = t :: us → ∃ rest, line = renderToken t ++ rest
      ∧ ∀ prev, (rest.foldl LexConfig.step (behind prev t)).finish = some (prev ++ t :: us) := by
  induction h with
  | nil => intro t us h; simp at h
  | @one t ht =>
    intro t' us h
    simp only [List.cons.injEq] at h
    obtain ⟨rfl, rfl⟩ := h
    exact ⟨[], by simp, fun prev => finish_behind ht prev⟩
  | @cons t u ts gap line ht hgap hneed hline ih =>
    intro t' us h
    simp only [List.cons.injEq] at h
    obtain ⟨rfl, rfl⟩ := h
    obtain ⟨rest, rfl, hrest⟩ := ih rfl
    refine ⟨gap ++ renderToken u ++ rest, by simp, fun prev => ?_⟩
    rw [List.foldl_append, foldl_gap_token ht hline.head_spelled hgap hneed, hrest]
    simp

theorem renderToken_nul {t : Token} (h : t.Spelled) : Char.ofNat 0 ∉ renderToken t := by
  unfold renderToken
  split_ifs with ht
  · unfold Token.Spelled at h
    rw [if_pos ht] at h
    intro hm
    simp only [quoteWord, List.cons_append, List.mem_cons, List.mem_append, List.mem_flatMap,
      List.not_mem_nil, or_false] at hm
    rcases hm with hm | ⟨c, hc, hm⟩ | hm
    · exact absurd hm (by decide)
    · split_ifs at hm with hq
      · simp only [List.mem_cons, List.not_mem_nil, or_false] at hm
        rcases hm with hm | rfl
        · exact absurd hm (by decide)
        · exact h hc
      · simp only [List.mem_singleton] at hm
        exact h (hm ▸ hc)
    · exact absurd hm (by decide)
  · cases t.type <;> decide

theorem Rendered.cString {ts : List Token} {line : List Char} (h : Rendered ts line) :
    cString line = line := by
  have hnul : Char.ofNat 0 ∉ line := by
    induction h with
    | nil => simp
    | one ht => exact renderToken_nul ht
    | cons ht hgap _ _ ih =>
      simp only [List.mem_append, not_or]
      refine ⟨⟨renderToken_nul ht, fun h0 => ?_⟩, ih⟩
      exact absurd (hgap _ h0) (by decide)
  exact cString_eq_self hnul

/-- Lexing undoes quoting: the lexer returns 0 on a line that spells a token list, and yields
that list. -/
theorem lexLine_rendered {alloc : ℕ → Bool} (ha : ∀ k, alloc k = true) {tokens : List Token}
    {line : List Char} (h : Rendered tokens line) : lexLine alloc line = some tokens := by
  rw [lexLine_eq_finish ha, h.cString]
  rcases tokens with _ | ⟨t, ts⟩
  · cases h
    rfl
  · obtain ⟨rest, rfl, hrest⟩ := h.finish_rest rfl
    rw [List.foldl_append, foldl_renderToken h.head_spelled, hrest]
    simp

theorem lexLine_rendered_quotes :
    lexLine (fun _ => true) ['"', '\\', '"', ' ', '"', '>', '\t', '>', '>', '"', '"'] =
      some [⟨.word, ['"', ' ']⟩, ⟨.opGt, ['>']⟩, ⟨.opGtgt, ['>', '>']⟩, ⟨.word, []⟩] := by
  have h : Rendered [⟨.word, ['"', ' ']⟩, ⟨.opGt, ['>']⟩, ⟨.opGtgt, ['>', '>']⟩, ⟨.word, []⟩]
      (renderToken ⟨.word, ['"', ' ']⟩ ++ [] ++ (renderToken ⟨.opGt, ['>']⟩ ++ ['\t']
        ++ (renderToken ⟨.opGtgt, ['>', '>']⟩ ++ [] ++ renderToken ⟨.word, []⟩))) :=
    .cons (by decide) (by simp) (by decide)
      (.cons (by decide) (by simp [isSpace]) (by simp)
        (.cons (by decide) (by simp) (by decide) (.one (by decide))))
  exact lexLine_rendered (fun _ => rfl) h

end Rendering

section Composition

namespace LexConfig

/-- The machine with the tokens `ts` in front of what it has put out. -/
def behindTokens (ts : List Token) (s : LexConfig) : LexConfig :=
  { s with out := ts ++ s.out }

theorem stepTop_behindTokens (ts : List Token) (s : LexConfig) (c : Char) :
    (s.behindTokens ts).stepTop c = (s.stepTop c).behindTokens ts := by
  unfold stepTop
  split_ifs <;> simp [behindTokens, put, emit]

theorem step_behindTokens (ts : List Token) (s : LexConfig) (c : Char) :
    (s.behindTokens ts).step c = (s.step c).behindTokens ts := by
  obtain ⟨mode, word, out⟩ := s
  cases mode with
  | top => exact stepTop_behindTokens ts _ c
  | gt =>
    by_cases hc : c = '>'
    · simp [step, behindTokens, emit, hc]
    · have hstep : ∀ out : List Token, step ⟨.gt, word, out⟩ c
          = stepTop ⟨.top, none, out ++ (wordToken word ++ [⟨.opGt, ['>']⟩])⟩ c := by
        simp [step, emit, hc]
      rw [behindTokens, hstep, hstep, ← stepTop_behindTokens, behindTokens, List.append_assoc]
  | escape | doubleEscape => rfl
  | single | double =>
    simp only [step, behindTokens]
    split_ifs <;> rfl

theorem foldl_behindTokens (ts : List Token) : ∀ (l : List Char) (s : LexConfig),
    l.foldl step (s.behindTokens ts) = (l.foldl step s).behindTokens ts
  | [], _ => rfl
  | c :: l, s => by
    rw [List.foldl_cons, step_behindTokens, foldl_behindTokens ts l, List.foldl_cons]

theorem finish_behindTokens (ts : List Token) (s : LexConfig) :
    (s.behindTokens ts).finish = s.finish.map (ts ++ ·) := by
  obtain ⟨mode, word, out⟩ := s
  cases mode <;> simp [finish, behindTokens, emit]

/-- Where the line could end, a blank ends the word or the `>` being read. -/
theorem step_space {s : LexConfig} {ts : List Token} (h : s.finish = some ts) :
    s.step ' ' = ⟨.top, none, ts⟩ := by
  obtain ⟨mode, word, out⟩ := s
  cases mode <;> simp_all [finish, step, stepTop, emit, isSpace, wordToken]

theorem step_operator {s : LexConfig} {ts : List Token} (h : s.finish = some ts) {c : Char}
    (hc : isSpecial c = true) (hgt : c ≠ '>') :
    s.step c = ⟨.top, none, ts ++ [⟨operatorType c, [c]⟩]⟩ := by
  obtain ⟨mode, word, out⟩ := s
  cases mode <;> simp_all [finish, step, stepTop_operator _ hc hgt, emit, wordToken]

/-- What the mode says of the quotes. -/
def reading (s : LexConfig) : Reading :=
  match s.mode with
  | .top | .gt => ⟨.outside, false⟩
  | .escape => ⟨.outside, true⟩
  | .single => ⟨.single, false⟩
  | .double => ⟨.double, false⟩
  | .doubleEscape => ⟨.double, true⟩

theorem reading_stepTop (s : LexConfig) (c : Char) :
    (s.stepTop c).reading = Reading.next ⟨.outside, false⟩ c := by
  unfold stepTop
  split_ifs with hsp hop hgt hbs hsq hdq
  · have hc : c ≠ '\\' ∧ c ≠ '\'' ∧ c ≠ '"' :=
      ⟨by rintro rfl; simp [isSpace] at hsp, by rintro rfl; simp [isSpace] at hsp,
        by rintro rfl; simp [isSpace] at hsp⟩
    simp [reading, emit, Reading.next, hc]
  · simp [reading, emit, Reading.next, hgt]
  · have hc : c ≠ '\\' ∧ c ≠ '\'' ∧ c ≠ '"' :=
      ⟨by rintro rfl; simp [isSpecial] at hop, by rintro rfl; simp [isSpecial] at hop,
        by rintro rfl; simp [isSpecial] at hop⟩
    simp [reading, emit, Reading.next, hc]
  · simp [reading, put, Reading.next, hbs]
  · simp [reading, put, Reading.next, hsq]
  · simp [reading, put, Reading.next, hdq]
  · simp [reading, put, Reading.next, hbs, hsq, hdq]

theorem reading_step (s : LexConfig) (c : Char) : (s.step c).reading = s.reading.next c := by
  obtain ⟨mode, word, out⟩ := s
  cases mode with
  | top => exact reading_stepTop _ c
  | gt =>
    simp only [step]
    split_ifs with hc
    · simp [reading, emit, Reading.next, hc]
    · exact reading_stepTop _ c
  | escape | doubleEscape => rfl
  | single =>
    simp only [step]
    split_ifs with hc <;> simp [reading, put, Reading.next, hc]
  | double =>
    simp only [step]
    split_ifs with hc hbs
    · simp [reading, put, Reading.next, hc]
    · simp [reading, put, Reading.next, hbs]
    · simp [reading, put, Reading.next, hc, hbs]

theorem reading_foldl : ∀ (l : List Char) (s : LexConfig),
    (l.foldl step s).reading = l.foldl Reading.next s.reading
  | [], _ => rfl
  | c :: l, s => by rw [List.foldl_cons, reading_foldl l, reading_step, List.foldl_cons]

theorem finish_eq_none_iff (s : LexConfig) : s.finish = none ↔ s.reading.Open := by
  obtain ⟨mode, word, out⟩ := s
  cases mode <;> simp [finish, reading, Reading.Open]

end LexConfig

theorem cString_append (a b : List Char) {c : Char} (hc : c ≠ Char.ofNat 0) :
    cString (cString a ++ c :: b) = cString a ++ c :: cString b := by
  unfold cString
  rw [List.takeWhile_append_of_pos fun d hd => (List.mem_takeWhile_imp hd :),
    List.takeWhile_cons_of_pos (by simpa using hc)]

variable {alloc : ℕ → Bool}

/-- Behind an accepted line, a character that brings the machine back to its start lets it lex
what follows as if on its own. -/
theorem lexLine_append (ha : ∀ k, alloc k = true) {a : List Char} {c : Char} {ts : List Token}
    (hc : c ≠ Char.ofNat 0)
    (hstep : ((cString a).foldl LexConfig.step ⟨.top, none, []⟩).step c = ⟨.top, none, ts⟩)
    (b : List Char) :
    lexLine alloc (cString a ++ c :: b) = (lexLine alloc b).map (ts ++ ·) := by
  have hts : (⟨.top, none, ts⟩ : LexConfig) = LexConfig.behindTokens ts ⟨.top, none, []⟩ := by
    simp [LexConfig.behindTokens]
  rw [lexLine_eq_finish ha, lexLine_eq_finish ha, cString_append a b hc, List.foldl_append,
    List.foldl_cons, hstep, hts, LexConfig.foldl_behindTokens, LexConfig.finish_behindTokens]

/-- Behind an accepted line and a blank, or one of the operators other than `>`, a line is lexed as
if on its own; and a line is rejected exactly if it ends inside quotes or behind a backslash. -/
theorem lexLine_compositional (ha : ∀ k, alloc k = true) :
    (∀ (a : List Char) (ts : List Token), lexLine alloc a = some ts → ∀ b : List Char,
      lexLine alloc (cString a ++ ' ' :: b) = (lexLine alloc b).map (ts ++ ·)
      ∧ ∀ c ∈ ['|', '&', ';', '<'], lexLine alloc (cString a ++ c :: b)
        = (lexLine alloc b).map (ts ++ ⟨operatorType c, [c]⟩ :: ·))
    ∧ ∀ line, lexLine alloc line = none ↔ (Reading.ofLine (cString line)).Open := by
  refine ⟨fun a ts h b => ⟨?_, fun c hc => ?_⟩, fun line => ?_⟩
  · rw [lexLine_eq_finish ha] at h
    exact lexLine_append ha (by decide) (LexConfig.step_space h) b
  · have hop : isSpecial c = true ∧ c ≠ '>' ∧ c ≠ Char.ofNat 0 := by
      simp only [List.mem_cons, List.not_mem_nil, or_false] at hc
      rcases hc with rfl | rfl | rfl | rfl <;> decide
    rw [lexLine_eq_finish ha] at h
    rw [lexLine_append ha hop.2.2 (LexConfig.step_operator h hop.1 hop.2.1) b]
    simp
  · rw [lexLine_eq_finish ha, LexConfig.finish_eq_none_iff, LexConfig.reading_foldl]
    rfl

theorem lexLine_compositional_quoted :
    lexLine (fun _ => true) ['"', 'a', '"'] = some [⟨.word, ['a']⟩]
      ∧ lexLine (fun _ => true) ['"', 'a', '"', '|', 'b']
        = some [⟨.word, ['a']⟩, ⟨.opPipe, ['|']⟩, ⟨.word, ['b']⟩] := by
  have ha : lexLine (fun _ => true) ['"', 'a', '"'] = some [⟨.word, ['a']⟩] := by decide
  have hb : lexLine (fun _ => true) ['b'] = some [⟨.word, ['b']⟩] := by decide
  refine ⟨ha, ?_⟩
  have h := ((lexLine_compositional fun _ => rfl).1 _ _ ha ['b']).2 '|' (by decide)
  rw [hb] at h
  exact h

end Composition

end Shell

end CShellXv6
