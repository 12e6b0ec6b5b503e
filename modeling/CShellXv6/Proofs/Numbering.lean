import CShellXv6.Proofs.Peek

/-!
# Numbering lines

`print_forward` goes through the pieces between newlines one after the other, however the reads
cut them, so what `peek` writes forwards depends on the contents alone (`runPeek_forward`). The
numbers it gives to a regular file are the ones `print_reverse_regular` counts down to
(`printReverse_numbers`).
-/

namespace CShellXv6

namespace Shell

namespace Peek

open Lines

section Forward

variable (numbered : Bool) {ds : List (List UInt8)} {r : List UInt8}

/-- `line_number`, once the line has been printed. -/
def above (number : Int) (d : List UInt8) : Int :=
  if numbered ∧ d ≠ [] then number + 1 else number

/-- The lines as they are printed, numbered upwards. -/
def textsUp : Int → List (List UInt8) → List (List UInt8)
  | _, [] => []
  | number, d :: ds => text numbered (number + 1) d :: textsUp (above numbered number d) ds

theorem textsUp_append (es : List (List UInt8)) : ∀ (ds : List (List UInt8)) (number : Int),
    textsUp numbered number (ds ++ es)
      = textsUp numbered number ds ++ textsUp numbered (ds.foldl (above numbered) number) es
  | [], _ => rfl
  | d :: ds, number => by simp [textsUp, textsUp_append es ds]

theorem forwardChar_plain (w : List UInt8) (s : Forward) (h : newline ∉ w) :
    w.foldl (forwardChar numbered) s
      = { s with line := { s.line with data := s.line.data ++ w } } := by
  refine foldl_free newline
    (fun (s : Forward) w => { s with line := { s.line with data := s.line.data ++ w } }) (by simp)
    ?_ w s h
  intro s c w hc
  simp [forwardChar, hc, addLineChar]

theorem forwardChar_newline (d out : List UInt8) (number : Int) :
    forwardChar numbered ⟨⟨d, false⟩, number, out⟩ newline
      = ⟨.zero, above numbered number d, out ++ (text numbered (number + 1) d ++ [newline])⟩ := by
  rcases d with _ | ⟨c, d⟩ <;> cases numbered <;>
    simp [forwardChar, printLine_eq, text, above, PeekLine.zero]

theorem forward_lines : ∀ (ds : List (List UInt8)) (number : Int) (out : List UInt8),
    (∀ d ∈ ds, newline ∉ d) →
    (joinLines newline ds).foldl (forwardChar numbered) ⟨.zero, number, out⟩
      = ⟨.zero, ds.foldl (above numbered) number,
        out ++ joinLines newline (textsUp numbered number ds)⟩
  | [], _, _, _ => by simp [textsUp]
  | d :: ds, number, out, h => by
    simp only [List.mem_cons, forall_eq_or_imp] at h
    rw [joinLines_cons, List.foldl_append, forwardChar_plain numbered d _ h.1, List.foldl_cons]
    simp only [PeekLine.zero, List.nil_append]
    rw [forwardChar_newline, forward_lines ds _ _ h.2]
    simp [textsUp, PeekLine.zero]

theorem forward_finish (number : Int) (out r : List UInt8) :
    (Forward.mk ⟨r, false⟩ number out).finish numbered
      = (out ++ text numbered (number + 1) r, above numbered number r) := by
  rcases r with _ | ⟨c, r⟩ <;> cases numbered <;>
    simp [Forward.finish, printLine_eq, text, above]

/-- `print_forward` over the pieces between newlines. -/
theorem printForward_eq (chunks : List (List UInt8)) (lineNumber : Int) :
    printForward numbered chunks lineNumber
      = ([newline].intercalate (textsUp numbered lineNumber (chunks.flatten.splitOn newline)),
        (chunks.flatten.splitOn newline).foldl (above numbered) lineNumber) := by
  obtain ⟨ds, r, h⟩ := exists_lines newline chunks.flatten
  rw [h.splitOn_eq, printForward, overChunks_eq, h.content_eq, List.foldl_append,
    forward_lines numbered ds _ _ h.lines, forwardChar_plain numbered r _ h.rest, textsUp_append]
  simp only [PeekLine.zero, List.nil_append, forward_finish, textsUp, intercalate_lines,
    List.foldl_append, List.foldl_cons, List.foldl_nil]

end Forward

section Pieces

theorem textsUp_false : ∀ (ds : List (List UInt8)) (number : Int), textsUp false number ds = ds
  | [], _ => rfl
  | d :: ds, number => by simp [textsUp, text, textsUp_false ds]

theorem above_false : ∀ (ds : List (List UInt8)) (number : Int),
    ds.foldl (above false) number = number
  | [], _ => rfl
  | d :: ds, number => by simp [above, above_false ds]

theorem textsUp_true : ∀ (ds : List (List UInt8)) (number : Int),
    textsUp true number ds = numberUp number ds
  | [], _ => rfl
  | [] :: ds, number => by simp [textsUp, numberUp, text, above, textsUp_true ds]
  | (c :: d) :: ds, number => by simp [textsUp, numberUp, text, above, textsUp_true ds]

theorem above_true : ∀ (ds : List (List UInt8)) (number : Int),
    ds.foldl (above true) number = number + (ds.filter (· ≠ [])).length
  | [], _ => by simp
  | [] :: ds, number => by simp [above, above_true ds]
  | (c :: d) :: ds, number => by
    simp [above, above_true ds]
    omega

theorem printForward_plain (chunks : List (List UInt8)) (lineNumber : Int) :
    printForward false chunks lineNumber = (chunks.flatten, lineNumber) := by
  rw [printForward_eq, textsUp_false, above_false, List.intercalate_splitOn]

theorem printForward_numbered (chunks : List (List UInt8)) (lineNumber : Int) :
    printForward true chunks lineNumber
      = ([newline].intercalate (numberUp lineNumber (chunks.flatten.splitOn newline)),
        lineNumber + (nonemptyLines chunks.flatten).length) := by
  rw [printForward_eq, textsUp_true, above_true, nonemptyLines]

end Pieces

section Numbers

theorem readNumbered_text (number : Int) (d : List UInt8) :
    readNumbered (numberText number ++ d) = (number, d) := by
  have hblank : ∀ b ∈ (Decimal.ofInt number).map byteOf, decide (b ≠ 32) = true := by
    intro b hb
    obtain ⟨c, hc, rfl⟩ := List.mem_map.1 hb
    have hbound := number_char hc
    have := byteOf_toNat hbound.2
    rw [decide_eq_true_eq]
    intro he
    rw [he] at this
    simp only [UInt8.toNat_ofNat] at this
    omega
  have hchars : ((Decimal.ofInt number).map byteOf).map (fun c => Char.ofNat c.toNat)
      = Decimal.ofInt number := by
    rw [List.map_map]
    refine (List.map_congr_left fun c hc => ?_).trans (List.map_id _)
    rw [Function.comp_apply, byteOf_toNat (number_char hc).2, Char.ofNat_toNat, id]
  rw [numberText_eq, readNumbered, List.append_assoc, List.takeWhile_append_of_pos hblank,
    List.dropWhile_append_of_pos hblank]
  simp [hchars, Decimal.readSigned_ofInt]

theorem readBack_joinLines {ts : List (List UInt8)} (h : ∀ t ∈ ts, newline ∉ t) :
    readBack (joinLines newline ts) = (ts.filter (· ≠ [])).map readNumbered := by
  have hsplit := splitOn_lines newline (r := []) (by simp) h
  rw [List.append_nil] at hsplit
  simp [readBack, nonemptyLines, hsplit]

theorem readBack_intercalate {ts : List (List UInt8)} (h : ∀ t ∈ ts, newline ∉ t)
    (hne : ts ≠ []) :
    readBack ([newline].intercalate ts) = (ts.filter (· ≠ [])).map readNumbered := by
  rw [readBack, nonemptyLines, List.splitOn_intercalate newline h hne]

theorem numberUp_readNumbered : ∀ (ds : List (List UInt8)) (number : Int),
    ((numberUp number ds).filter (· ≠ [])).map readNumbered
      = (ds.filter (· ≠ [])).mapIdx fun k d => (number + k + 1, d)
  | [], _ => rfl
  | [] :: ds, number => by
    simpa [numberUp] using numberUp_readNumbered ds number
  | (c :: d) :: ds, number => by
    have hcount : (fun (k : ℕ) (d : List UInt8) => (number + (k + 1 : ℕ) + 1, d))
        = fun (k : ℕ) d => (number + 1 + k + 1, d) := by
      funext k d
      congr 1
      omega
    rw [numberUp, if_neg (List.cons_ne_nil c d), List.filter_cons_of_pos (by simp), List.map_cons,
      List.filter_cons_of_pos (by simp), List.mapIdx_cons, readNumbered_text, hcount,
      numberUp_readNumbered ds]
    simp

theorem texts_readNumbered : ∀ (ds : List (List UInt8)) (number : Int),
    ((texts true number ds).filter (· ≠ [])).map readNumbered
      = (ds.filter (· ≠ [])).mapIdx fun k d => (number - k, d)
  | [], _ => rfl
  | [] :: ds, number => by
    simpa [texts, text, below] using texts_readNumbered ds number
  | (c :: d) :: ds, number => by
    have hcount : (fun (k : ℕ) (d : List UInt8) => (number - (k + 1 : ℕ), d))
        = fun (k : ℕ) d => (number - 1 - k, d) := by
      funext k d
      congr 1
      omega
    have htext : text true number (c :: d) = numberText number ++ c :: d := by simp [text]
    have hbelow : below true number (c :: d) = number - 1 := by simp [below]
    rw [texts, htext, hbelow, List.filter_cons_of_pos (by simp), List.map_cons,
      List.filter_cons_of_pos (by simp), List.mapIdx_cons, readNumbered_text, hcount,
      texts_readNumbered ds]
    simp

theorem filter_dropEmptyLast : ∀ ts : List (List UInt8),
    (dropEmptyLast ts).filter (· ≠ []) = ts.filter (· ≠ [])
  | [] => rfl
  | [t] => by
    unfold dropEmptyLast
    split_ifs with h <;> simp [h]
  | t :: u :: ts => by
    rw [dropEmptyLast, List.filter_cons, List.filter_cons, filter_dropEmptyLast (u :: ts)]

/-- The numbers and lines of a regular file printed backwards, over its pieces from the last to the
first. -/
theorem readBack_printReverseRegular (content : List UInt8) (lineNumber : Int) :
    readBack (printReverseRegular true content lineNumber).1
      = ((texts true (lineNumber + countNonempty content) (content.splitOn newline).reverse).filter
        (· ≠ [])).map readNumbered := by
  obtain ⟨ds, r, h⟩ := exists_lines newline content
  rw [h.splitOn_eq, List.reverse_append, List.reverse_singleton, List.singleton_append, texts]
  generalize hn : lineNumber + countNonempty content = number
  have ht := newline_notMem_text true number h.rest
  by_cases hds : ds = []
  · have hr : content = r := by simpa [hds] using h.content_eq
    subst hr
    rw [printReverseRegular_plain true h.rest, hn, hds]
    have hline : readBack ([newline].intercalate [text true number content])
        = ([text true number content].filter (· ≠ [])).map readNumbered :=
      readBack_intercalate (by simpa using ht) (by simp)
    simpa [texts] using hline
  · have hes : ∀ e ∈ ds.reverse, newline ∉ e := by simpa using h.lines
    have htexts := newline_notMem_dropEmptyLast
      (newline_notMem_texts true ds.reverse (below true number r) hes)
    have hlines : ∀ t ∈ (if r = [] then [] else [text true number r])
        ++ dropEmptyLast (texts true (below true number r) ds.reverse), newline ∉ t := by
      intro t hmem
      rcases List.mem_append.1 hmem with hmem | hmem
      · split_ifs at hmem
        · cases hmem
        · rw [List.mem_singleton.1 hmem]
          exact ht
      · exact htexts t hmem
    rw [printReverseRegular_eq true h hds, hn, readBack_joinLines hlines, List.filter_append,
      filter_dropEmptyLast, List.filter_cons]
    by_cases hr : r = [] <;> simp [hr, text_eq_nil]

theorem newline_notMem_numberUp : ∀ (ds : List (List UInt8)) (number : Int),
    (∀ d ∈ ds, newline ∉ d) → ∀ t ∈ numberUp number ds, newline ∉ t
  | [], _, _ => by simp [numberUp]
  | [] :: ds, number, h => by
    simp only [List.mem_cons, forall_eq_or_imp] at h
    simp only [numberUp, if_true, List.mem_cons, forall_eq_or_imp]
    exact ⟨h.1, newline_notMem_numberUp ds number h.2⟩
  | (c :: d) :: ds, number, h => by
    obtain ⟨hd, hds⟩ := List.forall_mem_cons.1 h
    rw [numberUp, if_neg (List.cons_ne_nil c d)]
    refine List.forall_mem_cons.2 ⟨?_, newline_notMem_numberUp ds _ hds⟩
    rw [List.mem_append, not_or]
    exact ⟨newline_notMem_numberText _, hd⟩

theorem newline_notMem_pieces (content : List UInt8) :
    ∀ d ∈ content.splitOn newline, newline ∉ d := by
  obtain ⟨ds, r, h⟩ := exists_lines newline content
  rw [h.splitOn_eq]
  intro d hd
  rcases List.mem_append.1 hd with hd | hd
  · exact h.lines d hd
  · rw [List.mem_singleton.1 hd]
    exact h.rest

theorem readBack_printForward (chunks : List (List UInt8)) (lineNumber : Int) :
    readBack (printForward true chunks lineNumber).1
      = (nonemptyLines chunks.flatten).mapIdx fun k d => (lineNumber + k + 1, d) := by
  have hne : numberUp lineNumber (chunks.flatten.splitOn newline) ≠ [] := by
    rcases h : chunks.flatten.splitOn newline with _ | ⟨d, ds⟩
    · exact absurd h (List.splitOn_ne_nil _ _)
    · unfold numberUp
      split_ifs <;> simp
  rw [printForward_numbered, readBack_intercalate
    (newline_notMem_numberUp _ _ (newline_notMem_pieces _)) hne, numberUp_readNumbered,
    nonemptyLines]

theorem countNonempty_length (content : List UInt8) :
    countNonempty content = (nonemptyLines content).length := by
  obtain ⟨ds, r, h⟩ := exists_lines newline content
  have hpos : ∀ d : List UInt8, decide (0 < d.length) = decide (d ≠ []) := by
    intro d
    rw [decide_eq_decide, List.length_pos_iff]
  rw [countNonempty_eq h, nonemptyLines, h.splitOn_eq, List.filter_append, List.length_append,
    ← List.countP_eq_length_filter]
  simp only [hpos]
  by_cases hr : r = [] <;> simp [hr]

/-- `print_reverse_regular` prints the lines of `print_forward` with the same numbers in the
opposite order, and both leave `line_number` increased by the number of them. -/
theorem printReverse_numbers (chunks : List (List UInt8)) (lineNumber : Int) :
    readBack (printForward true chunks lineNumber).1
        = ((nonemptyLines chunks.flatten).mapIdx fun k d => (lineNumber + k + 1, d))
      ∧ readBack (printReverseRegular true chunks.flatten lineNumber).1
        = (readBack (printForward true chunks lineNumber).1).reverse
      ∧ (printForward true chunks lineNumber).2
        = lineNumber + (nonemptyLines chunks.flatten).length
      ∧ (printReverseRegular true chunks.flatten lineNumber).2
        = lineNumber + (nonemptyLines chunks.flatten).length := by
  have hforward := readBack_printForward chunks lineNumber
  refine ⟨hforward, ?_, by rw [printForward_numbered], ?_⟩
  · rw [hforward, readBack_printReverseRegular, texts_readNumbered, countNonempty_length,
      List.filter_reverse, ← nonemptyLines, List.mapIdx_reverse]
    congr 1
    refine List.ext_getElem (by simp) fun i hi _ => ?_
    simp only [List.getElem_mapIdx, List.length_mapIdx] at hi ⊢
    congr 1
    omega
  · rw [← countNonempty_length]
    rfl

end Numbers

section Command

theorem optionLetters_numbered : ∀ (k : ℕ) (o : PeekOptions),
    optionLetters (List.replicate (k + 1) 'n') o = some { o with numbered := true }
  | 0, o => by simp [optionLetters]
  | k + 1, o => by
    rw [List.replicate_succ, optionLetters, if_pos rfl, optionLetters_numbered k]

theorem peekOptions_flags {names : List (List Char)}
    (hnames : ∀ name ∈ names.head?, isOption ⟨.word, name⟩ = false) :
    ∀ (flags : List (List Char)) (o : PeekOptions),
      (∀ f ∈ flags, ∃ k, f = '-' :: List.replicate (k + 1) 'n') →
      peekOptions ((flags ++ names).map (⟨.word, ·⟩)) o
        = some (if flags = [] then o else { o with numbered := true }, names.map (⟨.word, ·⟩))
  | [], o, _ => by
    rcases names with _ | ⟨name, names⟩
    · rfl
    · have hname := hnames name rfl
      simp [peekOptions, hname]
  | f :: flags, o, h => by
    simp only [List.mem_cons, forall_eq_or_imp] at h
    obtain ⟨k, rfl⟩ := h.1
    have hoption : isOption ⟨.word, '-' :: List.replicate (k + 1) 'n'⟩ = true := by
      simp [isOption]
    rw [List.cons_append, List.map_cons, peekOptions, if_pos hoption, List.tail_cons,
      optionLetters_numbered, Option.bind_some, peekOptions_flags hnames flags _ h.2,
      if_neg (List.cons_ne_nil _ _), ite_self]

/-- What forward `peek` writes for these contents. -/
def written (numbered : Bool) (lineNumber : Int) (contents : List (List UInt8)) : List UInt8 :=
  if numbered then numberContents lineNumber contents else contents.flatten

theorem peekOne_forward (name : List Char) (source : Source) (numbered : Bool) (s : PeekState) :
    (peekOne name source numbered false s).out
        = s.out ++ (printForward numbered [source.content name] s.lineNumber).1
      ∧ (peekOne name source numbered false s).lineNumber
        = (printForward numbered [source.content name] s.lineNumber).2 := by
  have hnil : printForward numbered [[]] s.lineNumber = ([], s.lineNumber) := rfl
  have hreads : printForward numbered [source.reads.flatten] s.lineNumber
      = printForward numbered source.reads s.lineNumber := by
    rw [printForward_eq, printForward_eq, List.flatten_singleton]
  unfold peekOne
  by_cases hopens : name ≠ ['-'] ∧ source.opens = false
  · have hcontent : source.content name = [] := by simp [Source.content, hopens]
    simp [hopens, hcontent, hnil, PeekState.fail]
  · have hopens' : name = ['-'] ∨ source.opens = true := by
      rw [not_and_or, not_not, Bool.not_eq_false] at hopens
      exact hopens
    rw [if_neg hopens]
    rcases hstat : source.stat with _ | kind
    · simp [Source.content, hstat, hnil, PeekState.fail]
    · cases kind <;>
        simp [Source.content, hstat, hopens', hnil, hreads, PeekState.fail, PeekState.print]

theorem peekOne_files (numbered : Bool) : ∀ (files : List (List Char × Source)) (s : PeekState),
    (files.foldl (fun s f => peekOne f.1 f.2 numbered false s) s).out
      = s.out ++ written numbered s.lineNumber (files.map fun f => f.2.content f.1)
  | [], s => by simp [written, numberContents]
  | f :: files, s => by
    obtain ⟨hout, hnumber⟩ := peekOne_forward f.1 f.2 numbered s
    rw [List.foldl_cons, peekOne_files numbered files, hout, hnumber]
    cases numbered
    · simp [written, printForward_plain]
    · simp [written, numberContents, printForward_numbered]

theorem runPeek_files (sources : ℕ → Source) {flags names : List (List Char)}
    (hflags : ∀ f ∈ flags, ∃ k, f = '-' :: List.replicate (k + 1) 'n')
    (hnames : ∀ name ∈ names.head?, isOption ⟨.word, name⟩ = false) :
    runPeek sources (peekTokens flags names)
      = (1, (filesOf sources flags names).foldl
        (fun s f => peekOne f.1 f.2 (decide (flags ≠ [])) false s) .zero) := by
  have hoptions := peekOptions_flags hnames flags ⟨false, false⟩ hflags
  have hset : (if flags = [] then (⟨false, false⟩ : PeekOptions) else ⟨true, false⟩)
      = ⟨decide (flags ≠ []), false⟩ := by
    by_cases h : flags = [] <;> simp [h]
  have hindex : (peekTokens flags names).length - names.length = 1 + flags.length := by
    simp only [peekTokens, List.length_cons, List.length_map, List.length_append]
    omega
  rw [hset] at hoptions
  rw [filesOf, List.foldl_map]
  unfold runPeek
  rw [peekTokens] at hindex ⊢
  simp only [ne_eq, not_true_eq_false, or_self, if_false, hoptions, List.length_map, hindex]
  rcases names with _ | ⟨name, names⟩
  · simp
  · simp [List.zipIdx_map, List.foldl_map]

/-- Forward `peek` writes the contents, and with `-n` every line of them that is not empty behind
its number, counted through all of them. -/
theorem runPeek_forward (sources : ℕ → Source) {flags names : List (List Char)}
    (hflags : ∀ f ∈ flags, ∃ k, f = '-' :: List.replicate (k + 1) 'n')
    (hnames : ∀ name ∈ names.head?, isOption ⟨.word, name⟩ = false) :
    (runPeek sources (peekTokens flags names)).1 = 1
      ∧ (runPeek sources (peekTokens flags names)).2.out
        = if flags = [] then
            ((filesOf sources flags names).map fun f => f.2.content f.1).flatten
          else numberContents 0 ((filesOf sources flags names).map fun f => f.2.content f.1) := by
  rw [runPeek_files sources hflags hnames]
  refine ⟨rfl, ?_⟩
  rw [peekOne_files]
  by_cases h : flags = [] <;> simp [h, written, PeekState.zero]

/-- Two files, the first `a` and an empty line, the second `b` without a newline, read a byte at a
time. -/
theorem runPeek_forward_two :
    (runPeek (fun i => if i = 2 then ⟨true, some .regular, [[97], [10], [10]]⟩
        else ⟨true, some .other, [[98]]⟩)
      (peekTokens [['-', 'n']] [['x'], ['y']])).2.out
        = [49, 32, 97, 10, 10, 50, 32, 98] := by
  rw [(runPeek_forward _ (by simp; exact ⟨0, rfl⟩) (by simp [isOption])).2]
  decide

end Command

end Peek

end Shell

end CShellXv6
