import Mathlib.Data.List.GetD
import CShellXv6.Lib.Lines
import CShellXv6.Shell.Peek

/-!
# The two reverse printers of `peek`

Both printers number the same lines with the same numbers, and both print them from the last to the
first. The printer of a regular file ends every line it prints in a newline as soon as the content
holds one, and prints no newline for an empty first line, so the two write the same bytes exactly if
neither is seen (`printReverse_agree_iff`).
-/

namespace CShellXv6

namespace Shell

namespace Peek

open Lines

section Chunks

theorem overChunks_eq {σ : Type} (step : σ → UInt8 → σ) (chunks : List (List UInt8)) (s : σ) :
    overChunks step chunks s = chunks.flatten.foldl step s := by
  rw [overChunks, List.foldl_flatten]

theorem readChunks_flatten (content : List UInt8) : (readChunks content).flatten = content := by
  fun_induction readChunks content with
  | case1 => rfl
  | case2 content h ih => rw [List.flatten_cons, ih, List.take_append_drop]

theorem scanBack_eq (numbered : Bool) (content : List UInt8) (position : ℕ) (s : Scan) :
    scanBack numbered content position s
      = (content.take position).reverse.foldl (scanChar numbered) s := by
  fun_induction scanBack numbered content position s with
  | case1 position s h start buffer ih =>
    have hle : start ≤ position := by
      unfold start
      split_ifs <;> omega
    have htake : content.take position = content.take start ++ buffer := by
      rw [← List.take_add, Nat.add_sub_cancel' hle]
    rw [ih, ← List.foldl_append, ← List.reverse_append, htake]
  | case2 position s h =>
    rw [Nat.eq_zero_of_not_pos h]
    rfl

end Chunks

section Texts

@[simp]
theorem length_swapEnds (data : List UInt8) (i : ℕ) : (swapEnds data i).length = data.length := by
  simp [swapEnds]

theorem getD_swapEnds {data : List UInt8} {k : ℕ} (hk : k < data.length) (i : ℕ) :
    (swapEnds data k).getD i 0 = if i = data.length - 1 - k then data.getD k 0
      else if i = k then data.getD (data.length - 1 - k) 0 else data.getD i 0 := by
  have hback : data.length - 1 - k < data.length := by omega
  simp only [swapEnds, List.getD_eq_getElem?_getD, List.getElem?_set, List.length_set]
  split_ifs <;> first | rfl | omega

theorem turnAround_rounds (data : List UInt8) : ∀ k ≤ data.length / 2,
    ((List.range k).foldl swapEnds data).length = data.length
      ∧ ∀ i < data.length, ((List.range k).foldl swapEnds data).getD i 0
        = if i < k ∨ data.length - 1 - i < k then data.getD (data.length - 1 - i) 0
          else data.getD i 0
  | 0, _ => by simp
  | k + 1, hk => by
    obtain ⟨hlen, hget⟩ := turnAround_rounds data k (by omega)
    rw [List.range_succ, List.foldl_append, List.foldl_cons, List.foldl_nil]
    generalize (List.range k).foldl swapEnds data = d at hlen hget
    refine ⟨by simpa using hlen, fun i hi => ?_⟩
    rw [getD_swapEnds (by omega), hlen, hget i hi, hget k (by omega),
      hget (data.length - 1 - k) (by omega)]
    split_ifs <;> first | omega | rfl | (congr 1; omega)

theorem turnAround_eq (data : List UInt8) : turnAround data = data.reverse := by
  obtain ⟨hlen, hget⟩ := turnAround_rounds data (data.length / 2) (Nat.le_refl _)
  refine List.ext_getElem (by simpa [turnAround] using hlen) fun i hi _ => ?_
  have hi' : i < data.length := hlen ▸ hi
  have := hget i hi'
  rw [List.getElem_reverse, ← List.getD_eq_getElem _ 0 hi, turnAround, this,
    ← List.getD_eq_getElem _ 0 (by omega)]
  split_ifs
  · rfl
  · congr 1
    omega

/-- The byte a character of a number is written as. -/
def byteOf (c : Char) : UInt8 :=
  c.toNat.toUInt8

theorem number_char {number : Int} {c : Char} (hc : c ∈ Decimal.ofInt number) :
    32 < c.toNat ∧ c.toNat < 256 := by
  rcases Decimal.digit_or_minus hc with hdigit | rfl
  · have : 48 ≤ c.toNat ∧ c.toNat ≤ 57 := by
      simpa [Char.isDigit, UInt32.le_iff_toNat_le] using hdigit
    omega
  · decide

theorem byteOf_toNat {c : Char} (h : c.toNat < 256) : (byteOf c).toNat = c.toNat := by
  rw [byteOf, Nat.toUInt8_eq, UInt8.toNat_ofNat', Nat.mod_eq_of_lt h]

theorem numberText_eq : ∀ number : Int,
    numberText number = (Decimal.ofInt number).map byteOf ++ [32]
  | .ofNat n => by
    have hneg : ¬ Int.ofNat n < 0 := by simp
    change List.map byteOf (toString n ++ " ").toList = _
    rw [Nat.toString_eq_ofList_toDigits, String.toList_append, String.toList_ofList,
      Decimal.ofInt, if_neg hneg]
    simp [byteOf]
  | .negSucc n => by
    change List.map byteOf (("-" ++ toString (n + 1)) ++ " ").toList = _
    rw [Nat.toString_eq_ofList_toDigits, String.toList_append, String.toList_append,
      String.toList_ofList]
    simp [Decimal.ofInt, byteOf, Int.negSucc_lt_zero]

theorem newline_notMem_numberText (number : Int) : newline ∉ numberText number := by
  rw [numberText_eq]
  simp only [List.mem_append, List.mem_map, List.mem_singleton, not_or]
  refine ⟨?_, by decide⟩
  rintro ⟨c, hc, he⟩
  have hbound := number_char hc
  have := byteOf_toNat hbound.2
  rw [he] at this
  simp only [newline, UInt8.toNat_ofNat] at this
  omega

variable (numbered : Bool)

/-- A line as it is printed when the next number is `number`. -/
def text (number : Int) (d : List UInt8) : List UInt8 :=
  if numbered ∧ d ≠ [] then numberText number ++ d else d

/-- The next number below, once the line has been printed. -/
def below (number : Int) (d : List UInt8) : Int :=
  if numbered ∧ d ≠ [] then number - 1 else number

/-- The lines as they are printed, numbered downwards. -/
def texts : Int → List (List UInt8) → List (List UInt8)
  | _, [] => []
  | number, d :: ds => text numbered number d :: texts (below numbered number d) ds

theorem text_eq_nil {number : Int} {d : List UInt8} : text numbered number d = [] ↔ d = [] := by
  unfold text
  split_ifs with h <;> simp [h]

theorem newline_notMem_text (number : Int) {d : List UInt8} (h : newline ∉ d) :
    newline ∉ text numbered number d := by
  unfold text
  split_ifs
  · simp [newline_notMem_numberText, h]
  · exact h

theorem newline_notMem_texts : ∀ (ds : List (List UInt8)) (number : Int),
    (∀ d ∈ ds, newline ∉ d) → ∀ t ∈ texts numbered number ds, newline ∉ t
  | [], _, _ => by simp [texts]
  | d :: ds, number, h => by
    simp only [List.mem_cons, forall_eq_or_imp] at h
    simp only [texts, List.mem_cons, forall_eq_or_imp]
    exact ⟨newline_notMem_text numbered number h.1, newline_notMem_texts ds _ h.2⟩

theorem texts_all_nil : ∀ (ds : List (List UInt8)) (number : Int),
    (∀ t ∈ texts numbered number ds, t = []) ↔ ∀ d ∈ ds, d = []
  | [], _ => by simp [texts]
  | d :: ds, number => by
    simp only [texts, List.mem_cons, forall_eq_or_imp, text_eq_nil, texts_all_nil]

theorem texts_eq_nil {ds : List (List UInt8)} {number : Int} (h : texts numbered number ds = []) :
    ds = [] := by
  rcases ds with _ | ⟨d, ds⟩
  · rfl
  · simp [texts] at h

theorem texts_getLast? : ∀ (ds : List (List UInt8)) (number : Int),
    (texts numbered number ds).getLast? = some [] ↔ ds.getLast? = some []
  | [], _ => by simp [texts]
  | [d], _ => by simp [texts, text_eq_nil]
  | d :: e :: ds, number => by
    have := texts_getLast? (e :: ds) (below numbered number d)
    simpa only [texts, List.getLast?_cons_cons] using this

theorem printLine_eq (line : PeekLine) (number : Int) (backwards : Bool) :
    printLine line numbered number backwards
      = text numbered number (if backwards then line.data.reverse else line.data)
        ++ if line.newline then [newline] else [] := by
  simp only [printLine, turnAround_eq]
  generalize (if backwards = true then line.data.reverse else line.data) = data
  rcases data with _ | ⟨c, data⟩
  · simp [text]
  · cases numbered <;> simp [text]

/-- Either call of `print_line` in a loop that counts down. -/
theorem printLine_cases (line : PeekLine) (number : Int) (backwards : Bool) :
    (if numbered ∧ 0 < line.data.length then printLine line true number backwards
      else printLine line false 0 backwards) = printLine line numbered number backwards := by
  simp only [printLine_eq]
  rcases line with ⟨_ | ⟨c, data⟩, b⟩ <;> cases numbered <;> simp [text]

end Texts

section Forward

variable {ds : List (List UInt8)} {r content : List UInt8}

theorem lineStep_plain (w : List UInt8) (lines : List PeekLine) (line : PeekLine)
    (h : newline ∉ w) :
    w.foldl lineStep (lines, line) = (lines, { line with data := line.data ++ w }) := by
  refine foldl_free newline
    (fun (s : List PeekLine × PeekLine) w => (s.1, { s.2 with data := s.2.data ++ w })) (by simp) ?_
    w _ h
  intro s c w hc
  simp [lineStep, hc, addLineChar]

theorem lineStep_lines : ∀ (ds : List (List UInt8)) (lines : List PeekLine),
    (∀ d ∈ ds, newline ∉ d) → (joinLines newline ds).foldl lineStep (lines, .zero)
      = (lines ++ ds.map (⟨·, true⟩), .zero)
  | [], _, _ => by simp
  | d :: ds, lines, h => by
    simp only [List.mem_cons, forall_eq_or_imp] at h
    rw [joinLines_cons, List.foldl_append, lineStep_plain d _ _ h.1, List.foldl_cons, lineStep,
      if_pos rfl, addLine, lineStep_lines ds _ h.2]
    simp [PeekLine.zero]

theorem readAllLines_eq {chunks : List (List UInt8)} (h : IsLines newline ds r chunks.flatten) :
    readAllLines chunks = ds.map (⟨·, true⟩) ++ if r = [] then [] else [⟨r, false⟩] := by
  simp only [readAllLines, overChunks_eq]
  rw [h.content_eq, List.foldl_append, lineStep_lines ds _ h.lines, lineStep_plain r _ _ h.rest]
  rcases r with _ | ⟨c, r⟩ <;> simp [PeekLine.zero, addLine]

theorem countStep_plain (w : List UInt8) (len : ℕ) (count : Int) (h : newline ∉ w) :
    w.foldl countStep (len, count) = (len + w.length, count) := by
  refine foldl_free newline (fun s w => (s.1 + w.length, s.2)) (by simp) ?_ w _ h
  intro s c w hc
  simp only [countStep, hc, if_false, List.length_cons, Prod.mk.injEq, and_true]
  omega

theorem countStep_lines : ∀ (ds : List (List UInt8)) (count : Int), (∀ d ∈ ds, newline ∉ d) →
    (joinLines newline ds).foldl countStep (0, count) = (0, count + ds.countP (0 < ·.length))
  | [], _, _ => by simp
  | d :: ds, count, h => by
    simp only [List.mem_cons, forall_eq_or_imp] at h
    rw [joinLines_cons, List.foldl_append, countStep_plain d _ _ h.1, List.foldl_cons, countStep,
      if_pos rfl, countStep_lines ds _ h.2, List.countP_cons]
    rcases d with _ | ⟨c, d⟩
    · simp
    · simp
      omega

theorem countNonempty_eq (h : IsLines newline ds r content) :
    countNonempty content = (ds.countP (0 < ·.length) : Int) + if r = [] then 0 else 1 := by
  simp only [countNonempty, overChunks_eq, readChunks_flatten]
  rw [h.content_eq, List.foldl_append, countStep_lines ds _ h.lines, countStep_plain r _ _ h.rest]
  rcases r with _ | ⟨c, r⟩ <;> simp

theorem countNonempty_readAllLines (chunks : List (List UInt8)) :
    countNonempty chunks.flatten = (readAllLines chunks).countP (0 < ·.data.length) := by
  obtain ⟨ds, r, h⟩ := exists_lines newline chunks.flatten
  rw [countNonempty_eq h, readAllLines_eq h, List.countP_append, List.countP_map]
  rcases r with _ | ⟨c, r⟩ <;> simp [Function.comp_def]

end Forward

section Printers

variable (numbered : Bool) {ds : List (List UInt8)} {r : List UInt8}

theorem printStep_eq (number : Int) (out d : List UInt8) (nl : Bool) :
    printStep numbered (number, out) ⟨d, nl⟩ = (below numbered number d,
      out ++ (text numbered number d ++ if nl then [newline] else [])) := by
  have hprint := printLine_cases numbered ⟨d, nl⟩ number false
  rw [printLine_eq numbered] at hprint
  simp only [Bool.false_eq_true, if_false] at hprint
  rw [← hprint]
  rcases d with _ | ⟨c, d⟩ <;> cases numbered <;> simp [printStep, below]

theorem printStep_lines : ∀ (es : List (List UInt8)) (number : Int) (out : List UInt8),
    ((es.map fun d => ⟨d, true⟩).foldl (printStep numbered) (number, out)).2
      = out ++ joinLines newline (texts numbered number es)
  | [], _, out => by simp [texts]
  | d :: es, number, out => by
    rw [List.map_cons, List.foldl_cons, printStep_eq, printStep_lines es]
    simp [texts]

/-- What is printed of lines read from a pipe. -/
theorem printReverseLines_eq {chunks : List (List UInt8)} (h : IsLines newline ds r chunks.flatten)
    (lineNumber : Int) :
    (printReverseLines (readAllLines chunks) numbered lineNumber).1
      = text numbered (lineNumber + countNonempty chunks.flatten) r
        ++ joinLines newline (texts numbered
          (below numbered (lineNumber + countNonempty chunks.flatten) r) ds.reverse) := by
  rw [printReverseLines, ← countNonempty_readAllLines, readAllLines_eq h]
  simp only [List.reverse_append, List.foldl_append, ← List.map_reverse]
  generalize ds.reverse = es
  rcases r with _ | ⟨c, r⟩
  · simp [printStep_lines, text, below]
  · simp [printStep_eq, printStep_lines]

theorem scanChar_plain (w : List UInt8) (s : Scan) (h : newline ∉ w) :
    w.foldl (scanChar numbered) s
      = { s with line := { s.line with data := s.line.data ++ w } } := by
  refine foldl_free newline
    (fun (s : Scan) w => { s with line := { s.line with data := s.line.data ++ w } }) (by simp) ?_
    w s h
  intro s c w hc
  simp [scanChar, hc, addLineChar]

theorem scanChar_newline (d out : List UInt8) (nl first : Bool) (number : Int)
    (h : ¬ (first ∧ d = [])) :
    scanChar numbered ⟨⟨d.reverse, nl⟩, first, number, out⟩ newline
      = ⟨⟨[], true⟩, false, below numbered number d,
        out ++ (text numbered number d ++ [newline])⟩ := by
  have hprint := printLine_cases numbered ⟨d.reverse, true⟩ number true
  rw [printLine_eq numbered] at hprint
  simp only [if_true, List.reverse_reverse] at hprint
  rw [← hprint, scanChar, if_pos rfl, if_neg (by simpa using h)]
  rcases d with _ | ⟨c, d⟩ <;> cases numbered <;> simp [below]

theorem finish_eq (d out : List UInt8) (nl first : Bool) (number : Int) :
    (Scan.mk ⟨d.reverse, nl⟩ first number out).finish numbered
      = out ++ if d = [] then [] else text numbered number d ++ if nl then [newline] else [] := by
  rcases d with _ | ⟨c, d⟩
  · simp [Scan.finish]
  · cases numbered <;> simp [Scan.finish, printLine_eq, text]

/-- The lines printed by the backward scan, the first line of the content last. -/
def dropEmptyLast : List (List UInt8) → List (List UInt8)
  | [] => []
  | [t] => if t = [] then [] else [t]
  | t :: u :: ts => t :: dropEmptyLast (u :: ts)

theorem scan_lines : ∀ (es : List (List UInt8)) (d out : List UInt8) (number : Int),
    (∀ e ∈ es, newline ∉ e) →
    ((es.flatMap fun e => newline :: e.reverse).foldl (scanChar numbered)
        ⟨⟨d.reverse, true⟩, false, number, out⟩).finish numbered
      = out ++ joinLines newline (dropEmptyLast (texts numbered number (d :: es)))
  | [], d, out, number, _ => by
    simp only [List.flatMap_nil, List.foldl_nil, finish_eq, texts, dropEmptyLast, text_eq_nil]
    split_ifs <;> simp
  | e :: es, d, out, number, h => by
    simp only [List.mem_cons, forall_eq_or_imp] at h
    rw [List.flatMap_cons, List.foldl_append, List.foldl_cons,
      scanChar_newline numbered d out true false number (by simp),
      scanChar_plain numbered e.reverse _ (by simpa using h.1)]
    have := scan_lines es e (out ++ (text numbered number d ++ [newline])) (below numbered number d)
      h.2
    simpa [texts, dropEmptyLast] using this

/-- What is printed of a regular file that holds a newline. -/
theorem printReverseRegular_eq {content : List UInt8} (h : IsLines newline ds r content)
    (hds : ds ≠ []) (lineNumber : Int) :
    (printReverseRegular numbered content lineNumber).1
      = joinLines newline
        ((if r = [] then [] else [text numbered (lineNumber + countNonempty content) r])
          ++ dropEmptyLast (texts numbered
            (below numbered (lineNumber + countNonempty content) r) ds.reverse)) := by
  simp only [printReverseRegular, scanBack_eq, List.take_length]
  generalize lineNumber + countNonempty content = number
  rw [h.content_eq, List.reverse_append, joinLines_reverse, List.foldl_append,
    scanChar_plain numbered r.reverse _ (by simpa using h.rest)]
  have hes : ∀ e ∈ ds.reverse, newline ∉ e := by simpa using h.lines
  rcases hrev : ds.reverse with _ | ⟨e, es⟩
  · exact absurd (List.reverse_eq_nil_iff.1 hrev) hds
  rw [hrev] at hes
  simp only [List.mem_cons, forall_eq_or_imp] at hes
  rw [List.flatMap_cons, List.cons_append, List.foldl_cons, List.foldl_append,
    scanChar_plain numbered e.reverse _ (by simpa using hes.1)]
  by_cases hr : r = []
  · have hskip : scanChar numbered ⟨⟨[], false⟩, true, number, []⟩ newline
        = ⟨⟨[], true⟩, false, number, []⟩ := rfl
    have := scan_lines numbered es e [] number hes.2
    simpa [hr, PeekLine.zero, hskip, below] using this
  · have := scan_lines numbered es e (text numbered number r ++ [newline]) (below numbered number r)
      hes.2
    simpa [hr, PeekLine.zero, scanChar_newline] using this

theorem printReverseRegular_plain {content : List UInt8} (h : newline ∉ content)
    (lineNumber : Int) :
    (printReverseRegular numbered content lineNumber).1
      = text numbered (lineNumber + countNonempty content) content := by
  simp only [printReverseRegular, scanBack_eq, List.take_length]
  rw [scanChar_plain numbered content.reverse _ (by simpa using h)]
  have := finish_eq numbered content [] false true (lineNumber + countNonempty content)
  simp only [PeekLine.zero, List.nil_append]
  rw [this]
  rcases content with _ | ⟨c, content⟩ <;> simp [text]

end Printers

section Agreement

theorem dropEmptyLast_eq_self : ∀ ts : List (List UInt8),
    dropEmptyLast ts = ts ↔ ts.getLast? ≠ some []
  | [] => by simp [dropEmptyLast]
  | [t] => by simp [dropEmptyLast]
  | t :: u :: ts => by
    simpa [dropEmptyLast] using dropEmptyLast_eq_self (u :: ts)

theorem dropEmptyLast_nil_cons : ∀ ts : List (List UInt8),
    dropEmptyLast ([] :: ts) = ts ↔ ∀ t ∈ ts, t = []
  | [] => by simp [dropEmptyLast]
  | t :: ts => by
    simp only [dropEmptyLast, List.cons.injEq, List.mem_cons, forall_eq_or_imp]
    refine ⟨fun ⟨ht, hts⟩ => ?_, fun ⟨ht, hts⟩ => ?_⟩
    · subst ht
      exact ⟨rfl, (dropEmptyLast_nil_cons ts).1 hts⟩
    · subst ht
      exact ⟨rfl, (dropEmptyLast_nil_cons ts).2 hts⟩

theorem newline_notMem_dropEmptyLast : ∀ {ts : List (List UInt8)}, (∀ t ∈ ts, newline ∉ t) →
    ∀ t ∈ dropEmptyLast ts, newline ∉ t
  | [], _ => by simp [dropEmptyLast]
  | [t], h => by
    intro u hu
    simp only [dropEmptyLast] at hu
    split_ifs at hu
    · cases hu
    · exact h u hu
  | t :: u :: ts, h => by
    simp only [dropEmptyLast, List.mem_cons, forall_eq_or_imp] at h ⊢
    refine ⟨h.1, newline_notMem_dropEmptyLast ?_⟩
    simpa using h.2

/-- Lines printed by the scan behind `t`, against those printed by the other printer. -/
theorem joinLines_agree {t u : List UInt8} {ts : List (List UInt8)} (ht : newline ∉ t)
    (hts : ∀ v ∈ u :: ts, newline ∉ v) :
    joinLines newline ((if t = [] then [] else [t]) ++ dropEmptyLast (u :: ts))
        = t ++ joinLines newline (u :: ts)
      ↔ if t = [] then (u :: ts).getLast? ≠ some [] else ∀ v ∈ u :: ts, v = [] := by
  have hdrop := newline_notMem_dropEmptyLast hts
  by_cases h : t = []
  · simp only [h, if_true, List.nil_append]
    rw [← dropEmptyLast_eq_self]
    exact ⟨joinLines_injective newline hdrop hts, fun he => by rw [he]⟩
  · simp only [h, if_false]
    have hjoin : t ++ joinLines newline (u :: ts) = joinLines newline ((t ++ u) :: ts) := by simp
    have hleft : ∀ v ∈ [t] ++ dropEmptyLast (u :: ts), newline ∉ v := by simp_all
    have hright : ∀ v ∈ (t ++ u) :: ts, newline ∉ v := by simp_all
    rw [hjoin]
    refine ⟨fun he => ?_, fun hv => ?_⟩
    · have hlist := joinLines_injective newline hleft hright he
      simp only [List.singleton_append, List.cons.injEq, List.self_eq_append_right] at hlist
      obtain ⟨rfl, hrest⟩ := hlist
      simpa using (dropEmptyLast_nil_cons ts).1 hrest
    · simp only [List.mem_cons, forall_eq_or_imp] at hv
      obtain ⟨rfl, hall⟩ := hv
      rw [(dropEmptyLast_nil_cons ts).2 hall]
      simp

theorem dropWhile_lines {r : List UInt8} (hr : newline ∉ r) : ∀ {ds : List (List UInt8)},
    (∀ d ∈ ds, newline ∉ d) →
    (((joinLines newline ds ++ r).dropWhile (· = newline) ≠ []
        ∧ newline ∉ (joinLines newline ds ++ r).dropWhile (· = newline))
      ↔ r ≠ [] ∧ ∀ d ∈ ds, d = [])
  | [], _ => by
    have hself : r.dropWhile (· = newline) = r := by
      rcases r with _ | ⟨c, r⟩
      · rfl
      · simp only [List.mem_cons, not_or] at hr
        rw [List.dropWhile_cons_of_neg (by simpa using fun he => hr.1 he.symm)]
    simp [hself, hr]
  | [] :: ds, h => by
    simp only [List.mem_cons, forall_eq_or_imp] at h
    simpa using dropWhile_lines hr h.2
  | (c :: d) :: ds, h => by
    simp only [List.mem_cons, forall_eq_or_imp, not_or] at h
    rw [joinLines_cons, List.cons_append, List.cons_append,
      List.dropWhile_cons_of_neg (by simpa using fun he => h.1.1 he.symm)]
    simp

theorem agreeable_iff {ds : List (List UInt8)} {r content : List UInt8}
    (h : IsLines newline ds r content) :
    Agreeable content ↔ ds = [] ∨ (r = [] ∧ ds.head? ≠ some [])
      ∨ (r ≠ [] ∧ ∀ d ∈ ds, d = []) := by
  obtain ⟨rfl, hds, hr⟩ := h
  rw [Agreeable, dropWhile_lines hr hds]
  rcases ds with _ | ⟨d, ds⟩
  · by_cases hnil : r = [] <;> simp [hnil]
  · rw [getLast?_lines newline (List.cons_ne_nil d ds) hr, ne_eq (List.head? _),
      head?_lines newline (hds d List.mem_cons_self)]
    simp

theorem printReverse_agree_iff (chunks : List (List UInt8)) (numbered : Bool) (lineNumber : Int) :
    printReverseRegular numbered chunks.flatten lineNumber
        = printReverseLines (readAllLines chunks) numbered lineNumber
      ↔ Agreeable chunks.flatten := by
  obtain ⟨ds, r, h⟩ := exists_lines newline chunks.flatten
  have hnumber : (printReverseRegular numbered chunks.flatten lineNumber).2
      = (printReverseLines (readAllLines chunks) numbered lineNumber).2 := by
    simp only [printReverseRegular, printReverseLines, countNonempty_readAllLines]
  rw [Prod.ext_iff, and_iff_left hnumber, agreeable_iff h, printReverseLines_eq numbered h]
  generalize hn : lineNumber + countNonempty chunks.flatten = number
  by_cases hds : ds = []
  · have hr : chunks.flatten = r := by simpa [hds] using h.content_eq
    rw [printReverseRegular_plain numbered (hr ▸ h.rest), hn, hr]
    simp [hds, texts]
  rw [printReverseRegular_eq numbered h hds, hn]
  have hes : ∀ e ∈ ds.reverse, newline ∉ e := by simpa using h.lines
  have htexts := newline_notMem_texts numbered ds.reverse (below numbered number r) hes
  have hlast := texts_getLast? numbered ds.reverse (below numbered number r)
  have hnil := texts_all_nil numbered ds.reverse (below numbered number r)
  rcases htx : texts numbered (below numbered number r) ds.reverse with _ | ⟨u, ts⟩
  · exact absurd (texts_eq_nil numbered htx) (by simpa using hds)
  rw [htx] at htexts hlast hnil
  have hagree := joinLines_agree (newline_notMem_text numbered number h.rest) htexts
  simp only [text_eq_nil] at hagree
  rw [hagree, ne_eq, hlast, hnil]
  by_cases hr : r = [] <;> simp [hr, hds]

/-- The content is an `a`, a newline and a `b`. -/
theorem printReverse_unended :
    printReverseRegular false [97, newline, 98] 0 = ([98, newline, 97, newline], 2)
      ∧ printReverseLines (readAllLines [[97, newline, 98]]) false 0
        = ([98, 97, newline], 2) := by
  simp only [printReverseRegular, countNonempty, scanBack_eq, overChunks_eq, readChunks_flatten]
  decide

end Agreement

end Peek

end Shell

end CShellXv6
