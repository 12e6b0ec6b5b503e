import Mathlib.Data.List.Basic

/-!
# Lines

A list read as lines: each line ends in a separator, and what follows the last separator is a line
not ended yet. Every list is read so in one way (`exists_lines`, `joinLines_injective`). `lines`
reads them one after the other, and `cut` splits a list at its first separator.
-/

namespace CShellXv6

namespace Lines

variable {α : Type*} (sep : α)

def joinLines (ds : List (List α)) : List α :=
  ds.flatMap (· ++ [sep])

@[simp]
theorem joinLines_nil : joinLines sep [] = [] :=
  rfl

@[simp]
theorem joinLines_cons (d : List α) (ds : List (List α)) :
    joinLines sep (d :: ds) = d ++ sep :: joinLines sep ds := by
  simp [joinLines]

theorem joinLines_append (ds es : List (List α)) :
    joinLines sep (ds ++ es) = joinLines sep ds ++ joinLines sep es := by
  simp [joinLines]

theorem joinLines_reverse (ds : List (List α)) :
    (joinLines sep ds).reverse = ds.reverse.flatMap fun d => sep :: d.reverse := by
  simp [joinLines, List.reverse_flatMap, Function.comp_def]

/-- A loop over what holds no separator does what `f` says, if it does so one element at a time. -/
theorem foldl_free {σ : Type*} {step : σ → α → σ} (f : σ → List α → σ) (hnil : ∀ s, f s [] = s)
    (hcons : ∀ s c w, c ≠ sep → f (step s c) w = f s (c :: w)) :
    ∀ (w : List α) (s : σ), sep ∉ w → w.foldl step s = f s w
  | [], s, _ => (hnil s).symm
  | c :: w, s, h => by
    simp only [List.mem_cons, not_or] at h
    rw [List.foldl_cons, foldl_free f hnil hcons w _ h.2, hcons s c w (Ne.symm h.1)]

/-- The lines of a list and what follows the last of them. -/
structure IsLines (ds : List (List α)) (r content : List α) : Prop where
  content_eq : content = joinLines sep ds ++ r
  lines : ∀ d ∈ ds, sep ∉ d
  rest : sep ∉ r

theorem exists_lines : ∀ content : List α, ∃ ds r, IsLines sep ds r content
  | [] => ⟨[], [], rfl, by simp, by simp⟩
  | c :: content => by
    obtain ⟨ds, r, hc, hds, hr⟩ := exists_lines content
    by_cases h : c = sep
    · subst h
      exact ⟨[] :: ds, r, by simp [hc], by simpa using hds, hr⟩
    · have hsep : sep ≠ c := fun he => h he.symm
      rcases ds with _ | ⟨d, ds⟩
      · exact ⟨[], c :: r, by simp [hc], by simp, by simp [hsep, hr]⟩
      · refine ⟨(c :: d) :: ds, r, by simp [hc], ?_, hr⟩
        simp only [List.mem_cons, forall_eq_or_imp] at hds ⊢
        exact ⟨by simp [hsep, hds.1], hds.2⟩

theorem head?_lines {d r : List α} {ds : List (List α)} (hd : sep ∉ d) :
    (joinLines sep (d :: ds) ++ r).head? = some sep ↔ d = [] := by
  rcases d with _ | ⟨c, d⟩
  · simp
  · simp only [List.mem_cons, not_or] at hd
    simpa using fun he => hd.1 he.symm

theorem getLast?_lines {ds : List (List α)} {r : List α} (hds : ds ≠ []) (hr : sep ∉ r) :
    (joinLines sep ds ++ r).getLast? = some sep ↔ r = [] := by
  obtain ⟨ds, d, rfl⟩ := (List.eq_nil_or_concat' ds).resolve_left hds
  rcases hlast : r.getLast? with _ | c
  · simp [joinLines_append, List.getLast?_eq_none_iff.1 hlast]
  · have hc : c ∈ r := List.mem_of_getLast? hlast
    have hne : c ≠ sep := fun he => hr (he ▸ hc)
    simp [List.getLast?_append, hlast, hne, List.ne_nil_of_mem hc]

theorem line_injective {x y : List α} : ∀ {d e : List α}, sep ∉ d → sep ∉ e →
    d ++ sep :: x = e ++ sep :: y → d = e ∧ x = y
  | [], [], _, _, h => by simpa using h
  | [], c :: e, _, he, h => by simp_all
  | c :: d, [], hd, _, h => by simp_all
  | c :: d, c' :: e, hd, he, h => by
    simp only [List.mem_cons, not_or, List.cons_append, List.cons.injEq] at hd he h
    obtain ⟨rfl, hx⟩ := line_injective hd.2 he.2 h.2
    exact ⟨by rw [h.1], hx⟩

theorem joinLines_injective : ∀ {ds es : List (List α)}, (∀ d ∈ ds, sep ∉ d) →
    (∀ e ∈ es, sep ∉ e) → joinLines sep ds = joinLines sep es → ds = es
  | [], [], _, _, _ => rfl
  | [], e :: es, _, _, h => by simp at h
  | d :: ds, [], _, _, h => by simp at h
  | d :: ds, e :: es, hds, hes, h => by
    simp only [List.mem_cons, forall_eq_or_imp] at hds hes
    rw [joinLines_cons, joinLines_cons] at h
    obtain ⟨rfl, htail⟩ := line_injective sep hds.1 hes.1 h
    rw [joinLines_injective hds.2 hes.2 htail]

theorem intercalate_lines (r : List α) : ∀ ds : List (List α),
    [sep].intercalate (ds ++ [r]) = joinLines sep ds ++ r
  | [] => by simp
  | d :: ds => by
    rw [List.cons_append, List.intercalate_cons_of_ne_nil (by simp), intercalate_lines r ds]
    simp

section Reading

variable [DecidableEq α]

/-- The pieces between separators are the lines and what follows the last of them. -/
theorem splitOn_lines {r : List α} (hr : sep ∉ r) : ∀ {ds : List (List α)}, (∀ d ∈ ds, sep ∉ d) →
    (joinLines sep ds ++ r).splitOn sep = ds ++ [r]
  | [], _ => by simpa using List.splitOn_eq_singleton hr
  | d :: ds, h => by
    simp only [List.mem_cons, forall_eq_or_imp] at h
    rw [joinLines_cons, List.append_assoc, List.cons_append,
      List.splitOn_append_cons_self_of_not_mem h.1, splitOn_lines hr h.2, List.cons_append]

theorem IsLines.splitOn_eq {ds : List (List α)} {r content : List α}
    (h : IsLines sep ds r content) : content.splitOn sep = ds ++ [r] := by
  rw [h.content_eq, splitOn_lines sep h.rest h.lines]

/-- The lines of a list, each with its separator. -/
def lines : List α → List (List α)
  | [] => []
  | c :: cs =>
    if c = sep then [c] :: lines cs
    else
      match lines cs with
      | [] => [[c]]
      | d :: ds => (c :: d) :: ds

theorem lines_line (x : List α) : ∀ {d : List α}, sep ∉ d →
    lines sep (d ++ sep :: x) = (d ++ [sep]) :: lines sep x
  | [], _ => by simp [lines]
  | c :: d, h => by
    simp only [List.mem_cons, not_or] at h
    rw [List.cons_append, lines, if_neg (Ne.symm h.1), lines_line x h.2]
    rfl

theorem lines_joinLines : ∀ {ds : List (List α)}, (∀ d ∈ ds, sep ∉ d) →
    lines sep (joinLines sep ds) = ds.map (· ++ [sep])
  | [], _ => rfl
  | d :: ds, h => by
    simp only [List.mem_cons, forall_eq_or_imp] at h
    rw [joinLines_cons, lines_line sep _ h.1, lines_joinLines h.2, List.map_cons]

/-- What stands before the first separator and what stands behind it. -/
def cut : List α → Option (List α × List α)
  | [] => none
  | c :: cs => if c = sep then some ([], cs) else (cut cs).map fun (d, x) => (c :: d, x)

theorem cut_line (x : List α) : ∀ {d : List α}, sep ∉ d → cut sep (d ++ sep :: x) = some (d, x)
  | [], _ => by simp [cut]
  | c :: d, h => by
    simp only [List.mem_cons, not_or] at h
    rw [List.cons_append, cut, if_neg (Ne.symm h.1), cut_line x h.2]
    rfl

theorem cut_eq_none : ∀ {d : List α}, cut sep d = none → sep ∉ d
  | [], _ => by simp
  | c :: d, h => by
    rw [cut] at h
    split_ifs at h with hc
    rw [Option.map_eq_none_iff] at h
    simp only [List.mem_cons, not_or]
    exact ⟨Ne.symm hc, cut_eq_none h⟩

theorem cut_eq_some : ∀ {s d x : List α}, cut sep s = some (d, x) → sep ∉ d ∧ s = d ++ sep :: x
  | [], d, x, h => by simp [cut] at h
  | c :: s, d, x, h => by
    rw [cut] at h
    split_ifs at h with hc
    · obtain ⟨rfl, rfl⟩ : [] = d ∧ s = x := by simpa using h
      simp [hc]
    · obtain ⟨⟨d', x'⟩, hcut, heq⟩ := Option.map_eq_some_iff.1 h
      obtain ⟨rfl, rfl⟩ : c :: d' = d ∧ x' = x := by simpa using heq
      obtain ⟨hd, hs⟩ := cut_eq_some hcut
      simp only [List.mem_cons, not_or]
      exact ⟨⟨Ne.symm hc, hd⟩, by rw [hs, List.cons_append]⟩

end Reading

end Lines

end CShellXv6
