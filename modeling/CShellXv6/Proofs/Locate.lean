import CShellXv6.Shell.Locate

/-!
# The components of PATH that are looked at

`strtok_r` returns the components that are not empty and no others (`strtokAll_eq`), so that an
empty component is passed over and never reaches the test for one. It shows where there is an
executable file of the name in the current directory (`lookup_iff`).
-/

namespace CShellXv6

namespace Shell

section Tokens

variable {delim : Char}

theorem splitOn_filter_delim (s : List Char) :
    ((delim :: s).splitOn delim).filter (· ≠ []) = (s.splitOn delim).filter (· ≠ []) := by
  have hsplit := List.splitOn_append_cons_self_of_not_mem (a := delim) List.not_mem_nil s
  rw [List.nil_append] at hsplit
  rw [hsplit, List.filter_cons_of_neg (by simp)]

theorem splitOn_filter_dropWhile : ∀ s : List Char,
    ((s.dropWhile (· = delim)).splitOn delim).filter (· ≠ []) = (s.splitOn delim).filter (· ≠ [])
  | [] => rfl
  | c :: s => by
    by_cases hc : c = delim
    · rw [List.dropWhile_cons_of_pos (by simpa using hc), splitOn_filter_dropWhile s, hc,
        splitOn_filter_delim]
    · rw [List.dropWhile_cons_of_neg (by simpa using hc)]

/-- The pieces of a text that does not start with the delimiter, from the second one on. -/
theorem splitOn_takeWhile (s : List Char) :
    (s.splitOn delim).filter (· ≠ [])
      = ([s.takeWhile (· ≠ delim)] ++ ((s.dropWhile (· ≠ delim)).tail.splitOn delim)).filter
        (· ≠ []) := by
  have hfree : delim ∉ s.takeWhile (· ≠ delim) := fun h => by
    simpa using List.mem_takeWhile_imp h
  conv_lhs => rw [← List.takeWhile_append_dropWhile (p := (· ≠ delim)) (l := s)]
  rcases hdrop : s.dropWhile (· ≠ delim) with _ | ⟨c, rest⟩
  · rw [List.append_nil, List.splitOn_eq_singleton hfree, List.filter_append]
    simp
  · have hc : c = delim := by
      have := List.head?_dropWhile_not (· ≠ delim) s
      rw [hdrop] at this
      simpa using this
    rw [hc, List.splitOn_append_cons_self_of_not_mem hfree]
    rfl

/-- `strtok_r` returns the pieces between delimiters that are not empty. -/
theorem strtokAll_eq (s : List Char) :
    strtokAll delim s = (s.splitOn delim).filter (· ≠ []) := by
  fun_induction strtokAll delim s with
  | case1 s h =>
    simp only [strtokR] at h
    split_ifs at h with hs
    rw [← splitOn_filter_dropWhile, hs]
    rfl
  | case2 s token rest h ih =>
    simp only [strtokR] at h
    split_ifs at h with hs
    simp only [Option.some.injEq, Prod.mk.injEq] at h
    have htoken : token ≠ [] := by
      rw [← h.1]
      rcases hskip : s.dropWhile (· = delim) with _ | ⟨c, t⟩
      · exact absurd hskip hs
      · have hc := List.head?_dropWhile_not (· = delim) s
        rw [hskip] at hc
        rw [List.takeWhile_cons_of_pos (by simpa using hc)]
        exact List.cons_ne_nil _ _
    rw [← splitOn_filter_dropWhile, splitOn_takeWhile, h.1, h.2, ih, List.singleton_append,
      List.filter_cons_of_pos (by simpa using htoken)]

end Tokens

section Lookup

variable (e : Executables) (value name : List Char)

theorem executableFile_makeCandidate {directory : List Char} (h : directory ≠ []) :
    e.executableFile (makeCandidate e.cwd directory name)
      = e.executableFile (makePath directory name) := by
  have hhead : ∀ {d n : List Char}, d ≠ [] → (makePath d n).head? = d.head? := by
    intro d n hd
    rcases d with _ | ⟨c, d⟩
    · exact absurd rfl hd
    · rfl
  have hcwd : e.cwd ≠ [] := by
    intro h
    have := e.absolute
    simp [h] at this
  unfold makeCandidate
  split_ifs with hslash
  · rfl
  · unfold Executables.executableFile Executables.resolve
    rw [if_pos (by rw [hhead hcwd, e.absolute]), if_neg (by rw [hhead h]; exact hslash)]

/-- The directories among `parts` where the file is. -/
def among (parts : List (List Char)) : List (List Char) :=
  parts.filter fun directory => e.executableFile (makePath directory name)

theorem pathParts_named {directory : List Char} (h : directory ∈ pathParts value) :
    directory ≠ [] := by
  simpa using (List.mem_filter.1 h).2

theorem searchPath_eq : (searchPath e (some value) name).1
    = (among e name (pathParts value)).map (makeCandidate e.cwd · name) := by
  have hloop : ∀ (parts : List (List Char)) (out : List (List Char)) (found : Bool),
      (∀ directory ∈ parts, directory ≠ []) →
      (parts.foldl (fun (s : List (List Char) × Bool) directory =>
        let directory := if directory = [] then ['.'] else directory
        let path := makeCandidate e.cwd directory name
        if e.executableFile path then (s.1 ++ [path], true) else (s.1, s.2)) (out, found)).1
        = out ++ (among e name parts).map (makeCandidate e.cwd · name) := by
    intro parts
    induction parts with
    | nil => simp [among]
    | cons d parts ih =>
      intro out found h
      obtain ⟨hd, hparts⟩ := List.forall_mem_cons.1 h
      simp only [List.foldl_cons, if_neg hd, executableFile_makeCandidate e name hd, among,
        List.filter_cons]
      split_ifs with hexec
      · simpa [among] using ih (out ++ [makeCandidate e.cwd d name]) true hparts
      · simpa [among] using ih out found hparts
  have hparts : strtokAll ':' value = pathParts value := strtokAll_eq value
  simp only [searchPath, hparts]
  simpa using hloop (pathParts value) [] false fun d hd => pathParts_named value hd

theorem findExecutable_eq (hname : '/' ∉ name) :
    findExecutable (e.paths (some value)) name true
      = ((among e name (pathParts value)).map (makePath · name)).head? := by
  have hdot : (pathParts value).map (fun part => makePath (if part = [] then ['.'] else part) name)
      = (pathParts value).map (makePath · name) :=
    List.map_congr_left fun d hd => by rw [if_neg (pathParts_named value hd)]
  simp only [findExecutable, if_neg hname, Executables.paths, Bool.true_eq_false, false_and,
    if_false, hdot, among]
  rw [← List.head?_filter, List.filter_map]
  rfl

theorem find_holders :
    ((pathComponents value).map (makePath · name)).find? e.executableFile
      = ((holders e value name).map (makePath · name)).head? := by
  rw [← List.head?_filter, List.filter_map]
  rfl

end Lookup

section Dots

variable (p : List Char → Bool)

/-- An empty component counts as a dot. -/
theorem length_filter_dots : ∀ ds : List (List Char),
    ((ds.map fun d => if d = [] then ['.'] else d).filter p).length
      = ((ds.filter (· ≠ [])).filter p).length + if p ['.'] then ds.count [] else 0
  | [] => by simp
  | [] :: ds => by
    have ih := length_filter_dots ds
    rw [List.map_cons, if_pos rfl, List.filter_cons, List.count_cons_self,
      List.filter_cons_of_neg (p := fun d => decide (d ≠ [])) (by simp)]
    split_ifs at ih ⊢
    · rw [List.length_cons, ih]
      omega
    · exact ih
  | (c :: d) :: ds => by
    have ih := length_filter_dots ds
    rw [List.map_cons, if_neg (List.cons_ne_nil c d), List.filter_cons,
      List.filter_cons_of_pos (p := fun d => decide (d ≠ [])) (by simp), List.filter_cons,
      List.count_cons_of_ne (List.cons_ne_nil c d)]
    split
    · rw [List.length_cons, List.length_cons, ih]
      omega
    · exact ih

theorem filter_dots : ∀ ds : List (List Char), p ['.'] = false ∨ [] ∉ ds →
    (ds.map fun d => if d = [] then ['.'] else d).filter p = (ds.filter (· ≠ [])).filter p
  | [], _ => rfl
  | [] :: ds, h => by
    have hdot := h.resolve_right fun hn => hn List.mem_cons_self
    rw [List.map_cons, if_pos rfl, List.filter_cons_of_neg (by simp [hdot]),
      filter_dots ds (.inl hdot),
      List.filter_cons_of_neg (p := fun d => decide (d ≠ [])) (by simp)]
  | (c :: d) :: ds, h => by
    have h' := h.imp_right fun hn hm => hn (List.mem_cons_of_mem (c :: d) hm)
    rw [List.map_cons, if_neg (List.cons_ne_nil c d), List.filter_cons, filter_dots ds h',
      List.filter_cons_of_pos (p := fun d => decide (d ≠ [])) (by simp), List.filter_cons]

end Dots

section Agreement

variable (e : Executables) (value name : List Char)

/-- `find_executable` returns the file in the first component of PATH that has one, and
`search_path` prints it for every one, exactly if no component is empty or the current directory
has no such file. -/
theorem lookup_iff (hname : '/' ∉ name) :
    (findExecutable (e.paths (some value)) name true
        = ((pathComponents value).map (makePath · name)).find? e.executableFile
      ∧ (searchPath e (some value) name).1
        = (holders e value name).map (makeCandidate e.cwd · name))
      ↔ e.executableFile (makePath ['.'] name) = false ∨ [] ∉ value.splitOn ':' := by
  rw [find_holders, findExecutable_eq e value name hname, searchPath_eq]
  refine ⟨fun ⟨_, h⟩ => ?_, fun h => ?_⟩
  · have hlen := congrArg List.length h
    rw [List.length_map, List.length_map, holders, pathComponents, length_filter_dots] at hlen
    rw [among, pathParts] at hlen
    split_ifs at hlen with hdot
    · exact .inr fun hmem => absurd (List.count_pos_iff.2 hmem) (by omega)
    · exact .inl (by simpa using hdot)
  · rw [holders, pathComponents, filter_dots _ _ h]
    exact ⟨rfl, rfl⟩

/-- In `/d` there is an executable file `a`. -/
def oneFile : Executables :=
  ⟨fun path => path = ['/', 'd', '/', '.', '/', 'a'], ['/', 'd'], rfl⟩

theorem lookup_iff_dot :
    findExecutable (oneFile.paths (some ['.'])) ['a'] true = some ['.', '/', 'a']
      ∧ (searchPath oneFile (some ['.']) ['a']).1 = [['/', 'd', '/', '.', '/', 'a']] := by
  have h := (lookup_iff oneFile ['.'] ['a'] (by decide)).2 (.inr (by decide))
  exact h

/-- PATH is a colon and nothing else. -/
theorem empty_component_skipped :
    findExecutable (oneFile.paths (some [':'])) ['a'] true = none
      ∧ ((pathComponents [':']).map (makePath · ['a'])).find? oneFile.executableFile
        = some ['.', '/', 'a'] := by
  decide

end Agreement

end Shell

end CShellXv6
