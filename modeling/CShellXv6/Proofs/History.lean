import CShellXv6.Shell.History

/-!
# The history file

What `load_visits` reads from a file is storable, and what is storable is read back as it was
written (`load_save`). A path with a newline in it is not: its line is cut in two
(`load_save_iff`).
-/

namespace CShellXv6

namespace Shell

namespace History

open Lines

variable {v : Visit} {visits : List Visit}

section RoundTrip

theorem strtoll_ofInt {n : Int} (h : longLongMin ≤ n ∧ n ≤ longLongMax) :
    strtoll (Decimal.ofInt n) = n :=
  Decimal.read_ofInt h.1 h.2

theorem strtoll_range (s : List Char) :
    longLongMin ≤ strtoll s ∧ strtoll s ≤ longLongMax := by
  unfold strtoll Decimal.read
  exact ⟨le_max_left _ _, max_le (by decide) (min_le_right _ _)⟩

theorem notMem_visitText {c : Char} (hdigit : c.isDigit = false) (hminus : c ≠ '-')
    (htab : c ≠ '\t') : c ∉ visitText v ↔ c ∉ v.path := by
  have hcount := Decimal.notMem_ofInt (n := v.count) hdigit hminus
  have hlast := Decimal.notMem_ofInt (n := v.last) hdigit hminus
  simp [visitText, hcount, hlast, htab]

theorem loadLine_visitText (h : Storable v) : loadLine (visitText v ++ ['\n']) = some v := by
  have hnul : nul ∉ visitText v ++ ['\n'] := by
    simp only [List.mem_append, List.mem_singleton, not_or]
    exact ⟨(notMem_visitText (by decide) (by decide) (by decide)).2 h.nul, by decide⟩
  have hall : (visitText v ++ ['\n']).takeWhile (· ≠ nul) = visitText v ++ ['\n'] :=
    List.takeWhile_eq_self_iff.2 fun c hc => decide_eq_true (ne_of_mem_of_not_mem hc hnul)
  have htab : ∀ n, '\t' ∉ Decimal.ofInt n := fun n => Decimal.notMem_ofInt (by decide) (by decide)
  have htext : visitText v ++ ['\n'] = Decimal.ofInt v.count
      ++ '\t' :: (Decimal.ofInt v.last ++ '\t' :: (v.path ++ '\n' :: [])) := by
    simp [visitText]
  rw [loadLine, hall, htext]
  simp only [cut_line '\t' _ (htab _), cut_line '\n' [] h.newline, strtoll_ofInt h.count,
    strtoll_ofInt h.last]

/-- What is loaded from a line can be stored. -/
theorem storable_of_loadLine {line : List Char} (h : loadLine line = some v) : Storable v := by
  unfold loadLine at h
  split at h
  · exact absurd h (by simp)
  rename_i count rest hcount
  have hnul : nul ∉ rest := by
    intro hmem
    have : nul ∈ line.takeWhile (· ≠ nul) := by
      rw [(cut_eq_some '\t' hcount).2]
      simp [hmem]
    simpa using List.mem_takeWhile_imp this
  split at h
  · exact absurd h (by simp)
  rename_i last rest' hlast
  rw [(cut_eq_some '\t' hlast).2] at hnul
  simp only [List.mem_append, List.mem_cons, not_or] at hnul
  split at h
  · rename_i hpath
    obtain rfl := Option.some.inj h
    exact ⟨cut_eq_none '\n' hpath, hnul.2.2, strtoll_range _, strtoll_range _⟩
  · rename_i path tail hpath
    obtain ⟨hnewline, hrest⟩ := cut_eq_some '\n' hpath
    rw [hrest] at hnul
    simp only [List.mem_append, not_or] at hnul
    obtain rfl := Option.some.inj h
    exact ⟨hnewline, hnul.2.2.1, strtoll_range _, strtoll_range _⟩

theorem storable_of_loadLoop (env : HistoryEnv) : ∀ (ls : List (List Char)) {visits : List Visit}
    {sequence : Int} {r : List Visit × Int}, loadLoop env ls visits sequence = some r →
    (∀ v ∈ visits, Storable v) → ∀ v ∈ r.1, Storable v
  | [], visits, sequence, r, h, hv => by
    obtain rfl := Option.some.inj h
    exact hv
  | line :: ls, visits, sequence, r, h, hv => by
    rw [loadLoop] at h
    split at h
    · exact storable_of_loadLoop env ls h hv
    · rename_i v hline
      split at h
      · exact absurd h (by simp)
      refine storable_of_loadLoop env ls h fun u hu => ?_
      rcases List.mem_append.1 hu with hu | hu
      · exact hv u hu
      · rw [List.mem_singleton.1 hu]
        exact storable_of_loadLine hline

/-- What is loaded can be stored. -/
theorem storable_of_load {env : HistoryEnv} {file : Option (List Char)} {r : List Visit × Int}
    (h : loadVisits env file = some r) : ∀ v ∈ r.1, Storable v := by
  unfold loadVisits at h
  split at h
  · obtain rfl := Option.some.inj h
    simp
  · exact storable_of_loadLoop env _ h (by simp)

theorem loadLoop_visitText (env : HistoryEnv) (hentry : ∀ i, env.entry i = true) :
    ∀ (vs visits : List Visit) (sequence : Int), (∀ v ∈ vs, Storable v) →
      loadLoop env (vs.map fun v => visitText v ++ ['\n']) visits sequence
        = some (visits ++ vs, vs.foldl (fun sequence v => max sequence v.last) sequence)
  | [], visits, sequence, _ => by simp [loadLoop]
  | v :: vs, visits, sequence, h => by
    simp only [List.mem_cons, forall_eq_or_imp] at h
    have hmax : (if sequence < v.last then v.last else sequence) = max sequence v.last := by
      rw [max_def]
      split_ifs <;> omega
    rw [List.map_cons, loadLoop, loadLine_visitText h.1]
    simp only [hentry, Bool.true_eq_false, if_false, hmax]
    rw [loadLoop_visitText env hentry vs _ _ h.2, List.append_assoc, List.foldl_cons]
    rfl

/-- What can be stored is read back. -/
theorem load_save {file : Option (List Char)} (h : ∀ v ∈ visits, Storable v) :
    loadVisits .succeeding (saveVisits .succeeding visits file)
      = some (visits, sequenceOf visits) := by
  have hlines : ∀ d ∈ visits.map visitText, '\n' ∉ d := by
    simp only [List.mem_map, forall_exists_index, and_imp, forall_apply_eq_imp_iff₂]
    exact fun v hv => (notMem_visitText (by decide) (by decide) (by decide)).2 (h v hv).newline
  show loadLoop _ (lines '\n' (joinLines '\n' (visits.map visitText))) [] 0 = _
  rw [lines_joinLines '\n' hlines, List.map_map]
  exact loadLoop_visitText .succeeding (fun _ => rfl) visits [] 0 h

end RoundTrip

end History

open History

/-- A list of visits is read back from the file written for it, with the greatest sequence number,
just if no path has a newline. -/
theorem load_save_iff (visits : List Visit) (file : Option (List Char))
    (hpath : ∀ v ∈ visits, v.path ≠ [] ∧ nul ∉ v.path)
    (hrange : ∀ v ∈ visits, longLongMin ≤ v.count ∧ v.count ≤ longLongMax
      ∧ longLongMin ≤ v.last ∧ v.last ≤ longLongMax) :
    loadVisits .succeeding (saveVisits .succeeding visits file)
        = some (visits, sequenceOf visits)
      ↔ ∀ v ∈ visits, '\n' ∉ v.path := by
  constructor
  · exact fun h v hv => (storable_of_load h v hv).newline
  · intro h
    refine load_save fun v hv => ⟨h v hv, (hpath v hv).2, ?_, ?_⟩
    · exact ⟨(hrange v hv).1, (hrange v hv).2.1⟩
    · exact (hrange v hv).2.2

theorem load_save_iff_tab :
    let visits : List Visit := [⟨['/', '\t', 'a'], 2, 5⟩, ⟨['/', ' '], -1, longLongMin⟩]
    saveVisits .succeeding visits none = some "2\t5\t/\ta\n-1\t-9223372036854775808\t/ \n".toList
      ∧ (loadVisits .succeeding (saveVisits .succeeding visits none)
          = some (visits, sequenceOf visits) ↔ ∀ v ∈ visits, '\n' ∉ v.path) :=
  ⟨by decide, load_save_iff _ none (by decide) (by decide)⟩

/-- A path with a newline is read back up to there. -/
theorem load_save_newline :
    let visits : List Visit := [⟨['/', 'a', '\n', 'b'], 1, 1⟩]
    loadVisits .succeeding (saveVisits .succeeding visits none) = some ([⟨['/', 'a'], 1, 1⟩], 1)
      ∧ sequenceOf visits = 1 := by
  decide

end Shell

end CShellXv6
