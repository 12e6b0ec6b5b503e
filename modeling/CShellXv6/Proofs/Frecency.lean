import CShellXv6.Proofs.History
import Mathlib.Data.List.Induction
import Mathlib.Data.List.Nodup

/-!
# Counting visits

Each call of `record_visit` reads the whole file, changes one entry or appends one, and writes the
file again. What links the file to the visits made so far is `Frecency`, and the sequence number
that is loaded is their number (`recordVisits_frecency`).
-/

namespace CShellXv6

namespace Shell

namespace History

variable {v : Visit} {visits visits' : List Visit} {path : List Char} {paths : List (List Char)}
  {sequence : Int}

theorem longLong_eq {n : Int} (hlow : longLongMin ≤ n) (hhigh : n ≤ longLongMax) :
    longLong n = n := by
  unfold longLongMin at hlow
  unfold longLongMax at hhigh
  exact Int.bmod_eq_of_le (by omega) (by omega)

theorem countVisit_eq_none : ∀ {visits : List Visit}, countVisit path sequence visits = none →
    path ∉ visits.map Visit.path
  | [], _ => by simp
  | v :: visits, h => by
    rw [countVisit] at h
    split_ifs at h with hpath
    rw [Option.map_eq_none_iff] at h
    simp only [List.map_cons, List.mem_cons, not_or]
    exact ⟨Ne.symm hpath, countVisit_eq_none h⟩

theorem countVisit_eq_some : ∀ {visits visits' : List Visit},
    countVisit path sequence visits = some visits' →
    ∃ before v behind, visits = before ++ v :: behind ∧ v.path = path
      ∧ path ∉ before.map Visit.path
      ∧ visits'
        = before ++ { v with count := longLong (v.count + 1), last := sequence } :: behind
  | [], visits', h => by simp [countVisit] at h
  | v :: visits, visits', h => by
    rw [countVisit] at h
    split_ifs at h with hpath
    · exact ⟨[], v, visits, rfl, hpath, by simp, (Option.some.inj h).symm⟩
    · obtain ⟨tail, htail, rfl⟩ := Option.map_eq_some_iff.1 h
      obtain ⟨before, u, behind, rfl, hu, hnot, rfl⟩ := countVisit_eq_some htail
      refine ⟨v :: before, u, behind, rfl, hu, ?_, rfl⟩
      simp only [List.map_cons, List.mem_cons, not_or]
      exact ⟨Ne.symm hpath, hnot⟩

/-- `record_visit` rewrites the first entry with the path, or appends one. -/
theorem addVisit_cases (path : List Char) (visits : List Visit) (sequence : Int) :
    (∃ before v behind, visits = before ++ v :: behind ∧ v.path = path
      ∧ path ∉ before.map Visit.path
      ∧ addVisit .succeeding path visits sequence
        = before ++ ⟨path, longLong (v.count + 1), longLong (sequence + 1)⟩ :: behind)
    ∨ path ∉ visits.map Visit.path
      ∧ addVisit .succeeding path visits sequence
        = visits ++ [⟨path, 1, longLong (sequence + 1)⟩] := by
  unfold addVisit
  split
  · rename_i visits' h
    obtain ⟨before, v, behind, rfl, rfl, hnot, rfl⟩ := countVisit_eq_some h
    exact .inl ⟨before, v, behind, rfl, rfl, hnot, rfl⟩
  · rename_i h
    exact .inr ⟨countVisit_eq_none h, rfl⟩

theorem le_sequence : ∀ (visits : List Visit) (sequence : Int),
    sequence ≤ visits.foldl (fun s v => max s v.last) sequence
      ∧ ∀ v ∈ visits, v.last ≤ visits.foldl (fun s v => max s v.last) sequence
  | [], sequence => by simp
  | u :: visits, sequence => by
    obtain ⟨hle, hmem⟩ := le_sequence visits (max sequence u.last)
    simp only [List.foldl_cons, List.mem_cons, forall_eq_or_imp]
    exact ⟨(le_max_left _ _).trans hle, (le_max_right _ _).trans hle, hmem⟩

theorem sequence_le {bound : Int} : ∀ {visits : List Visit} {sequence : Int}, sequence ≤ bound →
    (∀ v ∈ visits, v.last ≤ bound) → visits.foldl (fun s v => max s v.last) sequence ≤ bound
  | [], _, hs, _ => hs
  | u :: visits, sequence, hs, h => by
    simp only [List.mem_cons, forall_eq_or_imp] at h
    rw [List.foldl_cons]
    exact sequence_le (max_le hs h.1) h.2

namespace Frecency

variable (h : Frecency paths visits)

include h

theorem nodup : (visits.map Visit.path).Nodup :=
  h.order.imp fun hlt he => absurd (he ▸ hlt) (Nat.lt_irrefl _)

theorem last_le (hv : v ∈ visits) : 1 ≤ v.last ∧ v.last ≤ paths.length := by
  obtain ⟨before, behind, rfl, -, hlast⟩ := h.last v hv
  rw [List.length_append, List.length_cons]
  omega

theorem count_le (hv : v ∈ visits) : 0 ≤ v.count ∧ v.count ≤ paths.length := by
  rw [h.count v hv]
  have := List.count_le_length (a := v.path) (l := paths)
  omega

/-- Two entries with one sequence number have one path. -/
theorem last_inj {u : Visit} (hu : u ∈ visits) (hv : v ∈ visits) (heq : u.last = v.last) :
    u.path = v.path := by
  obtain ⟨before, behind, hpaths, -, hlast⟩ := h.last u hu
  obtain ⟨before', behind', hpaths', -, hlast'⟩ := h.last v hv
  have hlength : before.length = before'.length := by omega
  rw [hpaths] at hpaths'
  exact (List.cons.inj (List.append_inj hpaths' hlength).2).1

theorem nodup_last : (visits.map Visit.last).Nodup := by
  refine List.Nodup.map_on (fun u hu v hv heq => ?_) (List.Nodup.of_map _ h.nodup)
  exact List.inj_on_of_nodup_map h.nodup hu hv (h.last_inj hu hv heq)

/-- The entries of the other paths stay. -/
theorem other (path : List Char) (hv : v ∈ visits) (hne : v.path ≠ path) :
    v.count = (paths ++ [path]).count v.path
      ∧ ∃ before behind, paths ++ [path] = before ++ v.path :: behind ∧ v.path ∉ behind
        ∧ v.last = before.length + 1 := by
  refine ⟨?_, ?_⟩
  · rw [h.count v hv, List.count_append, List.count_singleton, if_neg (by simpa using Ne.symm hne),
      Nat.add_zero]
  · obtain ⟨before, behind, hpaths, hnot, hlast⟩ := h.last v hv
    refine ⟨before, behind ++ [path], by rw [hpaths]; simp, ?_, hlast⟩
    simp only [List.mem_append, List.mem_singleton, not_or]
    exact ⟨hnot, hne⟩

theorem order_append (path : List Char) :
    (visits.map Visit.path).Pairwise
      fun p q => (paths ++ [path]).idxOf p < (paths ++ [path]).idxOf q := by
  refine h.order.imp_of_mem fun hp hq hlt => ?_
  rw [List.idxOf_append_of_mem ((h.mem _).1 hp), List.idxOf_append_of_mem ((h.mem _).1 hq)]
  exact hlt

/-- A path visited before is visited again. -/
theorem again {before behind : List Visit} (hvisits : visits = before ++ v :: behind)
    (hlength : (paths.length : Int) + 1 ≤ longLongMax) :
    Frecency (paths ++ [v.path])
      (before ++ ⟨v.path, longLong (v.count + 1), paths.length + 1⟩ :: behind) := by
  have hv : v ∈ visits := by simp [hvisits]
  have hseen : v.path ∈ paths := (h.mem v.path).1 (List.mem_map_of_mem hv)
  have hsame : (before ++ ⟨v.path, longLong (v.count + 1), paths.length + 1⟩ :: behind).map
      Visit.path = visits.map Visit.path := by simp [hvisits]
  have hentries : ∀ u ∈ before ++ (⟨v.path, longLong (v.count + 1), paths.length + 1⟩ : Visit)
      :: behind, u = ⟨v.path, longLong (v.count + 1), paths.length + 1⟩
        ∨ u ∈ visits ∧ u.path ≠ v.path := by
    have hnodup := h.nodup
    rw [hvisits, List.map_append, List.map_cons, List.nodup_middle, List.nodup_cons,
      ← List.map_append] at hnodup
    intro u hu
    rw [List.mem_append, List.mem_cons, or_left_comm, ← List.mem_append] at hu
    refine hu.imp_right fun hu => ⟨?_, fun he => hnodup.1 (he ▸ List.mem_map_of_mem hu)⟩
    rw [hvisits, List.mem_append, List.mem_cons]
    exact (List.mem_append.1 hu).imp_right .inr
  refine ⟨fun p => ?_, ?_, fun u hu => ?_, fun u hu => ?_⟩
  · rw [hsame, h.mem, List.mem_append, List.mem_singleton]
    exact ⟨.inl, fun hp => hp.elim id fun he => he ▸ hseen⟩
  · rw [hsame]
    exact h.order_append v.path
  · rcases hentries u hu with rfl | ⟨hu, hne⟩
    · have hcount := h.count_le hv
      rw [longLong_eq (by unfold longLongMin; omega) (by omega), List.count_append,
        List.count_singleton_self, h.count v hv]
      rfl
    · exact (h.other v.path hu hne).1
  · rcases hentries u hu with rfl | ⟨hu, hne⟩
    · exact ⟨paths, [], rfl, by simp, rfl⟩
    · exact (h.other v.path hu hne).2

/-- A path is visited for the first time. -/
theorem first (hnew : path ∉ paths) :
    Frecency (paths ++ [path]) (visits ++ [⟨path, 1, paths.length + 1⟩]) := by
  have hne : ∀ u ∈ visits, u.path ≠ path := fun u hu he =>
    hnew ((h.mem path).1 (he ▸ List.mem_map_of_mem hu))
  refine ⟨fun p => ?_, ?_, fun u hu => ?_, fun u hu => ?_⟩
  · simp only [List.map_append, List.mem_append, h.mem p, List.map_cons, List.map_nil]
  · rw [List.map_append, List.pairwise_append]
    refine ⟨h.order_append path, List.pairwise_singleton _ _, fun p hp q hq => ?_⟩
    rw [List.mem_singleton.1 hq, List.idxOf_append_of_mem ((h.mem p).1 hp),
      List.idxOf_append_of_notMem hnew]
    exact Nat.lt_of_lt_of_le (List.idxOf_lt_length_of_mem ((h.mem p).1 hp)) (Nat.le_add_right _ _)
  · rcases List.mem_append.1 hu with hu | hu
    · exact (h.other path hu (hne u hu)).1
    · rw [List.mem_singleton.1 hu, List.count_append, List.count_singleton_self,
        List.count_eq_zero.2 hnew]
      rfl
  · rcases List.mem_append.1 hu with hu | hu
    · exact (h.other path hu (hne u hu)).2
    · rw [List.mem_singleton.1 hu]
      exact ⟨paths, [], rfl, by simp, rfl⟩

/-- What a further visit makes of the history. -/
theorem addVisit (path : List Char) (hlength : (paths.length : Int) + 1 ≤ longLongMax) :
    Frecency (paths ++ [path]) (addVisit .succeeding path visits paths.length) := by
  have hseq : longLong ((paths.length : Int) + 1) = paths.length + 1 :=
    longLong_eq (by unfold longLongMin; omega) hlength
  rcases addVisit_cases path visits paths.length with
    ⟨before, v, behind, hvisits, rfl, -, heq⟩ | ⟨hnot, heq⟩ <;> rw [heq, hseq]
  · exact h.again hvisits hlength
  · exact h.first fun hp => hnot ((h.mem path).2 hp)

theorem sequenceOf_eq : sequenceOf visits = paths.length := by
  refine le_antisymm (sequence_le (by omega) fun v hv => (h.last_le hv).2) ?_
  rcases List.eq_nil_or_concat' paths with rfl | ⟨paths, path, rfl⟩
  · exact (le_sequence visits 0).1
  · obtain ⟨v, hv, rfl⟩ := List.mem_map.1 ((h.mem path).2 (by simp))
    obtain ⟨before, behind, hpaths, hnot, hlast⟩ := h.last v hv
    have hend : behind = [] := by
      by_contra hne
      obtain ⟨behind, q, rfl⟩ := (List.eq_nil_or_concat' behind).resolve_left hne
      rw [← List.cons_append, ← List.append_assoc] at hpaths
      have hq := (List.append_inj' hpaths rfl).2
      simp only [List.cons.injEq, and_true] at hq
      simp [hq] at hnot
    have hlength := congrArg List.length hpaths
    rw [hend, List.length_append, List.length_append] at hlength
    rw [List.length_append, hlength]
    exact le_of_eq_of_le hlast.symm ((le_sequence visits 0).2 v hv)

theorem storable (hpath : ∀ p ∈ paths, '\n' ∉ p ∧ nul ∉ p)
    (hlength : (paths.length : Int) ≤ longLongMax) (hv : v ∈ visits) : Storable v := by
  have hp := hpath v.path ((h.mem v.path).1 (List.mem_map_of_mem hv))
  have hcount := h.count_le hv
  have hlast := h.last_le hv
  refine ⟨hp.1, hp.2, ⟨?_, by omega⟩, ?_, by omega⟩ <;> unfold longLongMin <;> omega

end Frecency

theorem frecency_nil : Frecency [] [] :=
  ⟨by simp, by simp, by simp, by simp⟩

theorem recordVisit_of_load {file : Option (List Char)} (path : List Char)
    (h : loadVisits .succeeding file = some (visits, sequence)) :
    recordVisit .succeeding path file
      = saveVisits .succeeding (addVisit .succeeding path visits sequence) file := by
  rw [recordVisit, if_neg (by decide)]
  simp only [h]

/-- The file as the visits leave it. -/
theorem load_recordVisits (hpath : ∀ p ∈ paths, '\n' ∉ p ∧ nul ∉ p)
    (hlength : (paths.length : Int) ≤ longLongMax) :
    ∃ visits, loadVisits .succeeding (recordVisits .succeeding paths none)
        = some (visits, (paths.length : Int)) ∧ Frecency paths visits := by
  induction paths using List.reverseRecOn with
  | nil => exact ⟨[], rfl, frecency_nil⟩
  | append_singleton paths path ih =>
    have hle : (paths.length : Int) + 1 ≤ longLongMax := by simpa using hlength
    obtain ⟨visits, hload, hfrec⟩ := ih (fun p hp => hpath p (by simp [hp])) (by omega)
    have hnext := hfrec.addVisit path hle
    refine ⟨_, ?_, hnext⟩
    rw [recordVisits, List.foldl_append, List.foldl_cons, List.foldl_nil, ← recordVisits,
      ← hnext.sequenceOf_eq]
    rw [recordVisit_of_load path hload]
    exact load_save fun v hv => hnext.storable hpath hlength hv

end History

open History

/-- Behind any number of visits the history has one entry for each path, in the order of the first
visits, with the number of its visits and the position of the last of them. -/
theorem recordVisits_frecency (paths : List (List Char)) (hpath : ∀ p ∈ paths, '\n' ∉ p ∧ nul ∉ p)
    (hlength : paths.length < 2 ^ 63) :
    ∃ visits, loadVisits .succeeding (recordVisits .succeeding paths none)
        = some (visits, (paths.length : Int))
      ∧ Frecency paths visits ∧ (visits.map Visit.path).Nodup ∧ (visits.map Visit.last).Nodup := by
  obtain ⟨visits, hload, hfrec⟩ := load_recordVisits hpath (by unfold longLongMax; omega)
  exact ⟨visits, hload, hfrec, hfrec.nodup, hfrec.nodup_last⟩

theorem recordVisits_frecency_thrice :
    let paths : List (List Char) := [['/', 'a'], ['/'], ['/', 'a']]
    loadVisits .succeeding (recordVisits .succeeding paths none)
        = some ([⟨['/', 'a'], 2, 3⟩, ⟨['/'], 1, 2⟩], 3)
      ∧ ∃ visits, loadVisits .succeeding (recordVisits .succeeding paths none)
          = some (visits, (paths.length : Int))
        ∧ Frecency paths visits ∧ (visits.map Visit.path).Nodup ∧ (visits.map Visit.last).Nodup :=
  ⟨by decide, recordVisits_frecency _ (by decide) (by decide)⟩

end Shell

end CShellXv6
