import Mathlib
import CShellXv6.Shell.History

/-!
# The best match

The running best of `find_visit` stands for the greatest rank among the candidates so far, and the
values it starts with for none (`rank_findLoop`). So the answer does not depend on the order of the
entries.
-/

namespace CShellXv6

namespace Shell

namespace History

open scoped List

variable {v : Visit} {best : Best}

/-- The rank the best so far has, if there is one. -/
def Best.rank (best : Best) : WithBot (Int ×ₗ Int ×ₗ (List Char)ᵒᵈ) :=
  match best.path with
  | .none => ⊥
  | some path => (Visit.rank ⟨path, best.count, best.last⟩ : _)

/-- Where there is no best, the values are those the loop starts with. -/
def Best.Fresh (best : Best) : Prop :=
  best.path = .none → best.count = -1 ∧ best.last = -1

theorem fresh_some {path : List Char} {count last : Int} : Best.Fresh ⟨some path, count, last⟩ :=
  fun h => absurd h (by simp)

theorem better_iff (hbest : best.Fresh) (hv : 0 ≤ v.count ∧ 0 ≤ v.last) :
    best.better v = true ↔ best.rank < v.rank := by
  obtain ⟨path, count, last⟩ := best
  cases path with
  | none =>
    obtain ⟨rfl, rfl⟩ := hbest rfl
    have : (-1 : Int) < v.count := by omega
    simp [Best.better, Best.rank, this, WithBot.bot_lt_coe]
  | some path =>
    simp only [Best.better, Best.rank, WithBot.coe_lt_coe, Visit.rank, Prod.Lex.toLex_lt_toLex,
      OrderDual.toDual_lt_toDual, Option.all_some]
    rcases lt_trichotomy count v.count with hcount | rfl | hcount
    · simp [hcount]
    · rcases lt_trichotomy last v.last with hlast | rfl | hlast
      · simp [hlast]
      · simp
      · simp [not_lt_of_gt hlast, ne_of_lt hlast, ne_of_gt hlast]
    · simp [not_lt_of_gt hcount, ne_of_lt hcount, ne_of_gt hcount]

variable (access : List Char → Bool) (name : List Char)

def candidates (visits : List Visit) : List Visit :=
  visits.filter fun v => Candidate access name v

theorem candidates_cons_of_pos {visits : List Visit} (h : Candidate access name v) :
    candidates access name (v :: visits) = v :: candidates access name visits :=
  List.filter_cons_of_pos (decide_eq_true h)

theorem candidates_cons_of_neg {visits : List Visit} (h : ¬ Candidate access name v) :
    candidates access name (v :: visits) = candidates access name visits :=
  List.filter_cons_of_neg (by simpa using h)

/-- The loop ends with the greatest rank there is, that of the best it began with included. -/
theorem rank_findLoop : ∀ (i : ℕ) (visits : List Visit) (best : Best), best.Fresh →
    (∀ v ∈ visits, 0 ≤ v.count ∧ 0 ≤ v.last) →
    (findLoop .succeeding access name i visits best).rank
      = max best.rank ((candidates access name visits).map Visit.rank).maximum
  | _, [], best, _, _ => (max_bot_right best.rank).symm
  | i, v :: visits, best, hbest, hpos => by
    simp only [List.mem_cons, forall_eq_or_imp] at hpos
    rw [findLoop]
    by_cases hcand : Candidate access name v
    · have hkeep : ¬ (access v.path = false ∨ ¬ name <:+: v.path) := by
        simpa [Candidate] using hcand
      rw [candidates_cons_of_pos access name hcand, List.map_cons, List.maximum_cons,
        if_neg hkeep, ← max_assoc]
      by_cases hbetter : best.better v = true
      · have hlt := (better_iff hbest hpos.1).1 hbetter
        have hcopy : (if HistoryEnv.succeeding.best i then some v.path else none) = some v.path :=
          if_pos rfl
        rw [if_pos hbetter, hcopy, rank_findLoop (i + 1) visits _ fresh_some hpos.2,
          max_eq_right (le_of_lt hlt)]
        rfl
      · have hle := not_lt.1 (mt (better_iff hbest hpos.1).2 hbetter)
        rw [if_neg hbetter, rank_findLoop (i + 1) visits best hbest hpos.2, max_eq_left hle]
    · have hskip : access v.path = false ∨ ¬ name <:+: v.path := by
        simpa [Candidate, imp_iff_or_not, or_comm] using hcand
      rw [candidates_cons_of_neg access name hcand, if_pos hskip,
        rank_findLoop (i + 1) visits best hbest hpos.2]

/-- The path a rank is of. -/
def rankPath : WithBot (Int ×ₗ Int ×ₗ (List Char)ᵒᵈ) → Option (List Char)
  | ⊥ => none
  | some k => some (OrderDual.ofDual (ofLex (ofLex k).2).2)

theorem rankPath_rank (best : Best) : rankPath best.rank = best.path := by
  obtain ⟨path, count, last⟩ := best
  cases path <;> rfl

variable {file : Option (List Char)} {visits : List Visit} {sequence : Int}

/-- `find_visit` returns the path of the greatest rank among the candidates. -/
theorem findVisit_eq (hload : loadVisits .succeeding file = some (visits, sequence))
    (hpos : ∀ v ∈ visits, 0 ≤ v.count ∧ 0 ≤ v.last) :
    findVisit .succeeding access name file
      = rankPath ((candidates access name visits).map Visit.rank).maximum := by
  rw [findVisit, if_neg (by decide)]
  simp only [hload]
  rw [← rankPath_rank, rank_findLoop access name 0 visits .none (fun _ => ⟨rfl, rfl⟩) hpos]
  exact congrArg rankPath (max_bot_left _)

theorem mem_candidates : v ∈ candidates access name visits
    ↔ v ∈ visits ∧ Candidate access name v := by
  simp [candidates]

theorem rankPath_maximum_eq_none :
    rankPath ((candidates access name visits).map Visit.rank).maximum = none
      ↔ ∀ v ∈ visits, ¬ Candidate access name v := by
  have hbot : ∀ m, rankPath m = none ↔ m = ⊥
    | ⊥ => by simp [rankPath]
    | some k => by simp [rankPath]
  rw [hbot, List.maximum_eq_bot, List.map_eq_nil_iff, candidates, List.filter_eq_nil_iff]
  simp

theorem rankPath_maximum_eq_some {path : List Char} :
    rankPath ((candidates access name visits).map Visit.rank).maximum = some path
      ↔ ∃ v ∈ visits, Candidate access name v ∧ v.path = path
        ∧ ∀ u ∈ visits, Candidate access name u → u.rank ≤ v.rank := by
  have hcoe : ∀ m, rankPath m = some path
      ↔ ∃ k : Int ×ₗ Int ×ₗ (List Char)ᵒᵈ, m = k ∧ OrderDual.ofDual (ofLex (ofLex k).2).2 = path
    | ⊥ => by simp [rankPath]
    | some k => by
      refine ⟨fun h => ⟨k, rfl, Option.some.inj h⟩, ?_⟩
      rintro ⟨k', hk, rfl⟩
      obtain rfl := WithBot.coe_injective hk
      rfl
  simp only [hcoe, List.maximum_eq_coe_iff, List.mem_map, mem_candidates]
  constructor
  · rintro ⟨k, ⟨⟨v, ⟨hv, hcand⟩, rfl⟩, hmax⟩, hpath⟩
    exact ⟨v, hv, hcand, hpath, fun u hu hcand' => hmax _ ⟨u, ⟨hu, hcand'⟩, rfl⟩⟩
  · rintro ⟨v, hv, hcand, hpath, hmax⟩
    refine ⟨v.rank, ⟨⟨v, ⟨hv, hcand⟩, rfl⟩, ?_⟩, hpath⟩
    rintro k ⟨u, ⟨hu, hcand'⟩, rfl⟩
    exact hmax u hu hcand'

end History

open History
open scoped List

/-- For any history whose numbers are not negative, and any paths that exist: `find_visit` returns
no path just if there is no candidate, and otherwise that of the candidate of the greatest rank; and
it returns the same for the entries in any other order. -/
theorem findVisit_greatest (access : List Char → Bool) (name : List Char)
    {file : Option (List Char)} {visits : List Visit} {sequence : Int}
    (hload : loadVisits .succeeding file = some (visits, sequence))
    (hpos : ∀ v ∈ visits, 0 ≤ v.count ∧ 0 ≤ v.last) :
    (findVisit .succeeding access name file = none
        ↔ ∀ v ∈ visits, ¬ Candidate access name v)
      ∧ (∀ path, findVisit .succeeding access name file = some path ↔
        ∃ v ∈ visits, Candidate access name v ∧ v.path = path
          ∧ ∀ u ∈ visits, Candidate access name u → u.rank ≤ v.rank)
      ∧ ∀ file' visits' sequence', loadVisits .succeeding file' = some (visits', sequence') →
        visits' ~ visits →
        findVisit .succeeding access name file' = findVisit .succeeding access name file := by
  have hfind := findVisit_eq access name hload hpos
  refine ⟨?_, fun path => ?_, fun file' visits' sequence' hload' hperm => ?_⟩
  · rw [hfind, rankPath_maximum_eq_none]
  · rw [hfind, rankPath_maximum_eq_some]
  · have hpos' : ∀ v ∈ visits', 0 ≤ v.count ∧ 0 ≤ v.last := fun v hv => hpos v (hperm.mem_iff.1 hv)
    have hranks : (candidates access name visits').map Visit.rank
        ~ (candidates access name visits).map Visit.rank := (hperm.filter _).map _
    rw [hfind, findVisit_eq access name hload' hpos', hranks.maximum_eq]

theorem findVisit_greatest_tie :
    let access : List Char → Bool := fun path => path ≠ ['/', 'x', 'a']
    let file := some "1\t5\t/b\n2\t2\t/ab\n2\t2\t/aa\n7\t9\t/xa\n".toList
    findVisit .succeeding access ['a'] file = some ['/', 'a', 'a']
      ∧ (findVisit .succeeding access ['a'] file = none
        ↔ ∀ v ∈ ([⟨['/', 'b'], 1, 5⟩, ⟨['/', 'a', 'b'], 2, 2⟩, ⟨['/', 'a', 'a'], 2, 2⟩,
          ⟨['/', 'x', 'a'], 7, 9⟩] : List Visit), ¬ Candidate access ['a'] v) :=
  ⟨by decide, (@findVisit_greatest _ _ _ _ 9 (by decide) (by decide)).1⟩

end Shell

end CShellXv6
