import Mathlib.Data.Prod.Lex

/-!
# Selecting the first of the least

A pass over a list that keeps a candidate, and gives it up only for an element with a smaller key.
If the elements come in ascending order, it ends with the one that is least by key and then by
itself (`select_eq_some_iff`).
-/

namespace CShellXv6

namespace Selection

variable {α κ : Type*} [LinearOrder κ] (ok : α → Prop) [DecidablePred ok] (key : α → κ)

/-- The candidate behind one more element. -/
def keep (best : Option α) (a : α) : Option α :=
  if ok a ∧ best.all fun b => key a < key b then some a else best

def select (l : List α) (best : Option α) : Option α :=
  l.foldl (keep ok key) best

@[simp]
theorem select_cons (a : α) (l : List α) (best : Option α) :
    select ok key (a :: l) best = select ok key l (keep ok key best a) :=
  rfl

variable [LinearOrder α]

/-- The candidate is the least of what has been seen. -/
structure Least (seen : List α) (best : Option α) : Prop where
  mem : ∀ b ∈ best, b ∈ seen ∧ ok b
  least : ∀ b ∈ best, ∀ a ∈ seen, ok a → toLex (key b, b) ≤ toLex (key a, a)
  none : best = none → ∀ a ∈ seen, ¬ ok a

variable {ok key} {seen : List α} {best : Option α}

theorem Least.keep (h : Least ok key seen best) {a : α} (ha : ∀ b ∈ seen, b < a) :
    Least ok key (seen ++ [a]) (keep ok key best a) := by
  unfold Selection.keep
  split_ifs with hif
  · refine ⟨by simp [hif.1], ?_, by simp⟩
    rintro b ⟨⟩ c hc hok
    rcases List.mem_append.1 hc with hc | hc
    · cases best with
      | none => exact absurd hok (h.none rfl c hc)
      | some b =>
        have hlt : key a < key b := by simpa using hif.2
        have hle : key b ≤ key c := (Prod.Lex.le_iff'.1 (h.least b rfl c hc hok)).1
        exact Prod.Lex.le_iff.2 (.inl (hlt.trans_le hle))
    · rw [List.mem_singleton.1 hc]
  · refine ⟨fun b hb => ?_, fun b hb c hc hok => ?_, fun hn c hc => ?_⟩
    · obtain ⟨hmem, hok⟩ := h.mem b hb
      exact ⟨List.mem_append_left _ hmem, hok⟩
    · rcases List.mem_append.1 hc with hc | hc
      · exact h.least b hb c hc hok
      · obtain rfl := List.mem_singleton.1 hc
        obtain rfl : best = some b := hb
        have hle : key b ≤ key c := by
          by_contra hlt
          exact hif ⟨hok, by simpa using hlt⟩
        exact Prod.Lex.le_iff'.2 ⟨hle, fun _ => (ha b (h.mem b rfl).1).le⟩
    · rcases List.mem_append.1 hc with hc | hc
      · exact h.none hn c hc
      · obtain rfl := List.mem_singleton.1 hc
        subst hn
        simpa using hif

theorem Least.select : ∀ (l : List α) {seen : List α} {best : Option α},
    (seen ++ l).Pairwise (· < ·) → Least ok key seen best →
      Least ok key (seen ++ l) (select ok key l best)
  | [], seen, best, _, h => by simpa [Selection.select] using h
  | a :: l, seen, best, hl, h => by
    have ha : ∀ b ∈ seen, b < a := fun b hb => (List.pairwise_append.1 hl).2.2 b hb a (by simp)
    rw [List.append_cons] at hl ⊢
    exact Least.select l hl (h.keep ha)

variable (ok key) {l : List α}

theorem select_least (hl : l.Pairwise (· < ·)) : Least ok key l (select ok key l none) := by
  have hnil : Least ok key [] none := ⟨by simp, by simp, by simp⟩
  have h := hnil.select l (by rwa [List.nil_append])
  rwa [List.nil_append] at h

/-- What is selected, where all elements are in the list. -/
theorem select_eq_some_iff (hl : l.Pairwise (· < ·)) (hall : ∀ a, a ∈ l) {b : α} :
    select ok key l none = some b
      ↔ ok b ∧ ∀ a, ok a → toLex (key b, b) ≤ toLex (key a, a) := by
  have h := select_least ok key hl
  refine ⟨fun hb => ⟨(h.mem b hb).2, fun a ha => h.least b hb a (hall a) ha⟩,
    fun ⟨hb, hleast⟩ => ?_⟩
  rcases hs : select ok key l none with _ | c
  · exact absurd hb (h.none hs b (hall b))
  · have heq := le_antisymm (hleast c (h.mem c hs).2) (h.least c hs b (hall b) hb)
    simp only [EmbeddingLike.apply_eq_iff_eq, Prod.mk.injEq] at heq
    rw [heq.2]

theorem select_eq_none_iff (hl : l.Pairwise (· < ·)) (hall : ∀ a, a ∈ l) :
    select ok key l none = none ↔ ∀ a, ¬ ok a := by
  have h := select_least ok key hl
  refine ⟨fun hn a => h.none hn a (hall a), fun hnot => ?_⟩
  rcases hs : select ok key l none with _ | c
  · rfl
  · exact absurd (h.mem c hs).2 (hnot c)

end Selection

end CShellXv6
