import Mathlib.Logic.Function.Basic
import Mathlib.Data.List.Nodup
import Mathlib.Data.Set.Basic

/-!
# Spin locks

Who holds each lock, and how many locks each core is inside of. `Holding` ties both to a list of
the locks each core holds, which an acquire extends and a release shortens.

If the locks are ranked and every core waits only for a lock above all it holds, no cores wait for
one another (`not_deadlock`).
-/

namespace CShellXv6

structure Locks (L C : Type*) where
  holder : L → Option C
  noff : C → ℕ

namespace Locks

variable {L C : Type*}

def free : Locks L C :=
  ⟨fun _ => none, fun _ => 0⟩

/-- Each core holds the locks in its list, each once. -/
structure Holding (k : Locks L C) (held : C → List L) : Prop where
  holder : ∀ c l, k.holder l = some c ↔ l ∈ held c
  nodup : ∀ c, (held c).Nodup
  noff : ∀ c, k.noff c = (held c).length

theorem holding_free : (free : Locks L C).Holding fun _ => [] :=
  ⟨by simp [free], by simp, by simp [free]⟩

/-- Every core of `S` waits for a lock that a core of `S` holds. -/
def Deadlock (k : Locks L C) (awaited : C → Option L) (S : Set C) : Prop :=
  ∀ c ∈ S, ∃ l c', awaited c = some l ∧ k.holder l = some c' ∧ c' ∈ S

theorem not_deadlock {k : Locks L C} {awaited : C → Option L} {rank : L → ℕ} {bound : ℕ}
    (hbound : ∀ l, rank l < bound)
    (habove : ∀ c l l', awaited c = some l → k.holder l' = some c → rank l' < rank l)
    {S : Set C} (hS : S.Nonempty) : ¬ k.Deadlock awaited S := by
  intro h
  have hclimb : ∀ n, ∃ c ∈ S, ∃ l, awaited c = some l ∧ n ≤ rank l := by
    intro n
    induction n with
    | zero =>
      obtain ⟨c, hc⟩ := hS
      obtain ⟨l, -, hl, -⟩ := h c hc
      exact ⟨c, hc, l, hl, Nat.zero_le _⟩
    | succ n ih =>
      obtain ⟨c, hc, l, hl, hn⟩ := ih
      obtain ⟨l₁, c', hl₁, hholder, hc'⟩ := h c hc
      obtain rfl := Option.some.inj (hl.symm.trans hl₁)
      obtain ⟨l', -, hl', -⟩ := h c' hc'
      have hlt := habove c' l' l hl' hholder
      exact ⟨c', hc', l', hl', by omega⟩
  obtain ⟨c, -, l, -, hl⟩ := hclimb bound
  exact absurd (hbound l) (Nat.not_lt.2 hl)

variable [DecidableEq L] [DecidableEq C]

def acquire (c : C) (l : L) (k : Locks L C) : Locks L C :=
  ⟨Function.update k.holder l (some c), Function.update k.noff c (k.noff c + 1)⟩

def release (c : C) (l : L) (k : Locks L C) : Locks L C :=
  ⟨Function.update k.holder l none, Function.update k.noff c (k.noff c - 1)⟩

namespace Holding

variable {k : Locks L C} {held : C → List L}

omit [DecidableEq L] [DecidableEq C] in
theorem unique (h : k.Holding held) {c c' : C} {l : L} (hc : l ∈ held c) (hc' : l ∈ held c') :
    c = c' := by
  rw [← h.holder] at hc hc'
  exact Option.some.inj (hc.symm.trans hc')

theorem acquire (h : k.Holding held) {c : C} {l : L} (hfree : k.holder l = none) :
    (k.acquire c l).Holding (Function.update held c (l :: held c)) := by
  have hno : ∀ c', l ∉ held c' := fun c' hl => by simp [(h.holder c' l).2 hl] at hfree
  refine ⟨fun c' l' => ?_, fun c' => ?_, fun c' => ?_⟩
  · by_cases hl : l' = l
    · subst hl
      by_cases hc : c' = c
      · subst hc
        simp [Locks.acquire]
      · simp [Locks.acquire, Function.update_of_ne hc, hno c', Ne.symm hc]
    · by_cases hc : c' = c
      · subst hc
        simp [Locks.acquire, h.holder, hl]
      · simp [Locks.acquire, Function.update_of_ne hl, Function.update_of_ne hc, h.holder]
  · by_cases hc : c' = c
    · subst hc
      simpa [hno c'] using h.nodup c'
    · simpa [Function.update_of_ne hc] using h.nodup c'
  · by_cases hc : c' = c
    · subst hc
      simp [Locks.acquire, h.noff]
    · simp [Locks.acquire, Function.update_of_ne hc, h.noff]

theorem release (h : k.Holding held) {c : C} {l : L} (hl : l ∈ held c) :
    (k.release c l).Holding (Function.update held c ((held c).erase l)) := by
  refine ⟨fun c' l' => ?_, fun c' => ?_, fun c' => ?_⟩
  · by_cases hl' : l' = l
    · subst hl'
      by_cases hc : c' = c
      · subst hc
        simp [Locks.release, (h.nodup c').not_mem_erase]
      · have hno : l' ∉ held c' := fun h' => hc (h.unique h' hl)
        simp [Locks.release, Function.update_of_ne hc, hno]
    · by_cases hc : c' = c
      · subst hc
        simp [Locks.release, Function.update_of_ne hl', h.holder, List.mem_erase_of_ne hl']
      · simp [Locks.release, Function.update_of_ne hl', Function.update_of_ne hc, h.holder]
  · by_cases hc : c' = c
    · subst hc
      simpa using (h.nodup c').erase l
    · simpa [Function.update_of_ne hc] using h.nodup c'
  · by_cases hc : c' = c
    · subst hc
      simp [Locks.release, h.noff, List.length_erase_of_mem hl]
    · simp [Locks.release, Function.update_of_ne hc, h.noff]

end Holding

end Locks

end CShellXv6
