import Mathlib.Algebra.BigOperators.Group.List.Lemmas
import Mathlib.Algebra.GroupWithZero.Nat
import Mathlib.Data.List.Dedup

/-!
# First occurrences

The different elements of a list, in the order in which they first occur in it, one more element of
the list at a time.
-/

namespace CShellXv6

namespace Occurrences

variable {α : Type*} [DecidableEq α]

/-- The elements of `l` in the order of their first occurrences. -/
structure Firsts (l ks : List α) : Prop where
  mem_iff : ∀ a, a ∈ ks ↔ a ∈ l
  first : ks.Pairwise fun a b => l.idxOf a < l.idxOf b

variable {l ks : List α} {a : α}

theorem Firsts.nil : Firsts ([] : List α) [] :=
  ⟨fun _ => .rfl, .nil⟩

theorem Firsts.nodup (h : Firsts l ks) : ks.Nodup := by
  refine h.first.imp fun {b c} hlt heq => ?_
  rw [heq] at hlt
  exact lt_irrefl _ hlt

theorem Firsts.append (h : Firsts l ks) (m : List α) :
    ks.Pairwise fun a b => (l ++ m).idxOf a < (l ++ m).idxOf b := by
  refine h.first.imp_of_mem fun {b c} hb hc hlt => ?_
  rwa [List.idxOf_append_of_mem ((h.mem_iff b).1 hb), List.idxOf_append_of_mem ((h.mem_iff c).1 hc)]

/-- An element that has occurred before. -/
theorem Firsts.again (h : Firsts l ks) (ha : a ∈ l) : Firsts (l ++ [a]) ks := by
  refine ⟨fun b => ?_, h.append [a]⟩
  rw [h.mem_iff, List.mem_append, List.mem_singleton]
  exact ⟨.inl, fun hb => hb.elim id fun heq => heq ▸ ha⟩

theorem Firsts.new (h : Firsts l ks) (ha : a ∉ l) : Firsts (l ++ [a]) (ks ++ [a]) := by
  refine ⟨fun b => ?_, List.pairwise_append.2 ⟨h.append [a], List.pairwise_singleton _ _, ?_⟩⟩
  · rw [List.mem_append, List.mem_append, h.mem_iff]
  · intro b hb c hc
    have hb := (h.mem_iff b).1 hb
    rw [List.mem_singleton.1 hc, List.idxOf_append_of_mem hb, List.idxOf_append_of_notMem ha]
    exact Nat.lt_add_right _ (List.idxOf_lt_length_iff.2 hb)

/-- Before a new element occurs there are fewer than there will have been. -/
theorem Firsts.length_lt (h : Firsts l ks) (ha : a ∉ l) (m : List α) :
    ks.length < (l ++ a :: m).dedup.length := by
  have hnew := h.new ha
  have hsub : ks ++ [a] ⊆ (l ++ a :: m).dedup := by
    intro b hb
    rw [hnew.mem_iff] at hb
    rw [List.mem_dedup, List.append_cons]
    exact List.mem_append_left m hb
  have hle := (List.subperm_of_subset hnew.nodup hsub).length_le
  rw [List.length_append, List.length_singleton] at hle
  exact hle

theorem Firsts.sum_count (h : Firsts l ks) : (ks.map fun a => l.count a).sum = l.length := by
  have hperm : ks.Perm l.dedup :=
    (List.perm_ext_iff_of_nodup h.nodup l.nodup_dedup).2 fun a => by
      rw [h.mem_iff, List.mem_dedup]
  rw [(hperm.map _).sum_eq, List.sum_map_count_dedup_eq_length]

end Occurrences

end CShellXv6
