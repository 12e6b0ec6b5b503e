import Mathlib.Data.List.AList

/-!
# Counting what a table holds

How many values of a table are as `P` says, when a value is put in, changed or taken out.
-/

namespace CShellXv6

namespace Holders

variable {κ β : Type*} (P : β → Bool)

def count (s : AList fun _ : κ => β) : ℕ :=
  s.entries.countP fun e => P e.2

variable {P}

variable [DecidableEq κ] {s : AList fun _ : κ => β} {a : κ} {x y : β}

theorem count_erase (h : s.lookup a = some x) :
    count P s = count P (s.erase a) + if P x then 1 else 0 := by
  have ha : a ∈ s.entries.keys := AList.lookup_isSome.1 (by rw [h]; rfl)
  obtain ⟨y, l, l', hl, he, hk⟩ := List.exists_of_kerase ha
  have hxy : x = y := by
    have hy : s.lookup a = some y := by
      rw [AList.lookup, he, List.dlookup_append]
      simp [List.dlookup_eq_none.2 hl]
    rw [h] at hy
    exact Option.some.inj hy
  change s.entries.countP _ = (List.kerase a s.entries).countP _ + _
  rw [hk, he, List.countP_append, List.countP_cons, List.countP_append, hxy, Nat.add_assoc]

theorem count_insert_new (h : a ∉ s) :
    count P (s.insert a x) = count P s + if P x then 1 else 0 := by
  rw [count, AList.entries_insert_of_notMem h, List.countP_cons, count]

theorem count_insert (h : s.lookup a = some x) (hxy : P y = P x) :
    count P (s.insert a y) = count P s := by
  rw [count_erase h, count, AList.entries_insert, List.countP_cons, hxy]
  rfl

theorem count_pos (h : s.lookup a = some x) (hx : P x = true) : 0 < count P s := by
  rw [count_erase h, if_pos hx]
  exact Nat.succ_pos _

end Holders

end CShellXv6
