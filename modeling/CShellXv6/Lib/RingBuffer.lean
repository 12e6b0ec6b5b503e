import Mathlib.Data.Nat.ModEq
import Mathlib.Logic.Function.Basic

/-!
# Ring buffers

A list in an array that is used round and round, from the place `lo` on. The places are counted in
words of `w` bits that may wrap, and stand for places of the array because its size divides `2 ^ w`.
-/

namespace CShellXv6

namespace RingBuffer

variable {n : ℕ} {α : Type*}

/-- The place of the array for the `i`th element ever. -/
def pos (hn : 0 < n) (i : ℕ) : Fin n :=
  ⟨i % n, Nat.mod_lt i hn⟩

theorem pos_inj {hn : 0 < n} {i j : ℕ} (hij : i < j) (hj : j < i + n) : pos hn i ≠ pos hn j := by
  intro h
  have h' : i % n = j % n := congrArg Fin.val h
  have hd : n ∣ j - i := (Nat.modEq_iff_dvd' hij.le).1 h'
  have := Nat.le_of_dvd (by omega) hd
  omega

theorem pos_toNat {w i : ℕ} {hn : 0 < n} (h : n ∣ 2 ^ w) :
    pos hn (BitVec.ofNat w i).toNat = pos hn i := by
  unfold pos
  rw [Fin.mk.injEq, BitVec.toNat_ofNat, Nat.mod_mod_of_dvd i h]

/-- Counters that are less than a full turn apart are told apart. -/
theorem ofNat_inj {w i j : ℕ} (hij : i ≤ j) (hj : j < i + 2 ^ w) :
    BitVec.ofNat w i = BitVec.ofNat w j ↔ i = j := by
  refine ⟨fun h => ?_, fun h => h ▸ rfl⟩
  have h' : i % 2 ^ w = j % 2 ^ w := by simpa using congrArg BitVec.toNat h
  rcases Nat.eq_or_lt_of_le hij with he | hlt
  · exact he
  · have hd := (Nat.modEq_iff_dvd' hij).1 h'
    have := Nat.le_of_dvd (by omega) hd
    omega

/-- The array has the list from the place `lo` on. -/
def Holds (hn : 0 < n) (data : Fin n → α) (lo : ℕ) (l : List α) : Prop :=
  ∀ j x, l[j]? = some x → data (pos hn (lo + j)) = x

variable {hn : 0 < n} {data : Fin n → α} {lo : ℕ} {l : List α} {x : α}

theorem holds_nil : Holds hn data lo [] := by
  simp [Holds]

theorem Holds.push (h : Holds hn data lo l) (hl : l.length < n) :
    Holds hn (Function.update data (pos hn (lo + l.length)) x) lo (l ++ [x]) := by
  intro j y hy
  rcases Nat.lt_or_ge j l.length with hj | hj
  · rw [List.getElem?_append_left hj] at hy
    rw [Function.update_of_ne (pos_inj (by omega) (by omega)), h j y hy]
  · rw [List.getElem?_append_right hj, List.getElem?_singleton] at hy
    split at hy
    case isTrue h0 =>
      obtain rfl : j = l.length := by omega
      rw [Function.update_self]
      exact Option.some.inj hy
    case isFalse => cases hy

theorem Holds.head (h : Holds hn data lo (x :: l)) : data (pos hn lo) = x := by
  simpa using h 0 x

theorem Holds.tail (h : Holds hn data lo (x :: l)) : Holds hn data (lo + 1) l := by
  intro j y hy
  have := h (j + 1) y (by simpa using hy)
  rwa [show lo + 1 + j = lo + (j + 1) by omega]

end RingBuffer

end CShellXv6
