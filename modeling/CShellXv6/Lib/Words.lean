import Mathlib.Algebra.Group.Nat.Defs
import Mathlib.Data.List.Basic

/-!
# Words in a block of bytes

A block of `n` bytes as an array of 32-bit words, each with its lowest byte first.
-/

namespace CShellXv6

namespace Words

variable {n : ℕ}

def byte (x : Fin n → UInt8) (i : ℕ) : ℕ :=
  if h : i < n then (x ⟨i, h⟩).toNat else 0

def get (x : Fin n → UInt8) (k : ℕ) : ℕ :=
  byte x (4 * k) + 2 ^ 8 * byte x (4 * k + 1) + 2 ^ 16 * byte x (4 * k + 2)
    + 2 ^ 24 * byte x (4 * k + 3)

def set (k v : ℕ) (x : Fin n → UInt8) : Fin n → UInt8 := fun i =>
  if i.1 / 4 = k then UInt8.ofNat (v / 2 ^ (8 * (i.1 % 4))) else x i

/-- The words from `k` on. -/
def setAll : ℕ → List ℕ → (Fin n → UInt8) → Fin n → UInt8
  | _, [], x => x
  | k, v :: vs, x => setAll (k + 1) vs (set k v x)

variable {x : Fin n → UInt8} {j k v : ℕ}

theorem byte_set_self {i : ℕ} (hi : i < 4) (hk : 4 * k + 3 < n) :
    byte (set k v x) (4 * k + i) = v / 2 ^ (8 * i) % 2 ^ 8 := by
  have hdiv : (4 * k + i) / 4 = k := by omega
  have hmod : (4 * k + i) % 4 = i := by omega
  rw [byte, dif_pos (by omega), set]
  simp only [hdiv, hmod, if_true, UInt8.toNat_ofNat']

theorem byte_set_of_ne {i : ℕ} (hi : i < 4) (h : j ≠ k) :
    byte (set k v x) (4 * j + i) = byte x (4 * j + i) := by
  unfold byte
  split
  · rw [set, if_neg]
    dsimp only
    omega
  · rfl

theorem get_set_self (hk : 4 * k + 3 < n) (hv : v < 2 ^ 32) : get (set k v x) k = v := by
  have h0 := byte_set_self (x := x) (v := v) (i := 0) (by omega) hk
  have h1 := byte_set_self (x := x) (v := v) (i := 1) (by omega) hk
  have h2 := byte_set_self (x := x) (v := v) (i := 2) (by omega) hk
  have h3 := byte_set_self (x := x) (v := v) (i := 3) (by omega) hk
  unfold get
  rw [Nat.add_zero] at h0
  rw [h0, h1, h2, h3]
  omega

theorem get_set_of_ne (h : j ≠ k) : get (set k v x) j = get x j := by
  have h0 := byte_set_of_ne (x := x) (v := v) (i := 0) (by omega) h
  have h1 := byte_set_of_ne (x := x) (v := v) (i := 1) (by omega) h
  have h2 := byte_set_of_ne (x := x) (v := v) (i := 2) (by omega) h
  have h3 := byte_set_of_ne (x := x) (v := v) (i := 3) (by omega) h
  unfold get
  rw [Nat.add_zero] at h0
  rw [h0, h1, h2, h3]

theorem get_setAll_of_lt : ∀ {vs : List ℕ} {k : ℕ} {x : Fin n → UInt8}, j < k →
    get (setAll k vs x) j = get x j
  | [], _, _, _ => rfl
  | v :: vs, k, x, h => by
    rw [setAll, get_setAll_of_lt (by omega), get_set_of_ne (by omega)]

theorem get_setAll : ∀ {vs : List ℕ} {k i : ℕ} {x : Fin n → UInt8}, (hi : i < vs.length) →
    4 * (k + vs.length) ≤ n → (∀ v ∈ vs, v < 2 ^ 32) → get (setAll k vs x) (k + i) = vs[i]
  | v :: vs, k, 0, x, _, hn, hv => by
    rw [List.length_cons] at hn
    rw [setAll, Nat.add_zero k, get_setAll_of_lt (by omega),
      get_set_self (by omega) (hv v List.mem_cons_self)]
    rfl
  | v :: vs, k, i + 1, x, hi, hn, hv => by
    rw [List.length_cons] at hi hn
    rw [setAll, ← Nat.add_assoc, Nat.add_right_comm, get_setAll (by omega) (by omega)
      fun w hw => hv w (List.mem_cons_of_mem _ hw)]
    rfl

end Words

end CShellXv6
