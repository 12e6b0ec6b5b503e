import Mathlib.Algebra.Group.Int.Defs
import Mathlib.Algebra.Group.Nat.Defs
import Mathlib.Data.Int.Order.Basic
import Mathlib.Data.List.TakeWhile

/-!
# Decimal numbers

An integer written in decimal, and the integer a text starts with: blanks, a sign, and digits up to
the first character that is none. What is read is cut to the bounds, and the two are inverse inside
them (`read_ofInt`). A scan also gives what is behind the number, and fails where there is none
(`scan_ofInt`).
-/

namespace CShellXv6

namespace Decimal

def ofInt (n : Int) : List Char :=
  if n < 0 then '-' :: Nat.toDigits 10 n.natAbs else Nat.toDigits 10 n.natAbs

def isSpace (c : Char) : Bool :=
  c = ' ' || ('\t' ≤ c && c ≤ '\r')

/-- The value of the digits a text starts with. -/
def readNat (s : List Char) : ℕ :=
  Nat.ofDigitChars 10 (s.takeWhile Char.isDigit) 0

/-- The number behind the blanks, with its sign. -/
def readSigned : List Char → Int
  | '-' :: s => -(readNat s : Int)
  | '+' :: s => readNat s
  | s => readNat s

def read (low high : Int) (s : List Char) : Int :=
  max low (min (readSigned (s.dropWhile isSpace)) high)

def unsigned : List Char → List Char
  | '-' :: s => s
  | '+' :: s => s
  | s => s

/-- The number behind the blanks and what is left of the text, if there is a digit. -/
def scan (s : List Char) : Option (Int × List Char) :=
  let s := s.dropWhile isSpace
  if (unsigned s).head?.any Char.isDigit then
    some (readSigned s, (unsigned s).dropWhile Char.isDigit)
  else none

variable {n low high : Int}

theorem digit_or_minus {c : Char} (hc : c ∈ ofInt n) : c.isDigit = true ∨ c = '-' := by
  unfold ofInt at hc
  split_ifs at hc with hneg
  · rcases List.mem_cons.1 hc with rfl | hc
    · exact .inr rfl
    · exact .inl (Nat.isDigit_of_mem_toDigits (by decide) (by decide) hc)
  · exact .inl (Nat.isDigit_of_mem_toDigits (by decide) (by decide) hc)

/-- What is neither a digit nor a sign does not stand in a number. -/
theorem notMem_ofInt {c : Char} (hdigit : c.isDigit = false) (hc : c ≠ '-') : c ∉ ofInt n := by
  intro hmem
  rcases digit_or_minus hmem with h | h
  · rw [h] at hdigit
    exact Bool.noConfusion hdigit
  · exact hc h

section Behind

/-- What may stand behind the digits of a number. -/
def Stops (rest : List Char) : Prop :=
  rest.head?.any Char.isDigit = false

variable {rest : List Char}

theorem Stops.takeWhile (h : Stops rest) : rest.takeWhile Char.isDigit = [] := by
  rcases rest with _ | ⟨c, s⟩
  · rfl
  · have hc : c.isDigit = false := by simpa [Stops] using h
    rw [List.takeWhile_cons_of_neg (by simp [hc])]

theorem Stops.dropWhile (h : Stops rest) : rest.dropWhile Char.isDigit = rest := by
  rcases rest with _ | ⟨c, s⟩
  · rfl
  · have hc : c.isDigit = false := by simpa [Stops] using h
    rw [List.dropWhile_cons_of_neg (by simp [hc])]

theorem isDigit_toDigits (k : ℕ) : ∀ c ∈ Nat.toDigits 10 k, c.isDigit = true :=
  fun _ hc => Nat.isDigit_of_mem_toDigits (by decide) (by decide) hc

theorem readNat_toDigits (k : ℕ) (h : Stops rest) : readNat (Nat.toDigits 10 k ++ rest) = k := by
  rw [readNat, List.takeWhile_append_of_pos (isDigit_toDigits k), h.takeWhile, List.append_nil,
    Nat.ofDigitChars_ten_toDigits]

/-- A text that starts with a digit has no sign. -/
theorem unsigned_digit {c : Char} (hc : c.isDigit = true) (s : List Char) :
    unsigned (c :: s) = c :: s ∧ readSigned (c :: s) = readNat (c :: s) := by
  have hminus : c ≠ '-' := by
    rintro rfl
    exact absurd hc (by decide)
  have hplus : c ≠ '+' := by
    rintro rfl
    exact absurd hc (by decide)
  constructor
  · unfold unsigned
    split <;> simp_all
  · unfold readSigned
    split <;> simp_all

theorem exists_digit (k : ℕ) : ∃ c s, Nat.toDigits 10 k = c :: s ∧ c.isDigit = true := by
  rcases hdigits : Nat.toDigits 10 k with _ | ⟨c, s⟩
  · exact absurd hdigits Nat.toDigits_ne_nil
  · exact ⟨c, s, rfl, isDigit_toDigits k c (by simp [hdigits])⟩

theorem unsigned_toDigits (k : ℕ) :
    unsigned (Nat.toDigits 10 k ++ rest) = Nat.toDigits 10 k ++ rest
      ∧ readSigned (Nat.toDigits 10 k ++ rest) = readNat (Nat.toDigits 10 k ++ rest) := by
  obtain ⟨c, s, hdigits, hc⟩ := exists_digit k
  rw [hdigits]
  exact unsigned_digit hc (s ++ rest)

theorem unsigned_ofInt : unsigned (ofInt n ++ rest) = Nat.toDigits 10 n.natAbs ++ rest := by
  unfold ofInt
  split_ifs
  · rfl
  · exact (unsigned_toDigits _).1

theorem readSigned_append (h : Stops rest) : readSigned (ofInt n ++ rest) = n := by
  unfold ofInt
  split_ifs with hneg
  · rw [List.cons_append, readSigned, readNat_toDigits _ h]
    omega
  · rw [(unsigned_toDigits _).2, readNat_toDigits _ h]
    omega

theorem readSigned_ofInt : readSigned (ofInt n) = n := by
  have h : readSigned (ofInt n ++ []) = n := readSigned_append rfl
  rwa [List.append_nil] at h

end Behind

theorem ofInt_ne_nil : ofInt n ≠ [] := by
  unfold ofInt
  split_ifs
  · exact List.cons_ne_nil _ _
  · exact Nat.toDigits_ne_nil

/-- A sign, and the digits there are below the bound. -/
theorem length_ofInt {k : ℕ} (hk : 0 < k) (h : n.natAbs < 10 ^ k) : (ofInt n).length ≤ k + 1 := by
  have hdigits := (Nat.length_toDigits_le_iff (by decide) hk).2 h
  unfold ofInt
  split_ifs
  · rw [List.length_cons]
    omega
  · omega

theorem isSpace_ofInt {c : Char} (hc : c ∈ ofInt n) : isSpace c = false := by
  rcases digit_or_minus hc with hdigit | rfl
  · simp only [Char.isDigit, Bool.and_eq_true, decide_eq_true_eq, UInt32.le_iff_toNat_le] at hdigit
    simp only [isSpace, Bool.or_eq_false_iff, decide_eq_false_iff_not, Bool.and_eq_false_iff]
    refine ⟨?_, .inr ?_⟩
    · rintro rfl
      exact absurd hdigit.1 (by decide)
    · intro hle
      have hle : c.val.toNat ≤ '\r'.val.toNat := hle
      have : '\r'.val.toNat < '0'.val.toNat := by decide
      omega
  · decide

theorem dropWhile_ofInt (rest : List Char) :
    (ofInt n ++ rest).dropWhile isSpace = ofInt n ++ rest := by
  rcases hs : ofInt n with _ | ⟨c, s⟩
  · exact absurd hs ofInt_ne_nil
  · rw [List.cons_append, List.dropWhile_cons_of_neg]
    rw [isSpace_ofInt (n := n) (by simp [hs])]
    exact Bool.false_ne_true

/-- A number inside the bounds is read back. -/
theorem read_ofInt (hlow : low ≤ n) (hhigh : n ≤ high) : read low high (ofInt n) = n := by
  have hblank := dropWhile_ofInt (n := n) []
  rw [List.append_nil] at hblank
  rw [read, hblank, readSigned_ofInt, min_eq_left hhigh, max_eq_right hlow]

/-- A number is scanned behind a blank, up to what stands behind it. -/
theorem scan_ofInt {rest : List Char} (h : Stops rest) :
    scan (' ' :: (ofInt n ++ rest)) = some (n, rest) := by
  obtain ⟨c, s, hdigits, hc⟩ := exists_digit n.natAbs
  have hblank : (' ' :: (ofInt n ++ rest)).dropWhile isSpace = ofInt n ++ rest := by
    rw [List.dropWhile_cons_of_pos (by decide), dropWhile_ofInt]
  have hdigit : (unsigned (ofInt n ++ rest)).head?.any Char.isDigit = true := by
    rw [unsigned_ofInt, hdigits]
    simpa using hc
  rw [scan, hblank, if_pos hdigit, readSigned_append h, unsigned_ofInt,
    List.dropWhile_append_of_pos (isDigit_toDigits _), h.dropWhile]

end Decimal

end CShellXv6
