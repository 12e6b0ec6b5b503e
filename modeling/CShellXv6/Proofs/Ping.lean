import CShellXv6.Shell.Ping

/-!
# What `ping` sends

The residue that the loop of `parse_signal` carries is that of the number read so far, so that it
never goes far enough for an overflow. Behind it `ping` makes at most one `kill`, and only on what
belongs to a live job.
-/

namespace CShellXv6

namespace Shell

namespace Ping

section Number

theorem isDigit_iff {c : Char} : c.isDigit = true ↔ ¬ (c < '0' ∨ '9' < c) := by
  rw [not_or, not_lt, not_lt]
  simp only [Char.isDigit, Bool.and_eq_true, decide_eq_true_eq]
  rfl

theorem digit_bounds {c : Char} (h : c.isDigit = true) : 48 ≤ c.toNat ∧ c.toNat ≤ 57 := by
  simpa [Char.isDigit, UInt32.le_iff_toNat_le] using h

/-- The step from the number `n` to that with one digit more, on the residues. -/
theorem residue_step (n : ℕ) {c : Char} (h : c.isDigit = true) :
    (((n % 64 : ℕ) : Int) * 10 + ((c.toNat : Int) - '0'.toNat)).tmod 64
      = ((10 * n + (c.toNat - '0'.toNat)) % 64 : ℕ) := by
  have hzero : '0'.toNat = 48 := rfl
  have hc := digit_bounds h
  rw [hzero, Int.tmod_eq_emod_of_nonneg (by omega)]
  omega

/-- No value on the way is larger than 639. -/
theorem residue_isInt (n : ℕ) {c : Char} (h : c.isDigit = true) :
    IsInt (((n % 64 : ℕ) : Int) * 10) ∧ IsInt ((c.toNat : Int) - '0'.toNat)
      ∧ IsInt (((n % 64 : ℕ) : Int) * 10 + ((c.toNat : Int) - '0'.toNat)) := by
  have hzero : '0'.toNat = 48 := rfl
  have hc := digit_bounds h
  simp only [IsInt, hzero]
  omega

theorem signalLoop_eq : ∀ (text : List Char) (n : ℕ),
    signalLoop text (n % 64 : ℕ)
      = if text.all Char.isDigit = true then .value (Nat.ofDigitChars 10 text n % 64 : ℕ)
        else .refused
  | [], n => by simp [signalLoop, Nat.ofDigitChars]
  | c :: text, n => by
    rw [signalLoop]
    by_cases hc : c.isDigit = true
    · rw [if_neg (isDigit_iff.1 hc), if_pos (residue_isInt n hc), residue_step n hc,
        signalLoop_eq text, Nat.ofDigitChars_cons]
      rw [List.all_cons, hc, Bool.true_and]
    · rw [if_pos (not_not.1 (mt isDigit_iff.2 hc)), if_neg]
      exact fun h => hc (List.all_eq_true.1 h c List.mem_cons_self)

end Number

theorem parseSignal_nonempty {text : List Char} (h : cString text ≠ []) :
    parseSignal text =
      if (cString text).all Char.isDigit = true then
        .value (Nat.ofDigitChars 10 (cString text) 0 % 64 : ℕ)
      else .refused := by
  rw [parseSignal, if_neg h]
  exact signalLoop_eq (cString text) 0

theorem parseSignal_cases (text : List Char) :
    parseSignal text = .refused ∨ ∃ n : ℕ, parseSignal text = .value (n % 64 : ℕ) := by
  by_cases hnil : cString text = []
  · exact .inl (if_pos hnil)
  · rw [parseSignal_nonempty hnil]
    split_ifs
    · exact .inr ⟨_, rfl⟩
    · exact .inl rfl

section Kill

variable {host : Host} {jobs : List Jobs.Job} {number target : List Char}
  {signal signal' pid pid' : Int}

theorem killed_send (h : (send host number target pid signal).killed = some (pid', signal')) :
    pid' = pid ∧ signal' = signal := by
  unfold send at h
  split_ifs at h <;> simpa [eq_comm] using h

theorem live_of_findJob {n : Int} {index pgid : ℕ} (h : Jobs.findJob jobs n = some (index, pgid)) :
    ∃ j ∈ jobs, j.live = true ∧ j.pid = pgid := by
  unfold Jobs.findJob at h
  split_ifs at h
  split at h
  · exact absurd h (by simp)
  · rename_i j hj
    split_ifs at h with hlive
    simp only [Option.some.injEq, Prod.mk.injEq] at h
    exact ⟨j, List.mem_of_getElem? hj, hlive, h.2⟩

theorem live_of_isTrackedPid (h : isTrackedPid host jobs pid = true) :
    ∃ j ∈ jobs, j.live = true ∧ host.getpgid pid = some j.pid := by
  unfold isTrackedPid at h
  split at h
  · exact absurd h (by simp)
  · rename_i group hgroup
    simp only [List.any_eq_true, Bool.and_eq_true, beq_iff_eq] at h
    obtain ⟨j, hj, hlive, rfl⟩ := h
    exact ⟨j, hj, hlive, hgroup⟩

theorem killed_pingTarget
    (h : (pingTarget host jobs number target signal).killed = some (pid, signal')) :
    OfJob host jobs pid ∧ signal' = signal := by
  unfold pingTarget at h
  split_ifs at h with hjob
  · split at h
    · exact absurd h (by simp [noSuchProcess])
    · split_ifs at h with hid
      · exact absurd h (by simp [noSuchProcess])
      · split at h
        · exact absurd h (by simp [noSuchProcess])
        · rename_i index pgid hfind
          obtain ⟨rfl, rfl⟩ := killed_send h
          obtain ⟨j, hj, hlive, rfl⟩ := live_of_findJob hfind
          exact ⟨⟨j, hj, hlive, .inl rfl⟩, rfl⟩
  · split at h
    · exact absurd h (by simp [noSuchProcess])
    · rename_i id hid
      split_ifs at h with hbad
      · exact absurd h (by simp [noSuchProcess])
      · obtain ⟨rfl, rfl⟩ := killed_send h
        simp only [not_or, not_le, Bool.not_eq_false] at hbad
        obtain ⟨j, hj, hlive, hgroup⟩ := live_of_isTrackedPid hbad.2.2
        exact ⟨⟨j, hj, hlive, .inr ⟨hbad.1, hgroup⟩⟩, rfl⟩

/-- Whatever the tokens are, a signal is sent to nothing but a process or a group of a live job. -/
theorem runPing_kills_jobs (host : Host) (jobs : List Jobs.Job) (tokens : List Token) :
    ∃ r, runPing host jobs tokens = some r
      ∧ ∀ pid signal, r.killed = some (pid, signal) →
        OfJob host jobs pid ∧ 0 ≤ signal ∧ signal < 64 := by
  unfold runPing
  split
  · exact ⟨_, rfl, by simp⟩
  · split_ifs
    · exact ⟨_, rfl, by simp⟩
    · split
      · rename_i target number
        split_ifs
        · exact ⟨_, rfl, by simp [invalidSyntax]⟩
        · rcases parseSignal_cases number.text with h | ⟨n, h⟩
          · rw [h]
            exact ⟨_, rfl, by simp [invalidSyntax]⟩
          · rw [h]
            refine ⟨_, rfl, fun pid signal hkilled => ?_⟩
            obtain ⟨hjob, rfl⟩ := killed_pingTarget hkilled
            exact ⟨hjob, by omega, by omega⟩
      · exact ⟨_, rfl, by simp [invalidSyntax]⟩

end Kill

end Ping

open Ping

/-- A string is read just if it consists of digits and is not empty, and then as its residue; there
is no overflow on the way. -/
theorem parseSignal_eq (text : List Char) :
    parseSignal text =
      if cString text ≠ [] ∧ (cString text).all Char.isDigit = true then
        .value (Nat.ofDigitChars 10 (cString text) 0 % 64 : ℕ)
      else .refused := by
  by_cases hnil : cString text = []
  · rw [parseSignal, if_pos hnil, if_neg fun h => h.1 hnil]
  · rw [parseSignal_nonempty hnil]
    simp only [ne_eq, hnil, not_false_eq_true, true_and]

example : parseSignal "18446744073709551625".toList = .value 9 := by decide

end Shell

end CShellXv6
