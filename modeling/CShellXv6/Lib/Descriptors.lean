import Mathlib.Data.Multiset.AddSub
import Mathlib.Data.Set.Basic

/-!
# Descriptor tables

A process's table of open descriptors: slot `fd` holds what descriptor `fd` refers to, and an
open takes the lowest free number. The table keeps a log of every number opened and every
number a close was called on, open or not.

`Holds F M t` says that since the log was begun the process has opened, and not yet closed,
exactly the numbers in `M`, that everything it closed it had opened, and that the descriptors
`F` open before are untouched.
-/

namespace CShellXv6

inductive FdEvent where
  | opened (fd : ℕ)
  | closed (fd : ℕ)
  deriving DecidableEq, Repr

def FdEvent.fd : FdEvent → ℕ
  | opened fd => fd
  | closed fd => fd

structure FdTable (δ : Type*) where
  slots : List (Option δ)
  log : List FdEvent
  deriving DecidableEq, Repr

namespace FdTable

variable {δ : Type*}

/-- What `fd` refers to. -/
def get (t : FdTable δ) (fd : ℕ) : Option δ :=
  t.slots[fd]?.join

def IsOpen (t : FdTable δ) (fd : ℕ) : Prop :=
  (t.get fd).isSome = true

instance (t : FdTable δ) (fd : ℕ) : Decidable (t.IsOpen fd) :=
  inferInstanceAs (Decidable (_ = true))

/-- The lowest number that is not open. -/
def lowest (t : FdTable δ) : ℕ :=
  t.slots.findIdx (·.isNone)

/-- The table with `d` opened at the lowest free number. -/
def openLowest (t : FdTable δ) (d : δ) : FdTable δ where
  slots := if t.lowest < t.slots.length then t.slots.set t.lowest (some d) else t.slots ++ [some d]
  log := t.log ++ [.opened t.lowest]

/-- `close(fd)`, which has no effect on a number that is not open. -/
def close (t : FdTable δ) (fd : ℕ) : FdTable δ where
  slots := t.slots.set fd none
  log := t.log ++ [.closed fd]

/-- The log's entries on `fd`. -/
def events (t : FdTable δ) (fd : ℕ) : List FdEvent :=
  t.log.filter (·.fd = fd)

theorem not_isOpen_lowest (t : FdTable δ) : ¬ t.IsOpen t.lowest := by
  unfold IsOpen get lowest
  rcases h : t.slots[t.slots.findIdx (·.isNone)]? with _ | d
  · rw [h]
    simp
  · obtain ⟨hlt, hd⟩ := List.getElem?_eq_some_iff.1 h
    have hnone := List.findIdx_getElem (w := hlt)
    rw [hd, Option.isNone_iff_eq_none] at hnone
    rw [h, hnone]
    simp

theorem get_openLowest (t : FdTable δ) (d : δ) (fd : ℕ) :
    (t.openLowest d).get fd = if fd = t.lowest then some d else t.get fd := by
  have hle : t.lowest ≤ t.slots.length := List.findIdx_le_length
  unfold get openLowest
  simp only
  split_ifs with h hfd hfd
  · subst hfd
    simp [h]
  · rw [List.getElem?_set_ne (Ne.symm hfd)]
  · rw [List.getElem?_append_right (by omega), show fd - t.slots.length = 0 by omega]
    rfl
  · rcases Nat.lt_or_ge fd t.slots.length with hlt | hge
    · rw [List.getElem?_append_left hlt]
    · rw [List.getElem?_eq_none (by simp; omega), List.getElem?_eq_none hge]

theorem get_close (t : FdTable δ) (n fd : ℕ) :
    (t.close n).get fd = if fd = n then none else t.get fd := by
  unfold get close
  split_ifs with h
  · subst h
    by_cases hlt : fd < t.slots.length
    · simp [hlt]
    · rw [List.getElem?_eq_none (by simp; omega)]
      rfl
  · rw [List.getElem?_set_ne (Ne.symm h)]

theorem isOpen_openLowest (t : FdTable δ) (d : δ) (fd : ℕ) :
    (t.openLowest d).IsOpen fd ↔ fd = t.lowest ∨ t.IsOpen fd := by
  unfold IsOpen
  rw [get_openLowest]
  split_ifs with h <;> simp [h]

theorem isOpen_close (t : FdTable δ) (n fd : ℕ) :
    (t.close n).IsOpen fd ↔ fd ≠ n ∧ t.IsOpen fd := by
  unfold IsOpen
  rw [get_close]
  split_ifs with h <;> simp [h]

theorem events_openLowest (t : FdTable δ) (d : δ) (fd : ℕ) :
    (t.openLowest d).events fd
      = t.events fd ++ if fd = t.lowest then [.opened fd] else [] := by
  unfold events openLowest
  by_cases h : fd = t.lowest
  · subst h
    simp [FdEvent.fd]
  · simp [FdEvent.fd, h, Ne.symm h]

theorem events_close (t : FdTable δ) (n fd : ℕ) :
    (t.close n).events fd = t.events fd ++ if fd = n then [.closed fd] else [] := by
  unfold events close
  by_cases h : fd = n
  · subst h
    simp [FdEvent.fd]
  · simp [FdEvent.fd, h, Ne.symm h]

/-- `n` times an open of `fd` followed by its close. -/
def pairs (n fd : ℕ) : List FdEvent :=
  (List.replicate n [FdEvent.opened fd, FdEvent.closed fd]).flatten

theorem pairs_succ (n fd : ℕ) : pairs (n + 1) fd = pairs n fd ++ [.opened fd, .closed fd] := by
  simp [pairs, List.replicate_succ']

/-- The descriptors `F` are open and were never closed, those in `M` were opened and are still
open, and every other open has been followed by its close. -/
structure Holds (F : Set ℕ) (M : Multiset ℕ) (t : FdTable δ) : Prop where
  isOpen : ∀ fd, t.IsOpen fd ↔ fd ∈ F ∨ fd ∈ M
  nodup : M.Nodup
  disjoint : ∀ fd ∈ M, fd ∉ F
  kept : ∀ fd ∈ F, t.events fd = []
  balanced : ∀ fd, ∃ n, t.events fd = pairs n fd ++ if fd ∈ M then [.opened fd] else []

/-- Everything opened has been closed once, and the descriptors `F` are as they were. -/
structure Restored (F : Set ℕ) (t : FdTable δ) : Prop where
  isOpen : ∀ fd, t.IsOpen fd ↔ fd ∈ F
  kept : ∀ fd ∈ F, FdEvent.closed fd ∉ t.log
  once : ∀ fd, ∃ n, t.events fd = pairs n fd

variable {F : Set ℕ} {M : Multiset ℕ} {t : FdTable δ}

theorem Holds.start (slots : List (Option δ)) :
    Holds {fd | (⟨slots, []⟩ : FdTable δ).IsOpen fd} 0 ⟨slots, []⟩ :=
  ⟨by simp, by simp, by simp, by simp [events], fun fd => ⟨0, by simp [events, pairs]⟩⟩

theorem Holds.openLowest (h : Holds F M t) (d : δ) :
    Holds F (t.lowest ::ₘ M) (t.openLowest d) := by
  have hnew := t.not_isOpen_lowest
  rw [h.isOpen, not_or] at hnew
  refine ⟨fun fd => ?_, ?_, fun fd hfd => ?_, fun fd hfd => ?_, fun fd => ?_⟩
  · rw [isOpen_openLowest, h.isOpen, Multiset.mem_cons]
    tauto
  · exact Multiset.nodup_cons.2 ⟨hnew.2, h.nodup⟩
  · rcases Multiset.mem_cons.1 hfd with rfl | hfd
    · exact hnew.1
    · exact h.disjoint fd hfd
  · have hne : fd ≠ t.lowest := fun he => hnew.1 (he ▸ hfd)
    rw [events_openLowest, h.kept fd hfd, if_neg hne]
    rfl
  · obtain ⟨n, hn⟩ := h.balanced fd
    refine ⟨n, ?_⟩
    rw [events_openLowest, hn]
    by_cases hfd : fd = t.lowest
    · subst hfd
      simp [hnew.2]
    · simp [hfd]

theorem Holds.close {fd : ℕ} (h : Holds F (fd ::ₘ M) t) : Holds F M (t.close fd) := by
  have hnd := Multiset.nodup_cons.1 h.nodup
  have hfdF := h.disjoint fd (Multiset.mem_cons_self _ _)
  refine ⟨fun n => ?_, hnd.2, fun n hn => h.disjoint n (Multiset.mem_cons_of_mem hn),
    fun n hn => ?_, fun n => ?_⟩
  · rw [isOpen_close, h.isOpen, Multiset.mem_cons]
    constructor
    · tauto
    · rintro (hn | hn)
      · exact ⟨fun he => hfdF (he ▸ hn), .inl hn⟩
      · exact ⟨fun he => hnd.1 (he ▸ hn), .inr (.inr hn)⟩
  · have hne : n ≠ fd := fun he => hfdF (he ▸ hn)
    rw [events_close, h.kept n hn, if_neg hne]
    rfl
  · obtain ⟨k, hk⟩ := h.balanced n
    rw [events_close, hk]
    by_cases hn : n = fd
    · subst hn
      refine ⟨k + 1, ?_⟩
      rw [pairs_succ]
      simp [hnd.1]
    · exact ⟨k, by simp [hn]⟩

theorem Holds.restored (h : Holds F 0 t) : Restored F t := by
  refine ⟨fun fd => by simpa using h.isOpen fd, fun fd hfd hlog => ?_, fun fd => ?_⟩
  · have : FdEvent.closed fd ∈ t.events fd := by simp [events, hlog, FdEvent.fd]
    rw [h.kept fd hfd] at this
    simp at this
  · obtain ⟨n, hn⟩ := h.balanced fd
    exact ⟨n, by simpa using hn⟩

/-- A close of one of the descriptors `F` cannot be made good. -/
theorem not_restored_of_not_isOpen {fd : ℕ} (hF : fd ∈ F) (h : ¬ t.IsOpen fd) : ¬ Restored F t :=
  fun hr => h ((hr.isOpen fd).2 hF)

end FdTable

end CShellXv6
