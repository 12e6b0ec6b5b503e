import CShellXv6.Kernel.Sections
import Mathlib.Tactic.SplitIfs

/-!
# Accounting of charged ticks

An action changes only the process whose lock it is under, and of these only an allocation, a
charge and a boost touch the queue and the slice. So a run takes a process exactly where the
charges since its allocation or last boost take it.
-/

namespace CShellXv6

namespace Kernel

variable {NPROC : ℕ} {Core : Type*} [DecidableEq Core]

theorem Action.next_procs (a : Action NPROC Core) (s : State NPROC Core) (p : Fin NPROC) :
    (a.next s).procs p = if a.slot = some p then a.body s (s.procs p) else s.procs p := by
  unfold Action.next
  rcases a.slot with _ | q
  · simp
  · by_cases h : q = p
    · subst h
      simp
    · simp [h, Function.update_of_ne (Ne.symm h)]

theorem Action.next_ticks {a : Action NPROC Core} (h : a ≠ .tick) (s : State NPROC Core) :
    (a.next s).ticks = s.ticks := by
  cases a with
  | tick => exact absurd rfl h
  | _ => rfl

/-- A charge touches nothing but the queue, the slice and the place. -/
theorem charged_eq (x : Proc) (ticks : ℕ) :
    ∃ priority sliceUsed enqTime, (enqTime = x.enqTime ∨ enqTime = ticks)
      ∧ (x.charge ticks).elim x Prod.fst
        = { x with priority := priority, sliceUsed := sliceUsed, enqTime := enqTime } := by
  unfold Proc.charge
  rcases sliceOf x.priority with _ | slice
  · exact ⟨x.priority, x.sliceUsed, x.enqTime, .inl rfl, rfl⟩
  · refine ⟨_, _, _, ?_, rfl⟩
    split_ifs
    · exact .inr rfl
    · exact .inl rfl

section Bodies

/-- The actions that take a process off the CPU or wake it, and touch nothing else that the
scheduler looks at. -/
def Action.Moves : Action NPROC Core → Prop
  | yield _ _ | sleepPrepare _ _ _ | sleep _ _ | wake _ _ | kill _ _ | setkilled _ => True
  | _ => False

structure Moved (x y : Proc) : Prop where
  eq : y = { x with state := y.state, chan := y.chan, killed := y.killed }
  state : y.state = x.state
    ∨ (x.state = .sleeping ∨ x.state = .running) ∧ (y.state = .runnable ∨ y.state = .sleeping)

variable {a : Action NPROC Core} {s : State NPROC Core} {p : Fin NPROC}

omit [DecidableEq Core] in
theorem Action.Moves.moved (h : a.Moves) (hcan : a.can s) (hslot : a.slot = some p) :
    Moved (s.procs p) (a.body s (s.procs p)) := by
  cases a with
  | sleepPrepare c q chan | setkilled q => exact ⟨rfl, .inl rfl⟩
  | yield c q =>
    obtain rfl := Option.some.inj hslot
    exact ⟨rfl, .inr ⟨.inr hcan.2, .inl rfl⟩⟩
  | sleep c q =>
    obtain rfl := Option.some.inj hslot
    refine ⟨rfl, ?_⟩
    simp only [Action.body, Proc.sleep]
    split_ifs
    · exact .inr ⟨.inr hcan.2, .inr rfl⟩
    · exact .inl rfl
  | wake q chan =>
    refine ⟨rfl, ?_⟩
    simp only [Action.body, Proc.wake]
    split_ifs with hwake
    · exact .inr ⟨.inl hwake.2, .inl rfl⟩
    · exact .inl rfl
  | kill q pid =>
    refine ⟨rfl, ?_⟩
    simp only [Action.body, Proc.kill]
    split_ifs with hkill
    · exact .inr ⟨.inl hkill.2, .inl rfl⟩
    · exact .inl rfl
  | _ => exact h.elim

/-- What an action does to the process `p` under whose lock it is, from `x`. -/
inductive Does (p : Fin NPROC) (ticks : ℕ) (x : Proc) : Action NPROC Core → Proc → Prop where
  | alloc (pid : Int) (hx : x.state = .unused) : Does p ticks x (.alloc p) (x.alloc pid ticks)
  | free (hx : x.state = .used ∨ x.state = .zombie) : Does p ticks x (.free p) x.free
  | ready (hx : x.state = .used) : Does p ticks x (.ready p) x.ready
  | charge (c : Core) (priority sliceUsed : Int) (enqTime : ℕ) (hx : x.state = .running)
      (henq : enqTime = x.enqTime ∨ enqTime = ticks) :
      Does p ticks x (.charge c p)
        { x with priority := priority, sliceUsed := sliceUsed, enqTime := enqTime }
  | boost : Does p ticks x (.boost p) x.boost
  | visit : Does p ticks x (.visit p) (x.visit ticks)
  | dispatch (c : Core) (hx : x.state = .runnable) :
      Does p ticks x (.dispatch c p) (x.dispatch ticks)
  | exit (c : Core) (status : Int) (hx : x.state = .running) :
      Does p ticks x (.exit c p status) (x.exit status ticks)
  | updateTime : Does p ticks x (.updateTime p) x.updateTime
  | move {a : Action NPROC Core} {y : Proc} (ha : a.Moves) (hy : Moved x y) : Does p ticks x a y

omit [DecidableEq Core] in
theorem does_body (hcan : a.can s) (hslot : a.slot = some p) :
    Does p s.ticks (s.procs p) a (a.body s (s.procs p)) := by
  by_cases hmoves : a.Moves
  · exact .move hmoves (hmoves.moved hcan hslot)
  · cases a with
    | tick => cases hslot
    | yield | sleepPrepare | sleep | wake | kill | setkilled => exact absurd trivial hmoves
    | charge c q =>
      obtain rfl := Option.some.inj hslot
      obtain ⟨priority, sliceUsed, enqTime, henq, heq⟩ := charged_eq (s.procs q) s.ticks
      rw [Action.body, heq]
      exact .charge c priority sliceUsed enqTime hcan.2 henq
    | alloc q =>
      obtain rfl := Option.some.inj hslot
      exact .alloc s.nextpid hcan
    | free q =>
      obtain rfl := Option.some.inj hslot
      exact .free hcan
    | ready q =>
      obtain rfl := Option.some.inj hslot
      exact .ready hcan
    | boost q =>
      obtain rfl := Option.some.inj hslot
      exact .boost
    | visit q =>
      obtain rfl := Option.some.inj hslot
      exact .visit
    | dispatch c q =>
      obtain rfl := Option.some.inj hslot
      exact .dispatch c hcan.1
    | exit c q status =>
      obtain rfl := Option.some.inj hslot
      exact .exit c status hcan.2
    | updateTime q =>
      obtain rfl := Option.some.inj hslot
      exact .updateTime

end Bodies

section Cores

/-- A process is RUNNING exactly if a core runs it, and no two cores run one process. -/
structure State.OnCores (s : State NPROC Core) : Prop where
  running : ∀ p, (s.procs p).state = .running ↔ ∃ c, s.cpu c = some p
  unique : ∀ c c' p, s.cpu c = some p → s.cpu c' = some p → c = c'

/-- The action takes `p` off the core `c`, if it does so with any process. -/
def Action.Leaves (a : Action NPROC Core) (c : Core) (p : Fin NPROC) : Prop :=
  a = .yield c p ∨ a = .sleep c p ∨ ∃ status, a = .exit c p status

omit [DecidableEq Core] in
theorem Action.Leaves.slot {a : Action NPROC Core} {c : Core} {p : Fin NPROC}
    (h : a.Leaves c p) : a.slot = some p := by
  rcases h with rfl | rfl | ⟨status, rfl⟩ <;> rfl

/-- An action that leaves the cores alone, and with its process whether it is RUNNING. -/
theorem cores_kept {a : Action NPROC Core} {s : State NPROC Core} (hcpu : a.cpu s = s.cpu)
    (hbody : ∀ p, a.slot = some p →
      ((a.body s (s.procs p)).state = .running ↔ (s.procs p).state = .running)) :
    (a.next s).cpu = s.cpu
      ∧ ∀ q, ((a.next s).procs q).state = .running ↔ (s.procs q).state = .running := by
  refine ⟨hcpu, fun q => ?_⟩
  rw [Action.next_procs]
  split_ifs with hslot
  · exact hbody q hslot
  · rfl

theorem cores_left {a : Action NPROC Core} {s : State NPROC Core} {c : Core} {p : Fin NPROC}
    (hleaves : a.Leaves c p) (hc : s.cpu c = some p) (hcpu : a.cpu s = Function.update s.cpu c none)
    (hbody : (a.body s (s.procs p)).state ≠ .running) :
    ∃ c p, a.Leaves c p ∧ s.cpu c = some p ∧ (a.next s).cpu = Function.update s.cpu c none
      ∧ ((a.next s).procs p).state ≠ .running ∧ ∀ q, q ≠ p → (a.next s).procs q = s.procs q := by
  refine ⟨c, p, hleaves, hc, hcpu, ?_, fun q hq => ?_⟩
  · rwa [Action.next_procs, if_pos hleaves.slot]
  · rw [Action.next_procs, if_neg (by simp [hleaves.slot, Ne.symm hq])]

/-- What an action does to the cores: nothing, put a process on one, or take it off. -/
theorem cores_next {a : Action NPROC Core} {s : State NPROC Core} (hcan : a.can s) :
    ((a.next s).cpu = s.cpu
        ∧ ∀ q, ((a.next s).procs q).state = .running ↔ (s.procs q).state = .running)
      ∨ (∃ c p, a = .dispatch c p)
      ∨ ∃ c p, a.Leaves c p ∧ s.cpu c = some p ∧ (a.next s).cpu = Function.update s.cpu c none
        ∧ ((a.next s).procs p).state ≠ .running ∧ ∀ q, q ≠ p → (a.next s).procs q = s.procs q := by
  cases a with
  | dispatch c p => exact .inr (.inl ⟨c, p, rfl⟩)
  | yield c p =>
    exact .inr (.inr (cores_left (.inl rfl) hcan.1 rfl (by simp [Action.body, Proc.yield])))
  | exit c p status =>
    exact .inr (.inr (cores_left (.inr (.inr ⟨status, rfl⟩)) hcan.1 rfl
      (by simp [Action.body, Proc.exit])))
  | sleep c p =>
    by_cases hchan : (s.procs p).chan = none
    · refine .inl (cores_kept (by simp [Action.cpu, hchan]) fun q hq => ?_)
      obtain rfl := Option.some.inj hq
      simp [Action.body, Proc.sleep, hchan]
    · exact .inr (.inr (cores_left (.inr (.inl rfl)) hcan.1 (by simp [Action.cpu, hchan])
        (by simp [Action.body, Proc.sleep, hchan])))
  | charge c p =>
    refine .inl (cores_kept rfl fun q hq => ?_)
    obtain rfl := Option.some.inj hq
    obtain ⟨_, _, _, -, heq⟩ := charged_eq (s.procs p) s.ticks
    simp [Action.body, heq]
  | tick => exact .inl (cores_kept rfl (by simp [Action.slot]))
  | wake p chan =>
    refine .inl (cores_kept rfl fun q hq => ?_)
    obtain rfl := Option.some.inj hq
    simp only [Action.body, Proc.wake]
    split_ifs with h
    · simp [h.2]
    · rfl
  | kill p pid =>
    refine .inl (cores_kept rfl fun q hq => ?_)
    obtain rfl := Option.some.inj hq
    simp only [Action.body, Proc.kill]
    split_ifs with h
    · simp [h.2]
    · rfl
  | free p =>
    refine .inl (cores_kept rfl fun q hq => ?_)
    obtain rfl := Option.some.inj hq
    rcases hcan with h | h <;> simp [Action.body, Proc.free, h]
  | alloc p | ready p =>
    refine .inl (cores_kept rfl fun q hq => ?_)
    obtain rfl := Option.some.inj hq
    have hstate := (show (s.procs p).state = _ from hcan)
    simp [Action.body, Proc.alloc, Proc.ready, hstate]
  | boost p | visit p | sleepPrepare c p chan | setkilled p | updateTime p =>
    refine .inl (cores_kept rfl fun q hq => ?_)
    obtain rfl := Option.some.inj hq
    rfl

theorem State.OnCores.next {s : State NPROC Core} (h : s.OnCores) {a : Action NPROC Core}
    (hcan : a.can s) : (a.next s).OnCores := by
  rcases cores_next hcan with ⟨hcpu, hrun⟩ | ⟨c, p, rfl⟩ | ⟨c, p, -, hc, hcpu, hp, hother⟩
  · refine ⟨fun p => ?_, fun c c' p => ?_⟩
    · rw [hrun, hcpu]
      exact h.running p
    · rw [hcpu]
      exact h.unique c c' p
  · have hno : ∀ c', s.cpu c' ≠ some p := fun c' hc' => by
      have := (h.running p).2 ⟨c', hc'⟩
      simp [hcan.1] at this
    have hcpu : ((Action.dispatch c p).next s).cpu = Function.update s.cpu c (some p) := rfl
    refine ⟨fun q => ?_, fun c₁ c₂ q h₁ h₂ => ?_⟩
    · rw [hcpu, Action.next_procs]
      by_cases hq : q = p
      · subst hq
        simp only [Action.slot, if_true, Action.body, Proc.dispatch, true_iff]
        exact ⟨c, by simp⟩
      · rw [if_neg (by simp [Action.slot, Ne.symm hq]), h.running q]
        refine exists_congr fun c' => ?_
        by_cases hc' : c' = c
        · subst hc'
          simp [hcan.2, Ne.symm hq]
        · rw [Function.update_of_ne hc']
    · rw [hcpu] at h₁ h₂
      simp only [Function.update_apply] at h₁ h₂
      split_ifs at h₁ h₂ with e₁ e₂ e₂
      · rw [e₁, e₂]
      · exact absurd (h₂.trans h₁.symm) (hno c₂)
      · exact absurd (h₁.trans h₂.symm) (hno c₁)
      · exact h.unique c₁ c₂ q h₁ h₂
  · refine ⟨fun q => ?_, fun c₁ c₂ q h₁ h₂ => ?_⟩
    · rw [hcpu]
      by_cases hq : q = p
      · subst hq
        simp only [hp, false_iff, not_exists]
        intro c' hc'
        simp only [Function.update_apply] at hc'
        split_ifs at hc' with e
        exact e (h.unique c' c q hc' hc)
      · rw [hother q hq, h.running q]
        refine exists_congr fun c' => ?_
        by_cases hc' : c' = c
        · subst hc'
          simp [hc, Ne.symm hq]
        · rw [Function.update_of_ne hc']
    · rw [hcpu] at h₁ h₂
      simp only [Function.update_apply] at h₁ h₂
      split_ifs at h₁ h₂
      exact h.unique c₁ c₂ q h₁ h₂

omit [DecidableEq Core] in
theorem onCores_boot : (State.boot : State NPROC Core).OnCores := by
  refine ⟨fun p => ?_, fun c c' p h => ?_⟩
  · simp [State.boot, Proc.zero]
  · simp [State.boot] at h

/-- A run of the MLFQ build is a run of critical sections. -/
theorem valid_sections : ∀ (as : List (Action NPROC Core)) (s : State NPROC Core),
    (mlfqSections NPROC Core).Valid as s → (sections NPROC Core).Valid as s
      ∧ (sections NPROC Core).exec as s = (mlfqSections NPROC Core).exec as s
  | [], _, _ => ⟨trivial, rfl⟩
  | a :: as, s, h => by
    obtain ⟨hv, he⟩ := valid_sections as (a.next s) h.2
    exact ⟨⟨h.1.1, hv⟩, he⟩

theorem onCores_exec {s : State NPROC Core} (h : s.OnCores) (as : List (Action NPROC Core))
    (hv : (mlfqSections NPROC Core).Valid as s) : ((mlfqSections NPROC Core).exec as s).OnCores :=
  (mlfqSections NPROC Core).invariant (I := State.OnCores) (fun _ _ hI hcan => hI.next hcan.1) h
    as hv

theorem userinit_valid : (mlfqSections NPROC Core).Valid userinit .boot := by
  unfold userinit
  rcases List.finRange NPROC with _ | ⟨p, l⟩
  · trivial
  · refine ⟨⟨rfl, trivial⟩, ⟨?_, trivial⟩, trivial⟩
    simp [Action.can, mlfqSections, Action.next_procs, Action.slot, Action.body, Proc.alloc]

end Cores

section Position

theorem position_zero : position 0 = (0, 0) := rfl

theorem position_one {n : ℕ} (h1 : 1 ≤ n) (h4 : n ≤ 4) : position n = (1, (n : Int) - 1) := by
  rw [position, if_neg (by omega), if_pos h4]

theorem position_two {n : ℕ} (h5 : 5 ≤ n) (h12 : n ≤ 12) : position n = (2, (n : Int) - 5) := by
  rw [position, if_neg (by omega), if_neg (by omega), if_pos h12]

theorem position_three {n : ℕ} (h : 13 ≤ n) : position n = (3, ((n : Int) - 13) % 16) := by
  rw [position, if_neg (by omega), if_neg (by omega), if_neg (by omega)]

theorem position_cases (n : ℕ) : n = 0 ∨ (1 ≤ n ∧ n ≤ 4) ∨ (5 ≤ n ∧ n ≤ 12) ∨ 13 ≤ n := by
  omega

/-- No position is outside the queues, and none has used up its slice. -/
theorem sliceOf_position (n : ℕ) : ∃ slice, sliceOf (position n).1 = some slice
    ∧ 0 ≤ (position n).2 ∧ (position n).2 < slice ∧ 0 ≤ (position n).1 ∧ (position n).1 ≤ 3 := by
  rcases position_cases n with rfl | ⟨h1, h2⟩ | ⟨h1, h2⟩ | h1
  · exact ⟨1, by decide⟩
  · rw [position_one h1 h2]
    refine ⟨4, rfl, ?_, ?_, ?_, ?_⟩ <;> simp only <;> omega
  · rw [position_two h1 h2]
    refine ⟨8, rfl, ?_, ?_, ?_, ?_⟩ <;> simp only <;> omega
  · rw [position_three h1]
    refine ⟨16, rfl, ?_, ?_, ?_, ?_⟩ <;> simp only <;> omega

/-- One more charge ends the slice and moves down a queue, or uses up one more tick of it. -/
theorem position_succ {n : ℕ} {slice : Int} (h : sliceOf (position n).1 = some slice) :
    position (n + 1) =
      if slice ≤ (position n).2 + 1 then
        (if (position n).1 < 3 then (position n).1 + 1 else (position n).1, 0)
      else ((position n).1, (position n).2 + 1) := by
  rcases position_cases n with rfl | ⟨h1, h2⟩ | ⟨h1, h2⟩ | h1
  · obtain rfl : 1 = slice := Option.some.inj h
    decide
  · rw [position_one h1 h2] at h ⊢
    obtain rfl : 4 = slice := Option.some.inj h
    by_cases hexp : (4 : Int) ≤ n - 1 + 1
    · rw [if_pos hexp, if_pos (by simp), position_two (by omega) (by omega), Prod.mk.injEq]
      omega
    · rw [if_neg hexp, position_one (by omega) (by omega), Prod.mk.injEq]
      omega
  · rw [position_two h1 h2] at h ⊢
    obtain rfl : 8 = slice := Option.some.inj h
    by_cases hexp : (8 : Int) ≤ n - 5 + 1
    · rw [if_pos hexp, if_pos (by simp), position_three (by omega), Prod.mk.injEq]
      omega
    · rw [if_neg hexp, position_two (by omega) (by omega), Prod.mk.injEq]
      omega
  · rw [position_three h1] at h ⊢
    obtain rfl : 16 = slice := Option.some.inj h
    rw [position_three (by omega)]
    by_cases hexp : (16 : Int) ≤ (n - 13) % 16 + 1
    · rw [if_pos hexp, if_neg (by simp), Prod.mk.injEq]
      omega
    · rw [if_neg hexp, Prod.mk.injEq]
      omega

/-- A charge takes a process to the next position. -/
theorem charge_position {x : Proc} {n : ℕ} (h : (x.priority, x.sliceUsed) = position n)
    (ticks : ℕ) :
    ∃ y expired, x.charge ticks = some (y, expired)
      ∧ (y.priority, y.sliceUsed) = position (n + 1) := by
  obtain ⟨slice, hslice, -⟩ := sliceOf_position n
  have hsucc := position_succ hslice
  rw [← h] at hslice hsucc
  simp only at hslice hsucc
  rw [Proc.charge, hslice, Option.map_some, hsucc]
  refine ⟨_, _, rfl, ?_⟩
  by_cases hexp : slice ≤ x.sliceUsed + 1 <;> simp [hexp]

end Position

section Accounting

/-- The process is where `n` charges take it, if the slot is in use. -/
def Placed (n : ℕ) (x : Proc) : Prop :=
  x.state ≠ .unused → (x.priority, x.sliceUsed) = position n

omit [DecidableEq Core] in
theorem placed_body {a : Action NPROC Core} {s : State NPROC Core} {p : Fin NPROC} {n : ℕ}
    (hcan : a.can s) (hslot : a.slot = some p) (h : Placed n (s.procs p)) :
    Placed (chargesStep p n a) (a.body s (s.procs p)) := by
  cases a <;> simp only [Action.slot, Option.some.injEq, reduceCtorEq] at hslot <;> subst hslot
  case alloc => intro _; simp [Action.body, Proc.alloc, chargesStep, position]
  case charge =>
    have hn := h (by simp [hcan.2])
    obtain ⟨y, expired, hcharge, hy⟩ := charge_position hn s.ticks
    intro _
    simpa [Action.body, hcharge, chargesStep] using hy
  case boost =>
    intro hu
    simp only [Action.body, Proc.boost] at hu ⊢
    simp [hu, chargesStep, position]
  case free => intro hu; simp [Action.body, Proc.free] at hu
  case ready => exact fun _ => h (by simp [show (s.procs _).state = .used from hcan])
  case dispatch => exact fun _ => h (by simp [hcan.1])
  case yield => exact fun _ => h (by simp [hcan.2])
  case sleep => exact fun _ => h (by simp [hcan.2])
  case exit => exact fun _ => h (by simp [hcan.2])
  case wake => exact fun hu => h fun hx => by simp [Action.body, Proc.wake, hx] at hu
  case kill => exact fun hu => h fun hx => by simp [Action.body, Proc.kill, hx] at hu
  case sleepPrepare | setkilled | visit | updateTime => exact h

theorem placed_next {a : Action NPROC Core} {s : State NPROC Core} (hcan : a.can s)
    {p : Fin NPROC} {n : ℕ} (h : Placed n (s.procs p)) :
    Placed (chargesStep p n a) ((a.next s).procs p) := by
  rw [Action.next_procs]
  split_ifs with hslot
  · exact placed_body hcan hslot h
  · have : chargesStep p n a = n := by
      cases a <;> simp_all [chargesStep, Action.slot]
    rwa [this]

theorem placed_charges (as : List (Action NPROC Core)) (h : (sections NPROC Core).Valid as .boot)
    (p : Fin NPROC) :
    Placed (charges p as) (((sections NPROC Core).exec as .boot).procs p) := by
  refine (sections NPROC Core).history (I := fun as s => Placed (charges p as) (s.procs p)) ?_ ?_
    as h
  · intro hu
    simp [State.boot, Proc.zero] at hu
  · intro as a s hI hcan
    rw [charges, List.foldl_append]
    exact placed_next hcan hI

end Accounting

/-- In every run a process is in the queue, with as much of its slice used, as the number of
charges since its allocation or last boost says, so it is always in one of the four queues with
some of its slice left. -/
theorem priority_eq_position (as : List (Action NPROC Core))
    (h : (sections NPROC Core).Valid as .boot) (p : Fin NPROC)
    (hp : (((sections NPROC Core).exec as .boot).procs p).state ≠ .unused) :
    let x := ((sections NPROC Core).exec as .boot).procs p
    (x.priority, x.sliceUsed) = position (charges p as)
      ∧ 0 ≤ x.priority ∧ x.priority ≤ 3
      ∧ ∃ slice, sliceOf x.priority = some slice ∧ x.sliceUsed < slice := by
  have hplace := placed_charges as h p hp
  obtain ⟨slice, hslice, -, hlt, h0, h3⟩ := sliceOf_position (charges p as)
  rw [← hplace] at hslice hlt h0 h3
  exact ⟨hplace, h0, h3, slice, hslice, hlt⟩

/-- A process that is dispatched and charged twice. -/
def chargedTwice : List (Action 64 Bool) :=
  [.alloc 0, .ready 0, .visit 0, .dispatch true 0, .tick, .charge true 0, .charge true 0]

theorem priority_eq_position_chargedTwice :
    ((sections 64 Bool).Valid chargedTwice .boot
      ∧ (((sections 64 Bool).exec chargedTwice .boot).procs 0).state ≠ .unused)
    ∧ let x := ((sections 64 Bool).exec chargedTwice .boot).procs 0
      (x.priority, x.sliceUsed) = position (charges 0 chargedTwice)
        ∧ 0 ≤ x.priority ∧ x.priority ≤ 3
        ∧ ∃ slice, sliceOf x.priority = some slice ∧ x.sliceUsed < slice :=
  ⟨by decide, priority_eq_position chargedTwice (by decide) 0 (by decide)⟩

end Kernel

end CShellXv6
