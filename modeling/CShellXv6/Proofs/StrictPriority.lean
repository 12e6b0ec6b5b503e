import CShellXv6.Proofs.OneCpu

/-!
# Strict priority at tick boundaries

A process gets the CPU from a scan, or keeps it from `mlfq_tick`. The scan picks from the highest
queue that is not empty, and `mlfq_tick` looks for a higher queue behind the charge, so either way
nothing RUNNABLE is in a higher queue (`running_next`). The slices are read inside their array
because a run of the machine is a run of critical sections (`oneCpu_after`).
-/

namespace CShellXv6

namespace Kernel

variable {NPROC : ℕ}

section Reachable

theorem placed_after {Core : Type*} [DecidableEq Core] (as : List (Action NPROC Core))
    (hv : (mlfqSections NPROC Core).Valid as .boot) (p : Fin NPROC) :
    Placed (charges p as) ((after as).procs p) := by
  obtain ⟨hv, he⟩ := valid_sections as .boot hv
  have h := placed_charges as hv p
  rwa [he] at h

/-- In a run, a process in use is in one of the queues. -/
theorem slice_after {Core : Type*} [DecidableEq Core] (as : List (Action NPROC Core))
    (hv : (mlfqSections NPROC Core).Valid as .boot) (p : Fin NPROC)
    (hp : ((after as).procs p).state ≠ .unused) :
    0 ≤ ((after as).procs p).priority
      ∧ ∃ slice, sliceOf ((after as).procs p).priority = some slice := by
  obtain ⟨slice, hslice, -, -, h0, -⟩ := sliceOf_position (charges p as)
  rw [← placed_after as hv p hp] at hslice h0
  exact ⟨h0, slice, hslice⟩

/-- A run of the machine behind the sections `pre` is the sections of its events. -/
theorem sections_after {pre : List (Action NPROC Unit)} {c : Config NPROC}
    (hpre : (mlfqSections NPROC Unit).Valid pre .boot) (hbase : after pre = c.base) (hwf : c.Wf)
    (es : List (Event NPROC)) (hv : (oneCpu NPROC).Valid es c) :
    (mlfqSections NPROC Unit).Valid (pre ++ sectionsOf es c) .boot
      ∧ after (pre ++ sectionsOf es c) = ((oneCpu NPROC).exec es c).base := by
  obtain ⟨hvalid, hexec⟩ := oneCpu_refines.run es c hwf hv
  rw [← hbase] at hvalid hexec
  exact ⟨(System.valid_append _ _ _ _).2 ⟨hpre, hvalid⟩, (after_append _ _).trans hexec⟩

theorem oneCpu_after (es : List (Event NPROC)) (hv : (oneCpu NPROC).Valid es .boot) :
    (mlfqSections NPROC Unit).Valid (userinit ++ sectionsOf es .boot) .boot
      ∧ after (userinit ++ sectionsOf es .boot) = ((oneCpu NPROC).exec es .boot).base :=
  sections_after userinit_valid rfl wf_boot es hv

end Reachable

section Tick

theorem mlfqHigherRunnable_eq_false {pri : Int} {self : Fin NPROC} {procs : Fin NPROC → Proc} :
    mlfqHigherRunnable pri self procs = false
      ↔ ∀ q, q ≠ self → (procs q).state = .runnable → pri ≤ (procs q).priority := by
  simp [mlfqHigherRunnable]

theorem charge_other {p q : Fin NPROC} (hq : q ≠ p) (s : State NPROC Unit) :
    ((Action.charge () p).next s).procs q = s.procs q := by
  simp [Action.next_procs, Action.slot, Ne.symm hq]

/-- `mlfq_tick` keeps the process if it has some of its slice left and no other process is in a
higher queue. -/
theorem mlfqTickYields_eq_false {p : Fin NPROC} {s : State NPROC Unit} {slice : Int}
    (h : sliceOf (s.procs p).priority = some slice) :
    mlfqTickYields p s = false ↔ (s.procs p).sliceUsed + 1 < slice
      ∧ ∀ q, q ≠ p → s.Runnable q → (s.procs p).priority ≤ (s.procs q).priority := by
  simp only [mlfqTickYields, Bool.or_eq_false_iff, mlfqHigherRunnable_eq_false, Proc.charge, h,
    Option.map_some, Option.any_some, decide_eq_false_iff_not, Int.not_le]
  refine and_congr_right fun hleft => forall_congr' fun q => forall_congr' fun hq => ?_
  have hself : (((Action.charge () p).next s).procs p).priority = (s.procs p).priority := by
    simp [Action.next_procs, Action.slot, Action.body, Proc.charge, h, Int.not_le.2 hleft]
  rw [charge_other hq, hself]
  rfl

/-- The process that `mlfq_tick` keeps is first. -/
theorem first_of_kept {p : Fin NPROC} {s : State NPROC Unit} (hp : (s.procs p).state = .running)
    (h : mlfqTickYields p s = false) : ((Action.charge () p).next s).First p := by
  simp only [mlfqTickYields, Bool.or_eq_false_iff, mlfqHigherRunnable_eq_false] at h
  intro q hq
  refine h.2 q ?_ hq
  rintro rfl
  have hrun := (charge_keeps q s).2.trans hp
  rw [State.Runnable, hrun] at hq
  cases hq

/-- The process that a scan dispatches is first. -/
theorem first_of_picked {q : Fin NPROC} {s : State NPROC Unit} (φ : Phase NPROC)
    (h : mlfqScan s = some q) : (Event.scan.next ⟨s, φ⟩).base.First q := by
  obtain ⟨-, hp⟩ := scan_exec s φ
  intro r hr
  by_cases hqr : r = q
  · rw [hqr]
  · have hr' := hp r
    have hq' := hp q
    rw [h, if_neg (by simp [Ne.symm hqr])] at hr'
    rw [h, if_pos rfl] at hq'
    rw [State.Runnable, hr'] at hr
    rw [hr', hq']
    have hle := (mlfqScan_picked s).first q h r (List.mem_finRange r) hr
    unfold NoLater at hle
    show ((s.procs q).visit s.ticks).priority ≤ _
    omega

/-- The process that an event puts on the CPU is first. -/
theorem running_next {c : Config NPROC} (hwf : c.Wf) {e : Event NPROC}
    (hcan : (oneCpu NPROC).can e c) (hnot : ∀ r, c.phase ≠ .running r) {q : Fin NPROC}
    (hq : (e.next c).phase = .running q) : (e.next c).base.First q := by
  obtain ⟨s, φ⟩ := c
  cases e with
  | clock user => cases φ <;> simp_all [Event.next, Event.phase]
  | act a =>
    simp only [Event.next, Event.phase] at hq
    split_ifs at hq
    exact absurd hq (hnot q)
  | scan =>
    cases φ with
    | sched =>
      cases hbest : mlfqScan s with
      | none => simp [Event.next, Event.phase, hbest] at hq
      | some b =>
        simp only [Event.next, Event.phase, hbest, Option.elim_some, Phase.running.injEq] at hq
        subst hq
        exact first_of_picked _ hbest
    | _ => exact hcan.elim
  | handle =>
    cases φ with
    | trap p user =>
      simp only [Event.next, Event.actions, Event.phase] at hq ⊢
      split_ifs at hq ⊢ with hkilled hyields
      obtain rfl : p = q := by simpa using hq
      exact first_of_kept ((hwf.running p).2 rfl) (by simpa using hyields)
    | _ => exact hcan.elim

end Tick

section Boundary

/-- Where a run was without a running process, whoever runs behind it is first. -/
theorem running_exec {c : Config NPROC} (hwf : c.Wf) (hnot : ∀ r, c.phase ≠ .running r)
    (es : List (Event NPROC)) (hv : (oneCpu NPROC).Valid es c)
    (heach : (oneCpu NPROC).Each (fun _ d => ∀ r, d.phase ≠ .running r) es c) {q : Fin NPROC}
    (hq : ((oneCpu NPROC).exec es c).phase = .running q) :
    ((oneCpu NPROC).exec es c).base.First q := by
  rcases List.eq_nil_or_concat' es with rfl | ⟨es, e, rfl⟩
  · exact absurd hq (hnot q)
  · rw [System.valid_append] at hv
    rw [System.exec_append] at hq ⊢
    exact running_next (wf_exec hwf es hv.1) hv.2.1 (System.Each.behind _ es heach) hq

theorem clock_not_running (c : Config NPROC) (user : Bool) (r : Fin NPROC) :
    ((Event.clock user).next c).phase ≠ .running r := by
  obtain ⟨s, φ⟩ := c
  cases φ <;> simp [Event.next, Event.phase]

/-- In a reachable state the process in a trap handler has a slice. -/
theorem trap_slice {es : List (Event NPROC)} (hv : (oneCpu NPROC).Valid es .boot)
    {p : Fin NPROC} {user : Bool} (h : ((oneCpu NPROC).exec es .boot).phase = .trap p user) :
    ∃ slice, sliceOf (((oneCpu NPROC).exec es .boot).base.procs p).priority = some slice := by
  obtain ⟨hvalid, hafter⟩ := oneCpu_after es hv
  have hp := ((wf_exec wf_boot es hv).running p).2 (by rw [h]; rfl)
  have hslice := slice_after _ hvalid p
  rw [hafter] at hslice
  exact (hslice (by simp [hp])).2

end Boundary

/-- Whoever runs first behind a timer interrupt, once its handling is over, has no RUNNABLE process
in a higher queue; and the handling of an interrupt that does not find the process killed keeps it
exactly if it has some of its slice left and no other RUNNABLE process is in a higher queue. A
process that `usertrap` finds killed is in its handling until it leaves the CPU. -/
theorem strict_priority (NPROC : ℕ) :
    (∀ (es₁ es₂ : List (Event NPROC)) (user : Bool) (q : Fin NPROC),
      (oneCpu NPROC).Valid (es₁ ++ .clock user :: es₂) .boot →
      (oneCpu NPROC).Each (fun _ c => ∀ r, c.phase ≠ .running r) es₂
        ((oneCpu NPROC).exec (es₁ ++ [.clock user]) .boot) →
      ((oneCpu NPROC).exec (es₁ ++ .clock user :: es₂) .boot).phase = .running q →
        ((oneCpu NPROC).exec (es₁ ++ .clock user :: es₂) .boot).base.First q)
    ∧ ∀ (es : List (Event NPROC)) (p : Fin NPROC) (user : Bool),
      (oneCpu NPROC).Valid es .boot →
      let c := (oneCpu NPROC).exec es .boot
      c.phase = .trap p user → ¬ (user = true ∧ (c.base.procs p).killed = true) →
        ((Event.handle.next c).phase = .running p
          ↔ (∃ slice, sliceOf (c.base.procs p).priority = some slice
              ∧ (c.base.procs p).sliceUsed + 1 < slice)
            ∧ ¬ ∃ q, q ≠ p ∧ c.base.Runnable q
              ∧ (c.base.procs q).priority < (c.base.procs p).priority) := by
  refine ⟨fun es₁ es₂ user q hv heach hq => ?_, fun es p user hv => ?_⟩
  · rw [← List.singleton_append, ← List.append_assoc, System.valid_append] at hv
    rw [← List.singleton_append, ← List.append_assoc, System.exec_append] at hq ⊢
    refine running_exec (wf_exec wf_boot _ hv.1) (fun r => ?_) es₂ hv.2 heach hq
    rw [System.exec_append]
    exact clock_not_running _ user r
  · intro c hphase hkilled
    obtain ⟨slice, hslice⟩ := trap_slice hv hphase
    have hkeep : (Event.handle.next c).phase = .running p ↔ mlfqTickYields p c.base = false := by
      simp only [Event.next, Event.phase, hphase, if_neg hkilled]
      cases mlfqTickYields p c.base <;> simp
    rw [hkeep, mlfqTickYields_eq_false hslice]
    simp [c, hslice]

/-- Process 0 forks process 1, and uses up its slice. -/
def forkedRun : List (Event 2) :=
  [.scan, .act (.alloc 1), .act (.ready 1)]

/-- Process 0 alone is interrupted for the second time. -/
def aloneRun : List (Event 2) :=
  [.scan, .clock true, .handle, .scan, .clock true]

theorem strict_priority_forkedRun :
    ((oneCpu 2).exec (forkedRun ++ .clock true :: [.handle, .scan]) .boot).base.First 1
    ∧ (∃ slice, sliceOf (((oneCpu 2).exec aloneRun .boot).base.procs 0).priority = some slice
        ∧ (((oneCpu 2).exec aloneRun .boot).base.procs 0).sliceUsed + 1 < slice)
      ∧ ¬ ∃ q, q ≠ 0 ∧ ((oneCpu 2).exec aloneRun .boot).base.Runnable q
        ∧ (((oneCpu 2).exec aloneRun .boot).base.procs q).priority
          < (((oneCpu 2).exec aloneRun .boot).base.procs 0).priority :=
  ⟨(strict_priority 2).1 forkedRun [.handle, .scan] true 1 (by decide) (by decide) (by decide),
    ((strict_priority 2).2 aloneRun 0 true (by decide) (by decide) (by decide)).1 (by decide)⟩

end Kernel

end CShellXv6
