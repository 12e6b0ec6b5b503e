import CShellXv6.Kernel.Scans
import CShellXv6.Proofs.Locks

/-!
# Scans over whole runs

What a scan holds is in the invariant, and what it has done is read off the run: its candidate was
judged best at some step and kept since (`heldSince_exec`), and while it has no candidate it found
nothing RUNNABLE in the slots behind it (`seenIdle_exec`).
-/

namespace CShellXv6

namespace Kernel

variable {NPROC : ℕ} {Core : Type*} [DecidableEq Core] {policy : Policy}
  {held : Core → List (Lock NPROC)} {own : Fin NPROC → Option (Fin NPROC)}
  {m : Machine NPROC Core} {c : Core} {p : Fin NPROC}

section Candidates

def Step.core : Step NPROC Core → Core
  | run c | start c | call c _ | interrupt c _ => c

theorem goto_control (m : Machine NPROC Core) (c : Core) (control : Control NPROC Core) :
    (m.goto c control).control c = control := by
  simp [Machine.goto]

theorem goto_control_of_ne (m : Machine NPROC Core) {c c' : Core} (hc : c ≠ c')
    (control : Control NPROC Core) : (m.goto c' control).control c = m.control c := by
  simp [Machine.goto, Function.update_of_ne hc]

theorem next_control_of_ne (m : Machine NPROC Core) {a : Step NPROC Core} (hc : c ≠ a.core) :
    (m.next policy a).control c = m.control c := by
  cases a with
  | start c' => exact goto_control_of_ne m hc _
  | call c' r =>
    simp only [Machine.next]
    cases m.proc c' with
    | none => rfl
    | some q => exact goto_control_of_ne m hc _
  | interrupt c' i =>
    simp only [Machine.next]
    split
    · exact goto_control_of_ne m hc _
    · rfl
  | run c' =>
    simp only [Machine.next]
    cases m.control c' with
    | code k =>
      cases k with
      | sched k =>
        simp only [Machine.run, Machine.runCode]
        split
        · rfl
        · exact goto_control_of_ne _ hc _
      | done => rfl
      | panicked => rfl
      | _ => exact goto_control_of_ne _ hc _
    | scan rest best =>
      rcases rest with _ | ⟨q, rest⟩
      · cases best <;> exact goto_control_of_ne _ hc _
      · exact goto_control_of_ne _ hc _
    | look q rest best =>
      simp only [Machine.run]
      split_ifs <;> exact goto_control_of_ne _ hc _
    | _ => exact goto_control_of_ne _ hc _

/-- One step of a scan. -/
inductive Scans (policy : Policy) (s : State NPROC Core) :
    Control NPROC Core → Control NPROC Core → Prop where
  | acquire (p rest best) : Scans policy s (.scan (p :: rest) best) (.look p rest best)
  | judge (p rest best) (h : policy.better p best (policy.visit p s) = true) :
    Scans policy s (.look p rest best) (best.elim (.scan rest (some p)) (.swap p rest))
  | skip (p rest best) (h : policy.better p best (policy.visit p s) = false) :
    Scans policy s (.look p rest best) (.pass p rest best)
  | swap (p rest old) : Scans policy s (.swap p rest old) (.scan rest (some p))
  | pass (p rest best) : Scans policy s (.pass p rest best) (.scan rest best)

/-- A core is in a scan because it was, because it starts one, or by a step of one. -/
theorem inScan_next (m : Machine NPROC Core) {a : Step NPROC Core}
    (h : ((m.next policy a).control c).InScan) :
    (m.next policy a).control c = m.control c
      ∨ (m.next policy a).control c = .scan (List.finRange NPROC) none
      ∨ a = .run c ∧ Scans policy m.base (m.control c) ((m.next policy a).control c) := by
  by_cases hc : c = a.core
  · cases a with
    | start c' =>
      obtain rfl : c = c' := hc
      exact .inr (.inl (goto_control m c _))
    | call c' r =>
      obtain rfl : c = c' := hc
      simp only [Machine.next] at h ⊢
      cases hp : m.proc c with
      | none => exact .inl rfl
      | some q =>
        rw [hp, Option.elim_some, goto_control] at h
        exact h.elim
    | interrupt c' i =>
      obtain rfl : c = c' := hc
      simp only [Machine.next] at h ⊢
      split at h
      · rw [goto_control] at h
        exact h.elim
      · exact .inl rfl
    | run c' =>
      obtain rfl : c = c' := hc
      simp only [Machine.next] at h ⊢
      cases hk : m.control c with
      | code k =>
        rw [hk] at h
        cases k with
        | sched k =>
          simp only [Machine.run, Machine.runCode] at h
          split at h
          · rw [hk] at h
            exact h.elim
          · rw [goto_control] at h
            exact h.elim
        | done =>
          rw [Machine.run, Machine.runCode, hk] at h
          exact h.elim
        | panicked =>
          rw [Machine.run, Machine.runCode, hk] at h
          exact h.elim
        | _ =>
          rw [Machine.run, Machine.runCode, goto_control] at h
          exact h.elim
      | scan rest best =>
        rw [hk] at h
        rcases rest with _ | ⟨q, rest⟩
        · cases best <;>
          · rw [Machine.run, goto_control] at h
            exact h.elim
        · rw [Machine.run, goto_control]
          exact .inr (.inr ⟨trivial, .acquire q rest best⟩)
      | look q rest best =>
        simp only [Machine.run]
        split_ifs with hbetter
        · rw [goto_control]
          exact .inr (.inr ⟨trivial, .judge q rest best hbetter⟩)
        · rw [goto_control]
          exact .inr (.inr ⟨trivial, .skip q rest best (by simpa using hbetter)⟩)
      | swap q rest old =>
        rw [Machine.run, goto_control]
        exact .inr (.inr ⟨trivial, .swap q rest old⟩)
      | pass q rest best =>
        rw [Machine.run, goto_control]
        exact .inr (.inr ⟨trivial, .pass q rest best⟩)
      | back q =>
        rw [hk, Machine.run, goto_control] at h
        exact h.elim
  · exact .inl (next_control_of_ne m hc)

omit [DecidableEq Core] in
theorem inScan_of_best {control : Control NPROC Core} (h : control.best = some p) :
    control.InScan := by
  cases control <;> trivial

/-- A candidate was one before, or is judged best now. -/
theorem best_next (m : Machine NPROC Core) {a : Step NPROC Core}
    (h : ((m.next policy a).control c).best = some p) :
    (m.control c).best = some p ∨ a = .run c ∧ m.Judges policy c p := by
  rcases inScan_next m (inScan_of_best h) with heq | heq | ⟨ha, hscan⟩
  · exact .inl (by rwa [heq] at h)
  · rw [heq] at h
    cases h
  · generalize hk : m.control c = control at hscan
    generalize (m.next policy a).control c = control' at hscan h
    cases hscan with
    | acquire q rest best => exact .inl h
    | judge q rest best hbetter =>
      obtain rfl : q = p := by cases best <;> exact Option.some.inj h
      exact .inr ⟨ha, rest, best, hk, hbetter⟩
    | skip q rest best => exact .inl h
    | swap q rest old => exact .inl h
    | pass q rest best => exact .inl h

theorem Inv.best (h : Inv policy held own m) (hb : (m.control c).best = some p) :
    m.locks.holder (.proc p) = some c ∧ m.base.Runnable p := by
  have hcore := h.core c
  cases hk : m.control c <;> rw [hk] at hcore hb
  case code => cases hb
  case back => cases hb
  case swap q rest old =>
    obtain rfl : q = p := Option.some.inj hb
    obtain ⟨-, -, hheld, -, hgood⟩ := hcore
    exact ⟨(h.holding.holder c _).2 (by simp [hheld]), hgood.1⟩
  case scan rest best =>
    obtain rfl : best = some p := hb
    obtain ⟨-, -, hheld, -, hgood⟩ := hcore
    exact ⟨(h.holding.holder c _).2 (by simp [hheld]), (hgood p rfl).1⟩
  case look q rest best | pass q rest best =>
    obtain rfl : best = some p := hb
    obtain ⟨-, -, hheld, -, hgood⟩ := hcore
    exact ⟨(h.holding.holder c _).2 (by simp [hheld]), (hgood p rfl).1⟩

/-- The candidate of a scan was judged best at some step, and its lock is held since. -/
theorem heldSince_exec (policy : Policy) (as : List (Step NPROC Core))
    (hv : (machine NPROC Core policy).Valid as .boot) (c : Core) (p : Fin NPROC)
    (hb : (((machine NPROC Core policy).exec as .boot).control c).best = some p) :
    HeldSince policy as c p := by
  induction as using List.reverseRecOn with
  | nil => cases hb
  | append_singleton as a ih =>
    obtain ⟨held, own, hinv⟩ := inv_exec policy _ hv
    rw [System.valid_append] at hv
    have hnow := hinv.best hb
    rw [System.exec_append] at hb hnow
    rcases best_next _ hb with hold | ⟨rfl, hjudges⟩
    · exact System.Since.snoc _ (ih hv.1 hold) hnow
    · exact System.since_now _ hjudges hnow

end Candidates

section Idle

/-- The slots a scan without a candidate has still to look at. -/
def Control.left : Control NPROC Core → Option (List (Fin NPROC))
  | scan rest none | pass _ rest none => some rest
  | look p rest none => some (p :: rest)
  | scan _ (some _) | look _ _ (some _) | pass _ _ (some _) | swap _ _ _ | code _ | back _ => none

omit [DecidableEq Core] in
theorem inScan_of_left {control : Control NPROC Core} {l : List (Fin NPROC)}
    (h : control.left = some l) : control.InScan := by
  cases control <;> trivial

theorem not_runnable_of_not_better {s : State NPROC Core}
    (h : policy.better p none (policy.visit p s) = false) : ¬ s.Runnable p := by
  intro hrun
  have hstate := (visit_spec policy p s).2.2.1 p
  rw [State.Runnable] at hrun
  simp [Policy.better, hstate, hrun] at h

/-- A scan without a candidate starts, goes on, or leaves behind a process that is not RUNNABLE. -/
theorem left_next (m : Machine NPROC Core) {a : Step NPROC Core} {l : List (Fin NPROC)}
    (h : ((m.next policy a).control c).left = some l) :
    l = List.finRange NPROC ∨ (m.control c).left = some l
      ∨ a = .run c ∧ ∃ q, m.control c = .look q l none ∧ ¬ m.base.Runnable q := by
  rcases inScan_next m (inScan_of_left h) with heq | heq | ⟨ha, hscan⟩
  · exact .inr (.inl (by rwa [heq] at h))
  · rw [heq] at h
    exact .inl (Option.some.inj h).symm
  · generalize hk : m.control c = control at hscan
    generalize (m.next policy a).control c = control' at hscan h
    cases hscan with
    | acquire q rest best =>
      cases best with
      | none => exact .inr (.inl h)
      | some b => cases h
    | judge q rest best hbetter => cases best <;> cases h
    | skip q rest best hbetter =>
      cases best with
      | none =>
        obtain rfl : rest = l := Option.some.inj h
        exact .inr (.inr ⟨ha, q, rfl, not_runnable_of_not_better hbetter⟩)
      | some b => cases h
    | swap q rest old => cases h
    | pass q rest best =>
      cases best with
      | none => exact .inr (.inl h)
      | some b => cases h

theorem seenIdle_exec (policy : Policy) (as : List (Step NPROC Core)) (c : Core)
    {l : List (Fin NPROC)}
    (hl : (((machine NPROC Core policy).exec as .boot).control c).left = some l) (q : Fin NPROC)
    (hq : q ∉ l) : SeenIdle policy as c q := by
  induction as using List.reverseRecOn generalizing l with
  | nil => cases hl
  | append_singleton as a ih =>
    have hscan := inScan_of_left hl
    rw [System.exec_append] at hl hscan
    rcases left_next _ hl with rfl | hold | ⟨rfl, r, hlook, hidle⟩
    · exact absurd (List.mem_finRange q) hq
    · exact System.Since.snoc _ (ih hold hq) hscan
    · by_cases hqr : q = r
      · subst hqr
        exact System.since_now _ ⟨⟨l, hlook⟩, hidle⟩ hscan
      · refine System.Since.snoc _ (ih (l := r :: l) ?_ (by simp [hqr, hq])) hscan
        rw [hlook]
        rfl

end Idle

section Dispatch

/-- Only a dispatch makes a process RUNNING. -/
theorem running_of_next {a : Action NPROC Core} {s : State NPROC Core} (hcan : a.can s)
    (h : ((a.next s).procs p).state = .running) :
    (s.procs p).state = .running ∨ ∃ c, a = .dispatch c p := by
  rcases cores_next hcan with ⟨-, hkeep⟩ | ⟨c, q, rfl⟩ | ⟨c, q, -, -, -, hq, hother⟩
  · exact .inl ((hkeep p).1 h)
  · by_cases hqp : q = p
    · exact .inr ⟨c, by rw [hqp]⟩
    · rw [Action.next_procs, if_neg (by simpa [Action.slot] using hqp)] at h
      exact .inl h
  · have hpq : p ≠ q := by
      rintro rfl
      exact hq h
    rw [hother p hpq] at h
    exact .inl h

theorem Inv.dispatched (h : Inv policy held own m) {a : Step NPROC Core} (hcan : m.can a)
    (hbefore : (m.base.procs p).state ≠ .running)
    (hafter : ((m.next policy a).base.procs p).state = .running) :
    ∃ c, a = .run c ∧ m.control c = .scan [] (some p) := by
  obtain ⟨-, hexec⟩ := (inv_next h hcan).1
  rw [← hexec] at hafter
  have hnone : m.actions policy a ≠ [] := by
    intro hnil
    rw [hnil] at hafter
    exact hbefore hafter
  cases a with
  | run c =>
    refine ⟨c, rfl, ?_⟩
    cases hc : m.control c with
    | code k =>
      cases k with
      | act b k =>
        obtain ⟨hallowed, -⟩ := h.act hc
        simp only [Machine.actions, hc, sections_exec] at hafter
        rcases running_of_next hallowed.can hafter with hrun | ⟨c', hd⟩
        · exact absurd hrun hbefore
        · have := hallowed.mine
          rw [hd] at this
          exact this.elim
      | _ => simp [Machine.actions, hc] at hnone
    | look q rest best =>
      simp only [Machine.actions, hc] at hafter
      split_ifs at hafter
      · rw [sections_exec] at hafter
        rcases running_of_next (a := .visit q) trivial hafter with hrun | ⟨c', hd⟩
        · exact absurd hrun hbefore
        · cases hd
      · exact absurd hafter hbefore
    | scan rest best =>
      rcases rest with _ | ⟨q, rest⟩
      · cases best with
        | none => simp [Machine.actions, hc] at hnone
        | some q =>
          obtain ⟨hd, -⟩ := h.dispatch hc
          simp only [Machine.actions, hc, sections_exec] at hafter
          rcases running_of_next hd hafter with hrun | ⟨c', hd⟩
          · exact absurd hrun hbefore
          · rw [Action.dispatch.injEq] at hd
            rw [hd.2]
      · simp [Machine.actions, hc] at hnone
    | _ => simp [Machine.actions, hc] at hnone
  | _ => simp [Machine.actions] at hnone

theorem dispatch_next (policy : Policy) (hc : m.control c = .scan [] (some p)) :
    (m.next policy (.run c)).proc c = some p ∧ (m.next policy (.run c)).locks = m.locks := by
  simp only [Machine.next, hc, Machine.run]
  exact ⟨by simp [Machine.goto], rfl⟩

theorem Inv.quiet (h : Inv policy held own m) (c : Core) : ¬ m.Panics c := by
  have hholder := h.holding.holder c
  have hnoff : ∀ l, l ∈ held c → ¬ m.locks.noff c < 1 := by
    intro l hl
    rw [h.holding.noff, Nat.lt_one_iff, List.length_eq_zero_iff]
    exact List.ne_nil_of_mem hl
  have hgive : ∀ l, l ∈ held c → ¬ (m.locks.holder l ≠ some c ∨ m.locks.noff c < 1) :=
    fun l hl => not_or.2 ⟨not_not.2 ((hholder l).2 hl), hnoff l hl⟩
  unfold Machine.Panics
  cases hc : m.control c with
  | code k =>
    obtain ⟨hk, -⟩ := h.code hc
    cases k with
    | acquire l k => exact fun hl => hk.1 ((hholder l).1 hl)
    | release l k => exact hgive l hk.1
    | sched k =>
      obtain ⟨q, hq, hheld, hstate, -⟩ := h.sched hc
      refine not_not.2 ⟨q, hq, (hholder _).2 (by simp [hheld]), ?_, hstate⟩
      rw [h.holding.noff, hheld]
      rfl
    | panicked => exact hk.elim
    | _ => exact id
  | scan rest best =>
    obtain ⟨-, -, hheld, hrest, -⟩ := h.scanning hc
    rcases rest with _ | ⟨q, rest⟩
    · exact id
    · intro hl
      have hq := (hholder _).1 hl
      rw [hheld] at hq
      exact (List.nodup_cons.1 (List.nodup_middle.1 hrest)).1
        (List.mem_append_left _ (by simpa using hq))
  | look q rest best => exact id
  | swap q rest old =>
    obtain ⟨-, -, hheld, -⟩ := h.scanning hc
    exact hgive _ (by simp [hheld])
  | pass q rest best =>
    obtain ⟨-, -, hheld, -⟩ := h.scanning hc
    exact hgive _ (by simp [hheld])
  | back q => exact id

theorem Inv.running (h : Inv policy held own m) (hp : (m.base.procs p).state = .running) :
    ∃ c, m.proc c = some p := by
  obtain ⟨c, hcpu⟩ := (h.onCores.running p).1 hp
  refine ⟨c, ?_⟩
  have hcore := h.core c
  cases hc : m.control c <;> rw [hc, hcpu] at hcore
  case code k =>
    rcases hcore.2 with hproc | ⟨q, -, hnone, -⟩
    · exact hproc.symm
    · cases hnone
  all_goals exact absurd hcore.2.1 (by simp)

end Dispatch

/-- Under any interleaving of any number of cores, with either scan, no process is on two cores, a
process is dispatched from RUNNABLE with its lock held since it was judged best, a scan ends with
the lock of its candidate and no other, and no core panics. -/
theorem well_scheduled (policy : Policy) (as : List (Step NPROC Core))
    (hv : (machine NPROC Core policy).Valid as .boot) :
    WellScheduled policy as ((machine NPROC Core policy).exec as .boot) := by
  obtain ⟨held, own, h⟩ := inv_exec policy as hv
  refine ⟨fun p c c' => h.proc_unique, fun p => h.running, fun a p hcan hbefore hafter => ?_,
    fun c best hc => ?_, h.quiet⟩
  · obtain ⟨c, rfl, hc⟩ := h.dispatched hcan hbefore hafter
    have hbest : (((machine NPROC Core policy).exec as .boot).control c).best = some p := by
      rw [hc]
      rfl
    obtain ⟨hholder, hrun⟩ := h.best hbest
    obtain ⟨hproc, hlocks⟩ := dispatch_next policy hc
    refine ⟨c, rfl, hrun, heldSince_exec policy as hv c p hbest, hproc, ?_⟩
    exact (congrArg (fun k => k.holder (.proc p)) hlocks).trans hholder
  · obtain ⟨-, -, hheld, -⟩ := h.scanning hc
    refine ⟨fun l => ?_, ?_, ?_⟩
    · rw [h.holding.holder, hheld]
      simp [eq_comm]
    · rw [h.holding.noff, hheld, List.length_map]
    · rintro rfl q
      exact seenIdle_exec policy as c (by rw [hc]; rfl) q (by simp)

/-- Core `true` picks process 0 while core `false` waits for its lock and then finds nothing. A
timer interrupt makes process 0 yield. -/
def twoCores : List (Step 2 Bool) :=
  [.start true, .run true, .run true, .start false, .run true, .run true, .run true, .run true,
    .run true, .run false, .run false, .run false, .run false, .run false, .run false,
    .interrupt true (.timer false false), .run true, .run true, .run true, .run true, .run true,
    .run true, .run true, .run true, .run true]

theorem well_scheduled_twoCores :
    let m := (machine 2 Bool .mlfq).exec twoCores .boot
    ((machine 2 Bool .mlfq).Valid twoCores .boot ∧ (m.base.procs 0).priority = 1
      ∧ m.base.Runnable 0 ∧ (m.control false matches .scan [] none))
    ∧ WellScheduled .mlfq twoCores m :=
  ⟨⟨by decide, by decide, by decide, by decide⟩, well_scheduled .mlfq twoCores (by decide)⟩

end Kernel

end CShellXv6
