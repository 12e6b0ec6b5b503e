import CShellXv6.Proofs.Builds

/-!
# Scheduling statistics

A process gains at most one tick of run time for each tick that is counted, and none before it
first runs. So its run time fits between its first run and the present, or its exit
(`Proc.Timed`), and what `kwaitx` reports of it adds up (`kwaitx_consistent`).

This needs that no process starts to run between the two halves of `clockintr`, which count the
tick and charge it.
-/

namespace CShellXv6

namespace Kernel

variable {NPROC : ℕ}

/-- The time stamps of a process fit together, as they stand at `ticks`. -/
inductive Proc.Timed (ticks : ℕ) (x : Proc) : Prop
  | unused (hstate : x.state = .unused)
  | fresh (hstate : x.state = .used ∨ x.state = .runnable) (hctime : x.ctime ≤ ticks)
      (hfirst : x.firstRun = -1) (hrtime : x.rtime = 0)
  | ran (hstate : x.state ≠ .zombie) (hctime : x.ctime ≤ x.firstRun)
      (hrtime : x.firstRun + x.rtime ≤ ticks)
  | done (hstate : x.state = .zombie) (hctime : x.ctime ≤ x.firstRun)
      (hrtime : x.firstRun + x.rtime ≤ x.etime) (hetime : x.etime ≤ ticks)

section Step

variable {ticks : ℕ} {x : Proc}

/-- What was on the CPU once is not fresh any more. -/
theorem Proc.Timed.of_ran (h : x.Timed ticks) (hstate : x.state = .sleeping ∨ x.state = .running) :
    x.ctime ≤ x.firstRun ∧ x.firstRun + x.rtime ≤ ticks := by
  cases h with
  | unused h => simp [h] at hstate
  | fresh h => rcases h with h | h <;> simp [h] at hstate
  | ran h hctime hrtime => exact ⟨hctime, hrtime⟩
  | done h => simp [h] at hstate

/-- The same time stamps, in a process that moves between the states of one that has run. -/
theorem Proc.Timed.moved {y : Proc} (h : x.Timed ticks) (hctime : y.ctime = x.ctime)
    (hfirst : y.firstRun = x.firstRun) (hrtime : y.rtime = x.rtime) (hetime : y.etime = x.etime)
    (hstate : y.state = x.state
      ∨ (x.state = .sleeping ∨ x.state = .running) ∧ y.state ≠ .zombie) : y.Timed ticks := by
  rcases hstate with hstate | ⟨hold, hnew⟩
  · cases h with
    | unused h => exact .unused (hstate.trans h)
    | fresh h h1 h2 h3 => exact .fresh (by rwa [hstate]) (by omega) (by omega) (by omega)
    | ran h h1 h2 => exact .ran (by rwa [hstate]) (by omega) (by omega)
    | done h h1 h2 h3 => exact .done (hstate.trans h) (by omega) (by omega) (by omega)
  · obtain ⟨h1, h2⟩ := h.of_ran hold
    exact .ran hnew (by omega) (by omega)

theorem Proc.Timed.ready (h : x.Timed ticks) (hused : x.state = .used) : x.ready.Timed ticks := by
  cases h with
  | unused h => simp [h] at hused
  | fresh _ h1 h2 h3 => exact .fresh (.inr rfl) h1 h2 h3
  | ran _ h1 h2 => exact .ran (by simp [Proc.ready]) h1 h2
  | done h => simp [h] at hused

theorem Proc.Timed.dispatch (h : x.Timed ticks) (hrun : x.state = .runnable)
    (hticks : ticks < 2 ^ 31) : (x.dispatch ticks).Timed ticks := by
  have hasInt : asInt ticks = ticks := if_pos hticks
  cases h with
  | unused h => simp [h] at hrun
  | fresh _ h1 h2 h3 =>
    refine .ran (by simp [Proc.dispatch]) ?_ ?_
    · simpa [Proc.dispatch, h2, hasInt] using h1
    · simp [Proc.dispatch, h2, h3, hasInt]
  | ran _ h1 h2 =>
    have hfirst : ¬ x.firstRun < 0 := by omega
    refine .ran (by simp [Proc.dispatch]) ?_ ?_
    · simpa [Proc.dispatch, hfirst] using h1
    · simpa [Proc.dispatch, hfirst] using h2
  | done h => simp [h] at hrun

theorem Proc.Timed.updateTime (h : x.Timed ticks) (hticks : ticks < 2 ^ 31) :
    x.updateTime.Timed (ticks + 1) := by
  cases h with
  | unused h => exact .unused h
  | fresh h h1 h2 h3 =>
    refine .fresh h (by simp only [Proc.updateTime]; omega) h2 ?_
    rcases h with h | h <;> simp [Proc.updateTime, h, h3]
  | ran h h1 h2 =>
    refine .ran h h1 ?_
    have hincr : incr x.rtime = x.rtime + 1 := Nat.mod_eq_of_lt (by omega)
    simp only [Proc.updateTime, hincr]
    split_ifs <;> push_cast <;> omega
  | done h h1 h2 h3 =>
    refine .done h h1 ?_ (by simp only [Proc.updateTime]; omega)
    simpa [Proc.updateTime, h] using h2

theorem Proc.Timed.clock (h : x.Timed ticks) (hticks : ticks < 2 ^ 31) (boosts : Bool) :
    (x.clock boosts).Timed (ticks + 1) := by
  have hwake : (x.wake (some .ticks)).Timed ticks := by
    refine h.moved rfl rfl rfl rfl ?_
    simp only [Proc.wake]
    split_ifs with hw
    · exact .inr ⟨.inl hw.2, by simp⟩
    · exact .inl rfl
  have htime := hwake.updateTime hticks
  unfold Proc.clock
  split_ifs
  · exact htime.moved rfl rfl rfl rfl (.inl rfl)
  · exact htime

/-- The actions of a turn that is not a timer interrupt. -/
def Action.Quiet : Action NPROC Unit → Prop
  | tick | updateTime _ => False
  | _ => True

theorem timed_body {a : Action NPROC Unit} {s : State NPROC Unit} {p : Fin NPROC}
    (hslot : a.slot = some p) (hcan : a.can s) (hquiet : a.Quiet) (hticks : s.ticks < 2 ^ 31)
    (h : (s.procs p).Timed s.ticks) : (a.body s (s.procs p)).Timed s.ticks := by
  have hdoes := does_body hcan hslot
  generalize a.body s (s.procs p) = y at hdoes
  cases hdoes with
  | alloc => exact .fresh (.inl rfl) le_rfl rfl rfl
  | free => exact .unused rfl
  | ready hx => exact h.ready hx
  | charge | boost | visit => exact h.moved rfl rfl rfl rfl (.inl rfl)
  | dispatch c hx => exact h.dispatch hx hticks
  | exit c status hx =>
    obtain ⟨hctime, hrtime⟩ := h.of_ran (.inr hx)
    exact .done rfl hctime hrtime le_rfl
  | updateTime => exact hquiet.elim
  | move ha hy =>
    refine h.moved (by rw [hy.eq]) (by rw [hy.eq]) (by rw [hy.eq]) (by rw [hy.eq])
      (hy.state.imp id fun hmoved => ⟨hmoved.1, ?_⟩)
    rcases hmoved.2 with hnew | hnew <;> simp [hnew]

end Step

section Runs

/-- All time stamps fit together. -/
def State.Timed (s : State NPROC Unit) : Prop :=
  ∀ p, (s.procs p).Timed s.ticks

theorem timed_exec : ∀ {as : List (Action NPROC Unit)} {s : State NPROC Unit},
    (sections NPROC Unit).Valid as s → (∀ a ∈ as, a.Quiet) → s.ticks < 2 ^ 31 → s.Timed →
      ((sections NPROC Unit).exec as s).Timed ∧ ((sections NPROC Unit).exec as s).ticks = s.ticks
  | [], _, _, _, _, h => ⟨h, rfl⟩
  | a :: as, s, hv, hquiet, hticks, h => by
    simp only [List.mem_cons, forall_eq_or_imp] at hquiet
    have hsame : (a.next s).ticks = s.ticks :=
      Action.next_ticks (by rintro rfl; exact hquiet.1) s
    have hnext : (a.next s).Timed := by
      intro p
      rw [hsame, Action.next_procs]
      split_ifs with hslot
      · exact timed_body hslot hv.1 hquiet.1 hticks (h p)
      · exact h p
    have ih := timed_exec hv.2 hquiet.2 (lt_of_eq_of_lt hsame hticks) hnext
    exact ⟨ih.1, ih.2.trans hsame⟩

theorem quiet_event (b : Build) {e : Event NPROC} {c : Cpu NPROC} (hcan : e.canIn c.base c.phase)
    (hclock : ∀ user, e ≠ .clock user) : ∀ a ∈ b.actions e c, a.Quiet := by
  obtain ⟨s, φ, cursor⟩ := c
  intro a ha
  cases e with
  | clock user => exact absurd rfl (hclock user)
  | handle =>
    cases φ with
    | trap p user =>
      simp only [Build.actions] at ha
      split_ifs at ha <;> simp at ha <;> rcases ha with rfl | rfl <;> trivial
    | _ => exact hcan.elim
  | scan =>
    simp only [Build.actions, List.mem_append, Option.mem_toList,
      Option.map_eq_some_iff] at ha
    rcases ha with ha | ⟨p, -, rfl⟩
    · split_ifs at ha
      · obtain ⟨p, -, rfl⟩ := List.mem_map.1 ha
        trivial
      · cases ha
    · trivial
  | act a' =>
    obtain rfl := List.mem_singleton.1 ha
    obtain ⟨q, hby, -⟩ := act_by hcan
    cases a <;> trivial

theorem quiet_work (b : Build) {t : Turn NPROC} {c : Cpu NPROC} (hcan : t.can c)
    (hclock : ∀ user, t ≠ .event (.clock user)) : ∀ a ∈ b.work t c, a.Quiet := by
  cases t with
  | event e => exact quiet_event b hcan.1 fun user he => hclock user (by rw [he])
  | waitx call =>
    obtain ⟨p, hp⟩ := hcan
    intro a ha
    simp only [Build.work, hp] at ha
    cases hwait : kwaitx call p c.base.procs <;> rw [hwait] at ha <;>
      simp [Waited.actions] at ha <;> subst ha <;> trivial

theorem clocks_snoc (ts : List (Turn NPROC)) (t : Turn NPROC) :
    clocks (ts ++ [t]) = clocks ts + if t matches .event (.clock _) then 1 else 0 := by
  rw [clocks, List.countP_append, ← clocks]
  rcases t with (_ | _ | _ | _) | _ <;> rfl

theorem timed_boot : (Cpu.boot : Cpu NPROC).base.Timed ∧ (Cpu.boot : Cpu NPROC).base.ticks = 0 := by
  refine timed_exec (s := .boot) (valid_sections _ _ userinit_valid).1 ?_ (by simp [State.boot]) ?_
  · intro a ha
    obtain ⟨p, -, ha⟩ := List.mem_flatMap.1 ha
    simp only [List.mem_cons, List.not_mem_nil, or_false] at ha
    rcases ha with rfl | rfl <;> trivial
  · exact fun p => .unused rfl

/-- While fewer than `2 ^ 31` ticks are counted, they are counted right and the time stamps fit. -/
structure Counts (ts : List (Turn NPROC)) (c : Cpu NPROC) : Prop where
  wf : c.Wf
  timed : clocks ts < 2 ^ 31 → c.base.Timed ∧ c.base.ticks = clocks ts

theorem Counts.clock {b : Build} {ts : List (Turn NPROC)} {c : Cpu NPROC} (h : Counts ts c)
    {user : Bool} (hlt : clocks (ts ++ [.event (.clock user)]) < 2 ^ 31) :
    (b.next (.event (.clock user)) c).base.Timed
      ∧ (b.next (.event (.clock user)) c).base.ticks = clocks (ts ++ [.event (.clock user)]) := by
  have hcount := clocks_snoc ts (.event (.clock user))
  simp only [if_true] at hcount
  obtain ⟨htimed, hticks⟩ := h.timed (by omega)
  have hincr : incr c.base.ticks = c.base.ticks + 1 := Nat.mod_eq_of_lt (by omega)
  have hexec : (b.next (.event (.clock user)) c).base = _ := (clockintr_sections b c.base).2
  rw [hexec, hincr]
  exact ⟨fun p => (htimed p).clock (by omega) _, by simp only; omega⟩

theorem Counts.snoc {b : Build} {ts : List (Turn NPROC)} {c : Cpu NPROC} (h : Counts ts c)
    {t : Turn NPROC} (hcan : (b.machine NPROC).can t c) :
    Counts (ts ++ [t]) ((b.machine NPROC).next t c) := by
  refine ⟨(build_refines b).keeps t c h.wf hcan, fun hlt => ?_⟩
  by_cases hclock : ∃ user, t = .event (.clock user)
  · obtain ⟨user, rfl⟩ := hclock
    exact h.clock hlt
  · have hcount : clocks (ts ++ [t]) = clocks ts := by
      rw [clocks_snoc]
      rcases t with (user | _ | _ | _) | _ <;> first | rfl | exact absurd ⟨user, rfl⟩ hclock
    rw [hcount] at hlt ⊢
    obtain ⟨htimed, hticks⟩ := h.timed hlt
    have hquiet := quiet_work b hcan fun user he => hclock ⟨user, he⟩
    obtain ⟨htimed', hsame⟩ := timed_exec ((build_refines b).valid t c h.wf hcan) hquiet
      (by omega) htimed
    exact ⟨htimed', hsame.trans hticks⟩

theorem counts_exec (b : Build) (ts : List (Turn NPROC)) (hv : (b.machine NPROC).Valid ts .boot) :
    Counts ts ((b.machine NPROC).exec ts .boot) :=
  (b.machine NPROC).history ⟨cpu_wf_boot, fun _ => timed_boot⟩
    (fun _ _ _ h hcan => h.snoc hcan) ts hv

end Runs

section Reaping

theorem copyOut_writable {call : Waitx NPROC} (h : call.Writable) (x : Proc) :
    copyOut call.copyout (call.values x) = (true, call.values x) := by
  obtain ⟨⟨h1, h2, h3, h4⟩, c1, c2, c3, c4⟩ := h
  simp [Waitx.values, copyOut, *]

theorem waited_eq {x : Proc} (hctime : x.ctime ≤ x.etime) (hetime : x.etime < 2 ^ 31)
    (hrtime : asInt x.rtime = x.rtime) : x.waited = x.etime - x.ctime - x.rtime := by
  have hturn : x.turn = x.etime - x.ctime := by
    unfold Proc.turn
    omega
  have hlt : x.etime - x.ctime < 2 ^ 31 := by omega
  rw [Proc.waited, hrtime, hturn, asInt, if_pos hlt, Int.ofNat_sub hctime]

/-- What the time stamps of a ZOMBIE come to. -/
theorem Proc.Timed.stats {ticks : ℕ} {x : Proc} (h : x.Timed ticks) (hzombie : x.state = .zombie)
    (hticks : ticks < 2 ^ 31) :
    0 ≤ x.waited ∧ x.stats.rtime + x.stats.wtime = x.etime - x.ctime ∧ 0 ≤ x.stats.restime
      ∧ x.stats.restime ≤ x.stats.wtime := by
  cases h with
  | unused h => simp [h] at hzombie
  | fresh h => rcases h with h | h <;> simp [h] at hzombie
  | ran h => exact absurd hzombie h
  | done _ hctime hrtime hetime =>
    have hr : asInt x.rtime = x.rtime := if_pos (by omega)
    have hc : asInt x.ctime = x.ctime := if_pos (by omega)
    have hwaited := waited_eq (x := x) (by omega) (by omega) hr
    have hfirst : ¬ x.firstRun < 0 := by omega
    have hnonneg : ¬ x.waited < 0 := by
      rw [hwaited]
      omega
    simp only [Proc.stats, hr, hc, if_neg hnonneg, if_neg hfirst]
    rw [hwaited]
    omega

/-- Whatever `kwaitx` stores of a child it reaps behind a run is consistent, in every build. -/
theorem kwaitx_consistent (b : Build) {ts : List (Turn NPROC)}
    (hv : (b.machine NPROC).Valid ts .boot) (hticks : clocks ts < 2 ^ 31) {call : Waitx NPROC}
    (hcall : call.Writable) {p child : Fin NPROC} {pid : Int} {stored : List (ℕ × Int)}
    (hreaped : kwaitx call p ((b.machine NPROC).exec ts .boot).base.procs
      = .reaped child pid stored) :
    Consistent call (((b.machine NPROC).exec ts .boot).base.procs child) stored := by
  obtain ⟨htimed, hclocks⟩ := (counts_exec b ts hv).timed hticks
  obtain ⟨-, hzombie, -, hcopied⟩ := kwaitxLoop_reaped hreaped
  obtain ⟨hwaited, hsum, hrest, hle⟩ := (htimed child).stats hzombie (by omega)
  rw [copyOut_writable hcall] at hcopied
  obtain rfl := (Prod.mk.inj hcopied).2
  exact ⟨⟨_, _, _, rfl, hsum, hrest, hle⟩, hwaited⟩

/-- Under round robin the first process forks the second, which runs for a tick, waits for one and
exits when it has the CPU again. -/
def reapingRun : List (Turn 2) :=
  [.scan, .act (.alloc 1), .act (.ready 1), .clock true, .handle, .scan, .clock true, .handle,
    .scan, .clock true, .handle, .scan, .act (.exit () 1 0), .scan].map .event

def reapingCall : Waitx 2 :=
  ⟨fun q => if q = 1 then some 0 else none, 4, 8, 12, 16, fun _ => true⟩

theorem kwaitx_consistent_reapingRun :
    Consistent reapingCall (((Build.rr.machine 2).exec reapingRun .boot).base.procs 1)
      [(4, 0), (8, 1), (12, 2), (16, 1)] := by
  have hreaped : kwaitx reapingCall 0 ((Build.rr.machine 2).exec reapingRun .boot).base.procs
      = .reaped 1 2 [(4, 0), (8, 1), (12, 2), (16, 1)] := by decide +kernel
  exact kwaitx_consistent .rr (by decide) (by decide) ⟨by decide, by decide⟩ hreaped

end Reaping

end Kernel

end CShellXv6
