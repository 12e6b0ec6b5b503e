import CShellXv6.Proofs.StrictPriority
import Mathlib.Data.Fintype.Card

/-!
# No starvation behind a boost

Say `p` is RUNNABLE behind a boost in tick `T` and has its place from an earlier tick. A process is
late if since then it was charged or created, or if it was not queued there. What is late gets no
place before tick `T` any more (`late_place`), and what is not late is in queue 0 with its slice
unused (`early_position`), so its first charge makes it late. The scan prefers `p` to whatever is
late, so each process is charged once at most before `p` is dispatched.
-/

namespace CShellXv6

namespace Kernel

variable {NPROC : ℕ}

section Charges

variable {Core : Type*} {d : Fin NPROC}

theorem mem_charged (as : List (Action NPROC Core)) :
    d ∈ charged as ↔ ∃ c, .charge c d ∈ as := by
  simp only [charged, List.mem_filterMap]
  constructor
  · rintro ⟨a, ha, heq⟩
    cases a <;> simp only [reduceCtorEq, Option.some.injEq] at heq
    exact ⟨_, heq ▸ ha⟩
  · rintro ⟨c, hc⟩
    exact ⟨_, hc, rfl⟩

theorem charges_append (as bs : List (Action NPROC Core)) :
    charges d (as ++ bs) = bs.foldl (chargesStep d) (charges d as) :=
  List.foldl_append

theorem foldl_chargesStep_zero : ∀ {as : List (Action NPROC Core)}, d ∉ charged as →
    as.foldl (chargesStep d) 0 = 0
  | [], _ => rfl
  | a :: as, h => by
    simp only [mem_charged, List.mem_cons, not_exists, not_or] at h
    have ha : chargesStep d 0 a = 0 := by
      cases a <;> simp only [chargesStep, ite_self]
      case charge c q => exact if_neg fun hq => (h c).1 (by rw [hq])
    rw [List.foldl_cons, ha]
    exact foldl_chargesStep_zero (by simpa [mem_charged] using fun c => (h c).2)

theorem charges_boosts (as : List (Action NPROC Core)) :
    charges d (as ++ (List.finRange NPROC).map .boost) = 0 := by
  obtain ⟨l₁, l₂, hl⟩ := List.append_of_mem (List.mem_finRange d)
  rw [hl, List.map_append, List.map_cons, ← List.append_assoc, charges_append, List.foldl_cons,
    chargesStep, if_pos rfl]
  refine foldl_chargesStep_zero ?_
  simp [charged]

theorem charged_append (as bs : List (Action NPROC Core)) :
    charged (as ++ bs) = charged as ++ charged bs :=
  List.filterMap_append

end Charges

section Late

variable {pre : List (Action NPROC Unit)} {d : Fin NPROC}

/-- Since `pre` the process was charged or created, or it was not queued there. -/
def Late (pre as : List (Action NPROC Unit)) (d : Fin NPROC) : Prop :=
  d ∈ charged as ∨ .alloc d ∈ as ∨ ((after pre).procs d).queued = false

/-- What is in use and was not charged since its last boost is in queue 0, its slice unused. -/
theorem early_position (as : List (Action NPROC Unit))
    (hv : (mlfqSections NPROC Unit).Valid (pre ++ as) .boot) (hzero : charges d pre = 0)
    (hd : d ∉ charged as) (hused : ((after (pre ++ as)).procs d).state ≠ .unused) :
    ((after (pre ++ as)).procs d).priority = 0 ∧ ((after (pre ++ as)).procs d).sliceUsed = 0 := by
  have hplace := placed_after _ hv d hused
  rw [charges_append, hzero, foldl_chargesStep_zero hd, position_zero, Prod.mk.injEq] at hplace
  exact hplace

theorem charge_zero {x : Proc} (h : x.priority = 0 ∧ x.sliceUsed = 0) (ticks : ℕ) :
    x.charge ticks = some ({ x with priority := 1, sliceUsed := 0, enqTime := ticks }, true) := by
  simp [Proc.charge, h.1, h.2, sliceOf, mlfqSlice]

/-- An action keeps the flag of a process, clears it, or gives the process a new place. -/
theorem queued_next (a : Action NPROC Unit) (s : State NPROC Unit) (d : Fin NPROC) :
    ((a.next s).procs d).queued = (s.procs d).queued ∨ ((a.next s).procs d).queued = false
      ∨ ((a.next s).procs d).enqTime = s.ticks := by
  rw [Action.next_procs]
  split_ifs with hslot
  · cases a
    case alloc => exact .inr (.inl rfl)
    case charge c q =>
      obtain ⟨_, _, _, -, heq⟩ := charged_eq (s.procs d) s.ticks
      exact .inl (by simp [Action.body, heq])
    case visit q =>
      by_cases h : (s.procs d).state = .runnable ∧ (s.procs d).queued = false
      · exact .inr (.inr (by simp [Action.body, Proc.visit, h]))
      · exact .inl (by simp [Action.body, Proc.visit, h])
    all_goals exact .inl rfl
  · exact .inl rfl

/-- What is late has no place before the tick of the boost. -/
theorem late_place (hzero : charges d pre = 0) (as : List (Action NPROC Unit))
    (hv : (mlfqSections NPROC Unit).Valid (pre ++ as) .boot)
    (hticks : (pre ++ as).count .tick < 2 ^ 32) (hlate : Late pre as d) :
    ((after (pre ++ as)).procs d).queued = false
      ∨ (after pre).ticks ≤ ((after (pre ++ as)).procs d).enqTime := by
  induction as using List.reverseRecOn with
  | nil => simpa [Late, charged] using Or.inl hlate
  | append_singleton as a ih =>
    rw [← List.append_assoc] at hv hticks ⊢
    have hvalid := valid_split hv
    have hmono := ticks_le_of_append hvalid.1 (count_append_left hticks)
    have hnext : after (pre ++ as ++ [a]) = a.next (after (pre ++ as)) := after_append _ _
    rw [hnext]
    by_cases hold : Late pre as d
    · have hkeep := ih hvalid.1 (count_append_left hticks) hold
      have hstamp := (stamps_next hvalid.2.1.1 d).1
      rcases queued_next a (after (pre ++ as)) d with hq | hq | hq
      · rw [hq]
        rcases hkeep with hkeep | hkeep
        · exact .inl hkeep
        · exact .inr (by omega)
      · exact .inl hq
      · exact .inr (by omega)
    · have hcases : a = .alloc d ∨ a = .charge () d := by
        simp only [Late, not_or] at hold
        rcases hlate with h | h | h
        · rw [charged_append, List.mem_append, mem_charged [a]] at h
          obtain ⟨_, h⟩ := h.resolve_left hold.1
          exact .inr (List.mem_singleton.1 h).symm
        · simp only [List.mem_append, List.mem_singleton] at h
          exact .inl (h.resolve_left hold.2.1).symm
        · exact absurd h hold.2.2
      rcases hcases with rfl | rfl
      · exact .inl (by simp [Action.next_procs, Action.slot, Action.body, Proc.alloc])
      · have hrun := hvalid.2.1.1.2
        have hzero := early_position _ hvalid.1 hzero (fun h => hold (.inl h)) (by simp [hrun])
        refine .inr ?_
        simpa [Action.next_procs, Action.slot, Action.body, charge_zero hzero] using hmono

end Late

section Waiting

variable {pre : List (Action NPROC Unit)} {p : Fin NPROC}

/-- A process that is not dispatched stays RUNNABLE. -/
theorem runnable_throughout : ∀ {as : List (Action NPROC Unit)} {s : State NPROC Unit},
    (mlfqSections NPROC Unit).Valid as s → .dispatch () p ∉ as → s.Runnable p →
      (mlfqSections NPROC Unit).Throughout (·.Runnable p) as s
  | [], _, _, _, h => h
  | a :: as, s, hv, hno, h => by
    rw [List.mem_cons, not_or] at hno
    refine ⟨h, runnable_throughout hv.2 hno.2 ?_⟩
    rcases runnable_next hv.1.1 h with ⟨c, hc⟩ | ⟨hrun, -⟩
    · exact absurd hc.symm hno.1
    · exact hrun

/-- Until it is dispatched, `p` waits in queue 0 at the place it had. -/
theorem waits_exec (as : List (Action NPROC Unit))
    (hv : (mlfqSections NPROC Unit).Valid (pre ++ as) .boot) (hzero : charges p pre = 0)
    (hno : .dispatch () p ∉ as) (hrun : (after pre).Runnable p)
    (hqueued : ((after pre).procs p).queued = true) :
    (after (pre ++ as)).Runnable p ∧ ((after (pre ++ as)).procs p).queued = true
      ∧ ((after (pre ++ as)).procs p).enqTime = ((after pre).procs p).enqTime
      ∧ ((after (pre ++ as)).procs p).priority = 0 := by
  have hvalid := valid_split hv
  have hthrough := runnable_throughout hvalid.2 hno hrun
  obtain ⟨-, -, hplace⟩ := place_exec hvalid.2 hthrough
  have hprio := priority_exec hvalid.2 (hthrough.mono _ fun _ => .inr)
  have hpre : ((after pre).procs p).priority = 0 := by
    have := early_position [] (by simpa using hvalid.1) hzero (by simp [charged])
    simp only [List.append_nil] at this
    exact (this (by simp [show ((after pre).procs p).state = _ from hrun])).1
  rw [← after_append] at hplace hprio
  refine ⟨?_, (hplace hqueued).1, (hplace hqueued).2, ?_⟩
  · rw [after_append]
    exact hthrough.last
  · rw [hprio, hpre, ite_self]

/-- What holds at the boost. -/
structure FromBoost (pre : List (Action NPROC Unit)) (p : Fin NPROC) : Prop where
  zero : ∀ d, charges d pre = 0
  runnable : (after pre).Runnable p
  queued : ((after pre).procs p).queued = true
  place : ((after pre).procs p).enqTime < (after pre).ticks

/-- What holds from then on, while `run` has the CPU and `p` waits. -/
structure Serving (pre as : List (Action NPROC Unit)) (run : Option (Fin NPROC)) (p : Fin NPROC) :
    Prop where
  early : ∀ d ∈ run, ¬ Late pre as d
  once : (p :: charged as).Nodup
  old : ∀ d u v, as = u ++ .dispatch () d :: v → ¬ Late pre u d

theorem Late.mono {as bs : List (Action NPROC Unit)} (hsub : as ⊆ bs) {d : Fin NPROC}
    (h : Late pre as d) : Late pre bs d := by
  rcases h with h | h | h
  · obtain ⟨c, hc⟩ := (mem_charged as).1 h
    exact .inl ((mem_charged bs).2 ⟨c, hsub hc⟩)
  · exact .inr (.inl (hsub h))
  · exact .inr (.inr h)

theorem late_append {as bs : List (Action NPROC Unit)} {d : Fin NPROC}
    (h : Late pre (as ++ bs) d) : Late pre as d ∨ d ∈ charged bs ∨ .alloc d ∈ bs := by
  rcases h with h | h | h
  · rw [charged_append, List.mem_append] at h
    exact h.elim (fun h => .inl (.inl h)) fun h => .inr (.inl h)
  · rw [List.mem_append] at h
    exact h.elim (fun h => .inl (.inr (.inl h))) fun h => .inr (.inr h)
  · exact .inl (.inr (.inr h))

theorem Serving.append {as bs : List (Action NPROC Unit)} {run run' : Option (Fin NPROC)}
    (h : Serving pre as run p) (hearly : ∀ d ∈ run', ¬ Late pre (as ++ bs) d)
    (honce : (p :: charged (as ++ bs)).Nodup)
    (hold : ∀ d, .dispatch () d ∈ bs → ¬ Late pre (as ++ bs) d) :
    Serving pre (as ++ bs) run' p := by
  refine ⟨hearly, honce, fun d u v hsplit hlate => ?_⟩
  rcases List.append_eq_append_iff.1 hsplit with ⟨x, rfl, hx⟩ | ⟨x, rfl, hx⟩
  · refine hold d (by simp [hx]) (hlate.mono ?_)
    rw [hx]
    exact fun a ha => by simp_all [List.mem_append]; tauto
  · rcases x with _ | ⟨b, x⟩
    · simp only [List.nil_append] at hx
      refine hold d (by simp [← hx]) (hlate.mono ?_)
      simp
    · rw [List.cons_append, List.cons.injEq] at hx
      rw [← hx.1] at h
      exact h.old d u x rfl hlate

theorem Serving.quiet {as bs : List (Action NPROC Unit)} {run run' : Option (Fin NPROC)}
    (h : Serving pre as run p) (hcharged : charged bs = []) (hdispatch : ∀ d, .dispatch () d ∉ bs)
    (hrun : ∀ d ∈ run', d ∈ run ∧ .alloc d ∉ bs) : Serving pre (as ++ bs) run' p := by
  refine h.append (fun d hd hlate => ?_) ?_ fun d hd => absurd hd (hdispatch d)
  · rcases late_append hlate with hlate | hlate | hlate
    · exact h.early d (hrun d hd).1 hlate
    · simp [hcharged] at hlate
    · exact (hrun d hd).2 hlate
  · rw [charged_append, hcharged, List.append_nil]
    exact h.once

end Waiting

section Events

variable {pre as : List (Action NPROC Unit)} {p : Fin NPROC}

/-- A scan prefers `p` to whatever is late. -/
theorem picked_early (hb : FromBoost pre p)
    (hv : (mlfqSections NPROC Unit).Valid (pre ++ as) .boot)
    (hticks : (pre ++ as).count .tick < 2 ^ 32) (hno : .dispatch () p ∉ as) {b : Fin NPROC}
    (hpick : mlfqScan (after (pre ++ as)) = some b) : ¬ Late pre as b := by
  intro hlate
  obtain ⟨hrun, hqueued, henq, hprio⟩ := waits_exec as hv (hb.zero p) hno hb.runnable hb.queued
  obtain ⟨hbrun, -⟩ := (mlfqScan_picked _).runnable b hpick
  have hfirst := (mlfqScan_picked _).first b hpick p (List.mem_finRange p) hrun
  have hbrun : ((after (pre ++ as)).procs b).state = .runnable := hbrun
  have hnonneg := (slice_after _ hv b (by simp [hbrun])).1
  have hmono := ticks_le_of_append hv hticks
  have hplace := late_place (hb.zero b) as hv hticks hlate
  have hbt := hb.place
  simp only [NoLater, Proc.visit, hbrun, hqueued, henq, hprio] at hfirst
  cases hbq : ((after (pre ++ as)).procs b).queued <;> simp [hbq] at hfirst hplace <;> omega

theorem clockintr_quiet (s : State NPROC Unit) :
    charged (clockintr s) = [] ∧ ∀ d, .dispatch () d ∉ clockintr s ∧ .alloc d ∉ clockintr s := by
  unfold clockintr
  split_ifs <;> simp [charged]

theorem Action.By.quiet {a : Action NPROC Unit} {q : Fin NPROC} (h : a.By q) :
    charged [a] = [] ∧ ∀ d, .dispatch () d ∉ [a] := by
  cases a <;> first | exact h.elim | exact ⟨rfl, by simp⟩

/-- The first charge to a process ends its slice, so it yields. -/
theorem serving_charge {s : State NPROC Unit} {q : Fin NPROC} (hb : FromBoost pre p)
    (hbase : after (pre ++ as) = s) (hv : (mlfqSections NPROC Unit).Valid (pre ++ as) .boot)
    (hno : .dispatch () p ∉ as) (h : Serving pre as (some q) p)
    (hrun : (s.procs q).state = .running) :
    mlfqTickYields q s = true ∧ Serving pre (as ++ [.charge () q, .yield () q]) none p := by
  subst hbase
  have hnew : q ∉ charged as := fun hq => h.early q rfl (.inl hq)
  have hzero := early_position as hv (hb.zero q) hnew (by simp [hrun])
  have hqp : q ≠ p := by
    rintro rfl
    have hwait := (waits_exec as hv (hb.zero q) hno hb.runnable hb.queued).1
    rw [State.Runnable, hrun] at hwait
    cases hwait
  refine ⟨by simp [mlfqTickYields, charge_zero hzero], h.append (by simp) ?_ (by simp)⟩
  have hcharged : charged (as ++ [.charge () q, .yield () q]) = charged as ++ [q] :=
    charged_append _ _
  have honce := List.nodup_cons.1 h.once
  rw [hcharged, List.nodup_cons]
  refine ⟨by simp [honce.1, Ne.symm hqp], honce.2.append (List.nodup_singleton q) ?_⟩
  rwa [List.disjoint_singleton]

theorem serving_scan {s : State NPROC Unit} (hb : FromBoost pre p)
    (hbase : after (pre ++ as) = s) (hv : (mlfqSections NPROC Unit).Valid (pre ++ as) .boot)
    (hticks : (pre ++ as).count .tick < 2 ^ 32) (hno : .dispatch () p ∉ as)
    (h : Serving pre as none p) :
    Serving pre (as ++ ((List.finRange NPROC).map .visit
      ++ ((mlfqScan s).map (.dispatch ())).toList)) (mlfqScan s) p := by
  subst hbase
  have hearly : ∀ b ∈ mlfqScan (after (pre ++ as)), ¬ Late pre (as ++ ((List.finRange NPROC).map
      .visit ++ ((mlfqScan (after (pre ++ as))).map (.dispatch ())).toList)) b := by
    intro b hb' hlate
    rcases late_append hlate with hlate | hlate | hlate
    · exact picked_early hb hv hticks hno hb' hlate
    · simp [mem_charged] at hlate
    · simp at hlate
  refine h.append hearly ?_ fun d hd => hearly d ?_
  · have : charged ((List.finRange NPROC).map .visit
        ++ ((mlfqScan (after (pre ++ as))).map (.dispatch ())).toList) = [] := by
      cases mlfqScan (after (pre ++ as)) <;> simp [charged]
    rw [charged_append, this, List.append_nil]
    exact h.once
  · simpa using hd

theorem serving_next {c : Config NPROC} (hb : FromBoost pre p) (hwf : c.Wf)
    (hbase : after (pre ++ as) = c.base)
    (hv : (mlfqSections NPROC Unit).Valid (pre ++ as) .boot)
    (hticks : (pre ++ as).count .tick < 2 ^ 32) {e : Event NPROC} (hcan : (oneCpu NPROC).can e c)
    (hno : .dispatch () p ∉ as) (h : Serving pre as c.phase.proc p) :
    Serving pre (as ++ e.actions c) (e.next c).phase.proc p := by
  obtain ⟨s, φ⟩ := c
  cases e with
  | clock user =>
    obtain ⟨hcharged, hquiet⟩ := clockintr_quiet s
    refine h.quiet hcharged (fun d => (hquiet d).1) fun d hd => ⟨?_, (hquiet d).2⟩
    cases φ <;> exact hd
  | handle =>
    cases φ with
    | trap q user =>
      by_cases hkilled : user = true ∧ (s.procs q).killed = true
      · simp only [Event.next, Event.actions, Event.phase, if_pos hkilled]
        exact h.quiet rfl (by simp) (by simp [Phase.proc])
      · obtain ⟨hyields, hserv⟩ := serving_charge hb hbase hv hno h ((hwf.running q).2 rfl)
        simp only [Event.next, Event.actions, Event.phase, if_neg hkilled, if_pos hyields]
        exact hserv
    | _ => exact hcan.elim
  | scan =>
    cases φ with
    | sched =>
      have hserv := serving_scan hb hbase hv hticks hno h
      have hproc : (Event.scan.next ⟨s, .sched⟩).phase.proc = mlfqScan s := by
        simp only [Event.next, Event.phase]
        cases mlfqScan s <;> rfl
      rw [hproc]
      exact hserv
    | _ => exact hcan.elim
  | act a =>
    have hproc : ∀ d, ((Event.act a).next ⟨s, φ⟩).phase.proc = some d → φ.proc = some d := by
      intro d hd
      simp only [Event.next, Event.phase] at hd
      split_ifs at hd
      · simp [Phase.proc] at hd
      · exact hd
    obtain ⟨q, hby, ha⟩ := act_by hcan
    refine h.quiet hby.quiet.1 hby.quiet.2 fun d hd => ⟨hproc d hd, fun hd' => ?_⟩
    obtain rfl := List.mem_singleton.1 hd'
    have hrun := (hwf.running d).2 (hproc d hd)
    rw [show (s.procs d).state = .unused from ha] at hrun
    cases hrun

theorem sectionsOf_append (es : List (Event NPROC)) (e : Event NPROC) (c : Config NPROC) :
    sectionsOf (es ++ [e]) c = sectionsOf es c ++ e.actions ((oneCpu NPROC).exec es c) := by
  unfold sectionsOf
  rw [System.trace_append, System.trace, System.trace, List.append_nil]

theorem serving_exec {c : Config NPROC} (hb : FromBoost pre p)
    (hpre : (mlfqSections NPROC Unit).Valid pre .boot) (hbase : after pre = c.base) (hwf : c.Wf)
    (es : List (Event NPROC)) (hv : (oneCpu NPROC).Valid es c)
    (hticks : (pre ++ sectionsOf es c).count .tick < 2 ^ 32)
    (hno : .dispatch () p ∉ sectionsOf es c) :
    Serving pre (sectionsOf es c) ((oneCpu NPROC).exec es c).phase.proc p := by
  induction es using List.reverseRecOn with
  | nil =>
    refine ⟨fun d hd hlate => ?_, by simp [sectionsOf, System.trace, charged], ?_⟩
    · have hrun := (hwf.running d).2 hd
      have hqueued : ((after pre).procs d).queued = false := by
        simpa [Late, charged, sectionsOf, System.trace] using hlate
      have := (unqueued_after pre hpre d (by simp [hbase, hrun]) hqueued).1
      simp [hbase, hrun] at this
    · simp [sectionsOf, System.trace]
  | append_singleton es e ih =>
    rw [System.valid_append] at hv
    rw [sectionsOf_append, ← List.append_assoc] at hticks
    rw [sectionsOf_append, List.mem_append, not_or] at hno
    have hserv := ih hv.1 (count_append_left hticks) hno.1
    obtain ⟨hvalid, hafter⟩ := sections_after hpre hbase hwf es hv.1
    rw [sectionsOf_append, System.exec_append]
    exact serving_next hb (wf_exec hwf es hv.1) hafter hvalid (count_append_left hticks) hv.2.1
      hno.1 hserv

end Events

section Boost

theorem userinit_count : (userinit : List (Action NPROC Unit)).count .tick = 0 := by
  unfold userinit
  rcases List.finRange NPROC with _ | ⟨p, l⟩ <;> simp

/-- A clock interrupt that boosts leaves nobody with a charge. -/
theorem charges_clock {c : Config NPROC} {user : Bool}
    (hboost : ((Event.clock user).next c).base.ticks % 48 = 0) (as : List (Action NPROC Unit))
    (d : Fin NPROC) : charges d (as ++ (Event.clock user).actions c) = 0 := by
  have hticks : incr c.base.ticks % 48 = 0 := by
    simpa [Event.next, Event.actions, (clockintr_exec c.base).2] using hboost
  simp only [Event.actions, clockintr, if_pos hticks]
  rw [← List.append_assoc]
  exact charges_boosts _

theorem fromBoost {es : List (Event NPROC)} {user : Bool} {p : Fin NPROC}
    (hv : (oneCpu NPROC).Valid (es ++ [.clock user]) .boot)
    (h : Boosted ((oneCpu NPROC).exec (es ++ [.clock user]) .boot) p) :
    FromBoost (userinit ++ sectionsOf (es ++ [.clock user]) .boot) p := by
  obtain ⟨-, hbase⟩ := oneCpu_after _ hv
  obtain ⟨hboost, hrun, hqueued, hplace⟩ := h
  refine ⟨fun d => ?_, by rwa [hbase], by rwa [hbase], by rwa [hbase]⟩
  rw [System.exec_append] at hboost
  rw [sectionsOf_append, ← List.append_assoc]
  exact charges_clock hboost _ d

end Boost

/-- Say `p` is RUNNABLE behind a boost and has its place from an earlier tick. Until it is
dispatched it stays RUNNABLE, no process is charged twice, none is dispatched that was created or
first queued since the boost, and fewer than `NPROC` ticks are charged. -/
theorem no_starvation (es₀ es : List (Event NPROC)) (user : Bool) (p : Fin NPROC)
    (hv : (oneCpu NPROC).Valid (es₀ ++ [.clock user] ++ es) .boot)
    (hticks : (sectionsOf (es₀ ++ [.clock user] ++ es) .boot).count .tick < 2 ^ 32)
    (hboost : Boosted ((oneCpu NPROC).exec (es₀ ++ [.clock user]) .boot) p)
    (hwait : .dispatch () p
      ∉ sectionsOf es ((oneCpu NPROC).exec (es₀ ++ [.clock user]) .boot)) :
    let c := (oneCpu NPROC).exec (es₀ ++ [.clock user]) .boot
    ((oneCpu NPROC).exec es c).base.Runnable p ∧ Served c (sectionsOf es c) := by
  intro c
  rw [System.valid_append] at hv
  have hb := fromBoost hv.1 hboost
  have hwf : c.Wf := wf_exec wf_boot _ hv.1
  obtain ⟨hpre, hbase⟩ := oneCpu_after _ hv.1
  obtain ⟨hvalid, hafter⟩ := sections_after hpre hbase hwf es hv.2
  have hcount : (userinit ++ sectionsOf (es₀ ++ [Event.clock user]) .boot
      ++ sectionsOf es c).count Action.tick < 2 ^ 32 := by
    rw [sectionsOf, System.trace_append] at hticks
    rw [List.append_assoc, List.count_append, userinit_count, Nat.zero_add]
    exact hticks
  have hserv := serving_exec hb hpre hbase hwf es hv.2 hcount hwait
  obtain ⟨hp, honce⟩ := List.nodup_cons.1 hserv.once
  refine ⟨?_, honce, fun d u v hsplit => ?_, ?_⟩
  · rw [← hafter]
    exact (waits_exec _ hvalid (hb.zero p) hwait hb.runnable hb.queued).1
  · have hlate := hserv.old d u v hsplit
    simp only [Late, not_or, hbase, Bool.not_eq_false] at hlate
    exact hlate.2
  · have := List.Nodup.length_le_card hserv.once
    rwa [List.length_cons, Fintype.card_fin] at this

section Idle

variable {s : State NPROC Unit}

/-- While nothing runs and nothing sleeps on `ticks`, a clock interrupt without a boost only counts
the tick. -/
theorem clock_idle
    (hidle : ∀ p, (s.procs p).chan ≠ some .ticks ∧ (s.procs p).state ≠ .running)
    (hboost : (s.ticks + 1) % 48 ≠ 0) (hwrap : s.ticks + 1 < 2 ^ 32) (user : Bool) :
    (Event.clock user).next ⟨s, .sched⟩ = ⟨{ s with ticks := s.ticks + 1 }, .sched⟩ := by
  have hincr : incr s.ticks = s.ticks + 1 := Nat.mod_eq_of_lt hwrap
  have hclock : ∀ p, (s.procs p).clock false = s.procs p := by
    intro p
    simp [Proc.clock, Proc.wake, Proc.updateTime, hidle p]
  simp only [Event.next, Event.actions, Event.phase, (clockintr_exec s).2, hincr, hboost,
    decide_false, hclock]

theorem clocks_idle (user : Bool) : ∀ (n : ℕ) (s : State NPROC Unit),
    (∀ p, (s.procs p).chan ≠ some .ticks ∧ (s.procs p).state ≠ .running) →
    s.ticks % 48 + n < 48 → s.ticks + n < 2 ^ 32 →
      (oneCpu NPROC).Valid (List.replicate n (.clock user)) ⟨s, .sched⟩
        ∧ (oneCpu NPROC).exec (List.replicate n (.clock user)) ⟨s, .sched⟩
          = ⟨{ s with ticks := s.ticks + n }, .sched⟩
  | 0, _, _, _, _ => ⟨trivial, rfl⟩
  | n + 1, s, hidle, hboost, hwrap => by
    have hnext : (oneCpu NPROC).next (.clock user) ⟨s, .sched⟩
        = ⟨{ s with ticks := s.ticks + 1 }, .sched⟩ :=
      clock_idle hidle (by omega) (by omega) user
    obtain ⟨hv, he⟩ := clocks_idle user n { s with ticks := s.ticks + 1 } hidle
      (by simp only; omega) (by simp only; omega)
    rw [List.replicate_succ, System.valid_cons, System.exec_cons, hnext, he]
    refine ⟨⟨trivial, hv⟩, ?_⟩
    simp only [Nat.add_assoc, Nat.add_comm 1 n]

end Idle

/-- Process 0 sleeps in tick 0, and process 1 uses up its slice in tick 1. -/
def napRun : List (Event 2) :=
  [.scan, .act (.alloc 1), .act (.ready 1), .act (.sleepPrepare () 0 (.other 0)),
    .act (.sleep () 0), .scan, .clock true, .handle]

def boostedRun : List (Event 2) :=
  napRun ++ List.replicate 46 (.clock true)

/-- Process 0 is woken, dispatched before process 1, and charged. -/
def wokenRun : List (Event 2) :=
  [.act (.wake 0 (some (.other 0))), .scan, .clock true, .handle]

theorem boostedRun_exec : (oneCpu 2).Valid boostedRun .boot
    ∧ (oneCpu 2).exec boostedRun .boot
      = ⟨{ ((oneCpu 2).exec napRun .boot).base with ticks := 47 }, .sched⟩ := by
  have hnap : (oneCpu 2).exec napRun .boot = ⟨((oneCpu 2).exec napRun .boot).base, .sched⟩ := by
    rw [show Phase.sched = ((oneCpu 2).exec napRun .boot).phase by decide]
  obtain ⟨hv, he⟩ := clocks_idle true 46 ((oneCpu 2).exec napRun .boot).base (by decide)
    (by decide) (by decide)
  rw [← hnap] at hv he
  rw [boostedRun, System.valid_append, System.exec_append, he]
  exact ⟨⟨by decide, hv⟩, rfl⟩

theorem no_starvation_boostedRun :
    let c := (oneCpu 2).exec (boostedRun ++ [.clock true]) .boot
    ((oneCpu 2).Valid (boostedRun ++ [.clock true] ++ wokenRun) .boot
      ∧ (sectionsOf (boostedRun ++ [.clock true] ++ wokenRun) .boot).count .tick < 2 ^ 32
      ∧ Boosted c 1 ∧ .dispatch () 1 ∉ sectionsOf wokenRun c
      ∧ charged (sectionsOf wokenRun c) = [0])
    ∧ ((oneCpu 2).exec wokenRun c).base.Runnable 1 ∧ Served c (sectionsOf wokenRun c) := by
  obtain ⟨hv, he⟩ := boostedRun_exec
  have hvalid : (oneCpu 2).Valid (boostedRun ++ [.clock true] ++ wokenRun) .boot := by
    rw [List.append_assoc, System.valid_append, he]
    exact ⟨hv, by decide⟩
  have hcount : (sectionsOf (boostedRun ++ [.clock true] ++ wokenRun) .boot).count .tick
      < 2 ^ 32 := by
    rw [List.append_assoc, sectionsOf, System.trace_append, he, List.count_append]
    decide +kernel
  have hboost : Boosted ((oneCpu 2).exec (boostedRun ++ [.clock true]) .boot) 1 := by
    rw [System.exec_append, he]
    exact ⟨by decide, by decide, by decide, by decide⟩
  have hwait : .dispatch () 1
      ∉ sectionsOf wokenRun ((oneCpu 2).exec (boostedRun ++ [.clock true]) .boot) := by
    rw [System.exec_append, he]
    decide
  have hcharged : charged (sectionsOf wokenRun ((oneCpu 2).exec (boostedRun ++ [.clock true])
      .boot)) = [0] := by
    rw [System.exec_append, he]
    decide
  exact ⟨⟨hvalid, hcount, hboost, hwait, hcharged⟩,
    no_starvation boostedRun wokenRun true 1 hvalid hcount hboost hwait⟩

end Kernel

end CShellXv6
