import CShellXv6.Kernel.OneCpu
import CShellXv6.Lib.Selection
import CShellXv6.Proofs.Queues

/-!
# Scans and traps on one CPU

A scan queues what is RUNNABLE and picks the first of it (`mlfqScan_picked`). Every event of the
one-CPU machine is a list of critical sections that can happen one after the other
(`oneCpu_refines`), so what holds of the sections in any order holds here too.
-/

namespace CShellXv6

namespace Kernel

variable {NPROC : ℕ}

section Walk

variable {Core : Type*} [DecidableEq Core]

/-- The actions of the walks over the process table. -/
def Action.Walks : Action NPROC Core → Prop
  | wake _ _ | updateTime _ | boost _ | visit _ => True
  | _ => False

omit [DecidableEq Core] in
theorem Action.Walks.can {a : Action NPROC Core} (ha : a.Walks) (s : State NPROC Core) :
    a.mlfqCan s := by
  cases a <;> first | exact ⟨trivial, trivial⟩ | exact ha.elim

theorem Action.Walks.next {a : Action NPROC Core} (ha : a.Walks) (s : State NPROC Core) :
    a.next s = { s with procs := (a.next s).procs } := by
  cases a <;> first | rfl | exact ha.elim

omit [DecidableEq Core] in
theorem Action.Walks.body {a : Action NPROC Core} (ha : a.Walks) {s t : State NPROC Core}
    (h : t.ticks = s.ticks) (x : Proc) : a.body t x = a.body s x := by
  cases a <;> first | rfl | exact ha.elim | simp [Action.body, h]

/-- A walk does to each process it visits what its action does to it alone. -/
theorem walk_exec {g : Fin NPROC → Action NPROC Core} (hslot : ∀ q, (g q).slot = some q)
    (hwalks : ∀ q, (g q).Walks) (l : List (Fin NPROC)) (hl : l.Nodup) (s : State NPROC Core) :
    (mlfqSections NPROC Core).Valid (l.map g) s
      ∧ (mlfqSections NPROC Core).exec (l.map g) s
        = { s with
            procs := fun p => if p ∈ l then (g p).body s (s.procs p) else s.procs p } := by
  induction l generalizing s with
  | nil => simp
  | cons q l ih =>
    rw [List.nodup_cons] at hl
    obtain ⟨hv, he⟩ := ih hl.2 ((g q).next s)
    have hnext := (hwalks q).next s
    refine ⟨⟨(hwalks q).can s, hv⟩, he.trans ?_⟩
    rw [hnext]
    congr 1
    funext p
    have hbody := (hwalks p).body (s := s) (t := { s with procs := ((g q).next s).procs }) rfl
    rw [hbody, Action.next_procs, hslot]
    by_cases hpq : q = p
    · subst hpq
      simp [hl.1]
    · simp [hpq, Ne.symm hpq]

theorem walk_all {g : Fin NPROC → Action NPROC Core} (hslot : ∀ q, (g q).slot = some q)
    (hwalks : ∀ q, (g q).Walks) (s : State NPROC Core) :
    (mlfqSections NPROC Core).Valid ((List.finRange NPROC).map g) s
      ∧ (mlfqSections NPROC Core).exec ((List.finRange NPROC).map g) s
        = { s with procs := fun p => (g p).body s (s.procs p) } := by
  simpa using walk_exec hslot hwalks _ (List.nodup_finRange NPROC) s

/-- What `clockintr` does to a process. -/
def Proc.clock (boosts : Bool) (x : Proc) : Proc :=
  if boosts then ((x.wake (some .ticks)).updateTime).boost else (x.wake (some .ticks)).updateTime

/-- The walks of `clockintr`, with or without a boost. -/
theorem clockWalks_exec (boosts : Bool) (s : State NPROC Unit) :
    (mlfqSections NPROC Unit).Valid
        (.tick :: (List.finRange NPROC).map (.wake · (some .ticks))
          ++ (List.finRange NPROC).map .updateTime
          ++ if boosts then (List.finRange NPROC).map .boost else []) s
      ∧ (mlfqSections NPROC Unit).exec
          (.tick :: (List.finRange NPROC).map (.wake · (some .ticks))
            ++ (List.finRange NPROC).map .updateTime
            ++ if boosts then (List.finRange NPROC).map .boost else []) s
        = { s with ticks := incr s.ticks, procs := fun p => (s.procs p).clock boosts } := by
  have hwake := walk_all (g := (.wake · (some .ticks))) (fun _ => rfl) (fun _ => trivial)
    (Action.tick.next s)
  have htime := fun t : State NPROC Unit =>
    walk_all (g := .updateTime) (fun _ => rfl) (fun _ => trivial) t
  have hboost := fun t : State NPROC Unit =>
    walk_all (g := .boost) (fun _ => rfl) (fun _ => trivial) t
  rw [System.exec_append, System.valid_append, List.cons_append, System.exec_cons,
    System.exec_append, System.valid_cons, System.valid_append]
  refine ⟨⟨⟨⟨trivial, trivial⟩, hwake.1, (htime _).1⟩, ?_⟩, ?_⟩
  · split_ifs
    · exact (hboost _).1
    · trivial
  · rw [show (mlfqSections NPROC Unit).next .tick s = Action.tick.next s from rfl, hwake.2,
      (htime _).2]
    cases boosts
    · simp [Proc.clock, Action.body, Action.next, Action.slot, Action.cpu]
    · rw [if_pos rfl, (hboost _).2]
      simp [Proc.clock, Action.body, Action.next, Action.slot, Action.cpu]

theorem clockintr_exec (s : State NPROC Unit) :
    (mlfqSections NPROC Unit).Valid (clockintr s) s
      ∧ (mlfqSections NPROC Unit).exec (clockintr s) s
        = { s with
            ticks := incr s.ticks
            procs := fun p => (s.procs p).clock (incr s.ticks % 48 = 0) } := by
  simpa [clockintr] using clockWalks_exec (incr s.ticks % 48 = 0) s

end Walk

section Scan

/-- The scan does not prefer `y` to `x`. -/
def NoLater (x y : Proc) : Prop :=
  x.priority < y.priority ∨ x.priority = y.priority ∧ x.enqTime ≤ y.enqTime

/-- Where a process is in the queues. -/
def Proc.queueKey (x : Proc) : Int ×ₗ ℕ :=
  toLex (x.priority, x.enqTime)

theorem noLater_iff (x y : Proc) : NoLater x y ↔ x.queueKey ≤ y.queueKey := by
  rw [Proc.queueKey, Proc.queueKey, Prod.Lex.le_iff]
  rfl

theorem mlfqBefore_eq (x y : Proc) : mlfqBefore x y = decide (x.queueKey < y.queueKey) := by
  rw [Bool.eq_iff_iff, decide_eq_true_eq, Proc.queueKey, Proc.queueKey, Prod.Lex.lt_iff]
  simp [mlfqBefore]

theorem visit_queued (x : Proc) (ticks : ℕ) (h : x.state = .runnable) :
    (x.visit ticks).queued = true := by
  cases hq : x.queued <;> simp [Proc.visit, h, hq]

/-- What the scan has picked so far is RUNNABLE, queued, and before all it has seen. -/
structure Picked (seen : List (Fin NPROC)) (procs : Fin NPROC → Proc) (best : Option (Fin NPROC)) :
    Prop where
  runnable : ∀ b ∈ best, (procs b).state = .runnable ∧ (procs b).queued = true
  first : ∀ b ∈ best, ∀ p ∈ seen, (procs p).state = .runnable → NoLater (procs b) (procs p)
  none : best = none → ∀ p ∈ seen, (procs p).state ≠ .runnable

theorem visit_visit (x : Proc) (ticks : ℕ) : (x.visit ticks).visit ticks = x.visit ticks := by
  simp only [Proc.visit]
  split_ifs <;> simp_all

theorem visit_state (x : Proc) (ticks : ℕ) : (x.visit ticks).state = x.state :=
  rfl

/-- The scan selects by the places the processes have once they are queued. -/
theorem scanLoop_select (procs : Fin NPROC → Proc) (ticks : ℕ) : ∀ (l : List (Fin NPROC))
    (best : Option (Fin NPROC)) (s : State NPROC Unit), s.ticks = ticks →
    (∀ q, (s.procs q).visit ticks = (procs q).visit ticks) →
    (∀ b ∈ best, s.procs b = (procs b).visit ticks) →
      (scanLoop l best s).1 = Selection.select (fun p => (procs p).state = .runnable)
        (fun p => ((procs p).visit ticks).queueKey) l best
  | [], _, _, _, _, _ => rfl
  | p :: l, best, s, hticks, hprocs, hbest => by
    have hnext : ∀ q, ((Action.visit p).next s).procs q
        = if p = q then (procs q).visit ticks else s.procs q := by
      intro q
      rw [Action.next_procs]
      by_cases hq : p = q
      · subst hq
        simp [Action.slot, Action.body, hticks, hprocs]
      · simp [Action.slot, hq]
    have hvisited : ∀ q, (((Action.visit p).next s).procs q).visit ticks
        = (procs q).visit ticks := by
      intro q
      rw [hnext]
      split_ifs
      · exact visit_visit _ _
      · exact hprocs q
    have hkept : ∀ b ∈ best, ((Action.visit p).next s).procs b = (procs b).visit ticks := by
      intro b hb
      rw [hnext, hbest b hb, ite_self]
    have hself := hnext p
    rw [if_pos rfl] at hself
    have hkeep : ((((Action.visit p).next s).procs p).state = .runnable
          ∧ best.all fun b => mlfqBefore (((Action.visit p).next s).procs p)
            (((Action.visit p).next s).procs b))
        ↔ (procs p).state = .runnable ∧ best.all fun b =>
          decide (((procs p).visit ticks).queueKey < ((procs b).visit ticks).queueKey) := by
      rw [hself, visit_state]
      cases best with
      | none => rfl
      | some b => rw [Option.all_some, Option.all_some, hkept b rfl, mlfqBefore_eq]
    have ih := scanLoop_select procs ticks l
    rw [scanLoop, Selection.select_cons, Selection.keep]
    by_cases hif : (procs p).state = .runnable ∧ best.all fun b =>
        decide (((procs p).visit ticks).queueKey < ((procs b).visit ticks).queueKey)
    · rw [if_pos hif, if_pos (hkeep.2 hif)]
      exact ih _ _ hticks hvisited (by simpa using hself)
    · rw [if_neg hif, if_neg (mt hkeep.1 hif)]
      exact ih _ _ hticks hvisited hkept

theorem mlfqScan_select (s : State NPROC Unit) :
    mlfqScan s = Selection.select (fun p => (s.procs p).state = .runnable)
      (fun p => ((s.procs p).visit s.ticks).queueKey) (List.finRange NPROC) none :=
  scanLoop_select s.procs s.ticks _ _ _ rfl (fun _ => rfl) (by simp)

/-- The scan queues what is RUNNABLE and picks the first of it, if there is any. -/
theorem mlfqScan_picked (s : State NPROC Unit) :
    Picked (List.finRange NPROC) (fun p => (s.procs p).visit s.ticks) (mlfqScan s) := by
  have h := Selection.select_least (fun p => (s.procs p).state = .runnable)
    (fun p => ((s.procs p).visit s.ticks).queueKey) (List.pairwise_lt_finRange NPROC)
  rw [← mlfqScan_select] at h
  refine ⟨fun b hb => ?_, fun b hb p hp hrun => ?_, fun hn p hp => h.none hn p hp⟩
  · exact ⟨(h.mem b hb).2, visit_queued _ _ (h.mem b hb).2⟩
  · exact (noLater_iff _ _).2 (Prod.Lex.le_iff'.1 (h.least b hb p hp hrun)).1

theorem visits_exec (s : State NPROC Unit) :
    (mlfqSections NPROC Unit).exec ((List.finRange NPROC).map .visit) s
      = { s with procs := fun p => (s.procs p).visit s.ticks } :=
  (walk_all (g := .visit) (fun _ => rfl) (fun _ => trivial) s).2

/-- What a scan does to a process. -/
theorem scan_exec (s : State NPROC Unit) (φ : Phase NPROC) :
    (Event.scan.next ⟨s, φ⟩).base.ticks = s.ticks
      ∧ ∀ p, (Event.scan.next ⟨s, φ⟩).base.procs p
        = if mlfqScan s = some p then ((s.procs p).visit s.ticks).dispatch s.ticks
          else (s.procs p).visit s.ticks := by
  simp only [Event.next, Event.actions, System.exec_append, visits_exec]
  cases mlfqScan s with
  | none => exact ⟨rfl, fun p => by simp⟩
  | some b =>
    refine ⟨rfl, fun p => ?_⟩
    simp only [Option.map_some, Option.toList_some, System.exec_cons, System.exec_nil]
    rw [show (mlfqSections NPROC Unit).next = Action.next from rfl, Action.next_procs]
    simp [Action.slot, Action.body]

end Scan

section Refinement

/-- The process on the CPU. -/
def Phase.proc : Phase NPROC → Option (Fin NPROC)
  | .sched => none
  | .running p | .trap p _ | .exiting p => some p

structure Config.Wf (c : Config NPROC) : Prop where
  cpu : c.base.cpu () = c.phase.proc
  onCores : c.base.OnCores

theorem Config.Wf.running {c : Config NPROC} (h : c.Wf) (p : Fin NPROC) :
    (c.base.procs p).state = .running ↔ c.phase.proc = some p := by
  rw [h.onCores.running, ← h.cpu]
  exact ⟨fun ⟨_, hc⟩ => hc, fun hc => ⟨(), hc⟩⟩

theorem wf_boot : (Config.boot : Config NPROC).Wf := by
  refine ⟨?_, onCores_exec onCores_boot _ userinit_valid⟩
  simp only [Config.boot, userinit]
  rcases (List.finRange NPROC) with _ | ⟨p, l⟩ <;> rfl

theorem charge_keeps (p : Fin NPROC) (s : State NPROC Unit) :
    ((Action.charge () p).next s).cpu = s.cpu
      ∧ (((Action.charge () p).next s).procs p).state = (s.procs p).state := by
  obtain ⟨_, _, _, -, heq⟩ := charged_eq (s.procs p) s.ticks
  exact ⟨rfl, by simp [Action.next_procs, Action.slot, Action.body, heq]⟩

/-- The sections of the event can happen, and leave the CPU to whom the event gives it. -/
def Event.Sound (e : Event NPROC) (c : Config NPROC) : Prop :=
  (mlfqSections NPROC Unit).Valid (e.actions c) c.base
    ∧ ((mlfqSections NPROC Unit).exec (e.actions c) c.base).cpu () = (e.phase c).proc

variable {s : State NPROC Unit} {φ : Phase NPROC}

theorem sound_clock (hcpu : s.cpu () = φ.proc) (user : Bool) :
    (Event.clock user).Sound ⟨s, φ⟩ := by
  obtain ⟨hv, he⟩ := clockintr_exec s
  refine ⟨hv, ?_⟩
  simp only [Event.actions, he, hcpu]
  cases φ <;> rfl

theorem sound_handle {p : Fin NPROC} {user : Bool} (hcpu : s.cpu () = some p)
    (hp : (s.procs p).state = .running) : Event.handle.Sound ⟨s, .trap p user⟩ := by
  obtain ⟨hc, hs⟩ := charge_keeps p s
  have hcharge : (Action.charge () p).mlfqCan s := ⟨⟨hcpu, hp⟩, trivial⟩
  have hyield : (Action.yield () p).mlfqCan ((Action.charge () p).next s) :=
    ⟨⟨by rw [hc, hcpu], hs.trans hp⟩, trivial⟩
  simp only [Event.Sound, Event.actions, Event.phase]
  split_ifs
  · exact ⟨trivial, hcpu⟩
  · refine ⟨⟨hcharge, hyield, trivial⟩, ?_⟩
    simp [mlfqSections, Action.next, Action.cpu, Phase.proc]
  · exact ⟨⟨hcharge, trivial⟩, by rw [System.exec_cons, System.exec_nil]; exact hcpu⟩

theorem sound_scan (hcpu : s.cpu () = none) : Event.scan.Sound ⟨s, .sched⟩ := by
  obtain ⟨hv, he⟩ := walk_all (g := .visit) (fun _ => rfl) (fun _ => trivial) s
  have hpick := (mlfqScan_picked s).runnable
  simp only [Event.Sound, Event.actions, Event.phase]
  cases hbest : mlfqScan s with
  | none =>
    rw [Option.map_none, Option.toList_none, List.append_nil]
    exact ⟨hv, by rw [he, hcpu]; rfl⟩
  | some b =>
    obtain ⟨hrun, hqueued⟩ := hpick b hbest
    rw [Option.map_some, Option.toList_some, System.valid_append, System.exec_append, he]
    refine ⟨⟨hv, ⟨⟨hrun, hcpu⟩, hqueued⟩, trivial⟩, ?_⟩
    simp [mlfqSections, Action.next, Action.cpu, Phase.proc]

/-- What happens outside of the scheduler and the traps is done by a process, or like one. -/
theorem act_by {a : Action NPROC Unit} (h : (Event.act a).canIn s φ) :
    ∃ q, a.By q ∧ a.can s := by
  cases φ with
  | running q => exact ⟨q, h⟩
  | exiting q => exact ⟨q, h⟩
  | trap q user => exact h.elim
  | sched =>
    cases a with
    | wake q chan => exact ⟨q, trivial, trivial⟩
    | _ => simp [Event.canIn] at h

theorem sound_act (hcpu : s.cpu () = φ.proc) {a : Action NPROC Unit}
    (hcan : (Event.act a).canIn s φ) : (Event.act a).Sound ⟨s, φ⟩ := by
  obtain ⟨q, hby, ha⟩ := act_by hcan
  refine ⟨⟨⟨ha, ?_⟩, trivial⟩, ?_⟩
  · cases a <;> trivial
  · simp only [Event.actions, Event.phase, System.exec_cons, System.exec_nil, mlfqSections]
    split_ifs with hnone
    · exact hnone
    · rcases cores_next ha with ⟨hkeep, -⟩ | ⟨c, r, rfl⟩ | ⟨c, r, -, -, hleft, -⟩
      · rw [hkeep, hcpu]
      · exact hby.elim
      · simp [hleft] at hnone

theorem Config.Wf.sound {c : Config NPROC} (h : c.Wf) {e : Event NPROC}
    (hcan : (oneCpu NPROC).can e c) : e.Sound c := by
  obtain ⟨s, φ⟩ := c
  cases e with
  | clock user => exact sound_clock h.cpu user
  | handle =>
    cases φ with
    | trap p user => exact sound_handle h.cpu ((h.running p).2 rfl)
    | _ => exact hcan.elim
  | scan =>
    cases φ with
    | sched => exact sound_scan h.cpu
    | _ => exact hcan.elim
  | act a => exact sound_act h.cpu hcan

/-- Every event of the one-CPU machine is critical sections of the MLFQ build. -/
theorem oneCpu_refines : (oneCpu NPROC).Refines (mlfqSections NPROC Unit) Config.base
    Event.actions Config.Wf where
  keeps e c h hcan := by
    obtain ⟨hv, hcpu⟩ := h.sound hcan
    exact ⟨hcpu, onCores_exec h.onCores _ hv⟩
  valid e c h hcan := (h.sound hcan).1
  exec e c _ _ := rfl

theorem wf_exec {c : Config NPROC} (h : c.Wf) (es : List (Event NPROC))
    (hv : (oneCpu NPROC).Valid es c) : ((oneCpu NPROC).exec es c).Wf :=
  (oneCpu NPROC).invariant (fun e c hc hcan => oneCpu_refines.keeps e c hc hcan) h es hv

end Refinement

end Kernel

end CShellXv6
