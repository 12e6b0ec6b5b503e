import CShellXv6.Kernel.Builds
import CShellXv6.Proofs.OneCpu

/-!
# The three builds as critical sections

Every turn of a build on one CPU is a list of critical sections that can happen one after the other
(`build_refines`), and behind each the CPU is with whom the turn says. The machine of `OneCpu` is
the MLFQ build without the rounds of `kwaitx` (`oneCpu_refines_mlfq`).
-/

namespace CShellXv6

namespace Kernel

variable {NPROC : ℕ}

section Mlfq

theorem exec_mlfqSections : ∀ (as : List (Action NPROC Unit)) (s : State NPROC Unit),
    (mlfqSections NPROC Unit).exec as s = (sections NPROC Unit).exec as s
  | [], _ => rfl
  | a :: as, s => exec_mlfqSections as (a.next s)

theorem mlfq_actions (e : Event NPROC) (c : Cpu NPROC) :
    Build.mlfq.actions e c = e.actions ⟨c.base, c.phase⟩ := by
  obtain ⟨s, φ, cursor⟩ := c
  cases e with
  | clock user => simp [Build.actions, Event.actions, Build.clockintr, clockintr]
  | handle =>
    cases φ with
    | trap p user =>
      by_cases hyield : mlfqTickYields p s = true <;>
        simp [Build.actions, Event.actions, Build.yields, hyield]
    | _ => rfl
  | scan => simp [Build.actions, Event.actions, Build.pick]
  | act a => rfl

theorem mlfq_phase (e : Event NPROC) (c : Cpu NPROC) :
    Build.mlfq.phase e c = e.phase ⟨c.base, c.phase⟩ := by
  obtain ⟨s, φ, cursor⟩ := c
  cases e <;> cases φ <;> rfl

/-- A run of the machine of `OneCpu` is a run of the MLFQ build. -/
theorem oneCpu_refines_mlfq : (oneCpu NPROC).Refines (Build.mlfq.machine NPROC)
    (fun c => ⟨c.base, c.phase, []⟩) (fun e _ => [.event e]) (fun _ => True) where
  keeps _ _ _ _ := trivial
  valid _ _ _ hcan := ⟨⟨hcan, fun _ => .inr rfl⟩, trivial⟩
  exec e c _ _ := by
    simp only [System.exec_cons, System.exec_nil, Build.machine, Build.next, Build.work,
      Build.cursor, mlfq_actions, mlfq_phase, oneCpu, Event.next, exec_mlfqSections, Build.pick,
      ite_self]

end Mlfq

section Sound

/-- The process on the CPU is the one RUNNING. -/
structure Cpu.Wf (c : Cpu NPROC) : Prop where
  cpu : c.base.cpu () = c.phase.proc
  onCores : c.base.OnCores

theorem Cpu.Wf.running {c : Cpu NPROC} (h : c.Wf) {p : Fin NPROC} (hp : c.phase.proc = some p) :
    (c.base.procs p).state = .running :=
  (h.onCores.running p).2 ⟨(), h.cpu.trans hp⟩

/-- The sections can happen, and leave the CPU to `p`. -/
def Leads (as : List (Action NPROC Unit)) (s : State NPROC Unit) (p : Option (Fin NPROC)) : Prop :=
  (sections NPROC Unit).Valid as s ∧ ((sections NPROC Unit).exec as s).cpu () = p

variable {b : Build} {s : State NPROC Unit}

theorem clockintr_sections (b : Build) (s : State NPROC Unit) :
    (sections NPROC Unit).Valid (b.clockintr s) s
      ∧ (sections NPROC Unit).exec (b.clockintr s) s
        = { s with
            ticks := incr s.ticks
            procs := fun p => (s.procs p).clock (b = .mlfq ∧ incr s.ticks % 48 = 0) } := by
  obtain ⟨hv, he⟩ := clockWalks_exec (b = .mlfq ∧ incr s.ticks % 48 = 0) s
  obtain ⟨hv', he'⟩ := valid_sections _ _ hv
  rw [he] at he'
  simpa [Build.clockintr] using And.intro hv' he'

theorem fifoLoop_runnable {procs : Fin NPROC → Proc} : ∀ {l : List (Fin NPROC)}
    {best : Option (Fin NPROC)}, (∀ p ∈ best, (procs p).state = .runnable) →
    ∀ p ∈ fifoLoop procs l best, (procs p).state = .runnable
  | [], _, h => h
  | q :: l, best, h => by
    unfold fifoLoop
    split_ifs with hq
    · exact fifoLoop_runnable (by simpa using hq.1)
    · exact fifoLoop_runnable h

theorem rrLoop_runnable {procs : Fin NPROC → Proc} : ∀ {l : List (Fin NPROC)},
    ∀ p ∈ (rrLoop procs l).1, (procs p).state = .runnable
  | [] => by simp [rrLoop]
  | q :: l => by
    unfold rrLoop
    split_ifs with hq
    · simpa using hq
    · exact rrLoop_runnable

theorem pick_runnable (b : Build) (c : Cpu NPROC) :
    ∀ p ∈ (b.pick c).1, (c.base.procs p).state = .runnable := by
  cases b with
  | rr => exact rrLoop_runnable
  | fifo => exact fifoLoop_runnable (by simp)
  | mlfq => exact fun p hp => ((mlfqScan_picked c.base).runnable p hp).1

theorem leads_clock (b : Build) (c : Cpu NPROC) (hcpu : c.base.cpu () = c.phase.proc)
    (user : Bool) : Leads (b.actions (.clock user) c) c.base (b.phase (.clock user) c).proc := by
  obtain ⟨hv, he⟩ := clockintr_sections b c.base
  refine ⟨hv, ?_⟩
  simp only [Build.actions, he, hcpu]
  obtain ⟨s, φ, cursor⟩ := c
  cases φ <;> rfl

/-- What the one-CPU machine has shown of an event of the MLFQ build. -/
theorem leads_mlfq {e : Event NPROC} {c : Cpu NPROC} (h : e.Sound ⟨c.base, c.phase⟩) :
    Leads (Build.mlfq.actions e c) c.base (Build.mlfq.phase e c).proc := by
  rw [mlfq_actions, mlfq_phase]
  obtain ⟨hv, hcpu⟩ := h
  rw [exec_mlfqSections] at hcpu
  exact ⟨(valid_sections _ _ hv).1, hcpu⟩

theorem leads_handle (b : Build) {p : Fin NPROC} {user : Bool} {cursor : List (Fin NPROC)}
    (hcpu : s.cpu () = some p) (hp : (s.procs p).state = .running) :
    Leads (b.actions .handle ⟨s, .trap p user, cursor⟩) s
      (b.phase .handle ⟨s, .trap p user, cursor⟩).proc := by
  cases b with
  | rr =>
    simp only [Leads, Build.actions, Build.phase, Build.yields, reduceCtorEq, if_false, if_true,
      List.nil_append]
    split_ifs
    · exact ⟨trivial, hcpu⟩
    · refine ⟨⟨⟨hcpu, hp⟩, trivial⟩, ?_⟩
      simp [sections, Action.next, Action.cpu, Phase.proc]
  | fifo =>
    simp only [Leads, Build.actions, Build.phase, Build.yields, reduceCtorEq, if_false,
      Bool.false_eq_true, List.append_nil, ite_self]
    refine ⟨trivial, ?_⟩
    split_ifs <;> exact hcpu
  | mlfq => exact leads_mlfq (sound_handle hcpu hp)

theorem leads_scan (b : Build) {cursor : List (Fin NPROC)} (hcpu : s.cpu () = none) :
    Leads (b.actions .scan ⟨s, .sched, cursor⟩) s (b.phase .scan ⟨s, .sched, cursor⟩).proc := by
  by_cases hb : b = .mlfq
  · subst hb
    exact leads_mlfq (sound_scan hcpu)
  · have hrun := pick_runnable b ⟨s, .sched, cursor⟩
    simp only [Leads, Build.actions, Build.phase, hb, if_false, List.nil_append]
    cases hpick : (b.pick ⟨s, .sched, cursor⟩).1 with
    | none => exact ⟨trivial, hcpu⟩
    | some p =>
      refine ⟨⟨⟨hrun p hpick, hcpu⟩, trivial⟩, ?_⟩
      simp [sections, Action.next, Action.cpu, Phase.proc]

theorem Cpu.Wf.leads_event {c : Cpu NPROC} (h : c.Wf) (b : Build) {e : Event NPROC}
    (hcan : e.canIn c.base c.phase) : Leads (b.actions e c) c.base (b.phase e c).proc := by
  obtain ⟨s, φ, cursor⟩ := c
  cases e with
  | clock user => exact leads_clock b _ h.cpu user
  | handle =>
    cases φ with
    | trap p user => exact leads_handle b h.cpu (h.running rfl)
    | _ => exact hcan.elim
  | scan =>
    cases φ with
    | sched => exact leads_scan b h.cpu
    | _ => exact hcan.elim
  | act a =>
    obtain ⟨hv, hp⟩ := sound_act h.cpu hcan
    exact ⟨(valid_sections _ _ hv).1, hp⟩

/-- What a round that reaps has found. -/
theorem kwaitxLoop_reaped {call : Waitx NPROC} {p child : Fin NPROC} {procs : Fin NPROC → Proc}
    {pid : Int} {stored : List (ℕ × Int)} : ∀ {l : List (Fin NPROC)} {havekids : Bool},
    kwaitxLoop call p procs l havekids = .reaped child pid stored →
      call.parent child = some p ∧ (procs child).state = .zombie ∧ pid = (procs child).pid
        ∧ copyOut call.copyout (call.values (procs child)) = (true, stored)
  | [], havekids, h => by
    unfold kwaitxLoop at h
    split_ifs at h
  | pp :: l, havekids, h => by
    unfold kwaitxLoop at h
    split_ifs at h with hparent hzombie
    · split at h
      · obtain ⟨rfl, rfl, rfl⟩ := Waited.reaped.inj h
        exact ⟨hparent, hzombie, rfl, ‹_›⟩
      · cases h
    · exact kwaitxLoop_reaped h
    · exact kwaitxLoop_reaped h

theorem Cpu.Wf.leads_waitx {c : Cpu NPROC} (h : c.Wf) {p : Fin NPROC} (hp : c.phase = .running p)
    (call : Waitx NPROC) :
    Leads ((kwaitx call p c.base.procs).actions p) c.base c.phase.proc := by
  have hrun := h.running (p := p) (by rw [hp]; rfl)
  have hcpu : c.base.cpu () = some p := by rw [h.cpu, hp]; rfl
  cases hwait : kwaitx call p c.base.procs with
  | reaped child pid stored =>
    obtain ⟨-, hzombie, -, -⟩ := kwaitxLoop_reaped hwait
    exact ⟨⟨.inr hzombie, trivial⟩, h.cpu⟩
  | failed stored => exact ⟨trivial, h.cpu⟩
  | gaveUp => exact ⟨trivial, h.cpu⟩
  | sleeps => exact ⟨⟨⟨hcpu, hrun⟩, trivial⟩, h.cpu⟩

theorem Cpu.Wf.leads {c : Cpu NPROC} (h : c.Wf) (b : Build) {t : Turn NPROC}
    (hcan : t.can c) : Leads (b.work t c) c.base (b.next t c).phase.proc := by
  cases t with
  | event e => exact h.leads_event b hcan.1
  | waitx call =>
    obtain ⟨p, hp⟩ := hcan
    have := h.leads_waitx hp call
    simpa [Build.work, Build.next, hp] using this

theorem build_refines (b : Build) : (b.machine NPROC).Refines (sections NPROC Unit) Cpu.base
    b.work Cpu.Wf where
  keeps t c h hcan := by
    obtain ⟨hv, hcpu⟩ := h.leads b hcan
    refine ⟨hcpu, ?_⟩
    exact (sections NPROC Unit).invariant (fun a s hI hcan => hI.next hcan) h.onCores _ hv
  valid t c h hcan := (h.leads b hcan).1
  exec t c _ _ := rfl

theorem cpu_wf_boot : (Cpu.boot : Cpu NPROC).Wf := by
  have hbase : (Cpu.boot : Cpu NPROC).base = Config.boot.base := (exec_mlfqSections _ _).symm
  refine ⟨?_, ?_⟩
  · rw [hbase]
    exact wf_boot.cpu
  · rw [hbase]
    exact wf_boot.onCores

end Sound

end Kernel

end CShellXv6
