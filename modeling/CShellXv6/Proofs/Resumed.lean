import CShellXv6.Proofs.Relay
import CShellXv6.Shell.Resumed

/-!
# What a stop costs a redirected command

Up to the return of `wait_with_relay` the relay keeps its invariant, whatever the machine does. A
return on a stop leaves every target short by what is in the pipe, and as no step behind it puts
anything into a target, by all the command writes from then on.
-/

namespace CShellXv6

namespace Shell

namespace Resumed

variable {child : ℕ} {s : State}

/-- What the command writes in a step. -/
def Step.written : Step → List UInt8
  | command (.childWrite bytes) => bytes
  | _ => []

/-- How it shows in the state whether all was kept up to here. -/
def Fate (well : Prop) (s : State) : Prop :=
  match s.relay.pc with
  | .returned true => s.relay.received ≠ [] ∧
    ∃ rest, (∀ bytes ∈ s.relay.received, bytes ++ rest = s.relay.wrote) ∧ (well ↔ rest = [])
  | .returned false => True
  | _ => well ∧ Relay.Inv s.relay ∧ s.closed = false

theorem fate_stopped {well : Prop} (h : s.Stopped) :
    Fate well s ↔ s.relay.received ≠ [] ∧
      ∃ rest, (∀ bytes ∈ s.relay.received, bytes ++ rest = s.relay.wrote) ∧ (well ↔ rest = []) := by
  have h : s.relay.pc = .returned true := h
  rw [Fate, h]

theorem fate_ended {well : Prop} (h : s.relay.pc = .returned false) : Fate well s := by
  rw [Fate, h]
  trivial

theorem fate_running {well : Prop} (h : ¬ s.Returned) :
    Fate well s ↔ well ∧ Relay.Inv s.relay ∧ s.closed = false := by
  rw [State.Returned, not_or] at h
  unfold Fate
  split
  · exact absurd ‹_› h.1
  · exact absurd ‹_› h.2
  · rfl

section Relay

variable {r : Relay.State}

theorem heard_eq {e : Jobs.Event} {a : Relay.Step} (h : a ∈ heard child e r) :
    a = .exit ∨ a = .stop ∨ a = .continue := by
  unfold heard at h
  split_ifs at h
  · split at h
    all_goals simp_all
  · simp at h

theorem next_heard {e : Jobs.Event} {a : Relay.Step} (h : a ∈ heard child e r) :
    (a.next false r).pc = r.pc ∧ (a.next false r).received = r.received
      ∧ (a.next false r).wrote = r.wrote := by
  rcases heard_eq h with rfl | rfl | rfl <;> exact ⟨rfl, rfl, rfl⟩

theorem loop_not_returned (stopped : Bool) : r.loop.pc ≠ .returned stopped := by
  unfold Relay.State.loop
  split_ifs <;> simp

/-- Only a wait that finds something to report returns. -/
theorem own_not_returned {a : Relay.Step} {stopped : Bool} (hown : own a r = true)
    (hcan : a.can r) (hpc : r.pc ≠ .returned stopped) :
    (a.next false r).pc ≠ .returned stopped := by
  cases a with
  | childWrite _ | childFork | childClose | heirClose => exact hpc
  | exit | stop | «continue» => exact absurd hown (by simp [own])
  | poll ready => cases ready <;> simp [Relay.Step.next]
  | read bytes =>
    simp only [Relay.Step.next, Relay.State.read]
    split_ifs <;> simp
  | write bytes =>
    cases hwrite : r.pc with
    | write target buffer written =>
      simp only [Relay.Step.next, hwrite, Relay.State.put]
      obtain ⟨pc, heq, hcases⟩ := Relay.writeAll_eq _ target buffer (written + bytes)
      rw [heq]
      rcases hcases with rfl | rfl | rfl
      · simp
      · simp
      · exact loop_not_returned stopped
    | _ => simp [Relay.Step.can, hwrite] at hcan
  | waitpid =>
    simp only [own, Bool.and_eq_true, decide_eq_true_eq, Bool.not_eq_true'] at hown
    simp only [Relay.Step.next, Relay.State.waitpid, if_neg hown.1, hown.2]
    exact loop_not_returned stopped
  | interrupted => exact loop_not_returned stopped

end Relay

theorem command_returned {a : Relay.Step} {stopped : Bool} (hown : own a s.relay = true)
    (hcan : a.can s.relay) (hpc : s.relay.pc = .returned stopped) :
    (s.command a).relay.pc = s.relay.pc ∧ (s.command a).relay.received = s.relay.received
      ∧ (s.command a).relay.wrote = s.relay.wrote ++ (Step.command a).written := by
  unfold State.command
  cases a with
  | childWrite bytes => split_ifs <;> exact ⟨rfl, rfl, rfl⟩
  | childFork | childClose | heirClose =>
    split_ifs <;> exact ⟨rfl, rfl, (List.append_nil _).symm⟩
  | exit | stop | «continue» => exact absurd hown (by simp [own])
  | poll _ | read _ | waitpid | interrupted => exact absurd (hcan.1.symm.trans hpc) (by simp)
  | write bytes => simp [Relay.Step.can, hpc] at hcan

/-- Behind the return no step changes what the targets have. -/
theorem next_returned (hreturned : s.Returned) {a : Step} (hcan : a.can child s) :
    (a.next child s).relay.pc = s.relay.pc ∧ (a.next child s).relay.received = s.relay.received
      ∧ (a.next child s).relay.wrote = s.relay.wrote ++ a.written := by
  obtain ⟨stopped, hpc⟩ : ∃ stopped, s.relay.pc = .returned stopped := by
    rcases hreturned with h | h <;> exact ⟨_, h⟩
  cases a with
  | command a => exact command_returned hcan.1 hcan.2 hpc
  | wait status => exact absurd (hcan.1.1.symm.trans hpc) (by simp)
  | entered | destroy => exact ⟨rfl, rfl, (List.append_nil _).symm⟩
  | event e =>
    simp only [Step.next, Step.written, List.append_nil]
    cases hheard : heard child e s.relay with
    | none => exact ⟨rfl, rfl, rfl⟩
    | some a => exact next_heard hheard

theorem kept_stopped (h : s.Stopped) {a : Step} (hcan : a.can child s) :
    Kept a s ↔ a.written = [] := by
  have hpc : s.relay.pc = .returned true := h
  cases a with
  | command a =>
    cases a with
    | childWrite bytes => exact ⟨fun hkept => hkept h, fun hnone _ => hnone⟩
    | _ => exact ⟨fun _ => rfl, fun _ => trivial⟩
  | wait status => exact absurd (hcan.1.1.symm.trans hpc) (by simp)
  | entered | destroy | event e => exact ⟨fun _ => rfl, fun _ => trivial⟩

theorem fate_next_stopped {well : Prop} (hstopped : s.Stopped) (h : Fate well s) {a : Step}
    (hcan : a.can child s) : Fate (well ∧ Kept a s) (a.next child s) := by
  obtain ⟨hpc, hreceived, hwrote⟩ := next_returned (.inl hstopped) hcan
  obtain ⟨htargets, rest, hrest, hwell⟩ := (fate_stopped hstopped).1 h
  refine (fate_stopped (hpc.trans hstopped)).2 ⟨hreceived ▸ htargets, rest ++ a.written, ?_, ?_⟩
  · intro bytes hbytes
    rw [hreceived] at hbytes
    rw [hwrote, ← List.append_assoc, hrest bytes hbytes]
  · rw [hwell, kept_stopped hstopped hcan, List.append_eq_nil_iff]

theorem stopped_of_wait (hcan : (Step.wait .stopped).can child s) :
    s.relay.waitpid false = { s.relay with unreported := false, pc := .returned true } := by
  obtain ⟨-, hpc, -⟩ := hcan
  by_cases hexit : s.relay.life = .exited
  · simp [Relay.State.waitpid, hexit] at hpc
  · by_cases hstop : s.relay.unreported = true
    · simp [Relay.State.waitpid, hexit, hstop]
    · rw [Relay.State.waitpid, if_neg hexit, if_neg hstop] at hpc
      exact absurd hpc (loop_not_returned _)

/-- A return on a stop leaves in the pipe what the targets do not have. -/
theorem fate_wait_stopped {well : Prop} (hwell : well) (hinv : Relay.Inv s.relay)
    (hcan : (Step.wait .stopped).can child s) :
    Fate (well ∧ Kept (.wait .stopped) s) ((Step.wait .stopped).next child s) := by
  have hnext := stopped_of_wait hcan
  have hstopped : ((Step.wait .stopped).next child s).Stopped := by
    rw [State.Stopped, Step.next, hnext]
  refine (fate_stopped hstopped).2 ?_
  simp only [Step.next, hnext]
  refine ⟨hinv.targets, s.relay.pipe, fun bytes hbytes => ?_, by simp [Kept, hwell]⟩
  obtain ⟨i, hi⟩ := List.getElem?_of_mem hbytes
  have hconserved := hinv.conserved i bytes hi
  simpa [hcan.1.1, Relay.Pc.owed] using hconserved

theorem fate_next_running {well : Prop} (hrunning : ¬ s.Returned) (h : Fate well s) {a : Step}
    (hcan : a.can child s) : Fate (well ∧ Kept a s) (a.next child s) := by
  obtain ⟨hwell, hinv, hopen⟩ := (fate_running hrunning).1 h
  cases a with
  | command a =>
    have hnext : (Step.command a).next child s = { s with relay := a.next false s.relay } := by
      simp only [Step.next, State.command, hopen]
      rfl
    have hkept : Kept (.command a) s := by
      cases a with
      | childWrite bytes => exact fun hstopped => absurd (.inl hstopped) hrunning
      | _ => trivial
    rw [hnext]
    refine (fate_running ?_).2 ⟨⟨hwell, hkept⟩, Relay.inv_next hinv hcan.2, hopen⟩
    rintro (hpc | hpc)
    · exact own_not_returned hcan.1 hcan.2 (fun h => hrunning (.inl h)) hpc
    · exact own_not_returned hcan.1 hcan.2 (fun h => hrunning (.inr h)) hpc
  | wait status =>
    cases status with
    | stopped => exact fate_wait_stopped hwell hinv hcan
    | ended normal => exact fate_ended hcan.2.1
    | «continued» => exact fate_ended hcan.2.1
  | entered | destroy => exact absurd hcan.1 hrunning
  | event e =>
    simp only [Step.next]
    cases hheard : heard child e s.relay with
    | none => exact (fate_running hrunning).2 ⟨⟨hwell, trivial⟩, hinv, hopen⟩
    | some a =>
      have hpc := (next_heard hheard).1
      refine (fate_running ?_).2
        ⟨⟨hwell, trivial⟩, Relay.inv_next hinv (hcan.2.2 a hheard), hopen⟩
      exact fun h => hrunning (h.imp hpc.symm.trans hpc.symm.trans)

theorem fate_next {well : Prop} (h : Fate well s) {a : Step} (hcan : a.can child s) :
    Fate (well ∧ Kept a s) (a.next child s) := by
  by_cases hreturned : s.Returned
  · rcases hreturned with hstopped | hended
    · exact fate_next_stopped hstopped h hcan
    · exact fate_ended ((next_returned (.inr hended) hcan).1.trans hended)
  · exact fate_next_running hreturned h hcan

theorem fate_exec {output : OutputRedirect} {m : Jobs.Machine}
    (hstart : Relay.Inv (Relay.start output)) (as : List Step)
    (hv : (redirectedJob child).Valid as (start output m)) :
    Fate ((redirectedJob child).Each Kept as (start output m))
      ((redirectedJob child).exec as (start output m)) := by
  induction as using List.reverseRecOn with
  | nil =>
    refine (fate_running ?_).2 ⟨trivial, hstart, rfl⟩
    rintro (hpc | hpc) <;> exact loop_not_returned _ hpc
  | append_singleton as a ih =>
    rw [System.valid_append] at hv
    rw [System.each_snoc, System.exec_append]
    exact fate_next (ih hv.1) hv.2.1

end Resumed

open Resumed

/-- Behind a return on a stop every target has all the command wrote just when the stop left nothing
in the pipe and the command has written nothing since. -/
theorem stopped_delivered_iff (env : Env) (tokens : List Token) (w : World)
    {output : OutputRedirect} {w' : World}
    (hprepared : prepareOutput env tokens outputRedirectInit w = (0, output, w'))
    (hfiles : output.files ≠ []) (child : ℕ) (m : Jobs.Machine) (as : List Resumed.Step)
    (hv : (redirectedJob child).Valid as (start output m))
    (hstopped : ((redirectedJob child).exec as (start output m)).Stopped) :
    ((redirectedJob child).exec as (start output m)).relay.Delivered
      ↔ (redirectedJob child).Each Kept as (start output m) := by
  have hstart := Relay.inv_start hfiles (prepareOutput_readFd hprepared hfiles)
  obtain ⟨htargets, rest, hrest, hwell⟩ := (fate_stopped hstopped).1 (fate_exec hstart as hv)
  rw [hwell]
  constructor
  · intro hdelivered
    obtain ⟨bytes, hmem⟩ := List.exists_mem_of_ne_nil _ htargets
    have hsum := hrest bytes hmem
    rw [hdelivered bytes hmem] at hsum
    exact List.append_right_eq_self.1 hsum
  · intro hnone bytes hmem
    rw [← hrest bytes hmem, hnone, List.append_nil]

/-- The shell has just forked the command. -/
def forkedMachine (tokens : List Token) : Jobs.Machine :=
  jobControl.exec [.shell (.command tokens), .shell (.fork 7), .shell .forked] .boot

/-- What was written before the first stop is in the file by then; the command is stopped and
resumed twice. -/
def quietRun : List Resumed.Step :=
  [.command (.childWrite [104]), .command (.poll true), .command (.read 1), .command (.write 1),
    .command (.write 1), .command (.poll false), .event (.stop 7), .wait .stopped, .entered,
    .destroy,
    .event (.shell (.resume 1 true false)), .event (.cont 7), .event (.stop 7),
    .event (.shell (.waitGroup 7 .stopped)), .event (.shell (.resume 1 true false)),
    .event (.cont 7), .event (.exit 7 true), .event (.shell (.waitGroup 7 (.ended true))),
    .event (.shell .groupDone)]

theorem stopped_delivered_iff_quiet :
    let output : OutputRedirect := ⟨[3, 4], 5, 6⟩
    let s := start output (forkedMachine relayedTokens)
    (redirectedJob 7).Valid quietRun s ∧ ((redirectedJob 7).exec quietRun s).Stopped
      ∧ (((redirectedJob 7).exec quietRun s).relay.Delivered
        ↔ (redirectedJob 7).Each Kept quietRun s) :=
  ⟨by decide, by decide, stopped_delivered_iff .succeeding relayedTokens .standard rfl (by decide)
    7 (forkedMachine relayedTokens) quietRun (by decide) (by decide)⟩

/-- The command writes a byte that is still in the pipe when it is stopped, and one when it has been
resumed; then it exits and is waited for. -/
theorem stopped_loses_output :
    let output : OutputRedirect := ⟨[3, 4], 5, 6⟩
    let as : List Resumed.Step :=
      [.command (.poll false), .command (.childWrite [104]), .event (.stop 7), .wait .stopped,
        .entered, .destroy, .event (.shell (.resume 1 true false)), .event (.cont 7),
        .command (.childWrite [105]), .event (.exit 7 true),
        .event (.shell (.waitGroup 7 (.ended true))), .event (.shell .groupDone)]
    let s := (redirectedJob 7).exec as (start output (forkedMachine relayedTokens))
    (redirectedJob 7).Valid as (start output (forkedMachine relayedTokens)) ∧ s.Stopped
      ∧ s.machine.shell.jobs.map (·.pid) = [7] ∧ s.machine.procs = []
      ∧ s.relay.wrote = [104, 105] ∧ s.relay.received = [[], []] ∧ ¬ s.relay.Delivered := by
  decide

end Shell

end CShellXv6
