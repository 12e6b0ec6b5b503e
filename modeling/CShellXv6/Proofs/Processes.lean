import CShellXv6.Proofs.Jobs
import CShellXv6.Shell.Processes
import Mathlib.Data.List.Nodup

/-!
# What a step does to the processes

A process stays with its pid and its parent, and in its group unless it moves; it is gone only when
its parent has waited for it. A new one has a pid that no process and no group had.
-/

namespace CShellXv6

namespace Shell

namespace Jobs

variable {e : Event} {m : Machine}

theorem any_eq_true {pid : ℕ} {f : Proc → Bool} :
    m.any pid f = true ↔ ∃ p ∈ m.procs, p.pid = pid ∧ f p = true := by
  simp [Machine.any]

theorem unused_eq_true {pid : ℕ} :
    m.unused pid = true ↔ ∀ p ∈ m.procs, p.pid ≠ pid ∧ p.pgid ≠ pid := by
  simp [Machine.unused]

theorem joinable_eq_true {pid pgid : ℕ} :
    m.joinable pid pgid = true ↔ pgid = pid ∨ ∃ p ∈ m.procs, p.pgid = pgid := by
  simp [Machine.joinable]

theorem killFails_eq_true {pgid : ℕ} :
    m.killFails pgid = true ↔ ∀ p ∈ m.procs, p.pgid = pgid → p.mayKill = false := by
  simp [Machine.killFails, imp_iff_not_or]

theorem Machine.Gone.killFails {pgid : ℕ} (h : m.Gone pgid) : m.killFails pgid = true :=
  killFails_eq_true.2 fun p hp hpgid => absurd hpgid (h p hp)

/-- What a process is behind a step. -/
structure Stays (e : Event) (p p' : Proc) : Prop where
  id : p'.id = p.id
  pid : p'.pid = p.pid
  child : p'.child = p.child
  pgid : p'.pgid = p.pgid ∨ e = .move p.pid p'.pgid

theorem Stays.refl (e : Event) (p : Proc) : Stays e p p :=
  ⟨rfl, rfl, rfl, .inl rfl⟩

/-- How the step makes the new process `p`. -/
inductive Makes (m : Machine) (p : Proc) : Event → Prop where
  | spawn (mayKill : Bool) (hchild : p.child = false) (hgroup : m.joinable p.pid p.pgid = true) :
      Makes m p (.spawn p.pid p.pgid mayKill)
  | fork (hchild : p.child = true) (hgroup : p.pgid = m.shell.phase.leader.getD p.pid) :
      Makes m p (.shell (.fork p.pid))
  | snoop (hchild : p.child = true) (hgroup : p.pgid = p.pid) :
      Makes m p (.shell (.snoop p.pid))

structure Newborn (e : Event) (m : Machine) (p : Proc) : Prop where
  id : p.id = m.births
  unused : ∀ q ∈ m.procs, q.pid ≠ p.pid ∧ q.pgid ≠ p.pid
  makes : Makes m p e

theorem call_fork {a : Step} {pid pgid : ℕ} (h : m.call a = .fork pid pgid) :
    a = .fork pid ∧ pgid = m.shell.phase.leader.getD pid ∨ a = .snoop pid ∧ pgid = pid := by
  unfold Machine.call at h
  split at h <;> simp only [Syscall.fork.injEq, reduceCtorEq] at h
  · obtain ⟨rfl, rfl⟩ := h
    exact .inl ⟨rfl, rfl⟩
  · obtain ⟨rfl, rfl⟩ := h
    exact .inr ⟨rfl, rfl⟩

theorem grants_of_can {a : Step} (hcan : (Event.shell a).can m = true) :
    jobTable.can a m.shell ∧ m.grants a = true :=
  Bool.and_eq_true_iff.1 hcan

theorem stays_update {pid : ℕ} {f : Proc → Proc} (hf : ∀ p, p.pid = pid → Stays e p (f p))
    (p : Proc) : Stays e p (if p.pid = pid then f p else p) := by
  split_ifs with hp
  · exact hf p hp
  · exact Stays.refl e p

theorem mem_update {pid : ℕ} {f : Proc → Proc} {p' : Proc} (h : p' ∈ (m.update pid f).procs)
    (hf : ∀ p, p.pid = pid → Stays e p (f p)) : ∃ p ∈ m.procs, Stays e p p' := by
  obtain ⟨p, hp, rfl⟩ := List.mem_map.1 h
  exact ⟨p, hp, stays_update hf p⟩

theorem update_mem {p : Proc} (hp : p ∈ m.procs) (pid : ℕ) (f : Proc → Proc)
    (hf : ∀ p, p.pid = pid → Stays e p (f p)) : ∃ p' ∈ (m.update pid f).procs, Stays e p p' :=
  ⟨_, List.mem_map_of_mem hp, stays_update hf p⟩

theorem mem_collect {pid : ℕ} {status : Status} {who : Reaper} {p' : Proc}
    (h : p' ∈ (m.collect pid status who).procs) : ∃ p ∈ m.procs, Stays e p p' := by
  unfold Machine.collect at h
  split at h
  · split_ifs at h
    · exact ⟨p', List.mem_of_mem_filter h, Stays.refl e p'⟩
    · exact ⟨p', h, Stays.refl e p'⟩
  all_goals exact mem_update h fun _ _ => ⟨rfl, rfl, rfl, .inl rfl⟩

/-- Where the processes behind a step come from. -/
theorem procs_next (hcan : e.can m = true) {p' : Proc} (h : p' ∈ (e.next m).procs) :
    (∃ p ∈ m.procs, Stays e p p') ∨ Newborn e m p' := by
  cases e with
  | shell a =>
    have hgrants := (grants_of_can hcan).2
    have h : p' ∈ (m.perform (m.call a)).procs := h
    cases hcall : m.call a with
    | fork pid pgid =>
      rw [hcall] at h
      rcases List.mem_append.1 h with h | h
      · exact .inl ⟨p', h, Stays.refl _ p'⟩
      · rw [List.mem_singleton.1 h]
        rcases call_fork hcall with ⟨rfl, hpgid⟩ | ⟨rfl, hpgid⟩
        · exact .inr ⟨rfl, unused_eq_true.1 hgrants, .fork rfl hpgid⟩
        · exact .inr ⟨rfl, unused_eq_true.1 hgrants, .snoop rfl hpgid⟩
    | wait pid status who =>
      rw [hcall] at h
      exact .inl (mem_collect h)
    | other =>
      rw [hcall] at h
      exact .inl ⟨p', h, Stays.refl _ p'⟩
  | spawn pid pgid mayKill =>
    obtain ⟨hunused, hgroup⟩ := Bool.and_eq_true_iff.1 hcan
    rcases List.mem_append.1 h with h | h
    · exact .inl ⟨p', h, Stays.refl _ p'⟩
    · rw [List.mem_singleton.1 h]
      exact .inr ⟨rfl, unused_eq_true.1 hunused, .spawn mayKill rfl hgroup⟩
  | move pid pgid =>
    exact .inl (mem_update h fun p hp => ⟨rfl, rfl, rfl, .inr (by rw [hp])⟩)
  | exit pid normal | stop pid | cont pid | setuid pid mayKill =>
    exact .inl (mem_update h fun _ _ => ⟨rfl, rfl, rfl, .inl rfl⟩)
  | vanish pid => exact .inl ⟨p', List.mem_of_mem_filter h, Stays.refl _ p'⟩
  | copyTraced copy pid normal => exact .inl ⟨p', h, Stays.refl _ p'⟩

/-- The step has waited for the process `p`, or its parent has. -/
inductive Buries (m : Machine) (p : Proc) : Event → Prop where
  | vanish : Buries m p (.vanish p.pid)
  | wait {a : Step} {normal : Bool} {who : Reaper}
      (hcall : m.call a = .wait p.pid (.ended normal) who)
      (hchild : m.any p.pid (·.child) = true) : Buries m p (.shell a)

/-- What becomes of the processes in a step. -/
theorem procs_kept (e : Event) {p : Proc} (hp : p ∈ m.procs) :
    (∃ p' ∈ (e.next m).procs, Stays e p p') ∨ Buries m p e := by
  cases e with
  | shell a =>
    show (∃ p' ∈ (m.perform (m.call a)).procs, _) ∨ _
    cases hcall : m.call a with
    | fork pid pgid => exact .inl ⟨p, List.mem_append_left _ hp, Stays.refl _ p⟩
    | wait pid status who =>
      simp only [Machine.perform, Machine.collect]
      split
      · split_ifs with hchild
        · by_cases hpid : p.pid = pid
          · subst hpid
            exact .inr (.wait hcall hchild)
          · exact .inl ⟨p, List.mem_filter.2 ⟨hp, by simpa using hpid⟩, Stays.refl _ p⟩
        · exact .inl ⟨p, hp, Stays.refl _ p⟩
      all_goals exact .inl (update_mem hp pid _ fun _ _ => ⟨rfl, rfl, rfl, .inl rfl⟩)
    | other => exact .inl ⟨p, hp, Stays.refl _ p⟩
  | spawn pid pgid mayKill => exact .inl ⟨p, List.mem_append_left _ hp, Stays.refl _ p⟩
  | move pid pgid =>
    exact .inl (update_mem hp pid _ fun p hp => ⟨rfl, rfl, rfl, .inr (by rw [hp])⟩)
  | exit pid normal | stop pid | cont pid | setuid pid mayKill =>
    exact .inl (update_mem hp pid _ fun _ _ => ⟨rfl, rfl, rfl, .inl rfl⟩)
  | vanish pid =>
    by_cases hpid : p.pid = pid
    · subst hpid
      exact .inr .vanish
    · exact .inl ⟨p, List.mem_filter.2 ⟨hp, by simpa using hpid⟩, Stays.refl _ p⟩
  | copyTraced copy pid normal => exact .inl ⟨p, hp, Stays.refl _ p⟩

/-- A process keeps its numbers, and a new one comes last. -/
theorem procs_shape (hcan : e.can m = true) (g : Proc → ℕ)
    (hg : ∀ p p', Stays e p p' → g p' = g p) :
    ((e.next m).procs.map g).Sublist (m.procs.map g)
      ∨ ∃ p, (e.next m).procs = m.procs ++ [p] ∧ Newborn e m p := by
  have hupdate : ∀ pid f, (∀ p, p.pid = pid → Stays e p (f p)) →
      ((m.update pid f).procs.map g).Sublist (m.procs.map g) := by
    intro pid f hf
    have hmap : (m.update pid f).procs.map g = m.procs.map g := by
      rw [Machine.update, List.map_map]
      exact List.map_congr_left fun p _ => hg p _ (stays_update hf p)
    rw [hmap]
  have hremove : ∀ pid, ((m.remove pid).procs.map g).Sublist (m.procs.map g) :=
    fun pid => List.filter_sublist.map g
  cases e with
  | shell a =>
    have hgrants := (grants_of_can hcan).2
    show ((m.perform (m.call a)).procs.map g).Sublist _ ∨ ∃ p, (m.perform (m.call a)).procs = _ ∧ _
    cases hcall : m.call a with
    | fork pid pgid =>
      rcases call_fork hcall with ⟨rfl, hpgid⟩ | ⟨rfl, hpgid⟩
      · exact .inr ⟨_, rfl, rfl, unused_eq_true.1 hgrants, .fork rfl hpgid⟩
      · exact .inr ⟨_, rfl, rfl, unused_eq_true.1 hgrants, .snoop rfl hpgid⟩
    | wait pid status who =>
      simp only [Machine.perform, Machine.collect]
      split
      · split_ifs
        · exact .inl (hremove pid)
        · exact .inl (List.Sublist.refl _)
      all_goals exact .inl (hupdate pid _ fun _ _ => ⟨rfl, rfl, rfl, .inl rfl⟩)
    | other => exact .inl (List.Sublist.refl _)
  | spawn pid pgid mayKill =>
    obtain ⟨hunused, hgroup⟩ := Bool.and_eq_true_iff.1 hcan
    exact .inr ⟨_, rfl, rfl, unused_eq_true.1 hunused, .spawn mayKill rfl hgroup⟩
  | move pid pgid => exact .inl (hupdate pid _ fun p hp => ⟨rfl, rfl, rfl, .inr (by rw [hp])⟩)
  | exit pid normal | stop pid | cont pid | setuid pid mayKill =>
    exact .inl (hupdate pid _ fun _ _ => ⟨rfl, rfl, rfl, .inl rfl⟩)
  | vanish pid => exact .inl (hremove pid)
  | copyTraced copy pid normal => exact .inl (List.Sublist.refl _)

section Phases

variable {a : Step} {s : State}

/-- The children the shell waits for by their pids. -/
def Phase.pids : Phase → List ℕ
  | launching _ made | starting _ made => made
  | waiting _ leader todo _ => leader :: todo
  | attaching pid false | tracing pid false => [pid]
  | _ => []

/-- The leader, while the command is still being forked. -/
def Phase.begun : Phase → Option ℕ
  | launching _ made | starting _ made => made.head?
  | _ => none

/-- The phase `φ'` waits for nobody that `φ` does not wait for, up to whom `a` forks. -/
structure Follows (a : Step) (φ φ' : Phase) : Prop where
  pids : ∀ pid ∈ φ'.pids, pid ∈ φ.pids ∨ a = .fork pid ∨ a = .snoop pid
  leader : ∀ pid, φ'.leader = some pid → φ.leader = some pid ∨ a = .fork pid ∧ φ.leader = none
  begun : ∀ pid, φ'.begun = some pid → φ.begun = some pid ∨ a = .fork pid

theorem Follows.quiet {φ φ' : Phase} (hpids : φ'.pids = []) (hleader : φ'.leader = none)
    (hbegun : φ'.begun = none) : Follows a φ φ' :=
  ⟨by simp [hpids], by simp [hleader], by simp [hbegun]⟩

theorem Follows.refl (a : Step) (φ : Phase) : Follows a φ φ :=
  ⟨fun _ h => .inl h, fun _ h => .inl h, fun _ h => .inl h⟩

theorem Follows.forked {φ φ' : Phase} {made : List ℕ} {pid : ℕ} (hφ : φ.pids = made)
    (hleader : φ.leader = made.head?) (hbegun : φ.begun = made.head?)
    (hφ' : φ'.pids = made ++ [pid]) (hleader' : φ'.leader = (made ++ [pid]).head?)
    (hbegun' : φ'.begun = (made ++ [pid]).head?) : Follows (.fork pid) φ φ' := by
  rw [← hleader'] at hbegun'
  have hhead : ∀ q, φ'.leader = some q →
      made.head? = some q ∨ Step.fork pid = .fork q ∧ made.head? = none := by
    intro q hq
    rw [hleader'] at hq
    cases made with
    | nil => exact .inr ⟨by simpa using hq, rfl⟩
    | cons l rest => exact .inl hq
  refine ⟨fun q hq => ?_, fun q hq => ?_, fun q hq => ?_⟩
  · rw [hφ', List.mem_append, List.mem_singleton] at hq
    rw [hφ]
    exact hq.imp id fun h => .inl (by rw [h])
  · rw [hleader]
    exact hhead q hq
  · rw [hbegun]
    exact (hhead q (hbegun' ▸ hq)).imp id And.left

theorem phase_next (hcan : jobTable.can a s) : Follows a s.phase (a.next s).phase := by
  have henabled := enabled_of_allowed hcan
  generalize hφ : s.phase = φ at henabled
  cases henabled with
  | signal | reapEnd | sweep | handled | command | groupDone | timeout | attach | traceLost
  | interrupt | detached | reap | ping =>
    simp only [Step.next, hφ]
    exact .quiet rfl rfl rfl
  | launch tokens =>
    simp only [Step.next, hφ]
    split_ifs <;> exact .quiet rfl rfl rfl
  | forkLaunched pid tokens made | forkStarted pid tokens made =>
    simp only [Step.next, hφ]
    exact .forked rfl rfl rfl rfl rfl rfl
  | launched tokens made =>
    cases made <;> simp only [Step.next, hφ] <;> exact .quiet rfl rfl rfl
  | started tokens made =>
    cases made <;> simp only [Step.next, hφ]
    · exact .quiet rfl rfl rfl
    · exact ⟨fun q hq => .inl (by simpa [Phase.pids] using hq), fun q hq => .inl hq,
        by simp [Phase.begun]⟩
  | wait status tokens leader pid todo stopped =>
    simp only [Step.next, hφ]
    refine ⟨fun q hq => .inl ?_, fun q hq => .inl hq, by simp [Phase.begun]⟩
    simp only [Phase.pids, List.mem_cons] at hq ⊢
    exact hq.imp id .inr
  | waited tokens leader stopped =>
    simp only [Step.next, hφ, State.enterStopped, addStoppedJob]
    split_ifs <;> exact .quiet rfl rfl rfl
  | resume number foreground timed =>
    simp only [Step.next, hφ, State.resume]
    split
    · exact .quiet rfl rfl rfl
    · split_ifs <;> exact .quiet rfl rfl rfl
  | waitGroup pid status index pgid timed =>
    cases status <;> simp only [Step.next, hφ] <;> exact .quiet rfl rfl rfl
  | snoop pid =>
    simp only [Step.next, hφ]
    exact ⟨fun q hq => .inr (.inr (by rw [List.mem_singleton.1 hq])), by simp [Phase.leader],
      by simp [Phase.begun]⟩
  | attached status pid byPid =>
    simp only [Step.next, hφ]
    split_ifs
    · cases byPid
      · exact ⟨fun _ h => .inl h, by simp [Phase.leader], by simp [Phase.begun]⟩
      · exact .quiet rfl rfl rfl
    · exact .quiet rfl rfl rfl
  | traced status absent pid byPid =>
    cases status with
    | ended normal =>
      simp only [Step.next, hφ]
      split_ifs <;> exact .quiet rfl rfl rfl
    | stopped | continued =>
      simp only [Step.next, hφ]
      exact .refl _ _

theorem leader_mem_pids {φ : Phase} {pid : ℕ} (h : φ.leader = some pid) : pid ∈ φ.pids := by
  cases φ with
  | launching tokens made | starting tokens made => exact List.mem_of_mem_head? h
  | waiting tokens leader todo stopped =>
    rw [← Option.some.inj h]
    exact List.mem_cons_self
  | _ => simp [Phase.leader] at h

/-- The process with this pid leads a live job or the command in progress. -/
def State.Leads (s : State) (pid : ℕ) : Prop :=
  (∃ j ∈ s.jobs, j.live = true ∧ j.pid = pid) ∨ s.phase.leader = some pid

theorem leads_next (hcan : jobTable.can a s) {pid : ℕ} (h : (a.next s).Leads pid) :
    s.Leads pid ∨ a = .fork pid ∧ s.phase.leader = none := by
  rcases h with ⟨j', hj', hlive, rfl⟩ | h
  · obtain ⟨i, hi⟩ := List.getElem?_of_mem hj'
    rcases entry_next hi with ⟨j, hj, hlater⟩ | ⟨-, henters⟩
    · exact .inl (.inl ⟨j, List.mem_of_getElem? hj, hlater.live hlive, hlater.pid.symm⟩)
    · exact .inl (.inr henters.leader)
  · exact ((phase_next hcan).leader pid h).imp .inr id

end Phases

/-- The waits of the shell, with the phase each belongs to. -/
inductive Waits (pid : ℕ) (status : Status) : Reaper → Step → Phase → Prop where
  | reap : Waits pid status .handler (.reap pid status) .reaping
  | wait (tokens : List Token) (leader : ℕ) (todo : List ℕ) (stopped : Bool) :
      Waits pid status .foreground (.wait status) (.waiting tokens leader (pid :: todo) stopped)
  | waitGroup (index pgid : ℕ) (timed : Bool) :
      Waits pid status .resume (.waitGroup pid status) (.resuming index pgid timed)
  | attached (byPid : Bool) : Waits pid status .attach (.attached status) (.attaching pid byPid)
  | traced (absent byPid : Bool) :
      Waits pid status .trace (.traced status absent) (.tracing pid byPid)
  | detached : Waits pid status .detach (.detached status) (.detaching pid)

theorem call_wait {a : Step} (hcan : jobTable.can a m.shell) {pid : ℕ} {status : Status}
    {who : Reaper} (h : m.call a = .wait pid status who) :
    Waits pid status who a m.shell.phase := by
  have henabled := enabled_of_allowed hcan
  unfold Machine.call at h
  generalize m.shell.phase = φ at henabled h
  cases henabled <;> simp only [Syscall.wait.injEq, reduceCtorEq] at h
  all_goals
    obtain ⟨rfl, rfl, rfl⟩ := h
    constructor

theorem phase_handled (hcan : (Event.shell .handled).can m = true) :
    ((Event.shell .handled).next m).shell.phase = .idle := by
  show (Step.next .handled m.shell).phase = .idle
  have henabled := enabled_of_allowed (grants_of_can hcan).1
  generalize hφ : m.shell.phase = φ at henabled
  cases henabled
  simp only [Step.next, hφ]

/-- The shell goes on by a step of its own, or stays as it is. -/
theorem shell_next (e : Event) (m : Machine) :
    (∃ a, e = .shell a ∧ (e.next m).shell = a.next m.shell) ∨ (e.next m).shell = m.shell := by
  cases e with
  | shell a => exact .inl ⟨a, rfl, rfl⟩
  | _ => exact .inr rfl

theorem later_step (e : Event) (m : Machine) : Later m.shell.jobs (e.next m).shell.jobs := by
  rcases shell_next e m with ⟨a, -, hshell⟩ | hshell <;> rw [hshell]
  · exact later_next a m.shell
  · exact Later.refl _

theorem Wf.step (h : Wf m.shell) (hcan : e.can m = true) : Wf (e.next m).shell := by
  rcases shell_next e m with ⟨a, rfl, hshell⟩ | hshell <;> rw [hshell]
  · exact h.next (grants_of_can hcan).1
  · exact h

/-- No two live jobs have the same leader, and the leaders the shell has not waited for are in
their own groups. -/
structure Homes (m : Machine) : Prop where
  wf : Wf m.shell
  pids : (m.procs.map Proc.pid).Nodup
  inj : ∀ (i k : ℕ) (j j' : Job), m.shell.jobs[i]? = some j → m.shell.jobs[k]? = some j' →
    j.live = true → j'.live = true → j.pid = j'.pid → i = k
  apart : ∀ pid ∈ m.shell.phase.pids, ∀ j ∈ m.shell.jobs, j.live = true → j.pid ≠ pid
  home : ∀ p ∈ m.procs, p.child = true → m.shell.Leads p.pid → p.pgid = p.pid
  begun : ∀ pid, m.shell.phase.begun = some pid → ∃ p ∈ m.procs, p.pid = pid ∧ p.child = true

theorem Homes.unique (h : Homes m) {p q : Proc} (hp : p ∈ m.procs) (hq : q ∈ m.procs)
    (hpid : p.pid = q.pid) : p = q :=
  List.inj_on_of_nodup_map h.pids hp hq hpid

theorem fresh_jobs {pid : ℕ} (hfresh : (m.shell.jobs.all fun j => !j.live || j.pid ≠ pid) = true)
    {j : Job} (hj : j ∈ m.shell.jobs) (hlive : j.live = true) : j.pid ≠ pid := by
  simpa [hlive] using List.all_eq_true.1 hfresh j hj

/-- A leader moves only to the group it is in. -/
theorem pgid_of_loyal {p : Proc} {pgid : ℕ} (hloyal : (Event.move p.pid pgid).loyal m = true)
    (hp : p ∈ m.procs) (hleads : m.shell.Leads p.pid) : p.pgid = pgid := by
  rcases Bool.or_eq_true_iff.1 hloyal with hstays | hnot
  · simpa using List.all_eq_true.1 hstays p hp
  · obtain ⟨hleader, hjobs⟩ := Bool.and_eq_true_iff.1 hnot
    rcases hleads with ⟨j, hj, hlive, hpid⟩ | h
    · exact absurd hpid (fresh_jobs hjobs hj hlive)
    · simp [h] at hleader

theorem leads_step (hcan : e.can m = true) {pid : ℕ} (h : (e.next m).shell.Leads pid) :
    m.shell.Leads pid ∨ e = .shell (.fork pid) ∧ m.shell.phase.leader = none := by
  rcases shell_next e m with ⟨a, rfl, hshell⟩ | hshell <;> rw [hshell] at h
  · refine (leads_next (grants_of_can hcan).1 h).imp id fun hfork => ?_
    rw [hfork.1]
    exact ⟨rfl, hfork.2⟩
  · exact .inl h

theorem entry_step {i : ℕ} {j' : Job} (h : (e.next m).shell.jobs[i]? = some j') :
    (∃ j, m.shell.jobs[i]? = some j ∧ j.Later j')
      ∨ i = m.shell.jobs.length ∧ ∃ a, e = .shell a ∧ Enters m.shell a j' (e.next m).shell := by
  rcases shell_next e m with ⟨a, rfl, hshell⟩ | hshell <;> rw [hshell] at h
  · rw [hshell]
    exact (entry_next h).imp id fun h => ⟨h.1, a, rfl, h.2⟩
  · exact .inl ⟨j', h, Job.Later.refl j'⟩

theorem pids_step (hcan : e.can m = true) {pid : ℕ} (h : pid ∈ (e.next m).shell.phase.pids) :
    pid ∈ m.shell.phase.pids ∨ e = .shell (.fork pid) ∨ e = .shell (.snoop pid) := by
  rcases shell_next e m with ⟨a, rfl, hshell⟩ | hshell <;> rw [hshell] at h
  · simpa using (phase_next (grants_of_can hcan).1).pids pid h
  · exact .inl h

theorem begun_step (hcan : e.can m = true) {pid : ℕ}
    (h : (e.next m).shell.phase.begun = some pid) :
    m.shell.phase.begun = some pid ∨ e = .shell (.fork pid) := by
  rcases shell_next e m with ⟨a, rfl, hshell⟩ | hshell <;> rw [hshell] at h
  · simpa using (phase_next (grants_of_can hcan).1).begun pid h
  · exact .inl h

theorem begun_of_fork {pid l : ℕ} (hcan : (Event.shell (.fork pid)).can m = true)
    (h : m.shell.phase.leader = some l) : m.shell.phase.begun = some l := by
  have henabled := enabled_of_allowed (grants_of_can hcan).1
  generalize m.shell.phase = φ at henabled h
  cases henabled <;> exact h

theorem unused_of_fork {pid : ℕ} (hcan : (Event.shell (.fork pid)).can m = true) {p : Proc}
    (hp : p ∈ m.procs) : p.pid ≠ pid :=
  (unused_eq_true.1 (grants_of_can hcan).2 p hp).1

namespace Homes

variable (h : Homes m) (hcan : e.can m = true)

include h hcan

theorem pids_next : ((e.next m).procs.map Proc.pid).Nodup := by
  rcases procs_shape hcan Proc.pid fun _ _ h => h.pid with hsub | ⟨p, hprocs, hnew⟩
  · exact h.pids.sublist hsub
  · rw [hprocs, List.map_append, List.nodup_append]
    refine ⟨h.pids, by simp, ?_⟩
    intro a ha b hb
    obtain ⟨q, hq, rfl⟩ := List.mem_map.1 ha
    rw [List.mem_singleton.1 hb]
    exact (hnew.unused q hq).1

omit hcan in
theorem inj_next (i k : ℕ) (j j' : Job) (hj : (e.next m).shell.jobs[i]? = some j)
    (hj' : (e.next m).shell.jobs[k]? = some j') (hlive : j.live = true) (hlive' : j'.live = true)
    (hpid : j.pid = j'.pid) : i = k := by
  have hnew : ∀ {i : ℕ} {j j' : Job} {a : Step}, m.shell.jobs[i]? = some j → j.live = true →
      Enters m.shell a j' (e.next m).shell → j.pid ≠ j'.pid :=
    fun hj hlive henters =>
      h.apart _ (leader_mem_pids henters.leader) _ (List.mem_of_getElem? hj) hlive
  rcases entry_step hj with ⟨o, ho, hlater⟩ | ⟨rfl, a, -, henters⟩ <;>
    rcases entry_step hj' with ⟨o', ho', hlater'⟩ | ⟨rfl, a', -, henters'⟩
  · refine h.inj i k o o' ho ho' (hlater.live hlive) (hlater'.live hlive') ?_
    rw [← hlater.pid, hpid, hlater'.pid]
  · exact absurd (hlater.pid.symm.trans hpid) (hnew ho (hlater.live hlive) henters')
  · exact absurd (hlater'.pid.symm.trans hpid.symm) (hnew ho' (hlater'.live hlive') henters)
  · rfl

theorem apart_next (hfresh : e.fresh m = true) (pid : ℕ)
    (hmem : pid ∈ (e.next m).shell.phase.pids) (j' : Job) (hj' : j' ∈ (e.next m).shell.jobs)
    (hlive : j'.live = true) : j'.pid ≠ pid := by
  obtain ⟨i, hi⟩ := List.getElem?_of_mem hj'
  rcases entry_step hi with ⟨j, hj, hlater⟩ | ⟨-, a, -, henters⟩
  · have hj := List.mem_of_getElem? hj
    rw [hlater.pid]
    rcases pids_step hcan hmem with hpid | rfl | rfl
    · exact h.apart pid hpid j hj (hlater.live hlive)
    · exact fresh_jobs hfresh hj (hlater.live hlive)
    · exact fresh_jobs hfresh hj (hlater.live hlive)
  · rw [henters.phase] at hmem
    exact absurd hmem List.not_mem_nil

theorem home_next (hfresh : e.fresh m = true) (hloyal : e.loyal m = true) (p' : Proc)
    (hp' : p' ∈ (e.next m).procs) (hchild : p'.child = true)
    (hleads : (e.next m).shell.Leads p'.pid) : p'.pgid = p'.pid := by
  replace hleads := leads_step hcan hleads
  rcases procs_next hcan hp' with ⟨p, hp, hstays⟩ | hnew
  · rw [hstays.pid] at hleads ⊢
    rcases hleads with hleads | ⟨rfl, -⟩
    · have hhome := h.home p hp (by rw [← hstays.child, hchild]) hleads
      rcases hstays.pgid with hpgid | rfl
      · rw [hpgid, hhome]
      · rw [← pgid_of_loyal hloyal hp hleads, hhome]
    · exact absurd rfl (unused_of_fork hcan hp)
  · have hunused := hnew.unused
    obtain ⟨mayKill, hnot, -⟩ | ⟨-, hgroup⟩ | ⟨-, hgroup⟩ := hnew.makes
    · rw [hnot] at hchild
      exact absurd hchild Bool.false_ne_true
    · rcases hleads with (⟨j, hj, hlive, hpid⟩ | hleader) | ⟨-, hnone⟩
      · exact absurd hpid (fresh_jobs hfresh hj hlive)
      · obtain ⟨q, hq, hpid, -⟩ := h.begun _ (begun_of_fork hcan hleader)
        exact absurd hpid (hunused q hq).1
      · rw [hgroup, hnone]
        rfl
    · exact hgroup

theorem begun_next (pid : ℕ) (hnext : (e.next m).shell.phase.begun = some pid) :
    ∃ p ∈ (e.next m).procs, p.pid = pid ∧ p.child = true := by
  rcases begun_step hcan hnext with hbegun | rfl
  · obtain ⟨p, hp, rfl, hchild⟩ := h.begun pid hbegun
    rcases procs_kept e hp with ⟨p', hp', hstays⟩ | hburied
    · exact ⟨p', hp', hstays.pid, by rw [hstays.child, hchild]⟩
    · cases hburied with
      | vanish =>
        obtain ⟨q, hq, hpid, hnot⟩ := any_eq_true.1 hcan
        rw [h.unique hq hp hpid] at hnot
        simp [hchild] at hnot
      | wait hcall =>
        have hwaits := call_wait (grants_of_can hcan).1 hcall
        generalize m.shell.phase = φ at hwaits hbegun
        cases hwaits <;> simp [Phase.begun] at hbegun
  · exact ⟨_, List.mem_append_right _ (List.mem_singleton_self _), rfl, rfl⟩

theorem next (hfresh : e.fresh m = true) (hloyal : e.loyal m = true) : Homes (e.next m) where
  wf := h.wf.step hcan
  pids := h.pids_next hcan
  inj := h.inj_next
  apart := h.apart_next hcan hfresh
  home := h.home_next hcan hfresh hloyal
  begun := h.begun_next hcan

end Homes

theorem homes_boot : Homes .boot where
  wf := wf_boot
  pids := List.nodup_nil
  inj := by simp [Machine.boot, State.boot]
  apart := by simp [Machine.boot, State.boot]
  home := by simp [Machine.boot]
  begun := by simp [Machine.boot, State.boot, Phase.begun]

end Jobs

end Shell

end CShellXv6
