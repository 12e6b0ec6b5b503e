import CShellXv6.Proofs.Leaders

/-!
# Ghost jobs

The handler gives up a live job whose group is gone if the end of its leader is on record. In a run
of tracked steps it is: a leader that the shell has waited for was seen by the handler or by the
tracer, unless the job is being resumed.
-/

namespace CShellXv6

namespace Shell

namespace Jobs

variable {e : Event} {m : Machine} {i : ℕ} {j j' : Job}

/-- Every leader that is not on record is a child the shell has not waited for, and no other process
has its pid. -/
structure Led (m : Machine) : Prop where
  homes : Homes m
  led : ∀ (i : ℕ) (j : Job), m.shell.jobs[i]? = some j → j.live = true → j.leaderDone = false →
    (∃ p ∈ m.procs, p.pid = j.pid ∧ p.child = true)
      ∨ ∃ pgid timed, m.shell.phase = .resuming i pgid timed
  ours : ∀ j ∈ m.shell.jobs, j.live = true → ∀ p ∈ m.procs, p.pid = j.pid → p.child = true

/-- The leader of a job that enters the table is a child the shell has not waited for. -/
theorem Homes.entered (h : Homes m) {a : Step} (hled : (Event.shell a).led m = true) {job : Job}
    {s : State} (henters : Enters m.shell a job s) :
    ((Event.shell a).next m).procs = m.procs ∧ ∃ p ∈ m.procs, p.pid = job.pid ∧ p.child = true := by
  cases henters with
  | launched tokens leader rest hφ =>
    refine ⟨rfl, h.begun leader ?_⟩
    rw [hφ]
    rfl
  | stopped tokens leader command hφ =>
    simp only [Event.led, hφ, Bool.not_true, Bool.false_or] at hled
    exact ⟨rfl, any_eq_true.1 hled⟩

namespace Led

variable (h : Led m) (hcan : e.can m = true)

include h hcan

theorem ours_next (hfresh : e.fresh m = true) (hled : e.led m = true) (j' : Job)
    (hj' : j' ∈ (e.next m).shell.jobs) (hlive : j'.live = true) (p' : Proc)
    (hp' : p' ∈ (e.next m).procs) (hpid : p'.pid = j'.pid) : p'.child = true := by
  obtain ⟨i, hi⟩ := List.getElem?_of_mem hj'
  rcases entry_step hi with ⟨j, hj, hlater⟩ | ⟨-, a, rfl, henters⟩
  · have hmem := List.mem_of_getElem? hj
    have hlive := hlater.live hlive
    rw [hlater.pid] at hpid
    rcases procs_next hcan hp' with ⟨p, hp, hstays⟩ | hnew
    · rw [hstays.child]
      exact h.ours j hmem hlive p hp (by rw [← hstays.pid, hpid])
    · obtain ⟨mayKill, -, -⟩ | ⟨hchild, -⟩ | ⟨hchild, -⟩ := hnew.makes
      · exact absurd hpid.symm (fresh_jobs hfresh hmem hlive)
      · exact hchild
      · exact hchild
  · obtain ⟨hprocs, p, hp, hpp, hchild⟩ := h.homes.entered hled henters
    rw [hprocs] at hp'
    rw [h.homes.unique hp' hp (hpid.trans hpp.symm), hchild]

/-- The leader is seen by the handler or the tracer, or the job is being resumed. -/
theorem led_of_process (hnoted : e.noted m = true) (hj : m.shell.jobs[i]? = some j)
    (hj' : (e.next m).shell.jobs[i]? = some j') (hlive : j.live = true)
    (hdone : j.leaderDone = false) (hdone' : j'.leaderDone = false) {p : Proc} (hp : p ∈ m.procs)
    (hpid : p.pid = j.pid) (hchild : p.child = true) :
    (∃ p ∈ (e.next m).procs, p.pid = j.pid ∧ p.child = true)
      ∨ ∃ pgid timed, (e.next m).shell.phase = .resuming i pgid timed := by
  rcases procs_kept e hp with ⟨p', hp', hstays⟩ | hburied
  · exact .inl ⟨p', hp', hstays.pid.trans hpid, hstays.child.trans hchild⟩
  · obtain ⟨a, normal, who, rfl, -, hsees⟩ :=
      h.homes.sees_of_buries hj hlive hcan hnoted hdone hp hpid hchild hburied
    have hj' : (a.next m.shell).jobs[i]? = some j' := hj'
    generalize hφ : m.shell.phase = φ at hsees
    cases hsees with
    | handler =>
      rw [h.homes.reap_entry hj hlive hφ] at hj'
      rw [← Option.some.inj hj'] at hdone'
      exact absurd hdone' (by simp)
    | trace absent =>
      rw [h.homes.traced_entry hj hlive hdone hφ] at hj'
      have hlater := (later_sweep absent { j with leaderDone := true }).leaderDone rfl
      rw [Option.some.inj hj', hdone'] at hlater
      exact absurd hlater (by simp)
    | resume pgid timed =>
      refine .inr ⟨pgid, timed, ?_⟩
      show (Step.next _ m.shell).phase = _
      simp only [Step.next, hφ]

/-- A resumed job whose leader has not been waited for goes back to the table with it. -/
theorem led_of_resuming (hled : e.led m = true) (hj : m.shell.jobs[i]? = some j)
    (hj' : (e.next m).shell.jobs[i]? = some j') (hlive' : j'.live = true)
    (hdone : j.leaderDone = false) {pgid : ℕ} {timed : Bool}
    (hφ : m.shell.phase = .resuming i pgid timed) :
    (∃ p ∈ (e.next m).procs, p.pid = j.pid ∧ p.child = true)
      ∨ ∃ pgid timed, (e.next m).shell.phase = .resuming i pgid timed := by
  rcases shell_next e m with ⟨a, rfl, hshell⟩ | hshell
  · have henabled := enabled_of_allowed (grants_of_can hcan).1
    rw [hshell] at hj' ⊢
    rw [hφ] at henabled
    cases henabled with
    | waitGroup pid status =>
      cases status with
      | stopped =>
        obtain ⟨o, ho, -, rfl⟩ := h.homes.wf.resuming i pgid timed hφ
        obtain rfl := Option.some.inj (hj.symm.trans ho)
        simp only [Event.led, hφ, hj, Option.any_some, hdone, Bool.or_false] at hled
        obtain ⟨p, hp, hpid, hchild⟩ := any_eq_true.1 hled
        rcases procs_kept (.shell (.waitGroup pid .stopped)) hp with ⟨p', hp', hstays⟩ | hburied
        · exact .inl ⟨p', hp', hstays.pid.trans hpid, hstays.child.trans hchild⟩
        · cases hburied with
          | wait hcall => simp [Machine.call] at hcall
      | ended | continued =>
        refine .inr ⟨pgid, timed, ?_⟩
        simp only [Step.next, hφ]
    | groupDone | timeout =>
      simp only [Step.next, hφ] at hj'
      obtain ⟨o, ho, rfl⟩ := modify_eq_some.1 hj'
      rw [if_pos rfl] at hlive'
      exact absurd hlive' Bool.false_ne_true
  · rw [hshell]
    exact .inr ⟨pgid, timed, hφ⟩

theorem next (htracked : e.tracked m = true) : Led (e.next m) := by
  simp only [Event.tracked, Bool.and_eq_true] at htracked
  obtain ⟨⟨⟨hfresh, hloyal⟩, hnoted⟩, hled⟩ := htracked
  refine ⟨h.homes.next hcan hfresh hloyal, fun i j' hj' hlive' hdone' => ?_,
    h.ours_next hcan hfresh hled⟩
  rcases entry_step hj' with ⟨j, hj, hlater⟩ | ⟨-, a, rfl, henters⟩
  · have hdone : j.leaderDone = false := by
      by_contra hne
      rw [hlater.leaderDone (by simpa using hne)] at hdone'
      exact absurd hdone' (by simp)
    rw [hlater.pid]
    rcases h.led i j hj (hlater.live hlive') hdone with ⟨p, hp, hpid, hchild⟩ | ⟨pgid, timed, hφ⟩
    · exact h.led_of_process hcan hnoted hj hj' (hlater.live hlive') hdone hdone' hp hpid hchild
    · exact h.led_of_resuming hcan hled hj hj' hlive' hdone hφ
  · obtain ⟨hprocs, hp⟩ := h.homes.entered hled henters
    rw [hprocs]
    exact .inl hp

/-- The group of a live job does not come back. -/
theorem gone_next (hfresh : e.fresh m = true) (hj : m.shell.jobs[i]? = some j)
    (hlive : j.live = true) (hgone : m.Gone j.pid) : (e.next m).Gone j.pid := by
  have hmem := List.mem_of_getElem? hj
  intro p' hp' hpgid
  rcases procs_next hcan hp' with ⟨p, hp, hstays⟩ | hnew
  · rcases hstays.pgid with hsame | rfl
    · exact hgone p hp (hsame.symm.trans hpgid)
    · rcases joinable_eq_true.1 (Bool.and_eq_true_iff.1 hcan).2 with hown | ⟨q, hq, hqpgid⟩
      · have hpid : p.pid = j.pid := hown.symm.trans hpgid
        have hhome := h.homes.home p hp (h.ours j hmem hlive p hp hpid)
          (by rw [hpid]; exact leads_of_live hj hlive)
        exact hgone p hp (hhome.trans hpid)
      · exact hgone q hq (hqpgid.trans hpgid)
  · obtain ⟨mayKill, -, hgroup⟩ | ⟨-, hgroup⟩ | ⟨-, hgroup⟩ := hnew.makes
    · rcases joinable_eq_true.1 hgroup with hown | ⟨q, hq, hqpgid⟩
      · exact fresh_jobs hfresh hmem hlive (hpgid.symm.trans hown)
      · exact hgone q hq (hqpgid.trans hpgid)
    · cases hleader : m.shell.phase.leader with
      | none =>
        rw [hleader, Option.getD_none] at hgroup
        exact fresh_jobs hfresh hmem hlive (hpgid.symm.trans hgroup)
      | some l =>
        rw [hleader, Option.getD_some] at hgroup
        exact h.homes.apart l (leader_mem_pids hleader) j hmem hlive (hpgid.symm.trans hgroup)
    · exact fresh_jobs hfresh hmem hlive (hpgid.symm.trans hgroup)

end Led

/-- The job is given up, or its group is gone and the second loop of the handler has yet to come to
it. -/
def Doomed (i : ℕ) (m : Machine) : Prop :=
  ∀ j, m.shell.jobs[i]? = some j → j.live = true →
    m.Gone j.pid ∧ (m.shell.phase = .reaping ∨ ∃ k ≤ i, m.shell.phase = .sweeping k)

/-- With its group gone, the end of a leader is on record. -/
theorem Led.done_of_gone (h : Led m) (hj : m.shell.jobs[i]? = some j) (hlive : j.live = true)
    (hgone : m.Gone j.pid) (hφ : ∀ pgid timed, m.shell.phase ≠ .resuming i pgid timed) :
    j.leaderDone = true := by
  by_contra hdone
  rcases h.led i j hj hlive (by simpa using hdone) with ⟨p, hp, hpid, hchild⟩ | ⟨pgid, timed, hres⟩
  · have hhome := h.homes.home p hp hchild (by rw [hpid]; exact leads_of_live hj hlive)
    exact hgone p hp (hhome.trans hpid)
  · exact hφ pgid timed hres

theorem Led.doomed_next (h : Led m) (hcan : e.can m = true) (hfresh : e.fresh m = true)
    (hi : i < m.shell.jobs.length) (hdoomed : Doomed i m) : Doomed i (e.next m) := by
  intro j' hj' hlive'
  rcases entry_step hj' with ⟨j, hj, hlater⟩ | ⟨rfl, -⟩
  swap
  · exact absurd hi (Nat.lt_irrefl _)
  have hlive := hlater.live hlive'
  obtain ⟨hgone, hφ⟩ := hdoomed j hj hlive
  rw [hlater.pid]
  refine ⟨h.gone_next hcan hfresh hj hlive hgone, ?_⟩
  rcases shell_next e m with ⟨a, rfl, hshell⟩ | hshell
  · have henabled := enabled_of_allowed (grants_of_can hcan).1
    have hgrants := (grants_of_can hcan).2
    rw [hshell] at hj' ⊢
    rcases hφ with hφ | ⟨k, hk, hφ⟩ <;> rw [hφ] at henabled
    · cases henabled with
      | reap => exact .inl (by simp only [Step.next, hφ])
      | reapEnd => exact .inr ⟨0, Nat.zero_le _, by simp only [Step.next, hφ]⟩
    · cases henabled with
      | sweep absent =>
        rcases Nat.lt_or_eq_of_le hk with hlt | rfl
        · exact .inr ⟨k + 1, hlt, by simp only [Step.next, hφ]⟩
        · simp only [Machine.grants, hφ, hj, Option.all_some, hgone.killFails,
            decide_eq_true_eq] at hgrants
          have hdone := h.done_of_gone hj hlive hgone (by simp [hφ])
          simp only [Step.next, hφ] at hj'
          obtain ⟨o, ho, rfl⟩ := modify_eq_some.1 hj'
          obtain rfl := Option.some.inj (hj.symm.trans ho)
          simp [Job.sweep, hlive, hdone, hgrants, Job.finish] at hlive'
      | handled => omega
  · rw [hshell]
    exact hφ

theorem led_boot : Led .boot :=
  ⟨homes_boot, by simp [Machine.boot, State.boot], by simp [Machine.boot]⟩

theorem led_exec (as : List Event) {m : Machine} : Led m → jobControl.Valid as m →
    jobControl.Each (fun e m => e.tracked m = true) as m → Led (jobControl.exec as m) :=
  System.Each.invariant jobControl (fun _ _ h => h.next) as

theorem fresh_of_tracked (h : e.tracked m = true) : e.fresh m = true := by
  simp only [Event.tracked, Bool.and_eq_true] at h
  exact h.1.1.1

theorem doomed_exec : ∀ (as : List Event) {m : Machine}, Led m → i < m.shell.jobs.length →
    Doomed i m → jobControl.Valid as m →
    jobControl.Each (fun e m => e.tracked m = true) as m → Doomed i (jobControl.exec as m)
  | [], _, _, _, hdoomed, _, _ => hdoomed
  | e :: as, m, h, hi, hdoomed, hv, htracked => by
    refine doomed_exec as (h.next hv.1 htracked.1) ?_
      (h.doomed_next hv.1 (fresh_of_tracked htracked.1) hi hdoomed) hv.2 htracked.2
    exact Nat.lt_of_lt_of_le hi (later_step e m).length_le

theorem later_run : ∀ (as : List Event) (m : Machine),
    Later m.shell.jobs (jobControl.exec as m).shell.jobs
  | [], _ => Later.refl _
  | e :: as, m => (later_step e m).trans (later_run as (e.next m))

/-- The handler leaves no doomed job. -/
theorem dead_of_handled (hcan : jobControl.can (.shell .handled) m)
    (hdoomed : Doomed i (jobControl.next (.shell .handled) m))
    (hj : (jobControl.next (.shell .handled) m).shell.jobs[i]? = some j) : j.live = false := by
  have hφ := phase_handled hcan
  by_contra hlive
  rcases (hdoomed j hj (by simpa using hlive)).2 with h | ⟨k, -, h⟩
  · exact absurd (hφ.symm.trans h) (by simp)
  · exact absurd (hφ.symm.trans h) (by simp)

theorem Led.dead_exec (h : Led m) (hi : i < m.shell.jobs.length) (hdoomed : Doomed i m)
    (v : List Event) {w : List Event} (hv : jobControl.Valid (v ++ .shell .handled :: w) m)
    (htracked : jobControl.Each (fun e m => e.tracked m = true) (v ++ .shell .handled :: w) m) :
    ∃ j, (jobControl.exec (v ++ .shell .handled :: w) m).shell.jobs[i]? = some j
      ∧ j.live = false := by
  rw [System.valid_append] at hv
  rw [System.each_append] at htracked
  rw [System.exec_append]
  have hled := led_exec v h hv.1 htracked.1
  have hdoomed := doomed_exec v h hi hdoomed hv.1 htracked.1
  have hi := Nat.lt_of_lt_of_le hi (later_run v m).length_le
  obtain ⟨j, hj, -⟩ := later_step (.shell .handled) _ i _ (List.getElem?_eq_getElem hi)
  have hdead := dead_of_handled hv.2.1
    (hled.doomed_next hv.2.1 (fresh_of_tracked htracked.2.1) hi hdoomed) hj
  obtain ⟨j', hj', hlater⟩ := later_run w _ i j hj
  refine ⟨j', hj', ?_⟩
  by_contra hlive
  rw [hlater.live (by simpa using hlive)] at hdead
  exact absurd hdead (by simp)

theorem findJob_of_dead {jobs : List Job} (hj : jobs[i]? = some j) (hdead : j.live = false) :
    findJob jobs (i + 1) = none := by
  by_contra h
  obtain ⟨⟨k, pgid⟩, hk⟩ := Option.ne_none_iff_exists'.1 h
  obtain ⟨hnumber, o, ho, hlive, -⟩ := findJob_eq_some.1 hk
  obtain rfl : i = k := by omega
  rw [Option.some.inj (hj.symm.trans ho), hlive] at hdead
  exact absurd hdead (by simp)

/-- A job that is not live is not counted. -/
theorem hasStoppedJobs_of_dead {jobs : List Job} (hj : jobs[i]? = some j)
    (hdead : j.live = false) : hasStoppedJobs jobs = hasStoppedJobs (jobs.eraseIdx i) := by
  obtain ⟨hi, rfl⟩ := List.getElem?_eq_some_iff.1 hj
  have hdrop : (jobs.drop i).any (fun j => j.live && j.stopped)
      = (jobs.drop (i + 1)).any fun j => j.live && j.stopped := by
    rw [List.drop_eq_getElem_cons hi, List.any_cons, hdead, Bool.false_and, Bool.false_or]
  unfold hasStoppedJobs
  rw [List.eraseIdx_eq_take_drop_succ, List.any_append, ← hdrop, ← List.any_append,
    List.take_append_drop]

end Jobs

open Jobs

/-- In a run of tracked steps, a job whose group is gone before the second loop of the handler
begins is given up for good once the handler returns. -/
theorem no_ghost_jobs (u v w : List Jobs.Event)
    (hv : jobControl.Valid (u ++ .shell .reapEnd :: (v ++ .shell .handled :: w)) .boot)
    (htracked : jobControl.Each (fun e m => e.tracked m = true)
      (u ++ .shell .reapEnd :: (v ++ .shell .handled :: w)) .boot)
    {i : ℕ} {j : Job} (hj : (jobControl.exec u .boot).shell.jobs[i]? = some j)
    (hgone : (jobControl.exec u .boot).Gone j.pid) :
    let jobs :=
      (jobControl.exec (u ++ .shell .reapEnd :: (v ++ .shell .handled :: w)) .boot).shell.jobs
    (∃ j', jobs[i]? = some j' ∧ j'.live = false) ∧ findJob jobs (i + 1) = none
      ∧ hasStoppedJobs jobs = hasStoppedJobs (jobs.eraseIdx i) := by
  intro jobs
  suffices hdead : ∃ j', jobs[i]? = some j' ∧ j'.live = false by
    obtain ⟨j', hj', hdead⟩ := hdead
    exact ⟨⟨j', hj', hdead⟩, findJob_of_dead hj' hdead, hasStoppedJobs_of_dead hj' hdead⟩
  rw [System.valid_append] at hv
  rw [System.each_append] at htracked
  simp only [jobs, System.exec_append]
  refine (led_exec u led_boot hv.1 htracked.1).dead_exec (List.getElem?_eq_some_iff.1 hj).1 ?_
    (.shell .reapEnd :: v) hv.2 htracked.2
  have henabled := enabled_of_allowed (grants_of_can hv.2.1).1
  generalize hφ : (jobControl.exec u .boot).shell.phase = φ at henabled
  cases henabled
  intro j' hj' _
  rw [← Option.some.inj (hj.symm.trans hj')]
  exact ⟨hgone, .inl hφ⟩

/-- A job ends while the shell is idle, and the handler comes to know of it. -/
theorem no_ghost_jobs_patient :
    let u : List Jobs.Event :=
      [.shell (.launch [⟨.word, ['a']⟩]), .shell (.fork 5), .shell .forked, .exit 5 true,
        .shell .signal, .shell (.reap 5 (.ended true))]
    let as : List Jobs.Event :=
      u ++ .shell .reapEnd :: ([.shell (.sweep true)] ++ .shell .handled :: [])
    let jobs := (jobControl.exec as .boot).shell.jobs
    jobControl.Valid as .boot ∧ (∃ j', jobs[0]? = some j' ∧ j'.live = false)
      ∧ findJob jobs (0 + 1) = none ∧ hasStoppedJobs jobs = hasStoppedJobs (jobs.eraseIdx 0) :=
  ⟨by decide, no_ghost_jobs _ [.shell (.sweep true)] [] (by decide) (by decide) rfl (by decide)⟩

/-- The foreground wait takes the leader, the other process stops and the two enter the table; then
that one is killed, and the handler runs with the whole group gone. -/
def ghostRun : List Jobs.Event :=
  [.shell (.command [⟨.word, ['a']⟩, ⟨.opPipe, ['|']⟩, ⟨.word, ['b']⟩]), .shell (.fork 5),
    .shell (.fork 6), .shell .forked, .exit 5 true, .shell (.wait (.ended true)), .stop 6,
    .shell (.wait .stopped), .shell .waited, .exit 6 false, .shell .signal,
    .shell (.reap 6 (.ended false)), .shell .reapEnd, .shell (.sweep true), .shell .handled,
    .shell .signal, .shell .reapEnd, .shell (.sweep true), .shell .handled]

theorem ghost_job_stays :
    let jobs := (jobControl.exec ghostRun .boot).shell.jobs
    jobControl.Valid ghostRun .boot ∧ (jobControl.exec (ghostRun.take 15) .boot).Gone 5
      ∧ findJob jobs 1 = some (0, 5) ∧ hasStoppedJobs jobs = true := by
  decide

end Shell

end CShellXv6
