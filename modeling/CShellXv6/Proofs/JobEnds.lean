import CShellXv6.Proofs.Processes

/-!
# How jobs end

Four steps take an entry out of the live jobs: the sweep of the handler, the end of a trace, and
the two ends of a foreground `resume` without a stop. Each has its own test of whether the group
is gone.
-/

namespace CShellXv6

namespace Shell

namespace Jobs

variable {e : Event} {m : Machine}

/-- The steps that end the live job `j`, the entry with index `i`. -/
inductive Ends (i : ℕ) (j : Job) : Step → Phase → Prop where
  | sweep (hdone : j.leaderDone = true) : Ends i j (.sweep true) (.sweeping i)
  | traced (normal : Bool) (hdone : j.leaderDone = false) :
    Ends i j (.traced (.ended normal) true) (.tracing j.pid true)
  | groupDone (pgid : ℕ) (timed : Bool) : Ends i j .groupDone (.resuming i pgid timed)
  | timeout (pgid : ℕ) : Ends i j .timeout (.resuming i pgid true)

theorem sweep_dead {j : Job} {absent : Bool} (hlive : j.live = true)
    (hdead : (j.sweep absent).live = false) : j.leaderDone = true ∧ absent = true := by
  unfold Job.sweep at hdead
  split_ifs at hdead with h
  · exact h.2
  · simp [hlive] at hdead

theorem ends_of_next {a : Step} {s : State} (hcan : jobTable.can a s) {i : ℕ} {j j' : Job}
    (hj : s.jobs[i]? = some j) (hlive : j.live = true) (hj' : (a.next s).jobs[i]? = some j')
    (hdead : j'.live = false) : Ends i j a s.phase := by
  rcases changes_of_next hcan hj hj' with rfl | hchanges
  · simp [hlive] at hdead
  generalize s.phase = φ at hchanges
  cases hchanges with
  | note pid status => simp [stopped_note hlive] at hdead
  | sweep absent =>
    obtain ⟨hdone, rfl⟩ := sweep_dead hlive hdead
    exact .sweep hdone
  | resume | stop => simp [Job.setStopped, hlive] at hdead
  | groupDone pgid timed => exact .groupDone pgid timed
  | timeout pgid => exact .timeout pgid
  | traced pid normal absent hfind =>
    obtain ⟨-, rfl⟩ := sweep_dead (stopped_note hlive _) hdead
    have hpid := live_of_findIdx? hfind hj
    simp only [Bool.and_eq_true, beq_iff_eq, Bool.not_eq_true'] at hpid
    rw [← hpid.1.2]
    exact .traced normal hpid.2

theorem wf_machine (as : List Event) (hv : jobControl.Valid as .boot) :
    Wf (jobControl.exec as .boot).shell :=
  jobControl.invariant (I := fun m => Wf m.shell) (fun _ _ h hcan => h.step hcan) homes_boot.wf
    as hv

theorem procs_shell (m : Machine) (a : Step) :
    ((Event.shell a).next m).procs = (m.perform (m.call a)).procs := rfl

/-- No process of the group may be signalled, and all may: it has none. -/
theorem gone_of_killFails {pgid : ℕ} (hkill : m.killFails pgid = true)
    (hall : m.signallable pgid = true) : m.Gone pgid := by
  intro p hp hpgid
  have hmay := List.all_eq_true.1 hall p hp
  rw [killFails_eq_true.1 hkill p hp hpgid] at hmay
  simp [hpgid] at hmay

/-- A patient step ends a job only when its group is gone. -/
theorem gone_of_ends {a : Step} {i : ℕ} {j : Job} (hwf : Wf m.shell)
    (hcan : (Event.shell a).can m = true) (hpatient : (Event.shell a).patient m = true)
    (hj : m.shell.jobs[i]? = some j) (hlive : j.live = true) (hends : Ends i j a m.shell.phase) :
    ((Event.shell a).next m).Gone j.pid := by
  have hgrants := (grants_of_can hcan).2
  obtain ⟨huntimed, hwithin⟩ := Bool.and_eq_true_iff.1 hpatient
  generalize hφ : m.shell.phase = φ at hends
  cases hends with
  | sweep hdone =>
    simp only [Machine.grants, hφ, hj, Option.all_some, decide_eq_true_eq] at hgrants
    simp only [Event.within, hφ, hj, Option.all_some, hlive, hdone, Bool.and_self, Bool.not_true,
      Bool.false_or] at hwithin
    exact gone_of_killFails (m := m) hgrants.symm hwithin
  | traced normal hdone =>
    simp only [Machine.grants, hφ, Bool.and_eq_true, decide_eq_true_eq] at hgrants
    have hfound :
        (m.shell.jobs.any fun j' => j'.live && j'.pid == j.pid && !j'.leaderDone) = true :=
      List.any_eq_true.2 ⟨j, List.mem_of_getElem? hj, by simp [hlive, hdone]⟩
    simp only [Event.within, hφ, hfound, Bool.not_true, Bool.false_or] at hwithin
    exact gone_of_killFails hgrants.2.symm hwithin
  | groupDone pgid timed =>
    obtain ⟨j', hj', -, rfl⟩ := hwf.resuming i pgid timed hφ
    obtain rfl := Option.some.inj (hj.symm.trans hj')
    simp only [Machine.grants, hφ] at hgrants
    simp only [Event.within, hφ] at hwithin
    have hcall : m.call .groupDone = .other := by simp only [Machine.call]
    intro p hp hpgid
    rw [procs_shell, hcall] at hp
    have hchild := List.all_eq_true.1 hwithin p hp
    have hnot := List.all_eq_true.1 hgrants p hp
    simp_all
  | timeout pgid => exact absurd huntimed Bool.false_ne_true

theorem gone_of_next (hwf : Wf m.shell) (hcan : e.can m = true) (hpatient : e.patient m = true)
    {i : ℕ} {j j' : Job} (hj : m.shell.jobs[i]? = some j) (hlive : j.live = true)
    (hj' : (e.next m).shell.jobs[i]? = some j') (hdead : j'.live = false) :
    (e.next m).Gone j.pid := by
  rcases shell_next e m with ⟨a, rfl, hshell⟩ | hshell
  · rw [hshell] at hj'
    exact gone_of_ends hwf hcan hpatient hj hlive
      (ends_of_next (grants_of_can hcan).1 hj hlive hj' hdead)
  · rw [hshell, hj] at hj'
    rw [← Option.some.inj hj', hlive] at hdead
    exact absurd hdead (by simp)

theorem live_next (hwf : Wf m.shell) (hcan : e.can m = true) (hpatient : e.patient m = true)
    {i : ℕ} {j : Job} (hj : m.shell.jobs[i]? = some j) (hlive : j.live = true)
    (hthere : ¬ (e.next m).Gone j.pid) :
    ∃ j', (e.next m).shell.jobs[i]? = some j' ∧ j'.live = true ∧ j'.pid = j.pid := by
  obtain ⟨j', hj', h⟩ := later_step e m i j hj
  refine ⟨j', hj', ?_, h.pid⟩
  by_contra hdead
  exact hthere (gone_of_next hwf hcan hpatient hj hlive hj' (by simpa using hdead))

theorem live_exec : ∀ (as : List Event) (m : Machine), Wf m.shell → jobControl.Valid as m →
    jobControl.Each (fun e m => e.patient m = true) as m → ∀ {i : ℕ} {j : Job},
    m.shell.jobs[i]? = some j → j.live = true →
    jobControl.Throughout (fun m => ¬ m.Gone j.pid) as m →
    ∃ j', (jobControl.exec as m).shell.jobs[i]? = some j' ∧ j'.live = true ∧ j'.pid = j.pid
  | [], _, _, _, _, _, j, hj, hlive, _ => ⟨j, hj, hlive, rfl⟩
  | e :: as, m, hwf, hv, hpatient, i, j, hj, hlive, hthere => by
    obtain ⟨j', hj', hlive', hpid⟩ :=
      live_next hwf hv.1 hpatient.1 hj hlive hthere.2.first
    obtain ⟨j'', hj'', hlive'', hpid'⟩ := live_exec as (e.next m) (hwf.step hv.1) hv.2 hpatient.2
      hj' hlive' (by rw [hpid]; exact hthere.2)
    exact ⟨j'', hj'', hlive'', hpid'.trans hpid⟩

end Jobs

open Jobs

/-- In a run of patient steps a job is given up only when its group is gone, and as long as the
group has a process `find_job` hands out the job. -/
theorem live_until_gone (as : List Jobs.Event) (hv : jobControl.Valid as .boot)
    (hpatient : jobControl.Each (fun e m => e.patient m = true) as .boot) :
    (∀ u e v, as = u ++ e :: v → ∀ (i : ℕ) (j j' : Job),
      (jobControl.exec u .boot).shell.jobs[i]? = some j → j.live = true →
      (jobControl.exec (u ++ [e]) .boot).shell.jobs[i]? = some j' → j'.live = false →
      (jobControl.exec (u ++ [e]) .boot).Gone j.pid)
    ∧ ∀ u v, as = u ++ v → ∀ (i : ℕ) (j : Job),
      (jobControl.exec u .boot).shell.jobs[i]? = some j → j.live = true →
      jobControl.Throughout (fun m => ¬ m.Gone j.pid) v (jobControl.exec u .boot) →
      findJob (jobControl.exec as .boot).shell.jobs (i + 1) = some (i, j.pid) := by
  constructor
  · rintro u e v rfl i j j' hj hlive hj' hdead
    have hu := ((jobControl.valid_append u (e :: v) .boot).1 hv)
    rw [System.exec_append] at hj' ⊢
    exact gone_of_next (wf_machine u hu.1) hu.2.1 (hpatient.behind _ u) hj hlive hj' hdead
  · rintro u v rfl i j hj hlive hthere
    have hu := ((jobControl.valid_append u v .boot).1 hv)
    obtain ⟨j', hj', hlive', hpid⟩ := live_exec v _ (wf_machine u hu.1) hu.2
      ((jobControl.each_append u v).1 hpatient).2 hj hlive hthere
    rw [System.exec_append]
    exact findJob_eq_some.2 ⟨rfl, j', hj', hlive', hpid.symm⟩

/-- A background job ends and is swept. -/
def patientRun : List Jobs.Event :=
  [.shell (.launch [⟨.word, ['a']⟩]), .shell (.fork 5), .shell .forked, .exit 5 true,
    .shell .signal, .shell (.reap 5 (.ended true)), .shell .reapEnd, .shell (.sweep true),
    .shell .handled]

theorem live_until_gone_patientRun :
    jobControl.Valid patientRun .boot
    ∧ (∀ u e v, patientRun = u ++ e :: v → ∀ (i : ℕ) (j j' : Job),
      (jobControl.exec u .boot).shell.jobs[i]? = some j → j.live = true →
      (jobControl.exec (u ++ [e]) .boot).shell.jobs[i]? = some j' → j'.live = false →
      (jobControl.exec (u ++ [e]) .boot).Gone j.pid)
    ∧ ∀ u v, patientRun = u ++ v → ∀ (i : ℕ) (j : Job),
      (jobControl.exec u .boot).shell.jobs[i]? = some j → j.live = true →
      jobControl.Throughout (fun m => ¬ m.Gone j.pid) v (jobControl.exec u .boot) →
      findJob (jobControl.exec patientRun .boot).shell.jobs (i + 1) = some (i, j.pid) :=
  ⟨by decide, live_until_gone patientRun (by decide) (by decide)⟩

/-- The timer runs out, SIGTERM has been sent, and the job is dropped with its process running. -/
theorem timeout_drops_running_job :
    let u : List Jobs.Event :=
      [.shell (.launch [⟨.word, ['a']⟩]), .shell (.fork 5), .shell .forked,
        .shell (.resume 1 true true)]
    let m := jobControl.exec u .boot
    let m' := jobControl.exec (u ++ [.shell .timeout]) .boot
    jobControl.Valid (u ++ [.shell .timeout]) .boot
      ∧ findJob m.shell.jobs 1 = some (0, 5) ∧ findJob m'.shell.jobs 1 = none ∧ ¬ m'.Gone 5
      ∧ m'.any 5 (·.life = .running) := by
  decide

end Shell

end CShellXv6
