import CShellXv6.Proofs.JobEnds

/-!
# The limit on jobs

An entry of the job table is never given back, so that `job_count` is the number of all jobs
started so far. The limit is one on the jobs that are live only as long as none of 1024 jobs has
ended (`refused_live_iff`): behind 1024 jobs that have, nothing is live and every further job is
refused.
-/

namespace CShellXv6

namespace Shell

namespace Jobs

variable {m : Machine}

theorem asks_cases {a : Step} {φ : Phase} (h : a.asks φ = true) :
    (∃ tokens, a = .launch tokens ∧ φ = .idle)
      ∨ ∃ tokens leader, a = .waited ∧ φ = .waiting tokens leader [] true := by
  unfold Step.asks at h
  split at h
  · exact .inl ⟨_, rfl, rfl⟩
  · exact .inr ⟨_, _, rfl, rfl⟩
  · exact absurd h Bool.false_ne_true

theorem refused_iff {a : Step} {s : State} (h : a.asks s.phase = true) :
    a.refused s = true ↔ s.jobs.length = maxJobs := by
  unfold Step.refused
  rcases asks_cases h with ⟨tokens, rfl, hφ⟩ | ⟨tokens, leader, rfl, hφ⟩
  · by_cases hfull : s.jobs.length = maxJobs <;> simp [Step.next, hφ, hfull]
  · by_cases hfull : s.jobs.length = maxJobs <;>
      simp [Step.next, hφ, State.enterStopped, addStoppedJob, hfull]

theorem Enters.started {s s' : State} {a : Step} {job : Job} (h : Enters s a job s') :
    a.started s = [job] := by
  cases h with
  | launched tokens leader rest hφ => simp only [Step.started, hφ]
  | stopped tokens leader command hφ hroom => simp only [Step.started, hφ, if_neg hroom]

/-- A step that starts a job makes one entry, and no other step makes any. -/
theorem length_next (a : Step) (s : State) :
    (a.next s).jobs.length = s.jobs.length + (a.started s).length := by
  rcases next_jobs a s with ⟨i, f, -, hjobs⟩ | ⟨job, henters⟩
  swap
  · rw [henters.jobs, henters.started, List.length_append]
  rw [hjobs, List.length_modify]
  suffices a.started s = [] by rw [this, List.length_nil, Nat.add_zero]
  unfold Step.started
  split
  · rename_i tokens leader rest hφ
    have := congrArg List.length hjobs
    simp [Step.next, hφ, State.enterLaunched] at this
  · rename_i tokens leader hφ
    split_ifs with hfull
    · rfl
    · have := congrArg List.length hjobs
      simp [Step.next, hφ, State.enterStopped, addStoppedJob, hfull] at this
  · rfl

/-- The jobs started in a run. -/
def startedJobs (es : List Event) (m : Machine) : List Job :=
  jobControl.trace (fun e m => match e with
    | .shell a => a.started m.shell
    | _ => []) es m

theorem length_exec : ∀ (es : List Event) (m : Machine),
    (jobControl.exec es m).shell.jobs.length
      = m.shell.jobs.length + (startedJobs es m).length
  | [], m => rfl
  | e :: es, m => by
    rw [System.exec_cons, length_exec es (jobControl.next e m), startedJobs, startedJobs,
      System.trace, List.length_append, ← Nat.add_assoc]
    congr 1
    cases e with
    | shell a => exact length_next a m.shell
    | _ => rfl

theorem liveCount_eq_length {jobs : List Job} :
    liveCount jobs = jobs.length ↔ ∀ j ∈ jobs, j.live = true :=
  List.countP_eq_length

/-- All `n` jobs of the table have ended, and no process is left. -/
structure Ended (n : ℕ) (m : Machine) : Prop where
  procs : m.procs = []
  idle : m.shell.phase = .idle
  length : m.shell.jobs.length = n
  dead : ∀ j ∈ m.shell.jobs, j.live = false

/-- The handler has come to entry `i`; the leader of every job is done, and all jobs before that
have ended. -/
structure Sweeping (n i : ℕ) (m : Machine) : Prop where
  procs : m.procs = []
  phase : m.shell.phase = .sweeping i
  length : m.shell.jobs.length = n
  done : ∀ (k : ℕ) (j : Job), m.shell.jobs[k]? = some j → j.live = true →
    j.leaderDone = true ∧ i ≤ k

theorem Sweeping.sweep {n i : ℕ} (h : Sweeping n i m) (hi : i < n) :
    jobControl.can (.shell (.sweep true)) m
      ∧ Sweeping n (i + 1) (jobControl.next (.shell (.sweep true)) m) := by
  have hnext : Step.next (.sweep true) m.shell =
      { m.shell with
        jobs := m.shell.jobs.modify i (·.sweep true), phase := .sweeping (i + 1) } := by
    simp only [Step.next, h.phase]
  refine ⟨?_, h.procs, ?_, ?_, fun k j' hj' hlive => ?_⟩
  · simp [jobControl, Event.can, Step.allowed, Machine.grants, Machine.killFails, h.procs, h.phase,
      h.length, hi]
  · show (Step.next (.sweep true) m.shell).phase = _
    rw [hnext]
  · show (Step.next (.sweep true) m.shell).jobs.length = _
    rw [hnext, List.length_modify, h.length]
  · replace hj' : (Step.next (.sweep true) m.shell).jobs[k]? = some j' := hj'
    rw [hnext] at hj'
    obtain ⟨j, hj, rfl⟩ := modify_eq_some.1 hj'
    split_ifs at hlive ⊢ with hik
    · have hdone := h.done k j hj ((later_sweep true j).live hlive)
      simp [Job.sweep, (later_sweep true j).live hlive, hdone.1, Job.finish] at hlive
    · have hdone := h.done k j hj hlive
      exact ⟨hdone.1, by omega⟩

theorem Sweeping.sweeps {n : ℕ} : ∀ (k : ℕ) {i : ℕ} {m : Machine}, Sweeping n i m → i + k = n →
    jobControl.Valid (List.replicate k (.shell (.sweep true))) m
      ∧ Sweeping n n (jobControl.exec (List.replicate k (.shell (.sweep true))) m)
  | 0, i, m, h, hk => by
    obtain rfl : i = n := by omega
    exact ⟨trivial, h⟩
  | k + 1, i, m, h, hk => by
    obtain ⟨hcan, hnext⟩ := h.sweep (by omega)
    obtain ⟨hvalid, hexec⟩ := hnext.sweeps k (by omega)
    exact ⟨⟨hcan, hvalid⟩, hexec⟩

/-- A job is launched and ends, and the handler waits for it. -/
def endedChild : List Event :=
  [.shell (.launch [⟨.word, ['a']⟩]), .shell (.fork 5), .shell .forked, .exit 5 true,
    .shell .signal, .shell (.reap 5 (.ended true)), .shell .reapEnd]

/-- The whole of that, behind `n` other jobs. -/
def endedJob (n : ℕ) : List Event :=
  endedChild ++ (List.replicate (n + 1) (.shell (.sweep true)) ++ [.shell .handled])

/-- One job after the other, `n` in all. -/
def endedJobs (n : ℕ) : List Event :=
  (List.range n).flatMap endedJob

theorem noteChild_ended {jobs : List Job} (h : ∀ j ∈ jobs, j.live = false) {job : Job} {pid : ℕ}
    (hlive : job.live = true) (hpid : job.pid = pid) (normal : Bool) :
    (noteChild (jobs ++ [job]) pid (.ended normal)).1 = jobs ++ [job.note (.ended normal)] := by
  have hfind : (jobs ++ [job]).findIdx? (fun j => j.live && j.pid == pid) = some jobs.length := by
    rw [List.findIdx?_append, List.findIdx?_eq_none_iff.2 fun j hj => by simp [h j hj]]
    simp [hlive, hpid]
  have hlast : jobs.length < (jobs ++ [job]).length := by simp
  simp only [noteChild, hfind, List.modify_eq_take_cons_drop hlast]
  simp

theorem endedChild_exec {jobs : List Job} (hroom : jobs.length ≠ maxJobs) (out : List Line)
    (births : ℕ) (leaders : List (Option ℕ)) (reaped : List (ℕ × Reaper × Bool))
    (copies : List (List Job)) (copyOut : List Line) :
    let m : Machine := ⟨⟨jobs, .idle, out⟩, [], births, leaders, reaped, copies, copyOut⟩
    let m' := jobControl.exec endedChild m
    jobControl.Valid endedChild m ∧ m'.procs = [] ∧ m'.shell.phase = .sweeping 0
      ∧ m'.shell.jobs
        = (noteChild (jobs ++ [newJob 5 [⟨.word, ['a']⟩] false]) 5 (.ended true)).1 := by
  simp [endedChild, jobControl, Event.can, Event.next, Step.allowed, Step.next, Machine.grants,
    Machine.unused, Machine.any, Machine.call, Machine.perform, Machine.born, Machine.update,
    Machine.collect, Machine.remove, Proc.shows, Proc.alive, Phase.leader, State.enterLaunched,
    hroom]

theorem Ended.sweeping {n : ℕ} (h : Ended n m) (hn : n < maxJobs) :
    jobControl.Valid endedChild m ∧ Sweeping (n + 1) 0 (jobControl.exec endedChild m) := by
  obtain ⟨⟨jobs, φ, out⟩, procs, births, leaders, reaped, copies, copyOut⟩ := m
  obtain ⟨hprocs, hidle, hlength, hdead⟩ := h
  simp only at hprocs hidle hlength hdead
  subst hprocs hidle hlength
  obtain ⟨hvalid, hprocs, hphase, hjobs⟩ :=
    endedChild_exec (Nat.ne_of_lt hn) out births leaders reaped copies copyOut
  replace hjobs := hjobs.trans (noteChild_ended hdead rfl rfl true)
  refine ⟨hvalid, hprocs, hphase, by rw [hjobs, List.length_append]; rfl, fun k j hj hlive => ?_⟩
  rw [hjobs] at hj
  rcases List.mem_append.1 (List.mem_of_getElem? hj) with hold | hnew
  · rw [hdead j hold] at hlive
    exact absurd hlive Bool.false_ne_true
  · rw [List.mem_singleton.1 hnew]
    exact ⟨rfl, Nat.zero_le k⟩

theorem Sweeping.handled {n : ℕ} (h : Sweeping n n m) :
    jobControl.can (.shell .handled) m ∧ Ended n (jobControl.next (.shell .handled) m) := by
  have hnext : Step.next .handled m.shell = { m.shell with phase := .idle } := by
    simp only [Step.next, h.phase]
  refine ⟨?_, h.procs, ?_, ?_, fun j hj => ?_⟩
  · simp [jobControl, Event.can, Step.allowed, Machine.grants, h.phase, h.length]
  · show (Step.next .handled m.shell).phase = _
    rw [hnext]
  · show (Step.next .handled m.shell).jobs.length = _
    rw [hnext, h.length]
  · replace hj : j ∈ (Step.next .handled m.shell).jobs := hj
    rw [hnext] at hj
    obtain ⟨k, hk⟩ := List.getElem?_of_mem hj
    have hlt : k < m.shell.jobs.length := (List.getElem?_eq_some_iff.1 hk).1
    rw [Bool.eq_false_iff]
    intro hlive
    have := (h.done k j hk hlive).2
    have := h.length
    omega

theorem Ended.endedJob {n : ℕ} (h : Ended n m) (hn : n < maxJobs) :
    jobControl.Valid (endedJob n) m ∧ Ended (n + 1) (jobControl.exec (Jobs.endedJob n) m) := by
  obtain ⟨hvalid, hsweeping⟩ := h.sweeping hn
  obtain ⟨hsweeps, hswept⟩ := hsweeping.sweeps (n + 1) (Nat.zero_add _)
  obtain ⟨hcan, hended⟩ := hswept.handled
  unfold Jobs.endedJob
  simp only [System.valid_append, System.exec_append]
  exact ⟨⟨hvalid, hsweeps, hcan, trivial⟩, hended⟩

theorem ended_exec : ∀ n ≤ maxJobs,
    jobControl.Valid (endedJobs n) .boot ∧ Ended n (jobControl.exec (endedJobs n) .boot)
  | 0, _ => ⟨trivial, rfl, rfl, rfl, by simp [endedJobs, Machine.boot, State.boot]⟩
  | n + 1, hn => by
    obtain ⟨hvalid, hended⟩ := ended_exec n (by omega)
    obtain ⟨hjob, hnext⟩ := hended.endedJob hn
    simp only [endedJobs, List.range_succ, List.flatMap_append, List.flatMap_singleton,
      System.valid_append, System.exec_append]
    exact ⟨⟨hvalid, hjob⟩, hnext⟩

/-- Behind jobs that have all ended, as many as the table has room for, `runbuff` refuses the next
one. -/
theorem endedJobs_refuse (n : ℕ) (hn : n = maxJobs) :
    let s := (jobControl.exec (endedJobs n) .boot).shell
    jobControl.Valid (endedJobs n) .boot ∧ s.phase = .idle
      ∧ (Step.launch [⟨.word, ['a']⟩]).refused s = true ∧ liveCount s.jobs = 0 := by
  intro s
  obtain ⟨hvalid, hended⟩ := ended_exec n (Nat.le_of_eq hn)
  have hasks : (Step.launch [⟨.word, ['a']⟩]).asks s.phase = true := by
    rw [hended.idle]
    rfl
  refine ⟨hvalid, hended.idle, (refused_iff hasks).2 (hended.length.trans hn), ?_⟩
  exact List.countP_eq_zero.2 fun j hj => by simp [hended.dead j hj]

end Jobs

open Jobs

/-- In every state of a run, a step that asks for an entry is refused only if 1024 jobs are live,
just if fewer than 1024 jobs have been started or all those that have are live. -/
theorem refused_live_iff (es : List Jobs.Event) (hv : jobControl.Valid es .boot) (a : Jobs.Step)
    (hasks : a.asks (jobControl.exec es .boot).shell.phase = true) :
    let s := (jobControl.exec es .boot).shell
    (a.refused s = true → liveCount s.jobs = 1024)
      ↔ (startedJobs es .boot).length < 1024 ∨ ∀ j ∈ s.jobs, j.live = true := by
  intro s
  have hbound : s.jobs.length ≤ 1024 := (wf_machine es hv).bound
  have hlength : s.jobs.length = (startedJobs es .boot).length := by
    rw [length_exec, show (Machine.boot.shell.jobs).length = 0 from rfl, Nat.zero_add]
  rw [refused_iff hasks, ← liveCount_eq_length, ← hlength, show maxJobs = 1024 from rfl]
  constructor
  · intro h
    rcases Nat.lt_or_eq_of_le hbound with hlt | heq
    · exact .inl hlt
    · exact .inr ((h heq).trans heq.symm)
  · rintro (hlt | hlive) heq
    · exact absurd heq (Nat.ne_of_lt hlt)
    · exact hlive.trans heq

/-- A job is launched, and `runbuff` asks for an entry for another one. -/
theorem refused_live_iff_launched :
    let es : List Jobs.Event :=
      [.shell (.launch [⟨.word, ['a']⟩]), .shell (.fork 5), .shell .forked]
    let s := (jobControl.exec es .boot).shell
    jobControl.Valid es .boot ∧ s.jobs.length = 1
      ∧ ((Jobs.Step.refused (.launch [⟨.word, ['b']⟩]) s = true → liveCount s.jobs = 1024)
        ↔ (startedJobs es .boot).length < 1024 ∨ ∀ j ∈ s.jobs, j.live = true) :=
  ⟨by decide, by decide, refused_live_iff _ (by decide) (.launch _) (by decide)⟩

/-- A thousand and twenty-four jobs, one after the other, are too many. -/
theorem ended_jobs_refused :
    let s := (jobControl.exec (endedJobs 1024) .boot).shell
    jobControl.Valid (endedJobs 1024) .boot ∧ s.phase = .idle
      ∧ Jobs.Step.refused (.launch [⟨.word, ['a']⟩]) s = true ∧ liveCount s.jobs = 0 :=
  endedJobs_refuse 1024 rfl

end Shell

end CShellXv6
