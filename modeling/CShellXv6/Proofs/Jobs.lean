import CShellXv6.Shell.Jobs

/-!
# What holds of the job table

An entry keeps its pid, its name and its command, and once it is not live it stays so, whatever
the system calls return.
-/

namespace CShellXv6

namespace Shell

namespace Jobs

/-- The steps of each phase. -/
inductive Enabled (count : ℕ) : Step → Phase → Prop where
  | signal : Enabled count .signal .idle
  | reap (pid : ℕ) (status : Status) : Enabled count (.reap pid status) .reaping
  | reapEnd : Enabled count .reapEnd .reaping
  | sweep (absent : Bool) (i : ℕ) (h : i < count) : Enabled count (.sweep absent) (.sweeping i)
  | handled : Enabled count .handled (.sweeping count)
  | launch (tokens : List Token) : Enabled count (.launch tokens) .idle
  | command (tokens : List Token) : Enabled count (.command tokens) .idle
  | forkLaunched (pid : ℕ) (tokens : List Token) (made : List ℕ) :
      Enabled count (.fork pid) (.launching tokens made)
  | forkStarted (pid : ℕ) (tokens : List Token) (made : List ℕ) :
      Enabled count (.fork pid) (.starting tokens made)
  | launched (tokens : List Token) (made : List ℕ) :
      Enabled count .forked (.launching tokens made)
  | started (tokens : List Token) (made : List ℕ) :
      Enabled count .forked (.starting tokens made)
  | wait (status : Status) (tokens : List Token) (leader pid : ℕ) (todo : List ℕ)
      (stopped : Bool) : Enabled count (.wait status) (.waiting tokens leader (pid :: todo) stopped)
  | waited (tokens : List Token) (leader : ℕ) (stopped : Bool) :
      Enabled count .waited (.waiting tokens leader [] stopped)
  | resume (number : ℕ) (foreground timed : Bool) :
      Enabled count (.resume number foreground timed) .idle
  | waitGroup (pid : ℕ) (status : Status) (index pgid : ℕ) (timed : Bool) :
      Enabled count (.waitGroup pid status) (.resuming index pgid timed)
  | groupDone (index pgid : ℕ) (timed : Bool) :
      Enabled count .groupDone (.resuming index pgid timed)
  | timeout (index pgid : ℕ) : Enabled count .timeout (.resuming index pgid true)
  | ping (number : ℕ) : Enabled count (.ping number) .idle
  | attach (pid : ℕ) : Enabled count (.attach pid) .idle
  | snoop (pid : ℕ) : Enabled count (.snoop pid) .idle
  | attached (status : Status) (pid : ℕ) (byPid : Bool) :
      Enabled count (.attached status) (.attaching pid byPid)
  | traced (status : Status) (absent : Bool) (pid : ℕ) (byPid : Bool) :
      Enabled count (.traced status absent) (.tracing pid byPid)
  | traceLost (pid : ℕ) (byPid : Bool) : Enabled count .traceLost (.tracing pid byPid)
  | interrupt (pid : ℕ) : Enabled count .interrupt (.tracing pid true)
  | detached (status : Status) (pid : ℕ) : Enabled count (.detached status) (.detaching pid)

theorem enabled_of_allowed {a : Step} {count : ℕ} {φ : Phase} (h : a.allowed count φ = true) :
    Enabled count a φ := by
  unfold Step.allowed at h
  split at h
  all_goals first
    | exact absurd h Bool.false_ne_true
    | (simp only [decide_eq_true_eq] at h; subst h; constructor)
    | (subst h; constructor)
    | (constructor; simpa using h)
    | constructor

/-- What an entry may become. -/
structure Job.Later (j j' : Job) : Prop where
  pid : j'.pid = j.pid
  name : j'.name = j.name
  command : j'.command = j.command
  live : j'.live = true → j.live = true
  leaderDone : j.leaderDone = true → j'.leaderDone = true

theorem Job.Later.refl (j : Job) : j.Later j :=
  ⟨rfl, rfl, rfl, id, id⟩

theorem Job.Later.trans {j j' j'' : Job} (h : j.Later j') (h' : j'.Later j'') : j.Later j'' :=
  ⟨h'.pid.trans h.pid, h'.name.trans h.name, h'.command.trans h.command, h.live ∘ h'.live,
    h'.leaderDone ∘ h.leaderDone⟩

theorem later_setStopped (value : Bool) (j : Job) : j.Later (j.setStopped value) :=
  ⟨rfl, rfl, rfl, id, id⟩

theorem later_finish (j : Job) : j.Later j.finish :=
  ⟨rfl, rfl, rfl, fun h => absurd h Bool.false_ne_true, id⟩

theorem later_note (status : Status) (j : Job) : j.Later (j.note status) := by
  cases status with
  | ended normal => exact ⟨rfl, rfl, rfl, id, fun _ => rfl⟩
  | stopped => exact later_setStopped true j
  | continued => exact later_setStopped false j

theorem later_sweep (absent : Bool) (j : Job) : j.Later (j.sweep absent) := by
  unfold Job.sweep
  split_ifs
  · exact later_finish j
  · exact Job.Later.refl j

theorem modify_eq_some {jobs : List Job} {i k : ℕ} {f : Job → Job} {j' : Job} :
    (jobs.modify i f)[k]? = some j' ↔ ∃ j, jobs[k]? = some j ∧ (if i = k then f j else j) = j' := by
  rw [List.getElem?_modify, Option.map_eq_map, Option.map_eq_some_iff]

/-- A command in progress ends, and its leader gets the last entry. -/
inductive Enters (s : State) : Step → Job → State → Prop where
  | launched (tokens : List Token) (leader : ℕ) (rest : List ℕ)
      (hφ : s.phase = .launching tokens (leader :: rest)) :
      Enters s .forked (newJob leader tokens false)
        ⟨s.jobs ++ [newJob leader tokens false], .idle, s.out ++ [.launched s.jobs.length leader]⟩
  | stopped (tokens : List Token) (leader : ℕ) (command : List Char)
      (hφ : s.phase = .waiting tokens leader [] true) (hroom : s.jobs.length ≠ maxJobs) :
      Enters s .waited (newJob leader tokens true)
        ⟨s.jobs ++ [newJob leader tokens true], .idle, s.out ++ [.stopped s.jobs.length command]⟩

namespace Enters

variable {s s' : State} {a : Step} {job : Job}

theorem jobs (h : Enters s a job s') : s'.jobs = s.jobs ++ [job] := by
  cases h <;> rfl

theorem phase (h : Enters s a job s') : s'.phase = .idle := by
  cases h <;> rfl

theorem leader (h : Enters s a job s') : s.phase.leader = some job.pid := by
  cases h with
  | launched tokens leader rest hφ => rw [hφ]; rfl
  | stopped tokens leader command hφ => rw [hφ]; rfl

theorem live (h : Enters s a job s') : job.live = true := by
  cases h <;> rfl

theorem room (h : Enters s a job s') (hbound : s.jobs.length ≤ maxJobs)
    (hlaunch : ∀ tokens made, s.phase = .launching tokens made → s.jobs.length < maxJobs) :
    s.jobs.length < maxJobs := by
  cases h with
  | launched tokens leader rest hφ => exact hlaunch tokens _ hφ
  | stopped tokens leader command hφ hroom => exact Nat.lt_of_le_of_ne hbound hroom

end Enters

/-- A step rewrites one entry or appends one. -/
theorem next_jobs (a : Step) (s : State) :
    (∃ i f, (∀ j : Job, j.Later (f j)) ∧ (a.next s).jobs = s.jobs.modify i f)
      ∨ ∃ job, Enters s a job (a.next s) := by
  have hkeep : ∀ s' : State, s'.jobs = s.jobs → (∃ i f, (∀ j : Job, j.Later (f j))
      ∧ s'.jobs = s.jobs.modify i f) ∨ ∃ job, Enters s a job s' :=
    fun s' h => .inl ⟨0, id, Job.Later.refl, by rw [h]; exact (List.modify_id _ _).symm⟩
  unfold Step.next
  split
  all_goals try exact hkeep _ rfl
  · simp only [noteChild]
    split
    · exact hkeep ⟨_, _, _⟩ rfl
    · exact .inl ⟨_, _, later_note _, rfl⟩
  · exact .inl ⟨_, _, later_sweep _, rfl⟩
  · split_ifs <;> exact hkeep _ rfl
  · rename_i tokens made hφ
    cases made with
    | nil => exact hkeep _ rfl
    | cons leader rest => exact .inr ⟨_, .launched tokens leader rest hφ⟩
  · rename_i tokens leader stopped hφ
    unfold State.enterStopped addStoppedJob
    split_ifs with hstopped hfull
    · exact hkeep _ rfl
    · subst hstopped
      exact .inr ⟨_, .stopped tokens leader _ hφ hfull⟩
    · exact hkeep _ rfl
  · unfold State.resume
    split
    · exact hkeep _ rfl
    · split_ifs <;> exact .inl ⟨_, _, later_setStopped _, rfl⟩
  · exact .inl ⟨_, _, later_setStopped _, rfl⟩
  · exact .inl ⟨_, _, later_finish, rfl⟩
  · exact .inl ⟨_, _, later_finish, rfl⟩
  · simp only [noteTracedExit]
    split_ifs
    · split
      · exact hkeep _ rfl
      · exact .inl ⟨_, _, fun j => (later_note _ j).trans (later_sweep _ _), rfl⟩
    · exact hkeep _ rfl

/-- Where the entries behind a step come from. -/
theorem entry_next {a : Step} {s : State} {i : ℕ} {j' : Job}
    (h : (a.next s).jobs[i]? = some j') :
    (∃ j, s.jobs[i]? = some j ∧ j.Later j')
      ∨ i = s.jobs.length ∧ Enters s a j' (a.next s) := by
  rcases next_jobs a s with ⟨k, f, hf, hjobs⟩ | ⟨job, henters⟩
  · rw [hjobs] at h
    obtain ⟨j, hj, rfl⟩ := modify_eq_some.1 h
    refine .inl ⟨j, hj, ?_⟩
    split_ifs
    · exact hf j
    · exact Job.Later.refl j
  · rw [henters.jobs, List.getElem?_append] at h
    split_ifs at h with hi
    · exact .inl ⟨j', h, Job.Later.refl j'⟩
    · have hzero : i - s.jobs.length = 0 := by
        by_contra hne
        rw [List.getElem?_eq_none (by simp; omega)] at h
        exact absurd h (by simp)
      rw [hzero, List.getElem?_cons_zero] at h
      rw [Option.some.inj h] at henters
      exact .inr ⟨by omega, henters⟩

/-- Every entry is still there, at its index. -/
def Later (jobs jobs' : List Job) : Prop :=
  ∀ (i : ℕ) (j : Job), jobs[i]? = some j → ∃ j' : Job, jobs'[i]? = some j' ∧ j.Later j'

theorem Later.refl (jobs : List Job) : Later jobs jobs :=
  fun _ j h => ⟨j, h, Job.Later.refl j⟩

theorem Later.trans {jobs jobs' jobs'' : List Job} (h : Later jobs jobs')
    (h' : Later jobs' jobs'') : Later jobs jobs'' := by
  intro i j hj
  obtain ⟨j', hj', hlater⟩ := h i j hj
  obtain ⟨j'', hj'', hlater'⟩ := h' i j' hj'
  exact ⟨j'', hj'', hlater.trans hlater'⟩

theorem Later.length_le {jobs jobs' : List Job} (h : Later jobs jobs') :
    jobs.length ≤ jobs'.length := by
  by_contra hlt
  obtain ⟨j', hj', -⟩ := h jobs'.length _ (List.getElem?_eq_getElem (by omega))
  simp at hj'

theorem later_next (a : Step) (s : State) : Later s.jobs (a.next s).jobs := by
  intro i j hj
  rcases next_jobs a s with ⟨k, f, hf, hjobs⟩ | ⟨job, henters⟩
  · rw [hjobs]
    refine ⟨_, modify_eq_some.2 ⟨j, hj, rfl⟩, ?_⟩
    split_ifs
    · exact hf j
    · exact Job.Later.refl j
  · refine ⟨j, ?_, Job.Later.refl j⟩
    rwa [henters.jobs, List.getElem?_append_left (List.getElem?_eq_some_iff.1 hj).1]

theorem later_exec (as : List Step) (s : State) : Later s.jobs (jobTable.exec as s).jobs := by
  induction as generalizing s with
  | nil => exact Later.refl s.jobs
  | cons a as ih => exact (later_next a s).trans (ih (a.next s))

theorem findJob_eq_some {jobs : List Job} {number : Int} {i pgid : ℕ} :
    findJob jobs number = some (i, pgid) ↔
      number = i + 1 ∧ ∃ j, jobs[i]? = some j ∧ j.live = true ∧ pgid = j.pid := by
  unfold findJob
  constructor
  · intro h
    split_ifs at h with hneg
    split at h
    · simp at h
    · rename_i j hj
      split_ifs at h with hlive
      simp only [Option.some.injEq, Prod.mk.injEq] at h
      obtain ⟨rfl, rfl⟩ := h
      exact ⟨by omega, j, hj, hlive, rfl⟩
  · rintro ⟨rfl, j, hj, hlive, rfl⟩
    have hi : ((i : Int) + 1 - 1).toNat = i := by omega
    rw [if_neg (by omega), hi, hj]
    simp [hlive]

/-- How a step rewrites the entry `j` with index `i`. -/
inductive Changes (jobs : List Job) (i : ℕ) (j : Job) : Job → Step → Phase → Prop where
  | note (pid : ℕ) (status : Status)
      (hfind : jobs.findIdx? (fun j => j.live && j.pid == pid) = some i) :
      Changes jobs i j (j.note status) (.reap pid status) .reaping
  | sweep (absent : Bool) : Changes jobs i j (j.sweep absent) (.sweep absent) (.sweeping i)
  | resume (number : ℕ) (foreground timed : Bool) :
      Changes jobs i j (j.setStopped false) (.resume number foreground timed) .idle
  | stop (pid pgid : ℕ) (timed : Bool) :
      Changes jobs i j (j.setStopped true) (.waitGroup pid .stopped) (.resuming i pgid timed)
  | groupDone (pgid : ℕ) (timed : Bool) :
      Changes jobs i j j.finish .groupDone (.resuming i pgid timed)
  | timeout (pgid : ℕ) : Changes jobs i j j.finish .timeout (.resuming i pgid true)
  | traced (pid : ℕ) (normal absent : Bool)
      (hfind : jobs.findIdx? (fun j => j.live && j.pid == pid && !j.leaderDone) = some i) :
      Changes jobs i j ((j.note (.ended normal)).sweep absent) (.traced (.ended normal) absent)
        (.tracing pid true)

theorem modify_cases {jobs : List Job} {i k : ℕ} {f : Job → Job} {j j' : Job}
    (hj : jobs[i]? = some j) (hj' : (jobs.modify k f)[i]? = some j') :
    j' = j ∨ k = i ∧ j' = f j := by
  obtain ⟨o, ho, rfl⟩ := modify_eq_some.1 hj'
  obtain rfl := Option.some.inj (hj.symm.trans ho)
  split_ifs with hk
  · exact .inr ⟨hk, rfl⟩
  · exact .inl rfl

theorem changes_of_next {a : Step} {s : State} (hcan : jobTable.can a s) {i : ℕ} {j j' : Job}
    (hj : s.jobs[i]? = some j) (hj' : (a.next s).jobs[i]? = some j') :
    j' = j ∨ Changes s.jobs i j j' a s.phase := by
  have hsame : (a.next s).jobs[i]? = s.jobs[i]? → j' = j := by
    intro h
    rw [h, hj] at hj'
    exact (Option.some.inj hj').symm
  have hlt : i < s.jobs.length := (List.getElem?_eq_some_iff.1 hj).1
  have henabled := enabled_of_allowed hcan
  generalize hφ : s.phase = φ at henabled
  cases henabled with
  | signal | reapEnd | handled | command | forkLaunched | forkStarted | wait | ping | attach
  | snoop | attached | traceLost | interrupt | detached =>
    refine .inl (hsame ?_)
    simp only [Step.next, hφ]
  | reap pid status =>
    simp only [Step.next, hφ, noteChild] at hj'
    split at hj'
    · exact .inl (Option.some.inj (hj'.symm.trans hj))
    · rename_i k hk
      refine (modify_cases hj hj').imp id ?_
      rintro ⟨rfl, rfl⟩
      exact .note pid status hk
  | sweep absent k =>
    simp only [Step.next, hφ] at hj'
    refine (modify_cases hj hj').imp id ?_
    rintro ⟨rfl, rfl⟩
    exact .sweep absent
  | launch tokens =>
    refine .inl (hsame ?_)
    simp only [Step.next, hφ]
    split_ifs <;> rfl
  | launched tokens made =>
    refine .inl (hsame ?_)
    simp only [Step.next, hφ]
    cases made with
    | nil => rfl
    | cons leader rest => exact List.getElem?_append_left hlt
  | started tokens made =>
    refine .inl (hsame ?_)
    cases made <;> simp only [Step.next, hφ]
  | waited tokens leader stopped =>
    refine .inl (hsame ?_)
    simp only [Step.next, hφ, State.enterStopped, addStoppedJob]
    split_ifs
    · rfl
    · exact List.getElem?_append_left hlt
    · rfl
  | resume number foreground timed =>
    simp only [Step.next, hφ, State.resume] at hj'
    split at hj'
    · exact .inl (Option.some.inj (hj'.symm.trans hj))
    · split_ifs at hj' <;>
      · refine (modify_cases hj hj').imp id ?_
        rintro ⟨rfl, rfl⟩
        exact .resume number foreground timed
  | waitGroup pid status index pgid timed =>
    cases status with
    | stopped =>
      simp only [Step.next, hφ] at hj'
      refine (modify_cases hj hj').imp id ?_
      rintro ⟨rfl, rfl⟩
      exact .stop pid pgid timed
    | ended | continued =>
      refine .inl (hsame ?_)
      simp only [Step.next]
  | groupDone index pgid timed =>
    simp only [Step.next, hφ] at hj'
    refine (modify_cases hj hj').imp id ?_
    rintro ⟨rfl, rfl⟩
    exact .groupDone pgid timed
  | timeout index pgid =>
    simp only [Step.next, hφ] at hj'
    refine (modify_cases hj hj').imp id ?_
    rintro ⟨rfl, rfl⟩
    exact .timeout pgid
  | traced status absent pid byPid =>
    cases status with
    | ended normal =>
      simp only [Step.next, hφ, noteTracedExit] at hj'
      split_ifs at hj' with hbyPid
      · subst hbyPid
        split at hj'
        · exact .inl (Option.some.inj (hj'.symm.trans hj))
        · rename_i k hk
          refine (modify_cases hj hj').imp id ?_
          rintro ⟨rfl, rfl⟩
          exact .traced pid normal absent hk
      · exact .inl (Option.some.inj (hj'.symm.trans hj))
    | stopped | continued =>
      refine .inl (hsame ?_)
      simp only [Step.next]

/-- The table is well formed, and a job that is resumed is live and is that of the group. -/
structure Wf (s : State) : Prop where
  bound : s.jobs.length ≤ maxJobs
  stopped : ∀ j ∈ s.jobs, j.stopped = true → j.live = true
  room : ∀ tokens made, s.phase = .launching tokens made → s.jobs.length < maxJobs
  resuming : ∀ index pgid timed, s.phase = .resuming index pgid timed →
    ∃ j, s.jobs[index]? = some j ∧ j.live = true ∧ j.pid = pgid

theorem stopped_finish (j : Job) : j.finish.stopped = true → j.finish.live = true :=
  fun h => absurd h Bool.false_ne_true

theorem stopped_sweep {j : Job} (h : j.stopped = true → j.live = true) (absent : Bool) :
    (j.sweep absent).stopped = true → (j.sweep absent).live = true := by
  unfold Job.sweep
  split_ifs
  · exact stopped_finish j
  · exact h

theorem stopped_note {j : Job} (hlive : j.live = true) (status : Status) :
    (j.note status).live = true := by
  cases status <;> exact hlive

theorem live_of_findIdx? {jobs : List Job} {i : ℕ} {p : Job → Bool} {j : Job}
    (h : jobs.findIdx? p = some i) (hj : jobs[i]? = some j) : p j = true := by
  obtain ⟨hi, hp, -⟩ := List.findIdx?_eq_some_iff_getElem.1 h
  obtain ⟨_, rfl⟩ := List.getElem?_eq_some_iff.1 hj
  exact hp

theorem Changes.stopped {jobs : List Job} {i : ℕ} {j j' : Job} {a : Step} {φ : Phase}
    (h : Changes jobs i j j' a φ) (hj : jobs[i]? = some j)
    (hold : j.stopped = true → j.live = true)
    (hresuming : ∀ pgid timed, φ = .resuming i pgid timed → j.live = true) :
    j'.stopped = true → j'.live = true := by
  cases h with
  | note pid status hfind =>
    have hlive := Bool.and_eq_true_iff.1 (live_of_findIdx? hfind hj)
    exact fun _ => stopped_note hlive.1 status
  | sweep absent => exact stopped_sweep hold absent
  | resume number foreground timed => exact fun hstop => absurd hstop Bool.false_ne_true
  | stop pid pgid timed => exact fun _ => hresuming pgid timed rfl
  | groupDone pgid timed => exact stopped_finish j
  | timeout pgid => exact stopped_finish j
  | traced pid normal absent hfind =>
    have hlive := live_of_findIdx? hfind hj
    simp only [Bool.and_eq_true] at hlive
    exact stopped_sweep (fun _ => stopped_note hlive.1.1 (.ended normal)) absent

/-- No job is being launched or resumed. -/
def Phase.Plain : Phase → Prop
  | launching _ _ | resuming _ _ _ => False
  | _ => True

/-- How a step comes to launch or resume a job, or goes on with it. -/
inductive Moves (s : State) : State → Prop where
  | plain {s' : State} (hφ : s'.phase.Plain) : Moves s s'
  | same {s' : State} (hjobs : s'.jobs = s.jobs) (hφ : s'.phase = s.phase) : Moves s s'
  | launch (tokens : List Token) (hroom : s.jobs.length ≠ maxJobs) :
      Moves s { s with phase := .launching tokens [] }
  | fork (tokens : List Token) (made : List ℕ) (pid : ℕ) (hφ : s.phase = .launching tokens made) :
      Moves s { s with phase := .launching tokens (made ++ [pid]) }
  | resume (index : ℕ) (j : Job) (timed : Bool) (out : List Line) (hj : s.jobs[index]? = some j)
      (hlive : j.live = true) :
      Moves s ⟨setJobStopped s.jobs index false, .resuming index j.pid timed, out⟩

theorem moves_resume {s : State} (hφ : s.phase = .idle) (number : ℕ) (foreground timed : Bool) :
    Moves s (s.resume number foreground timed) := by
  unfold State.resume
  split
  · exact .same rfl rfl
  · rename_i index pgid hfind
    split_ifs at hfind with hnumber
    obtain ⟨-, j, hj, hlive, rfl⟩ := findJob_eq_some.1 hfind
    split_ifs
    · exact .resume index j timed _ hj hlive
    · exact .plain (by rw [hφ]; trivial)

theorem moves_next {a : Step} {s : State} (hcan : jobTable.can a s) : Moves s (a.next s) := by
  have henabled := enabled_of_allowed hcan
  generalize hφ : s.phase = φ at henabled
  cases henabled with
  | signal | reapEnd | handled | command | forkStarted | wait | attach | snoop | traceLost
  | interrupt | detached | sweep | groupDone | timeout =>
    simp only [Step.next, hφ]
    exact .plain trivial
  | ping | reap =>
    simp only [Step.next, hφ]
    exact .plain (by simp only [hφ]; trivial)
  | launch tokens =>
    simp only [Step.next, hφ]
    split_ifs with hfull
    · exact .plain trivial
    · exact .launch tokens hfull
  | forkLaunched pid tokens made =>
    simp only [Step.next, hφ]
    exact .fork tokens made pid hφ
  | launched tokens made | started tokens made =>
    cases made with
    | nil | cons =>
      simp only [Step.next, hφ, State.enterLaunched]
      exact .plain trivial
  | waited tokens leader stopped =>
    simp only [Step.next, hφ, State.enterStopped, addStoppedJob]
    split_ifs <;> exact .plain trivial
  | resume number foreground timed =>
    simp only [Step.next, hφ]
    exact moves_resume hφ number foreground timed
  | waitGroup pid status index pgid timed =>
    cases status with
    | stopped =>
      simp only [Step.next, hφ]
      exact .plain trivial
    | ended | continued => exact .same rfl rfl
  | attached status pid byPid =>
    simp only [Step.next, hφ]
    split_ifs <;> exact .plain trivial
  | traced status absent pid byPid =>
    cases status with
    | ended normal =>
      simp only [Step.next, hφ]
      split_ifs <;> exact .plain trivial
    | stopped | continued => exact .same rfl rfl

theorem Moves.room {s s' : State} (h : Moves s s') (hbound : s.jobs.length ≤ maxJobs)
    (hroom : ∀ tokens made, s.phase = .launching tokens made → s.jobs.length < maxJobs)
    {tokens : List Token} {made : List ℕ} (hφ : s'.phase = .launching tokens made) :
    s'.jobs.length < maxJobs := by
  cases h with
  | plain h => simp [hφ, Phase.Plain] at h
  | same hjobs hsame =>
    rw [hjobs]
    exact hroom tokens made (hsame ▸ hφ)
  | launch ts hfull => exact Nat.lt_of_le_of_ne hbound hfull
  | fork ts made' pid hold => exact hroom ts made' hold
  | resume => cases hφ

theorem Moves.resuming {s s' : State} (h : Moves s s')
    (hresuming : ∀ index pgid timed, s.phase = .resuming index pgid timed →
      ∃ j, s.jobs[index]? = some j ∧ j.live = true ∧ j.pid = pgid)
    {index pgid : ℕ} {timed : Bool} (hφ : s'.phase = .resuming index pgid timed) :
    ∃ j, s'.jobs[index]? = some j ∧ j.live = true ∧ j.pid = pgid := by
  cases h with
  | plain h => simp [hφ, Phase.Plain] at h
  | same hjobs hsame =>
    rw [hjobs]
    exact hresuming index pgid timed (hsame ▸ hφ)
  | launch | fork => cases hφ
  | resume i j timed' out hj hlive =>
    obtain ⟨rfl, rfl, -⟩ := Phase.resuming.inj hφ
    exact ⟨j.setStopped false, modify_eq_some.2 ⟨j, hj, if_pos rfl⟩, hlive, rfl⟩

theorem Wf.next {s : State} (h : Wf s) {a : Step} (hcan : jobTable.can a s) : Wf (a.next s) := by
  refine ⟨?_, fun j' hj' => ?_, fun tokens made hφ => ?_, fun index pgid timed hφ => ?_⟩
  · rcases next_jobs a s with ⟨i, f, -, hjobs⟩ | ⟨job, henters⟩
    · rw [hjobs, List.length_modify]
      exact h.bound
    · rw [henters.jobs, List.length_append]
      exact henters.room h.bound h.room
  · obtain ⟨i, hi⟩ := List.getElem?_of_mem hj'
    rcases entry_next hi with ⟨j, hj, -⟩ | ⟨-, henters⟩
    · have hold := h.stopped j (List.mem_of_getElem? hj)
      rcases changes_of_next hcan hj hi with rfl | hchanges
      · exact hold
      · refine hchanges.stopped hj hold fun pgid timed hφ => ?_
        obtain ⟨j₀, hj₀, hlive, -⟩ := h.resuming i pgid timed hφ
        rw [hj] at hj₀
        exact Option.some.inj hj₀ ▸ hlive
    · exact fun _ => henters.live
  · exact (moves_next hcan).room h.bound h.room hφ
  · exact (moves_next hcan).resuming h.resuming hφ

theorem wf_boot : Wf .boot :=
  ⟨Nat.zero_le _, by simp [State.boot], by simp [State.boot], by simp [State.boot]⟩

theorem wf_exec (as : List Step) (hv : jobTable.Valid as .boot) : Wf (jobTable.exec as .boot) :=
  jobTable.invariant (fun _ _ h hcan => h.next hcan) wf_boot as hv

end Jobs

open Jobs

/-- With any results of the system calls, in any order the signal mask allows: from a state of a
run to a later one entries are only added and keep what identifies them, none becomes live again,
a stopped job is live, and `find_job` finds the live jobs by their numbers. -/
theorem job_table_kept (u v : List Jobs.Step) (hv : jobTable.Valid (u ++ v) .boot) :
    let jobs := (jobTable.exec u .boot).jobs
    let jobs' := (jobTable.exec (u ++ v) .boot).jobs
    jobs.length ≤ jobs'.length ∧ jobs'.length ≤ 1024
      ∧ (∀ (i : ℕ) (j : Job), jobs[i]? = some j → ∃ j', jobs'[i]? = some j' ∧ j'.pid = j.pid
        ∧ j'.name = j.name ∧ j'.command = j.command ∧ (j'.live = true → j.live = true))
      ∧ (∀ j ∈ jobs', j.stopped = true → j.live = true)
      ∧ ∀ (number : Int) (i pgid : ℕ), findJob jobs' number = some (i, pgid) →
        1 ≤ number ∧ number ≤ jobs'.length ∧ number = i + 1
          ∧ ∃ j, jobs'[i]? = some j ∧ j.live = true ∧ pgid = j.pid := by
  intro jobs jobs'
  have hwf := wf_exec (u ++ v) hv
  have hlater : Later jobs jobs' := by
    simp only [jobs, jobs', System.exec_append]
    exact later_exec v _
  refine ⟨hlater.length_le, hwf.bound, fun i j hj => ?_, hwf.stopped, fun number i pgid hfind => ?_⟩
  · obtain ⟨j', hj', h⟩ := hlater i j hj
    exact ⟨j', hj', h.pid, h.name, h.command, h.live⟩
  · obtain ⟨hnumber, j, hj, hlive, hpgid⟩ := findJob_eq_some.1 hfind
    have hi : i < jobs'.length := (List.getElem?_eq_some_iff.1 hj).1
    exact ⟨by omega, by omega, hnumber, j, hj, hlive, hpgid⟩

/-- A job is launched, stops, is resumed and ends; another one is stopped in the foreground. -/
def tableRun : List Jobs.Step :=
  [.launch [⟨.word, ['a']⟩], .fork 5, .forked, .signal, .reap 5 .stopped, .reapEnd, .sweep true,
    .handled, .resume 1 true false, .waitGroup 5 (.ended true), .groupDone,
    .command [⟨.word, ['b']⟩], .fork 6, .forked, .wait .stopped, .waited]

theorem job_table_kept_tableRun :
    let jobs := (jobTable.exec (tableRun.take 8) .boot).jobs
    let jobs' := (jobTable.exec (tableRun.take 8 ++ tableRun.drop 8) .boot).jobs
    jobTable.Valid (tableRun.take 8 ++ tableRun.drop 8) .boot
      ∧ findJob jobs' 2 = some (1, 6)
      ∧ jobs.length ≤ jobs'.length ∧ jobs'.length ≤ 1024
      ∧ (∀ (i : ℕ) (j : Job), jobs[i]? = some j → ∃ j', jobs'[i]? = some j' ∧ j'.pid = j.pid
        ∧ j'.name = j.name ∧ j'.command = j.command ∧ (j'.live = true → j.live = true))
      ∧ (∀ j ∈ jobs', j.stopped = true → j.live = true)
      ∧ ∀ (number : Int) (i pgid : ℕ), findJob jobs' number = some (i, pgid) →
        1 ≤ number ∧ number ≤ jobs'.length ∧ number = i + 1
          ∧ ∃ j, jobs'[i]? = some j ∧ j.live = true ∧ pgid = j.pid :=
  ⟨by decide, by decide, job_table_kept (tableRun.take 8) (tableRun.drop 8) (by decide)⟩

end Shell

end CShellXv6
