import CShellXv6.Proofs.Processes

/-!
# Who sees a leader end

The leader of a live job whose end is not on record is waited for by the handler or by the tracer,
which find the job by its pid, or by the `resume` of the job itself.
-/

namespace CShellXv6

namespace Shell

namespace Jobs

variable {e : Event} {m : Machine} {i : ℕ} {j j' : Job}

theorem findIdx?_of_only {jobs : List Job} {p : Job → Bool} (hj : jobs[i]? = some j)
    (hp : p j = true) (honly : ∀ (k : ℕ) (j' : Job), jobs[k]? = some j' → p j' = true → k = i) :
    jobs.findIdx? p = some i := by
  cases hfind : jobs.findIdx? p with
  | none =>
    have hno := List.findIdx?_eq_none_iff.1 hfind j (List.mem_of_getElem? hj)
    simp [hp] at hno
  | some k =>
    obtain ⟨hk, hpk, -⟩ := List.findIdx?_eq_some_iff_getElem.1 hfind
    rw [honly k _ (List.getElem?_eq_getElem hk) hpk]

theorem leads_of_live (hj : m.shell.jobs[i]? = some j) (hlive : j.live = true) :
    m.shell.Leads j.pid :=
  .inl ⟨j, List.mem_of_getElem? hj, hlive, rfl⟩

theorem noted_of {pid : ℕ}
    (hnoted : (m.shell.jobs.all fun j => !j.live || j.pid ≠ pid || j.leaderDone) = true)
    (hj : m.shell.jobs[i]? = some j) (hlive : j.live = true) (hpid : j.pid = pid) :
    j.leaderDone = true := by
  simpa [hlive, hpid] using List.all_eq_true.1 hnoted j (List.mem_of_getElem? hj)

/-- The step waits for the leader `pid` of the job `i`. -/
inductive Sees (i pid : ℕ) (normal : Bool) : Reaper → Step → Phase → Prop where
  | handler : Sees i pid normal .handler (.reap pid (.ended normal)) .reaping
  | trace (absent : Bool) :
      Sees i pid normal .trace (.traced (.ended normal) absent) (.tracing pid true)
  | resume (pgid : ℕ) (timed : Bool) :
      Sees i pid normal .resume (.waitGroup pid (.ended normal)) (.resuming i pgid timed)

namespace Homes

variable (h : Homes m) (hj : m.shell.jobs[i]? = some j) (hlive : j.live = true)

include h hj hlive

/-- The handler finds the job by the pid of its leader. -/
theorem find_child :
    m.shell.jobs.findIdx? (fun o => o.live && o.pid == j.pid) = some i := by
  refine findIdx?_of_only hj (by simp [hlive]) fun k o ho hp => ?_
  simp only [Bool.and_eq_true, beq_iff_eq] at hp
  exact h.inj k i o j ho hj hp.1 hlive hp.2

theorem find_traced (hdone : j.leaderDone = false) :
    m.shell.jobs.findIdx? (fun o => o.live && o.pid == j.pid && !o.leaderDone) = some i := by
  refine findIdx?_of_only hj (by simp [hlive, hdone]) fun k o ho hp => ?_
  simp only [Bool.and_eq_true, beq_iff_eq] at hp
  exact h.inj k i o j ho hj hp.1.1 hlive hp.1.2

/-- The job being resumed is the one whose leader is in the group. -/
theorem resuming_eq {index pgid : ℕ} {timed : Bool} {p : Proc} (hp : p ∈ m.procs)
    (hpid : p.pid = j.pid) (hchild : p.child = true)
    (hφ : m.shell.phase = .resuming index pgid timed) (hpgid : p.pgid = pgid) : index = i := by
  obtain ⟨o, ho, holive, rfl⟩ := h.wf.resuming index pgid timed hφ
  refine h.inj index i o j ho hj holive hlive ?_
  rw [← hpgid, h.home p hp hchild (by rw [hpid]; exact leads_of_live hj hlive), hpid]

theorem sees_of_buries (hcan : e.can m = true) (hnoted : e.noted m = true)
    (hdone : j.leaderDone = false) {p : Proc} (hp : p ∈ m.procs) (hpid : p.pid = j.pid)
    (hchild : p.child = true) (hburied : Buries m p e) :
    ∃ a normal who, e = .shell a ∧ m.call a = .wait p.pid (.ended normal) who
      ∧ Sees i j.pid normal who a m.shell.phase := by
  cases hburied with
  | vanish =>
    obtain ⟨q, hq, hqpid, hnot⟩ := any_eq_true.1 hcan
    rw [h.unique hq hp hqpid] at hnot
    simp [hchild] at hnot
  | @wait a normal who hcall =>
    have hwaits := call_wait (grants_of_can hcan).1 hcall
    have hgrants := (grants_of_can hcan).2
    have hapart : p.pid ∉ m.shell.phase.pids :=
      fun hmem => h.apart _ hmem j (List.mem_of_getElem? hj) hlive hpid.symm
    refine ⟨a, normal, who, rfl, hcall, ?_⟩
    generalize hφ : m.shell.phase = φ at hwaits hapart
    cases hwaits with
    | reap =>
      rw [hpid]
      exact .handler
    | wait tokens leader todo stopped => simp [Phase.pids] at hapart
    | waitGroup index pgid timed =>
      simp only [Machine.grants, hφ, Bool.and_eq_true] at hgrants
      obtain ⟨q, hq, hqpid, hshows⟩ := any_eq_true.1 hgrants.2
      rw [h.unique hq hp hqpid] at hshows
      simp only [Bool.and_eq_true, decide_eq_true_eq] at hshows
      rw [h.resuming_eq hj hlive hp hpid hchild hφ hshows.1.2, hpid]
      exact .resume pgid timed
    | attached byPid | detached =>
      simp only [Event.noted, hφ] at hnoted
      rw [noted_of hnoted hj hlive hpid.symm] at hdone
      exact absurd hdone (by simp)
    | traced absent byPid =>
      cases byPid with
      | true =>
        rw [hpid]
        exact .trace absent
      | false => simp [Phase.pids] at hapart

theorem reap_entry {normal : Bool} (hφ : m.shell.phase = .reaping) :
    (Step.next (.reap j.pid (.ended normal)) m.shell).jobs[i]?
      = some { j with leaderDone := true } := by
  simp only [Step.next, hφ, noteChild, h.find_child hj hlive]
  exact modify_eq_some.2 ⟨j, hj, if_pos rfl⟩

theorem traced_entry (hdone : j.leaderDone = false) {normal absent : Bool}
    (hφ : m.shell.phase = .tracing j.pid true) :
    (Step.next (.traced (.ended normal) absent) m.shell).jobs[i]?
      = some (Job.sweep absent { j with leaderDone := true }) := by
  simp only [Step.next, hφ, noteTracedExit, h.find_traced hj hlive hdone, if_true]
  exact modify_eq_some.2 ⟨j, hj, if_pos rfl⟩

end Homes

end Jobs

end Shell

end CShellXv6
