import CShellXv6.Proofs.JobEnds
import CShellXv6.Proofs.Leaders

/-!
# What is reported

The lines about a job are its announcement and the report of its leader's end. A report comes with
the entry's mark that the leader is done, so it comes once, and it is the leader's own as long as no
other process has its pid.
-/

namespace CShellXv6

namespace Shell

namespace Jobs

variable {e : Event} {m : Machine} {i : ℕ} {j j' : Job}

/-- What a step prints about the job with index `i`. -/
inductive News (s : State) (i : ℕ) : Step → List Line → Prop where
  | nothing {a : Step} (hsame : ∀ j j' : Job, s.jobs[i]? = some j →
      (a.next s).jobs[i]? = some j' → j'.leaderDone = j.leaderDone) : News s i a []
  | launched (tokens : List Token) (leader : ℕ) (rest : List ℕ)
      (hφ : s.phase = .launching tokens (leader :: rest)) (hi : i = s.jobs.length) :
      News s i .forked [.launched i leader]
  | handler {j : Job} (normal : Bool) (hφ : s.phase = .reaping) (hj : s.jobs[i]? = some j)
      (hlive : j.live = true) (hdone : j.leaderDone = false) :
      News s i (.reap j.pid (.ended normal)) [.report i j.name j.pid normal]
  | trace {j : Job} (normal absent : Bool) (hφ : s.phase = .tracing j.pid true)
      (hj : s.jobs[i]? = some j) (hlive : j.live = true) (hdone : j.leaderDone = false) :
      News s i (.traced (.ended normal) absent) [.report i j.name j.pid normal]

theorem mem_about {s : State} {line : Line} :
    line ∈ s.about i ↔ line ∈ s.out ∧ line.about i = true :=
  List.mem_filter

/-- The entry a wait is found for, and what is printed about the entries. -/
theorem news_of_found (status : Status) {s : State} {a : Step} {f : Job → Job} {φ : Phase} {k : ℕ}
    (hnext : a.next s = ⟨s.jobs.modify k f, φ,
      s.out ++ (s.jobs[k]?.map (·.reports k status)).getD []⟩)
    (hf : ∀ j, (f j).leaderDone = (j.note status).leaderDone)
    (hnews : ∀ (j : Job) (normal : Bool), status = .ended normal → s.jobs[k]? = some j →
      j.leaderDone = false → News s k a [.report k j.name j.pid normal]) :
    ∃ lines, News s i a lines ∧ (a.next s).about i = s.about i ++ lines := by
  have hquiet : ∀ {lines : List Line}, lines.filter (Line.about i) = [] →
      a.next s = ⟨s.jobs.modify k f, φ, s.out ++ lines⟩ → (∀ j j' : Job, s.jobs[i]? = some j →
      (a.next s).jobs[i]? = some j' → j'.leaderDone = j.leaderDone) →
      ∃ lines, News s i a lines ∧ (a.next s).about i = s.about i ++ lines := by
    intro lines hlines hnext hsame
    refine ⟨[], .nothing hsame, ?_⟩
    rw [hnext, State.about, List.filter_append, hlines]
    rfl
  cases hk : s.jobs[k]? with
  | none =>
    rw [hk] at hnext
    refine hquiet rfl hnext fun j j' hj hj' => ?_
    rw [hnext] at hj'
    rcases modify_cases hj hj' with rfl | ⟨rfl, -⟩
    · rfl
    · simp [hk] at hj
  | some o =>
    rw [hk] at hnext
    by_cases hki : k = i
    · subst hki
      by_cases hreport : ∃ normal, status = .ended normal ∧ o.leaderDone = false
      · obtain ⟨normal, rfl, hdone⟩ := hreport
        refine ⟨_, hnews o normal rfl hk hdone, ?_⟩
        rw [hnext, State.about, List.filter_append]
        simp [Job.reports, hdone, Line.about, State.about]
      · have hsame : (o.note status).leaderDone = o.leaderDone := by
          cases status with
          | ended normal =>
            by_contra hne
            exact hreport ⟨normal, rfl, by simpa [Job.note] using Ne.symm hne⟩
          | stopped | continued => rfl
        refine hquiet ?_ hnext fun j j' hj hj' => ?_
        · cases status with
          | ended normal =>
            have hdone : o.leaderDone = true := by
              by_contra hne
              exact hreport ⟨normal, rfl, by simpa using hne⟩
            simp [Job.reports, hdone]
          | stopped | continued => rfl
        · rw [hnext] at hj'
          obtain rfl := Option.some.inj (hj.symm.trans hk)
          rcases modify_cases hj hj' with rfl | ⟨-, rfl⟩
          · rfl
          · rw [hf, hsame]
    · refine hquiet ?_ hnext fun j j' hj hj' => ?_
      · cases status with
        | ended normal =>
          simp only [Option.map_some, Option.getD_some, Job.reports]
          split_ifs <;> simp [Line.about, hki]
        | stopped | continued => rfl
      · rw [hnext] at hj'
        rcases modify_cases hj hj' with rfl | ⟨rfl, -⟩
        · rfl
        · exact absurd rfl hki

theorem leaderDone_sweep (absent : Bool) (j : Job) :
    (j.sweep absent).leaderDone = j.leaderDone := by
  unfold Job.sweep
  split_ifs <;> rfl

theorem Changes.done {jobs : List Job} {a : Step} {φ : Phase} (h : Changes jobs i j j' a φ)
    (hreap : ∀ pid status, a ≠ .reap pid status)
    (htraced : ∀ status absent, a ≠ .traced status absent) : j'.leaderDone = j.leaderDone := by
  cases h with
  | note pid status => exact absurd rfl (hreap pid status)
  | traced pid normal absent => exact absurd rfl (htraced (.ended normal) absent)
  | sweep absent => exact leaderDone_sweep absent j
  | _ => rfl

/-- The entries whose leaders a step marks as done are those it reports. -/
theorem news_next {s : State} {a : Step} (hcan : jobTable.can a s) (i : ℕ) :
    ∃ lines, News s i a lines ∧ (a.next s).about i = s.about i ++ lines := by
  have hsame : (a.next s).jobs = s.jobs → (a.next s).about i = s.about i →
      ∃ lines, News s i a lines ∧ (a.next s).about i = s.about i ++ lines := by
    intro hjobs habout
    refine ⟨[], .nothing fun j j' hj hj' => ?_, by rw [habout, List.append_nil]⟩
    rw [hjobs, hj] at hj'
    rw [Option.some.inj hj']
  have hquiet : (∀ pid status, a ≠ .reap pid status) →
      (∀ status absent, a ≠ .traced status absent) →
      (a.next s).about i = s.about i →
      ∃ lines, News s i a lines ∧ (a.next s).about i = s.about i ++ lines := by
    intro hreap htraced habout
    refine ⟨[], .nothing fun j j' hj hj' => ?_, by rw [habout, List.append_nil]⟩
    rcases changes_of_next hcan hj hj' with rfl | hchanges
    · rfl
    · exact hchanges.done hreap htraced
  have henabled := enabled_of_allowed hcan
  generalize hφ : s.phase = φ at henabled
  cases henabled with
  | reap pid status =>
    cases hfind : s.jobs.findIdx? fun j => j.live && j.pid == pid with
    | none => refine hsame ?_ ?_ <;> simp [Step.next, hφ, noteChild, hfind, State.about]
    | some k =>
      refine news_of_found status (f := (·.note status)) (φ := .reaping) (k := k) ?_
        (fun _ => rfl) ?_
      · simp only [Step.next, hφ, noteChild, hfind]
      · rintro j normal rfl hj hdone
        have hp := live_of_findIdx? hfind hj
        simp only [Bool.and_eq_true, beq_iff_eq] at hp
        rw [← hp.2]
        exact .handler normal hφ hj hp.1 hdone
  | traced status absent pid byPid =>
    cases status with
    | ended normal =>
      cases byPid with
      | true =>
        cases hfind : s.jobs.findIdx? fun j => j.live && j.pid == pid && !j.leaderDone with
        | none => refine hsame ?_ ?_ <;> simp [Step.next, hφ, noteTracedExit, hfind, State.about]
        | some k =>
          refine news_of_found (.ended normal) (f := fun j => (j.note (.ended normal)).sweep absent)
            (φ := .idle) (k := k) ?_ (fun _ => leaderDone_sweep absent _) ?_
          · simp only [Step.next, hφ, noteTracedExit, hfind, if_true]
          · intro j normal' hnormal hj hdone
            obtain rfl := Status.ended.inj hnormal
            have hp := live_of_findIdx? hfind hj
            simp only [Bool.and_eq_true, beq_iff_eq] at hp
            obtain ⟨⟨hlive, rfl⟩, -⟩ := hp
            exact .trace normal absent hφ hj hlive hdone
      | false => refine hsame ?_ ?_ <;> simp [Step.next, hφ, State.about]
    | stopped | continued => refine hsame ?_ ?_ <;> simp only [Step.next]
  | launched tokens made =>
    cases made with
    | nil => refine hsame ?_ ?_ <;> simp [Step.next, hφ, State.enterLaunched, State.about]
    | cons leader rest =>
      by_cases hi : i = s.jobs.length
      · refine ⟨_, .launched tokens leader rest hφ hi, ?_⟩
        simp [Step.next, hφ, State.enterLaunched, State.about, Line.about, hi]
      · refine hquiet (by simp) (by simp) ?_
        simp [Step.next, hφ, State.enterLaunched, State.about, Line.about, Ne.symm hi]
  | launch tokens =>
    refine hquiet (by simp) (by simp) ?_
    simp only [Step.next, hφ]
    split_ifs <;> simp [State.about, Line.about]
  | started tokens made =>
    refine hquiet (by simp) (by simp) ?_
    cases made <;> simp [Step.next, hφ, State.about]
  | waited tokens leader stopped =>
    refine hquiet (by simp) (by simp) ?_
    simp only [Step.next, hφ, State.enterStopped, addStoppedJob]
    split_ifs <;> simp [State.about, Line.about]
  | resume number foreground timed =>
    refine hquiet (by simp) (by simp) ?_
    simp only [Step.next, hφ, State.resume]
    split
    · simp [State.about, Line.about]
    · split_ifs <;> simp [State.about, Line.about]
  | waitGroup pid status index pgid timed =>
    refine hquiet (by simp) (by simp) ?_
    cases status <;> simp [Step.next, hφ, State.about, Line.about]
  | _ =>
    refine hquiet (by simp) (by simp) ?_
    simp [Step.next, hφ, State.about, Line.about]

/-- The step reports the end of the leader of `j`, or says nothing of the job. -/
theorem report_step (hcan : e.can m = true) (hj : m.shell.jobs[i]? = some j)
    (hj' : (e.next m).shell.jobs[i]? = some j') :
    (e.next m).shell.about i = m.shell.about i ∧ j'.leaderDone = j.leaderDone
      ∨ ∃ a normal who, e = .shell a ∧ Sees i j.pid normal who a m.shell.phase ∧ who ≠ .resume
        ∧ m.call a = .wait j.pid (.ended normal) who ∧ j.live = true ∧ j.leaderDone = false
        ∧ (e.next m).shell.about i = m.shell.about i ++ [.report i j.name j.pid normal] := by
  rcases shell_next e m with ⟨a, rfl, hshell⟩ | hshell <;> rw [hshell] at hj' ⊢
  · obtain ⟨lines, hnews, habout⟩ := news_next (grants_of_can hcan).1 i
    rw [habout]
    cases hnews with
    | nothing hsame => exact .inl ⟨List.append_nil _, hsame j j' hj hj'⟩
    | launched tokens leader rest hφ hi => simp [hi] at hj
    | @handler o normal hφ ho hlive hdone =>
      obtain rfl := Option.some.inj (hj.symm.trans ho)
      refine .inr ⟨_, normal, .handler, rfl, ?_, by simp, by simp only [Machine.call], hlive, hdone,
        rfl⟩
      rw [hφ]
      exact .handler
    | @trace o normal absent hφ ho hlive hdone =>
      obtain rfl := Option.some.inj (hj.symm.trans ho)
      refine .inr ⟨_, normal, .trace, rfl, ?_, by simp, by simp only [Machine.call, hφ], hlive,
        hdone, rfl⟩
      rw [hφ]
      exact .trace absent
  · rw [hj] at hj'
    exact .inl ⟨rfl, by rw [Option.some.inj hj']⟩

/-- The shell has waited for its child `q`, which has ended. -/
structure Collects (e : Event) (m : Machine) (q : Proc) (who : Reaper) (normal : Bool) : Prop where
  mem : q ∈ m.procs
  reaped : (e.next m).reaped = m.reaped ++ [(q.id, who, normal)]
  gone : ∀ p ∈ (e.next m).procs, p.pid ≠ q.pid

theorem Collects.reaper {q : Proc} {who : Reaper} {normal : Bool} (h : Collects e m q who normal)
    (hnone : m.reaper q.id = none) : (e.next m).reaper q.id = some (who, normal) := by
  rw [Machine.reaper, Option.map_eq_none_iff] at hnone
  rw [Machine.reaper, h.reaped, List.find?_append, hnone]
  simp

theorem Homes.find (h : Homes m) {q : Proc} (hq : q ∈ m.procs) :
    m.procs.find? (·.pid = q.pid) = some q := by
  cases hfind : m.procs.find? (·.pid = q.pid) with
  | none => simpa using List.find?_eq_none.1 hfind q hq
  | some o =>
    have hpid : o.pid = q.pid := by simpa using List.find?_some hfind
    rw [h.unique (List.mem_of_find?_eq_some hfind) hq hpid]

theorem Homes.collects (h : Homes m) {a : Step} {q : Proc} {who : Reaper} {normal : Bool}
    (hq : q ∈ m.procs) (hchild : q.child = true)
    (hcall : m.call a = .wait q.pid (.ended normal) who) :
    Collects (.shell a) m q who normal := by
  have hany : m.any q.pid (·.child) = true := any_eq_true.2 ⟨q, hq, rfl, hchild⟩
  have hnext : m.perform (m.call a) = { m.remove q.pid with
      reaped := m.reaped ++ [(q.id, who, normal)] } := by
    rw [hcall]
    simp only [Machine.perform, Machine.collect, hany, h.find hq, if_true, Option.map_some,
      Option.toList_some]
  refine ⟨hq, ?_, fun p hp => ?_⟩
  · show (m.perform (m.call a)).reaped = _
    rw [hnext]
  · rw [procs_shell, hnext] at hp
    simpa using (List.mem_filter.1 hp).2

/-- What a step adds to the record of the waits. -/
theorem Homes.reaped_next (h : Homes m) (e : Event) :
    (e.next m).reaped = m.reaped ∨ ∃ q who normal, Collects e m q who normal := by
  cases e with
  | shell a =>
    cases hcall : m.call a with
    | fork pid pgid | other =>
      refine .inl ?_
      show (m.perform (m.call a)).reaped = _
      rw [hcall]
      rfl
    | wait pid status who =>
      have hsame : (m.perform (m.call a)).reaped = m.reaped →
          ((Event.shell a).next m).reaped = m.reaped := id
      cases status with
      | ended normal =>
        by_cases hchild : m.any pid (·.child) = true
        · obtain ⟨q, hq, rfl, hqchild⟩ := any_eq_true.1 hchild
          exact .inr ⟨q, who, normal, h.collects hq hqchild hcall⟩
        · refine .inl (hsame ?_)
          rw [hcall]
          simp [Machine.perform, Machine.collect, hchild]
      | stopped | continued =>
        refine .inl (hsame ?_)
        rw [hcall]
        rfl
  | _ => exact .inl rfl

theorem Homes.reaper_next (h : Homes m) (e : Event) (id : ℕ) :
    (e.next m).reaper id = m.reaper id ∨ ∃ q who normal, Collects e m q who normal
      ∧ (e.next m).reaper id
        = (m.reaper id).or (if q.id = id then some (who, normal) else none) := by
  rcases h.reaped_next e with hreaped | ⟨q, who, normal, hcollects⟩
  · exact .inl (by rw [Machine.reaper, hreaped, Machine.reaper])
  · refine .inr ⟨q, who, normal, hcollects, ?_⟩
    rw [Machine.reaper, hcollects.reaped, List.find?_append, Machine.reaper]
    cases m.reaped.find? fun r => r.1 = id with
    | none => by_cases hid : q.id = id <;> simp [hid]
    | some r => rfl

/-- The numbers of birth are not given again. -/
structure Numbered (m : Machine) : Prop where
  ids : (m.procs.map Proc.id).Nodup
  born : ∀ p ∈ m.procs, p.id < m.births
  buried : ∀ r ∈ m.reaped, r.1 < m.births ∧ ∀ p ∈ m.procs, p.id ≠ r.1

theorem Numbered.unique (h : Numbered m) {p q : Proc} (hp : p ∈ m.procs) (hq : q ∈ m.procs)
    (hid : p.id = q.id) : p = q :=
  List.inj_on_of_nodup_map h.ids hp hq hid

theorem Numbered.reaper_none (h : Numbered m) {p : Proc} (hp : p ∈ m.procs) :
    m.reaper p.id = none := by
  rw [Machine.reaper, Option.map_eq_none_iff, List.find?_eq_none]
  intro r hr
  simpa using ((h.buried r hr).2 p hp).symm

theorem births_le (e : Event) (m : Machine) : m.births ≤ (e.next m).births := by
  cases e with
  | shell a =>
    show m.births ≤ (m.perform (m.call a)).births
    cases m.call a with
    | fork pid pgid => exact Nat.le_succ _
    | wait pid status who =>
      show m.births ≤ (m.collect pid status who).births
      unfold Machine.collect
      split
      · split_ifs <;> exact Nat.le_refl _
      all_goals exact Nat.le_refl _
    | other => exact Nat.le_refl _
  | spawn pid pgid mayKill => exact Nat.le_succ _
  | _ => exact Nat.le_refl _

theorem Newborn.births {p : Proc} (h : Newborn e m p) : (e.next m).births = m.births + 1 := by
  cases h.makes <;> rfl

theorem Numbered.next (h : Numbered m) (hhomes : Homes m) (hcan : e.can m = true) :
    Numbered (e.next m) := by
  have hle := births_le e m
  have hother : ∀ id < m.births, (∀ p ∈ m.procs, p.id ≠ id) →
      ∀ p ∈ (e.next m).procs, p.id ≠ id := by
    intro id hid hnot p' hp'
    rcases procs_next hcan hp' with ⟨p, hp, hstays⟩ | hnew
    · rw [hstays.id]
      exact hnot p hp
    · have := hnew.id
      omega
  refine ⟨?_, fun p' hp' => ?_, fun r hr => ?_⟩
  · rcases procs_shape hcan Proc.id fun _ _ h => h.id with hsub | ⟨p, hprocs, hnew⟩
    · exact h.ids.sublist hsub
    · rw [hprocs, List.map_append, List.nodup_append]
      refine ⟨h.ids, by simp, ?_⟩
      intro a ha b hb
      obtain ⟨q, hq, rfl⟩ := List.mem_map.1 ha
      rw [List.mem_singleton.1 hb, hnew.id]
      exact Nat.ne_of_lt (h.born q hq)
  · rcases procs_next hcan hp' with ⟨p, hp, hstays⟩ | hnew
    · have := h.born p hp
      rw [hstays.id]
      omega
    · rw [hnew.births, hnew.id]
      omega
  · rcases hhomes.reaped_next e with hreaped | ⟨q, who, normal, hcollects⟩
    · rw [hreaped] at hr
      obtain ⟨hlt, hnot⟩ := h.buried r hr
      exact ⟨by omega, hother _ hlt hnot⟩
    · rw [hcollects.reaped, List.mem_append, List.mem_singleton] at hr
      rcases hr with hr | rfl
      · obtain ⟨hlt, hnot⟩ := h.buried r hr
        exact ⟨by omega, hother _ hlt hnot⟩
      · have hlt := h.born q hcollects.mem
        refine ⟨by simp only; omega, fun p' hp' hid => ?_⟩
        rcases procs_next hcan hp' with ⟨p, hp, hstays⟩ | hnew
        · have hpq := h.unique hp hcollects.mem (hstays.id.symm.trans hid)
          exact hcollects.gone p' hp' (by rw [hstays.pid, hpq])
        · have := hnew.id
          simp only at hid
          omega

/-- What has become of the leader of the job `i`, which has the number `id`, and of its report. -/
inductive Fate (m : Machine) (i : ℕ) (j : Job) (id : ℕ) : Option (Reaper × Bool) → Prop where
  | there {p : Proc} (hp : p ∈ m.procs) (hid : p.id = id) (hpid : p.pid = j.pid)
      (hchild : p.child = true) (hlive : j.live = true) (hdone : j.leaderDone = false)
      (habout : m.shell.about i = [.launched i j.pid]) : Fate m i j id none
  | reported {who : Reaper} {normal : Bool} (hwho : who = .handler ∨ who = .trace)
      (hdone : j.leaderDone = true)
      (habout : m.shell.about i = [.launched i j.pid, .report i j.name j.pid normal]) :
      Fate m i j id (some (who, normal))
  | resumed {normal : Bool} (hfree : j.live = true → ∀ p ∈ m.procs, p.pid ≠ j.pid)
      (habout : m.shell.about i = [.launched i j.pid]) : Fate m i j id (some (.resume, normal))

/-- As long as its leader is there, a job is not given up. -/
theorem Homes.live_of_leader (h : Homes m) (hcan : e.can m = true) (huntimed : e.untimed = true)
    (hj : m.shell.jobs[i]? = some j) (hj' : (e.next m).shell.jobs[i]? = some j')
    (hlive : j.live = true) (hdone : j.leaderDone = false) {p p' : Proc} (hp : p ∈ m.procs)
    (hpid : p.pid = j.pid) (hchild : p.child = true) (hp' : p' ∈ (e.next m).procs)
    (hstays : Stays e p p') : j'.live = true := by
  by_contra hdead
  rw [Bool.not_eq_true] at hdead
  rcases shell_next e m with ⟨a, rfl, hshell⟩ | hshell <;> rw [hshell] at hj'
  · have hends := ends_of_next (grants_of_can hcan).1 hj hlive hj' hdead
    have hgrants := (grants_of_can hcan).2
    generalize hφ : m.shell.phase = φ at hends
    cases hends with
    | sweep hswept => simp [hdone] at hswept
    | traced normal =>
      have hcall : m.call (.traced (.ended normal) true) = .wait p.pid (.ended normal) .trace := by
        simp only [Machine.call, hφ, hpid]
      exact (h.collects hp hchild hcall).gone p' hp' hstays.pid
    | groupDone pgid timed =>
      obtain ⟨o, ho, -, rfl⟩ := h.wf.resuming i pgid timed hφ
      obtain rfl := Option.some.inj (hj.symm.trans ho)
      have hhome := h.home p hp hchild (by rw [hpid]; exact leads_of_live hj hlive)
      simp only [Machine.grants, hφ] at hgrants
      simpa [hchild, hhome, hpid] using List.all_eq_true.1 hgrants p hp
    | timeout pgid => exact absurd huntimed Bool.false_ne_true
  · rw [hj] at hj'
    rw [← Option.some.inj hj', hlive] at hdead
    exact absurd hdead (by simp)

/-- Somebody must have the pid that a report is about. -/
theorem exists_of_sees {a : Step} {pid : ℕ} {normal : Bool} {who : Reaper}
    (hcan : (Event.shell a).can m = true) (hsees : Sees i pid normal who a m.shell.phase) :
    ∃ p ∈ m.procs, p.pid = pid := by
  have hgrants := (grants_of_can hcan).2
  generalize hφ : m.shell.phase = φ at hsees
  cases hsees with
  | handler =>
    obtain ⟨p, hp, hpid, -⟩ := any_eq_true.1 hgrants
    exact ⟨p, hp, hpid⟩
  | trace absent =>
    simp only [Machine.grants, hφ, Bool.and_eq_true] at hgrants
    obtain ⟨p, hp, hpid, -⟩ := any_eq_true.1 hgrants.1
    exact ⟨p, hp, hpid⟩
  | resume pgid timed =>
    simp only [Machine.grants, hφ, Bool.and_eq_true] at hgrants
    obtain ⟨p, hp, hpid, -⟩ := any_eq_true.1 hgrants.2
    exact ⟨p, hp, hpid⟩

theorem Newborn.fresh {p : Proc} (h : Newborn e m p) (hfresh : e.fresh m = true)
    (hj : m.shell.jobs[i]? = some j) (hlive : j.live = true) : p.pid ≠ j.pid := by
  cases h.makes <;> exact (fresh_jobs hfresh (List.mem_of_getElem? hj) hlive).symm

namespace Fate

variable {id : ℕ} {r : Option (Reaper × Bool)}

/-- The leader is waited for. -/
theorem of_buries (h : Homes m) (hcan : e.can m = true) (hnoted : e.noted m = true)
    (hj : m.shell.jobs[i]? = some j) (hj' : (e.next m).shell.jobs[i]? = some j')
    (hlater : j.Later j') {p : Proc} (hp : p ∈ m.procs) (hpid : p.pid = j.pid)
    (hchild : p.child = true) (hlive : j.live = true) (hdone : j.leaderDone = false)
    (habout : m.shell.about i = [.launched i j.pid]) (hnone : m.reaper p.id = none)
    (hburied : Buries m p e) : Fate (e.next m) i j' p.id ((e.next m).reaper p.id) := by
  obtain ⟨a, normal, who, rfl, hcall, hsees⟩ :=
    h.sees_of_buries hj hlive hcan hnoted hdone hp hpid hchild hburied
  have hcollects := h.collects hp hchild hcall
  rw [hcollects.reaper hnone]
  have hstep := report_step hcan hj hj'
  have hnext : ((Event.shell a).next m).shell = a.next m.shell := rfl
  have hreport : j'.leaderDone = true → who ≠ .resume →
      Fate ((Event.shell a).next m) i j' p.id (some (who, normal)) := by
    intro hdone' hwho
    rcases hstep with ⟨-, hsame⟩ | ⟨a', normal', who', ha, hsees', -, -, -, -, hreport⟩
    · simp [hsame, hdone] at hdone'
    · obtain rfl := Event.shell.inj ha
      have hnormal : normal' = normal ∧ (who = .handler ∨ who = .trace) := by
        generalize m.shell.phase = φ at hsees hsees'
        cases hsees <;> cases hsees' <;> simp_all
      obtain ⟨rfl, hwho⟩ := hnormal
      refine .reported hwho hdone' ?_
      rw [hreport, habout, hlater.pid, hlater.name]
      rfl
  generalize hφ : m.shell.phase = φ at hsees
  cases hsees with
  | handler =>
    refine hreport ?_ (by simp)
    rw [hnext, h.reap_entry hj hlive hφ] at hj'
    rw [← Option.some.inj hj']
  | trace absent =>
    refine hreport ?_ (by simp)
    rw [hnext, h.traced_entry hj hlive hdone hφ] at hj'
    rw [← Option.some.inj hj', leaderDone_sweep]
  | resume pgid timed =>
    rcases hstep with ⟨hsame, -⟩ | ⟨a', normal', who', ha, hsees', hwho, -⟩
    · refine .resumed (fun _ p' hp' => ?_) (by rw [hsame, habout, hlater.pid])
      rw [hlater.pid, ← hpid]
      exact hcollects.gone p' hp'
    · obtain rfl := Event.shell.inj ha
      rw [hφ] at hsees'
      cases hsees'
      exact absurd rfl hwho

theorem next (h : Homes m) (hnum : Numbered m) (hcan : e.can m = true) (hfresh : e.fresh m = true)
    (hnoted : e.noted m = true) (huntimed : e.untimed = true) (hj : m.shell.jobs[i]? = some j)
    (hj' : (e.next m).shell.jobs[i]? = some j') (hlater : j.Later j')
    (hr : m.reaper id = r) (hfate : Fate m i j id r) :
    Fate (e.next m) i j' id ((e.next m).reaper id) := by
  have hkept : ∀ r', m.reaper id = some r' → (e.next m).reaper id = some r' := by
    intro r' hr'
    rcases h.reaper_next e id with hreaper | ⟨q, who, normal, -, hreaper⟩ <;> rw [hreaper, hr']
    rfl
  cases hfate with
  | @there p hp hid hpid hchild hlive hdone habout =>
    subst hid
    rcases procs_kept e hp with ⟨p', hp', hstays⟩ | hburied
    · have hnot : ∀ q who normal, Collects e m q who normal → q.pid ≠ p.pid := by
        intro q who normal hcollects hq
        exact hcollects.gone p' hp' (hstays.pid.trans hq.symm)
      have hreaper : (e.next m).reaper p.id = none := by
        rcases h.reaper_next e p.id with hreaper | ⟨q, who, normal, hcollects, hreaper⟩
        · rw [hreaper, hr]
        · rw [hreaper, hr, if_neg]
          · rfl
          · intro hid
            exact hnot q who normal hcollects (by rw [hnum.unique hcollects.mem hp hid])
      rw [hreaper]
      rcases report_step hcan hj hj' with ⟨hsame, hdone'⟩ | ⟨a, normal, who, rfl, -, -, hcall, -⟩
      · refine .there hp' hstays.id (by rw [hstays.pid, hpid, hlater.pid])
          (by rw [hstays.child, hchild]) ?_ (by rw [hdone', hdone])
          (by rw [hsame, habout, hlater.pid])
        exact h.live_of_leader hcan huntimed hj hj' hlive hdone hp hpid hchild hp' hstays
      · rw [← hpid] at hcall
        exact absurd rfl (hnot p who normal (h.collects hp hchild hcall))
    · exact of_buries h hcan hnoted hj hj' hlater hp hpid hchild hlive hdone habout hr hburied
  | reported hwho hdone habout =>
    rw [hkept _ hr]
    rcases report_step hcan hj hj' with ⟨hsame, hdone'⟩ | ⟨_, _, _, _, _, _, _, _, hnot, _⟩
    · refine .reported hwho (by rw [hdone', hdone]) ?_
      rw [hsame, habout, hlater.pid, hlater.name]
    · simp [hdone] at hnot
  | resumed hfree habout =>
    rw [hkept _ hr]
    rcases report_step hcan hj hj' with ⟨hsame, hdone'⟩ | ⟨a, _, _, rfl, hsees, _, _, hlive, _⟩
    · refine .resumed (fun hlive' p' hp' => ?_) (by rw [hsame, habout, hlater.pid])
      rw [hlater.pid]
      rcases procs_next hcan hp' with ⟨p, hp, hstays⟩ | hnew
      · rw [hstays.pid]
        exact hfree (hlater.live hlive') p hp
      · exact hnew.fresh hfresh hj (hlater.live hlive')
    · obtain ⟨p, hp, hpid⟩ := exists_of_sees hcan hsees
      exact absurd hpid (hfree hlive p hp)

end Fate

/-- The leaders of the jobs that were announced are as they were reported. -/
structure Told (m : Machine) : Prop where
  homes : Homes m
  numbered : Numbered m
  leaders : m.leaders.length = m.shell.jobs.length
  quiet : ∀ i, m.shell.jobs.length ≤ i → m.shell.about i = []
  silent : m.copyOut = []
  told : ∀ (i : ℕ) (j : Job), m.shell.jobs[i]? = some j → .launched i j.pid ∈ m.shell.out →
    ∃ id, m.leaders[i]? = some (some id) ∧ Fate m i j id (m.reaper id)

theorem leaders_next (e : Event) (m : Machine) : ∃ ids, (e.next m).leaders = m.leaders ++ ids
    ∧ (e.next m).shell.jobs.length = m.shell.jobs.length + ids.length := by
  cases e with
  | shell a =>
    refine ⟨m.entered (a.next m.shell).jobs, rfl, ?_⟩
    have hle := (later_next a m.shell).length_le
    have hnext : ((Event.shell a).next m).shell = a.next m.shell := rfl
    rw [hnext, Machine.entered, List.length_map, List.length_drop]
    omega
  | _ => exact ⟨[], (List.append_nil _).symm, rfl⟩

theorem silent_next (huncopied : e.uncopied m = true) : (e.next m).copyOut = m.copyOut := by
  cases e with
  | shell a =>
    show (m.perform (m.call a)).copyOut = _
    cases m.call a with
    | wait pid status who =>
      show (m.collect pid status who).copyOut = _
      unfold Machine.collect
      split
      · split_ifs <;> rfl
      all_goals rfl
    | _ => rfl
  | copyTraced copy pid normal =>
    have hnone : (m.copies.getD copy []).findIdx?
        (fun j => j.live && j.pid == pid && !j.leaderDone) = none := by
      rw [List.findIdx?_eq_none_iff]
      intro j hj
      have h := List.all_eq_true.1 huncopied j hj
      cases hlive : j.live <;> cases hdone : j.leaderDone <;> simp_all
    simp only [Event.next, noteTracedExit, hnone, List.append_nil]
  | _ => rfl

namespace Told

variable (h : Told m) (hcan : e.can m = true)

include h hcan

theorem quiet_next (i : ℕ) (hi : (e.next m).shell.jobs.length ≤ i) :
    (e.next m).shell.about i = [] := by
  have hle := (later_step e m).length_le
  have hquiet := h.quiet i (Nat.le_trans hle hi)
  rcases shell_next e m with ⟨a, rfl, hshell⟩ | hshell
  · rw [hshell] at hi ⊢
    obtain ⟨lines, hnews, habout⟩ := news_next (grants_of_can hcan).1 i
    rw [habout, hquiet]
    cases hnews with
    | nothing hsame => rfl
    | launched tokens leader rest hφ hlast =>
      simp only [Step.next, hφ, State.enterLaunched, List.length_append, List.length_singleton]
        at hi
      omega
    | handler normal hφ hj | trace normal absent hφ hj =>
      have hlt := (List.getElem?_eq_some_iff.1 hj).1
      rw [hshell] at hle
      omega
  · rw [hshell, hquiet]

omit hcan in
/-- The leader of a job that is announced. -/
theorem told_entered {a : Step} (he : e = .shell a) {job : Job}
    (henters : Enters m.shell a job (e.next m).shell)
    (hout : .launched m.shell.jobs.length job.pid ∈ (e.next m).shell.out) :
    ∃ id, (e.next m).leaders[m.shell.jobs.length]? = some (some id)
      ∧ Fate (e.next m) m.shell.jobs.length job id ((e.next m).reaper id) := by
  subst he
  have hquiet := h.quiet _ (Nat.le_refl _)
  have hjobs := henters.jobs
  generalize hs : ((Event.shell a).next m).shell = s' at henters hout hjobs
  cases henters with
  | launched tokens leader rest hφ =>
    obtain ⟨p, hp, hpid, hchild⟩ := h.homes.begun leader (by rw [hφ]; rfl)
    have hcall : m.call .forked = .other := by simp only [Machine.call]
    have hnext : (Event.shell .forked).next m = { m with
        shell := Step.next .forked m.shell
        leaders := m.leaders ++ m.entered (Step.next .forked m.shell).jobs } := by
      simp only [Event.next, hcall, Machine.perform]
    have hentered : m.entered (Step.next .forked m.shell).jobs = [some p.id] := by
      have hshell : Step.next .forked m.shell = ((Event.shell .forked).next m).shell := rfl
      have hfind := h.homes.find hp
      rw [hpid] at hfind
      rw [hshell, hs, Machine.entered]
      simp [newJob, hfind]
    refine ⟨p.id, ?_, ?_⟩
    · rw [hnext, hentered, List.getElem?_append_right (Nat.le_of_eq h.leaders), h.leaders]
      simp
    · have hreaper : ((Event.shell .forked).next m).reaper p.id = none := by
        rw [hnext]
        exact h.numbered.reaper_none hp
      rw [hreaper]
      refine .there (p := p) ?_ rfl hpid hchild rfl rfl ?_
      · rw [hnext]
        exact hp
      · rw [hs]
        rw [State.about] at hquiet
        simp [State.about, hquiet, Line.about, newJob]
  | stopped tokens leader command hφ hroom =>
    simp only [List.mem_append, List.mem_singleton, reduceCtorEq, or_false] at hout
    have hmem := mem_about.2 ⟨hout, decide_eq_true rfl⟩
    rw [hquiet] at hmem
    exact absurd hmem List.not_mem_nil

theorem next (hreported : e.reported m = true) : Told (e.next m) := by
  simp only [Event.reported, Bool.and_eq_true] at hreported
  obtain ⟨⟨⟨⟨hfresh, hloyal⟩, hnoted⟩, huntimed⟩, huncopied⟩ := hreported
  obtain ⟨ids, hleaders, hlength⟩ := leaders_next e m
  refine ⟨h.homes.next hcan hfresh hloyal, h.numbered.next h.homes hcan, ?_, h.quiet_next hcan,
    by rw [silent_next huncopied, h.silent], fun i j' hj' hout => ?_⟩
  · rw [hleaders, List.length_append, h.leaders, hlength]
  · rcases entry_step hj' with ⟨j, hj, hlater⟩ | ⟨rfl, a, he, henters⟩
    · have hmem : .launched i j.pid ∈ m.shell.about i := by
        have hmem := mem_about.2 ⟨hout, decide_eq_true rfl⟩
        rw [hlater.pid] at hmem
        rcases report_step hcan hj hj' with ⟨habout, -⟩ | ⟨_, _, _, _, _, _, _, _, _, habout⟩
        · rwa [habout] at hmem
        · simpa [habout] using hmem
      obtain ⟨id, hid, hfate⟩ := h.told i j hj (mem_about.1 hmem).1
      refine ⟨id, ?_, hfate.next h.homes h.numbered hcan hfresh hnoted huntimed hj hj' hlater rfl⟩
      rw [hleaders, List.getElem?_append_left (List.getElem?_eq_some_iff.1 hid).1, hid]
    · exact h.told_entered he henters hout

end Told

theorem told_boot : Told .boot where
  homes := homes_boot
  numbered := ⟨List.nodup_nil, by simp [Machine.boot], by simp [Machine.boot]⟩
  leaders := rfl
  quiet := by simp [Machine.boot, State.boot, State.about]
  silent := rfl
  told := by simp [Machine.boot, State.boot]

theorem told_exec (as : List Event) {m : Machine} : Told m → jobControl.Valid as m →
    jobControl.Each (fun e m => e.reported m = true) as m → Told (jobControl.exec as m) :=
  System.Each.invariant jobControl (fun _ _ h => h.next) as

/-- The process with the number `id` has ended, and the handler is about to wait for it or has. -/
inductive Awaited (id : ℕ) (normal : Bool) (m : Machine) : Prop where
  | zombie {p : Proc} (hp : p ∈ m.procs) (hid : p.id = id) (hchild : p.child = true)
      (hlife : p.life = .zombie normal) (hφ : m.shell.phase = .reaping)
  | reaped (hreaper : m.reaper id = some (.handler, normal))

theorem mem_update_of_ne {p : Proc} (hp : p ∈ m.procs) {pid : ℕ} (hne : p.pid ≠ pid)
    (f : Proc → Proc) : p ∈ (m.update pid f).procs :=
  List.mem_map.2 ⟨p, hp, if_neg hne⟩

theorem mem_collect_of_ne {p : Proc} (hp : p ∈ m.procs) {pid : ℕ} {status : Status} {who : Reaper}
    (hne : p.pid ≠ pid) : p ∈ (m.collect pid status who).procs := by
  unfold Machine.collect
  split
  · split_ifs
    · exact List.mem_filter.2 ⟨hp, by simpa using hne⟩
    · exact hp
  all_goals exact mem_update_of_ne hp hne _

theorem alive_of_zombie {p : Proc} {normal : Bool} (hlife : p.life = .zombie normal) :
    p.alive = false := by
  simp [Proc.alive, hlife]

/-- Nothing but the shell changes a child that has ended. -/
theorem Homes.zombie_kept (h : Homes m) (hcan : e.can m = true) {p : Proc} {normal : Bool}
    (hp : p ∈ m.procs) (hchild : p.child = true) (hlife : p.life = .zombie normal)
    (he : ∀ a, e ≠ .shell a) : p ∈ (e.next m).procs := by
  have hne : ∀ {pid : ℕ} {f : Proc → Bool}, m.any pid f = true → f p = false → p.pid ≠ pid := by
    intro pid f hany hf hpid
    obtain ⟨q, hq, hqpid, hfq⟩ := any_eq_true.1 hany
    rw [h.unique hq hp (hqpid.trans hpid.symm), hf] at hfq
    exact absurd hfq Bool.false_ne_true
  have halive := alive_of_zombie hlife
  cases e with
  | shell a => exact absurd rfl (he a)
  | spawn pid pgid mayKill => exact List.mem_append_left _ hp
  | move pid pgid =>
    exact mem_update_of_ne hp (hne (Bool.and_eq_true_iff.1 hcan).1 halive) _
  | exit pid normal | setuid pid mayKill => exact mem_update_of_ne hp (hne hcan halive) _
  | stop pid | cont pid => exact mem_update_of_ne hp (hne hcan (by simp [hlife])) _
  | vanish pid =>
    exact List.mem_filter.2 ⟨hp, by simpa using hne hcan (by simp [hchild])⟩
  | copyTraced copy pid normal => exact hp

theorem Awaited.next (h : Told m) (hcan : e.can m = true) {id : ℕ} {normal : Bool}
    (hawaited : Awaited id normal m) : Awaited id normal (e.next m) := by
  cases hawaited with
  | @zombie p hp hid hchild hlife hφ =>
    by_cases he : ∃ a, e = .shell a
    · obtain ⟨a, rfl⟩ := he
      obtain ⟨hallowed, hgrants⟩ := grants_of_can hcan
      have henabled := enabled_of_allowed hallowed
      rw [hφ] at henabled
      cases henabled with
      | reap pid status =>
        have hcall : m.call (.reap pid status) = .wait pid status .handler := by
          simp only [Machine.call]
        have hphase : ((Event.shell (.reap pid status)).next m).shell.phase = .reaping := by
          show (Step.next (.reap pid status) m.shell).phase = _
          simp only [Step.next, hφ]
        by_cases hpid : p.pid = pid
        · subst hpid
          obtain ⟨q, hq, hqpid, hshows⟩ := any_eq_true.1 hgrants
          rw [h.homes.unique hq hp hqpid] at hshows
          cases status with
          | ended normal' =>
            simp only [Proc.shows, hlife, Bool.and_eq_true, decide_eq_true_eq] at hshows
            obtain rfl := Life.zombie.inj hshows.2
            have hcollects := h.homes.collects hp hchild hcall
            rw [← hid]
            exact .reaped (hcollects.reaper (h.numbered.reaper_none hp))
          | stopped | continued =>
            refine .zombie (p := { p with unreported := none }) ?_ hid hchild hlife hphase
            rw [procs_shell, hcall]
            exact List.mem_map.2 ⟨p, hp, if_pos rfl⟩
        · refine .zombie (p := p) ?_ hid hchild hlife hphase
          rw [procs_shell, hcall]
          exact mem_collect_of_ne hp hpid
      | reapEnd =>
        have hall := List.all_eq_true.1 hgrants p hp
        simp [hchild, alive_of_zombie hlife] at hall
    · have he : ∀ a, e ≠ .shell a := fun a ha => he ⟨a, ha⟩
      refine .zombie (h.homes.zombie_kept hcan hp hchild hlife he) hid hchild hlife ?_
      rcases shell_next e m with ⟨a, ha, -⟩ | hshell
      · exact absurd ha (he a)
      · rw [hshell, hφ]
  | reaped hreaper =>
    refine .reaped ?_
    rcases h.homes.reaper_next e id with hsame | ⟨q, who, normal', -, hsame⟩ <;>
      rw [hsame, hreaper]
    rfl

theorem phase_signal (hcan : (Event.shell .signal).can m = true) :
    ((Event.shell .signal).next m).shell.phase = .reaping := by
  show (Step.next .signal m.shell).phase = .reaping
  have henabled := enabled_of_allowed (grants_of_can hcan).1
  generalize hφ : m.shell.phase = φ at henabled
  cases henabled
  simp only [Step.next, hφ]

theorem awaited_exec : ∀ (as : List Event) {m : Machine}, Told m → jobControl.Valid as m →
    jobControl.Each (fun e m => e.reported m = true) as m → ∀ {id : ℕ} {normal : Bool},
    Awaited id normal m → Awaited id normal (jobControl.exec as m)
  | [], _, _, _, _, _, _, h => h
  | _ :: as, _, htold, hv, hreported, _, _, h =>
    awaited_exec as (htold.next hv.1 hreported.1) hv.2 hreported.2 (h.next htold hv.1)

theorem Fate.about {id : ℕ} {r : Option (Reaper × Bool)} (h : Fate m i j id r) :
    m.shell.about i = j.story i r
      ∧ ∀ who normal, r = some (who, normal) → who = .handler ∨ who = .trace ∨ who = .resume := by
  cases h with
  | there _ _ _ _ _ _ habout => exact ⟨habout, by simp⟩
  | @reported who normal hwho _ habout =>
    refine ⟨?_, fun who' normal' hr => ?_⟩
    · rcases hwho with rfl | rfl <;> exact habout
    · obtain ⟨rfl, rfl⟩ := Prod.mk.inj (Option.some.inj hr)
      exact hwho.imp_right .inl
  | @resumed normal _ habout =>
    refine ⟨habout, fun who' normal' hr => ?_⟩
    obtain ⟨rfl, rfl⟩ := Prod.mk.inj (Option.some.inj hr)
    exact .inr (.inr rfl)

/-- The child with the number in `leaders` is the leader of the job. -/
theorem Told.child (h : Told m) (hj : m.shell.jobs[i]? = some j)
    (hout : .launched i j.pid ∈ m.shell.out) {p : Proc} (hp : p ∈ m.procs)
    (hleader : m.leaders[i]? = some (some p.id)) : p.child = true := by
  obtain ⟨id, hid, hfate⟩ := h.told i j hj hout
  obtain rfl : id = p.id := by simpa [hleader, eq_comm] using hid
  rw [h.numbered.reaper_none hp] at hfate
  cases hfate with
  | there hq hqid _ hchild => rwa [← h.numbered.unique hq hp hqid]

end Jobs

open Jobs

/-- In a run whose steps are as `reported` says, the lines about a background job are its
announcement and, once the handler or the tracer has waited for its leader, one report of it; if
the leader was waited for by `resume` there is none. A leader that has ended when the handler starts
has been waited for by the handler when it returns. -/
theorem reported_once (as : List Jobs.Event) (hv : jobControl.Valid as .boot)
    (hreported : jobControl.Each (fun e m => e.reported m = true) as .boot) :
    let m := jobControl.exec as .boot
    m.copyOut = []
    ∧ (∀ (i : ℕ) (j : Job), m.shell.jobs[i]? = some j → .launched i j.pid ∈ m.shell.out →
      ∃ id, m.leaders[i]? = some (some id) ∧ m.shell.about i = j.story i (m.reaper id)
        ∧ ∀ who normal, m.reaper id = some (who, normal) →
          who = .handler ∨ who = .trace ∨ who = .resume)
    ∧ ∀ u v, as = u ++ .shell .signal :: (v ++ [.shell .handled]) →
      ∀ (i : ℕ) (j : Job) (p : Jobs.Proc) (normal : Bool),
      let m₀ := jobControl.exec u .boot
      m₀.shell.jobs[i]? = some j → .launched i j.pid ∈ m₀.shell.out → p ∈ m₀.procs →
      m₀.leaders[i]? = some (some p.id) → p.life = .zombie normal →
      m.reaper p.id = some (.handler, normal) := by
  refine ⟨(told_exec as told_boot hv hreported).silent, fun i j hj hout => ?_, ?_⟩
  · obtain ⟨id, hid, hfate⟩ := (told_exec as told_boot hv hreported).told i j hj hout
    exact ⟨id, hid, hfate.about⟩
  · rintro u v rfl i j p normal m₀ hj hout hp hleader hlife
    obtain ⟨hvu, hcan, hv⟩ := (jobControl.valid_append u _ .boot).1 hv
    obtain ⟨hru, hsignal, hr⟩ := (jobControl.each_append u _).1 hreported
    have htold : Told m₀ := told_exec u told_boot hvu hru
    have hawaited : Awaited p.id normal ((Event.shell .signal).next m₀) :=
      .zombie hp rfl (htold.child hj hout hp hleader) hlife (phase_signal hcan)
    have hend := awaited_exec _ (htold.next hcan hsignal) hv hr hawaited
    rw [System.exec_append, System.exec_cons]
    rw [System.exec_append] at hend ⊢
    obtain ⟨-, hhandled, -⟩ := (jobControl.valid_append v _ _).1 hv
    cases hend with
    | zombie _ _ _ _ hφ => exact absurd ((phase_handled hhandled).symm.trans hφ) (by simp)
    | reaped hreaper => exact hreaper

/-- Two background jobs, of which one is resumed in the foreground and ends there while the other
one ends. -/
def reportedRun : List Jobs.Event :=
  [.shell (.launch [⟨.word, ['a']⟩]), .shell (.fork 5), .shell .forked,
    .shell (.launch [⟨.word, ['b']⟩]), .shell (.fork 6), .shell .forked,
    .shell (.resume 1 true false), .exit 6 false, .exit 5 true,
    .shell (.waitGroup 5 (.ended true)), .shell .groupDone,
    .shell .signal, .shell (.reap 6 (.ended false)), .shell .reapEnd, .shell (.sweep true),
    .shell (.sweep true), .shell .handled]

theorem reported_once_reportedRun :
    let m := jobControl.exec reportedRun .boot
    (∀ (i : ℕ) (j : Job), m.shell.jobs[i]? = some j → .launched i j.pid ∈ m.shell.out →
      ∃ id, m.leaders[i]? = some (some id) ∧ m.shell.about i = j.story i (m.reaper id))
    ∧ m.shell.about 0 = [.launched 0 5]
    ∧ m.shell.about 1 = [.launched 1 6, .report 1 ['b'] 6 false] := by
  refine ⟨fun i j hj hout => ?_, by decide, by decide⟩
  obtain ⟨-, h, -⟩ := reported_once reportedRun (by decide) (by decide)
  obtain ⟨id, hid, habout, -⟩ := h i j hj hout
  exact ⟨id, hid, habout⟩

/-- A job given up when its timer ran out: the handler waits for its leader and does not report
it. -/
theorem timed_out_job_unreported :
    let as : List Jobs.Event :=
      [.shell (.launch [⟨.word, ['a']⟩]), .shell (.fork 5), .shell .forked,
        .shell (.resume 1 true true), .shell .timeout, .exit 5 true, .shell .signal,
        .shell (.reap 5 (.ended true)), .shell .reapEnd, .shell (.sweep true), .shell .handled]
    let m := jobControl.exec as .boot
    jobControl.Valid as .boot ∧ m.leaders[0]? = some (some 0) ∧ m.reaper 0 = some (.handler, true)
      ∧ m.shell.about 0 = [.launched 0 5] := by
  decide

end Shell

end CShellXv6
