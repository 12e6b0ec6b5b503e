import CShellXv6.Proofs.Threads

/-!
# The scheduler under any interleaving

`Inv` ties the locks each core holds to where it is: a scan holds the lock of its best candidate,
which is RUNNABLE, and code holds what `Code.Ok` says. A step of one core touches only processes
whose locks it holds, so it leaves the others where they are (`Inv.step`), and the invariant holds
in every run (`inv_exec`). Hence every step is a critical section that can happen, or none
(`machine_refines`).
-/

namespace CShellXv6

namespace Kernel

variable {NPROC : ℕ} {Core : Type*} [DecidableEq Core]

section Actions

variable {p own : Option (Fin NPROC)} {c : Core} {s : State NPROC Core} {a : Action NPROC Core}

omit [DecidableEq Core] in
theorem Action.Leaves.core {c' : Core} {q : Fin NPROC} (h : a.Leaves c' q)
    (hmine : a.Mine p own c s) : c' = c := by
  rcases h with rfl | rfl | ⟨status, rfl⟩ <;> exact hmine

/-- An action of a thread keeps its core, or gives it up. -/
theorem mine_cpu (hcan : a.can s) (hmine : a.Mine p own c s) :
    (∀ c', c' ≠ c → (a.next s).cpu c' = s.cpu c')
      ∧ ((a.next s).cpu c = s.cpu c ∨ (a.next s).cpu c = none
        ∧ ∃ q, s.cpu c = some q ∧ a.slot = some q ∧ ((a.next s).procs q).state ≠ .running) := by
  rcases cores_next hcan with ⟨hcpu, -⟩ | ⟨c', q, rfl⟩ | ⟨c', q, hleaves, hc, hcpu, hstate, -⟩
  · exact ⟨fun c' _ => by rw [hcpu], .inl (by rw [hcpu])⟩
  · exact hmine.elim
  · obtain rfl := hleaves.core hmine
    refine ⟨fun c hc => by rw [hcpu, Function.update_of_ne hc], .inr ⟨by simp [hcpu], ?_⟩⟩
    exact ⟨q, hc, hleaves.slot, hstate⟩

/-- A child stays as it is until its parent frees it or makes it ready. -/
theorem used_next (hcan : a.can s) {q : Fin NPROC} (hq : (s.procs q).state = .used)
    (hfree : a ≠ .free q) (hready : a ≠ .ready q) : ((a.next s).procs q).state = .used := by
  rw [Action.next_procs]
  split_ifs with hslot
  · have hdoes := does_body hcan hslot
    generalize a.body s (s.procs q) = y at hdoes
    cases hdoes with
    | alloc _ hx | charge _ _ _ _ hx | dispatch _ hx | exit _ _ hx => simp [hq] at hx
    | free => exact absurd rfl hfree
    | ready => exact absurd rfl hready
    | boost | visit | updateTime => exact hq
    | move ha hy =>
      rcases hy.state with hstate | ⟨hstate, -⟩
      · exact hstate.trans hq
      · simp [hq] at hstate
  · exact hq

/-- A process comes to wait for the CPU by its allocation, or by giving up the core it is on. -/
theorem live_next (hcan : a.can s) (hmine : a.Mine p own c s) {q : Fin NPROC}
    (hq : ((a.next s).procs q).state.Live) :
    (s.procs q).state.Live ∨ a = .alloc q ∨ s.cpu c = some q := by
  rw [Action.next_procs] at hq
  split_ifs at hq with hslot
  · cases a <;> simp only [Action.slot, Option.some.injEq, reduceCtorEq] at hslot <;> subst hslot
    case charge c' q =>
      obtain rfl : c' = c := hmine
      exact .inr (.inr hcan.1)
    case alloc q => exact .inr (.inl rfl)
    case free q => exact hq.elim
    case ready q => exact .inl (by simp [show (s.procs q).state = .used from hcan, ProcState.Live])
    case dispatch => exact hmine.elim
    case wake q chan =>
      refine .inl ?_
      by_cases hs : (s.procs q).state = .sleeping
      · simp [hs, ProcState.Live]
      · simpa [Action.body, Proc.wake, hs] using hq
    case kill q pid =>
      refine .inl ?_
      by_cases hs : (s.procs q).state = .sleeping
      · simp [hs, ProcState.Live]
      · simpa [Action.body, Proc.kill, hs] using hq
    case yield c' q | sleepPrepare c' q chan | sleep c' q | exit c' q status =>
      obtain rfl : c' = c := hmine
      exact .inr (.inr hcan.1)
    all_goals exact .inl hq
  · exact .inl hq

end Actions

section Invariant

/-- A scan may keep the process as its best candidate. -/
def Policy.Good (policy : Policy) (x : Proc) : Prop :=
  x.state = .runnable ∧ (policy = .mlfq → x.queued = true)

/-- Where a core with the process `proc` is, holding `held`. -/
def Control.Ok (policy : Policy) (own : Option (Fin NPROC)) (held : List (Lock NPROC))
    (proc cpu : Option (Fin NPROC)) (x : Fin NPROC → Proc) : Control NPROC Core → Prop
  | .code k => k.Ok proc held own x cpu
    ∧ (cpu = proc ∨ ∃ q, proc = some q ∧ cpu = none ∧ .proc q ∈ held ∧ (x q).state ≠ .running)
  | .scan rest best => proc = none ∧ cpu = none ∧ held = best.toList.map .proc
    ∧ (best.toList ++ rest).Nodup ∧ ∀ b ∈ best, policy.Good (x b)
  | .look q rest best | .pass q rest best => proc = none ∧ cpu = none
    ∧ held = .proc q :: best.toList.map .proc ∧ (q :: (best.toList ++ rest)).Nodup
    ∧ ∀ b ∈ best, policy.Good (x b)
  | .swap q rest old => proc = none ∧ cpu = none ∧ held = [.proc q, .proc old]
    ∧ (q :: rest).Nodup ∧ policy.Good (x q)
  | .back q => proc = some q ∧ cpu = none ∧ held = [.proc q] ∧ (x q).state ≠ .running

/-- The core executes code of the process. -/
def Machine.Executes (m : Machine NPROC Core) (c : Core) (q : Fin NPROC) : Prop :=
  m.proc c = some q ∧ ∃ k, m.control c = .code k

structure Inv (policy : Policy) (held : Core → List (Lock NPROC))
    (own : Fin NPROC → Option (Fin NPROC)) (m : Machine NPROC Core) : Prop where
  holding : m.locks.Holding held
  onCores : m.base.OnCores
  used : ∀ p q, own p = some q → (m.base.procs q).state = .used
  parent : ∀ p p' q, own p = some q → own p' = some q → p = p'
  core : ∀ c, (m.control c).Ok policy ((m.proc c).bind own) (held c) (m.proc c) (m.base.cpu c)
    m.base.procs
  away : ∀ q, (m.base.procs q).state.Live → (∀ c, ¬ m.Executes c q) →
    ∀ y, (m.context q).Ok (some q) [.proc q] (own q) y (some q)

variable {policy : Policy} {held : Core → List (Lock NPROC)}
  {own : Fin NPROC → Option (Fin NPROC)} {m : Machine NPROC Core} {c : Core}

theorem Control.Ok.congr {control : Control NPROC Core} {own : Option (Fin NPROC)}
    {held : List (Lock NPROC)} {proc cpu : Option (Fin NPROC)} {x y : Fin NPROC → Proc}
    (h : control.Ok policy own held proc cpu x) (hxy : ∀ q, .proc q ∈ held → y q = x q) :
    control.Ok policy own held proc cpu y := by
  cases control with
  | code k =>
    refine ⟨h.1.congr hxy, h.2.imp id ?_⟩
    rintro ⟨q, hproc, hcpu, hq, hstate⟩
    exact ⟨q, hproc, hcpu, hq, by rwa [hxy q hq]⟩
  | scan rest best =>
    obtain ⟨hproc, hcpu, rfl, hrest, hbest⟩ := h
    refine ⟨hproc, hcpu, rfl, hrest, fun b hb => ?_⟩
    rw [hxy b (by simpa using hb)]
    exact hbest b hb
  | look q rest best | pass q rest best =>
    obtain ⟨hproc, hcpu, rfl, hrest, hbest⟩ := h
    refine ⟨hproc, hcpu, rfl, hrest, fun b hb => ?_⟩
    rw [hxy b (List.mem_cons_of_mem _ (by simpa using hb))]
    exact hbest b hb
  | swap q rest old =>
    obtain ⟨hproc, hcpu, rfl, hrest, hq⟩ := h
    exact ⟨hproc, hcpu, rfl, hrest, by rwa [hxy q (by simp)]⟩
  | back q =>
    obtain ⟨hproc, hcpu, rfl, hq⟩ := h
    exact ⟨hproc, hcpu, rfl, by rwa [hxy q (by simp)]⟩

/-- Who executed code still does when `c` goes on, unless `c` leaves its own. -/
theorem Machine.Executes.goto {m' : Machine NPROC Core} {c' : Core} {q : Fin NPROC}
    (h : m.Executes c' q) (hproc : m'.proc c' = m.proc c') (hcontrol : m'.control = m.control)
    {control : Control NPROC Core} (hk : c' = c → ∃ k, control = .code k) :
    (m'.goto c control).Executes c' q := by
  refine ⟨hproc.trans h.1, ?_⟩
  by_cases hc : c' = c
  · obtain ⟨k, rfl⟩ := hk hc
    exact ⟨k, by simp [Machine.goto, hc]⟩
  · simpa [Machine.goto, Function.update_of_ne hc, hcontrol] using h.2

theorem Inv.view (h : Inv policy held own m) (c : Core) :
    View (held c) ((m.proc c).bind own) m.base.procs (m.base.cpu c) c m.base := by
  refine ⟨fun _ _ => rfl, rfl, fun q hq => ?_, fun q hq => (h.onCores.running q).2 ⟨c, hq⟩⟩
  obtain ⟨p, -, hp⟩ := Option.bind_eq_some_iff.1 hq
  exact h.used p q hp

/-- A step of `c` that touches only processes whose locks it holds, and keeps its own part of the
invariant, keeps it all. -/
theorem Inv.step (h : Inv policy held own m) (c : Core) {m' : Machine NPROC Core}
    {held' : Core → List (Lock NPROC)} {own' : Fin NPROC → Option (Fin NPROC)}
    (hlocks : m'.locks.Holding held') (honCores : m'.base.OnCores)
    (hused : ∀ p q, own' p = some q → (m'.base.procs q).state = .used)
    (hparent : ∀ p p' q, own' p = some q → own' p' = some q → p = p')
    (hothers : ∀ c', c' ≠ c → m'.control c' = m.control c' ∧ m'.proc c' = m.proc c'
      ∧ held' c' = held c' ∧ m'.base.cpu c' = m.base.cpu c'
      ∧ (m.proc c').bind own' = (m.proc c').bind own)
    (hprocs : ∀ q, .proc q ∉ held c → m'.base.procs q = m.base.procs q)
    (hcore : (m'.control c).Ok policy ((m'.proc c).bind own') (held' c) (m'.proc c)
      (m'.base.cpu c) m'.base.procs)
    (haway : ∀ q, (m'.base.procs q).state.Live → (∀ c, ¬ m'.Executes c q) →
      ∀ y, (m'.context q).Ok (some q) [.proc q] (own' q) y (some q)) :
    Inv policy held' own' m' := by
  refine ⟨hlocks, honCores, hused, hparent, fun c' => ?_, haway⟩
  by_cases hc : c' = c
  · rw [hc]
    exact hcore
  · obtain ⟨hcontrol, hproc, hheld, hcpu, hown⟩ := hothers c' hc
    rw [hcontrol, hproc, hheld, hcpu, hown]
    exact (h.core c').congr fun q hq => hprocs q fun hq' => hc (h.holding.unique hq hq')

/-- A step that changes only the locks of the core and where it is. -/
theorem Inv.move (h : Inv policy held own m) {locks : Locks (Lock NPROC) Core}
    {mine : List (Lock NPROC)} (hlocks : locks.Holding (Function.update held c mine))
    {control : Control NPROC Core}
    (hcore : control.Ok policy ((m.proc c).bind own) mine (m.proc c) (m.base.cpu c) m.base.procs)
    (hexec : m.proc c ≠ none → (∃ k, m.control c = .code k) → ∃ k, control = .code k) :
    Inv policy (Function.update held c mine) own ({ m with locks := locks }.goto c control) := by
  refine h.step c hlocks h.onCores h.used h.parent (fun c' hc' => ?_) (fun _ _ => rfl) ?_ ?_
  · simp [Machine.goto, Function.update_of_ne hc']
  · simpa [Machine.goto] using hcore
  · refine fun q hq hno => h.away q hq fun c' hc' => hno c' (hc'.goto rfl rfl ?_)
    rintro rfl
    exact hexec (by simp [hc'.1]) hc'.2

theorem Inv.goto (h : Inv policy held own m) {control : Control NPROC Core}
    (hcore : control.Ok policy ((m.proc c).bind own) (held c) (m.proc c) (m.base.cpu c)
      m.base.procs)
    (hexec : m.proc c ≠ none → (∃ k, m.control c = .code k) → ∃ k, control = .code k) :
    Inv policy held own (m.goto c control) := by
  have hmove : Inv policy (Function.update held c (held c)) own
      ({ m with locks := m.locks }.goto c control) :=
    h.move (by simpa using h.holding) hcore hexec
  simpa using hmove

end Invariant

section Steps

variable {policy : Policy} {held : Core → List (Lock NPROC)}
  {own : Fin NPROC → Option (Fin NPROC)} {m : Machine NPROC Core} {c : Core}

theorem Inv.code (h : Inv policy held own m) {k : Code NPROC Core} (hc : m.control c = .code k) :
    k.Ok (m.proc c) (held c) ((m.proc c).bind own) m.base.procs (m.base.cpu c)
      ∧ (m.base.cpu c = m.proc c ∨ ∃ q, m.proc c = some q ∧ m.base.cpu c = none
        ∧ .proc q ∈ held c ∧ (m.base.procs q).state ≠ .running) := by
  have := h.core c
  rwa [hc] at this

theorem Inv.acquire (h : Inv policy held own m) {l : Lock NPROC} {k : Code NPROC Core}
    (hc : m.control c = .code (.acquire l k)) (hfree : m.locks.holder l = none) :
    Inv policy (Function.update held c (l :: held c)) own ((m.acquire c l).goto c (.code k)) := by
  obtain ⟨hk, hplace⟩ := h.code hc
  refine h.move (h.holding.acquire hfree) ⟨hk.2 c m.base (h.view c), hplace.imp id ?_⟩
    fun _ _ => ⟨k, rfl⟩
  rintro ⟨q, hproc, hcpu, hq, hstate⟩
  exact ⟨q, hproc, hcpu, List.mem_cons_of_mem _ hq, hstate⟩

theorem Inv.release (h : Inv policy held own m) {l : Lock NPROC} {k : Code NPROC Core}
    (hc : m.control c = .code (.release l k)) :
    Inv policy (Function.update held c ((held c).erase l)) own
      ((m.release c l).goto c (.code k)) := by
  obtain ⟨⟨hl, hon, hk⟩, hplace⟩ := h.code hc
  refine h.move (h.holding.release hl) ⟨hk, hplace.imp id ?_⟩ fun _ _ => ⟨k, rfl⟩
  rintro ⟨q, hproc, hcpu, hq, hstate⟩
  refine ⟨q, hproc, hcpu, (List.mem_erase_of_ne ?_).2 hq, hstate⟩
  rintro rfl
  have := hon q hproc rfl
  rw [hcpu, hproc] at this
  cases this

theorem Inv.read (h : Inv policy held own m) {q : Fin NPROC} {k : Proc → Code NPROC Core}
    (hc : m.control c = .code (.read q k)) :
    Inv policy held own (m.goto c (.code (k (m.base.procs q)))) := by
  obtain ⟨hk, hplace⟩ := h.code hc
  exact h.goto ⟨hk.2, hplace⟩ fun _ _ => ⟨_, rfl⟩

/-- A core has a process it runs, or one it is about to leave and whose lock it holds. -/
theorem Inv.placed (h : Inv policy held own m) {q : Fin NPROC} (hq : m.proc c = some q) :
    m.base.cpu c = some q ∨ .proc q ∈ held c ∧ (m.base.procs q).state ≠ .running := by
  have hcore := h.core c
  cases hc : m.control c <;> rw [hc, hq] at hcore
  case code k =>
    rcases hcore.2 with hcpu | ⟨r, hr, -, hheld, hstate⟩
    · exact .inl hcpu
    · obtain rfl := Option.some.inj hr
      exact .inr ⟨hheld, hstate⟩
  case back r =>
    obtain ⟨hr, -, hheld, hstate⟩ := hcore
    obtain rfl := Option.some.inj hr
    exact .inr ⟨by simp [hheld], hstate⟩
  all_goals exact absurd hcore.1 (by simp)

theorem Inv.proc_unique (h : Inv policy held own m) {c' : Core} {q : Fin NPROC}
    (hq : m.proc c = some q) (hq' : m.proc c' = some q) : c = c' := by
  have hrunning : ∀ c, m.base.cpu c = some q → (m.base.procs q).state = .running :=
    fun c hc => (h.onCores.running q).2 ⟨c, hc⟩
  rcases h.placed hq with hcpu | ⟨hheld, hstate⟩ <;>
    rcases h.placed hq' with hcpu' | ⟨hheld', hstate'⟩
  · exact h.onCores.unique c c' q hcpu hcpu'
  · exact absurd (hrunning c hcpu) hstate'
  · exact absurd (hrunning c' hcpu') hstate
  · exact h.holding.unique hheld hheld'

/-- The children behind an action of the process `proc`. -/
def ownAfter (own : Fin NPROC → Option (Fin NPROC)) (proc : Option (Fin NPROC))
    (a : Action NPROC Core) (r : Fin NPROC) : Option (Fin NPROC) :=
  if proc = some r then a.child (own r) else if a = .alloc r then none else own r

section Own

variable {proc : Option (Fin NPROC)} {a : Action NPROC Core} {s : State NPROC Core}

theorem bind_ownAfter (hmine : a.Mine proc (proc.bind own) c s) :
    proc.bind (ownAfter own proc a) = a.child (proc.bind own) := by
  cases proc with
  | some p => simp [ownAfter]
  | none => cases a <;> simp_all [Action.child, Action.Mine]

omit [DecidableEq Core] in
theorem child_cases {o : Option (Fin NPROC)} {q : Fin NPROC} (h : a.child o = some q) :
    a = .alloc q ∨ o = some q ∧ a ≠ .free q ∧ a ≠ .ready q := by
  cases a
  case alloc t => exact .inl (by rw [Option.some.inj h])
  case free t =>
    simp only [Action.child] at h
    split_ifs at h with ht
    refine .inr ⟨h, ?_, by simp⟩
    rintro ⟨⟩
    exact ht h
  case ready t => simp [Action.child] at h
  all_goals exact .inr ⟨h, by simp, by simp⟩

/-- Who has a child behind an action: who had it, and did not free it or make it ready, or who
allocated it. -/
theorem ownAfter_cases (hparent : ∀ p p' q, own p = some q → own p' = some q → p = p')
    (hused : ∀ p q, own p = some q → (s.procs q).state = .used)
    (hmine : a.Mine proc (proc.bind own) c s) {r q : Fin NPROC}
    (h : ownAfter own proc a r = some q) :
    (proc = some r ∧ a = .alloc q) ∨ (own r = some q ∧ a ≠ .free q ∧ a ≠ .ready q) := by
  unfold ownAfter at h
  split_ifs at h with hr ha
  · exact (child_cases h).imp (fun h => ⟨hr, h⟩) id
  · have hnot : proc.bind own ≠ some q := by
      intro hbind
      obtain ⟨p, hp, hpq⟩ := Option.bind_eq_some_iff.1 hbind
      rw [hparent p r q hpq h] at hp
      exact hr hp
    refine .inr ⟨h, ?_, ?_⟩
    · rintro rfl
      rcases hmine with hz | hz
      · simp [hused r q h] at hz
      · exact hnot hz
    · rintro rfl
      exact hnot hmine

theorem used_ownAfter (hparent : ∀ p p' q, own p = some q → own p' = some q → p = p')
    (hused : ∀ p q, own p = some q → (s.procs q).state = .used)
    (hcan : a.can s) (hmine : a.Mine proc (proc.bind own) c s) (r q : Fin NPROC)
    (h : ownAfter own proc a r = some q) : ((a.next s).procs q).state = .used := by
  rcases ownAfter_cases hparent hused hmine h with ⟨-, rfl⟩ | ⟨hq, hfree, hready⟩
  · simp [Action.next_procs, Action.slot, Action.body, Proc.alloc]
  · exact used_next hcan (hused r q hq) hfree hready

theorem parent_ownAfter (hparent : ∀ p p' q, own p = some q → own p' = some q → p = p')
    (hused : ∀ p q, own p = some q → (s.procs q).state = .used)
    (hcan : a.can s) (hmine : a.Mine proc (proc.bind own) c s) (r r' q : Fin NPROC)
    (h : ownAfter own proc a r = some q) (h' : ownAfter own proc a r' = some q) : r = r' := by
  have hold : ∀ t, a = .alloc q → own t ≠ some q := by
    rintro t rfl ht
    have := hused t q ht
    simp [show (s.procs q).state = .unused from hcan] at this
  rcases ownAfter_cases hparent hused hmine h with ⟨hr, ha⟩ | ⟨hq, -⟩ <;>
    rcases ownAfter_cases hparent hused hmine h' with ⟨hr', ha'⟩ | ⟨hq', -⟩
  · exact Option.some.inj (hr.symm.trans hr')
  · exact absurd hq' (hold r' ha)
  · exact absurd hq (hold r ha')
  · exact hparent r r' q hq hq'

end Own

omit own in
theorem act_context (m : Machine NPROC Core) {a : Action NPROC Core} {q : Fin NPROC}
    (ha : a ≠ .alloc q) : (m.act a).context q = m.context q := by
  cases a
  case alloc r =>
    have hne : q ≠ r := by
      rintro rfl
      exact ha rfl
    simp [Machine.act, Function.update_of_ne hne]
  all_goals rfl

theorem Inv.act (h : Inv policy held own m) {a : Core → Action NPROC Core} {k : Code NPROC Core}
    (hc : m.control c = .code (.act a k)) :
    (a c).Allowed (m.proc c) (held c) ((m.proc c).bind own) c m.base
      ∧ Inv policy held (ownAfter own (m.proc c) (a c)) ((m.act (a c)).goto c (.code k)) := by
  obtain ⟨hk, -⟩ := h.code hc
  obtain ⟨hallowed, hk⟩ := hk c m.base (h.view c)
  generalize a c = a at hallowed hk
  obtain ⟨hcan, hon, hheld, hmine⟩ := hallowed
  obtain ⟨hothers, hself⟩ := mine_cpu hcan hmine
  refine ⟨⟨hcan, hon, hheld, hmine⟩, h.step c h.holding (h.onCores.next hcan)
    (used_ownAfter h.parent h.used hcan hmine) (parent_ownAfter h.parent h.used hcan hmine)
    (fun c' hc' => ⟨?_, rfl, rfl, hothers c' hc', ?_⟩) (fun q hq => ?_) ?_ fun q hq hno y => ?_⟩
  · simp [Machine.goto, Machine.act, Function.update_of_ne hc']
  · cases hr : m.proc c' with
    | none => rfl
    | some r =>
      have hcr : m.proc c ≠ some r := fun hcr => hc' (h.proc_unique hr hcr)
      have halloc : a ≠ .alloc r := by
        rintro rfl
        rcases h.placed hr with hcpu | ⟨hheld', -⟩
        · have := (h.onCores.running r).2 ⟨c', hcpu⟩
          simp [show (m.base.procs r).state = .unused from hcan] at this
        · exact hc' (h.holding.unique hheld' (hheld r rfl))
      simp [ownAfter, hcr, halloc]
  · refine (Action.next_procs a m.base q).trans (if_neg fun hslot => hq (hheld q hslot))
  · rw [show ((m.act a).goto c (.code k)).proc c = m.proc c from rfl, bind_ownAfter hmine]
    simp only [Machine.goto, Function.update_self]
    refine ⟨hk, ?_⟩
    rcases hself with hcpu | ⟨hcpu, q, hq, hslot, hstate⟩
    · exact .inl (hcpu.trans hon)
    · exact .inr ⟨q, hon.symm.trans hq, hcpu, hheld q hslot, hstate⟩
  · have hnot : m.proc c ≠ some q := by
      intro hq
      exact hno c ⟨hq, k, by simp [Machine.goto]⟩
    rcases live_next hcan hmine hq with hlive | rfl | hcpu
    · have halloc : a ≠ .alloc q := by
        rintro rfl
        simp [show (m.base.procs q).state = .unused from hcan, ProcState.Live] at hlive
      have hcontext : ((m.act a).goto c (.code k)).context q = m.context q :=
        act_context m halloc
      rw [hcontext, ownAfter, if_neg hnot, if_neg halloc]
      exact h.away q hlive (fun c' hc' => hno c' (hc'.goto rfl rfl fun _ => ⟨k, rfl⟩)) y
    · rw [ownAfter, if_neg hnot, if_pos rfl]
      have hcontext : ((m.act (.alloc q)).goto c (.code k)).context q = Code.forkret q := by
        simp [Machine.goto, Machine.act]
      rw [hcontext]
      exact Code.Ok.release_head ⟨rfl, rfl, rfl⟩
    · exact absurd (hon.symm.trans hcpu) hnot

theorem Inv.sched (h : Inv policy held own m) {k : Code NPROC Core}
    (hc : m.control c = .code (.sched k)) : ∃ q, m.proc c = some q ∧ held c = [.proc q]
      ∧ (m.base.procs q).state ≠ .running
      ∧ Inv policy held own
        ({ m with context := Function.update m.context q k }.goto c (.back q)) := by
  obtain ⟨⟨q, hq, hheld, hcpu, hstate⟩, -⟩ := h.code hc
  have hrunning : (m.base.procs q).state ≠ .running := by
    rcases hstate with hz | ⟨hlive, -⟩
    · simp [hz]
    · intro hr
      simp [hr, ProcState.Live] at hlive
  refine ⟨q, hq, hheld, hrunning, h.step c h.holding h.onCores h.used h.parent
    (fun c' hc' => ?_) (fun _ _ => rfl) ?_ fun r hr hno y => ?_⟩
  · simp [Machine.goto, Function.update_of_ne hc']
  · simp only [Machine.goto, Function.update_self]
    exact ⟨hq, hcpu, hheld, hrunning⟩
  · by_cases hrq : r = q
    · subst hrq
      rcases hstate with hz | ⟨-, hk⟩
      · have hr : (m.base.procs r).state.Live := hr
        simp [hz, ProcState.Live] at hr
      · rw [hq] at hk
        simpa [Machine.goto] using hk y
    · simp only [Machine.goto, Function.update_of_ne hrq]
      refine h.away r hr (fun c' hc' => hno c' (hc'.goto rfl rfl ?_)) y
      rintro rfl
      exact absurd (hc'.1.symm.trans hq) (by simpa using hrq)

theorem Inv.scanning (h : Inv policy held own m) {control : Control NPROC Core}
    (hc : m.control c = control) : control.Ok policy ((m.proc c).bind own) (held c) (m.proc c)
      (m.base.cpu c) m.base.procs := by
  rw [← hc]
  exact h.core c

theorem Inv.scan (h : Inv policy held own m) {p : Fin NPROC} {rest : List (Fin NPROC)}
    {best : Option (Fin NPROC)} (hc : m.control c = .scan (p :: rest) best)
    (hfree : m.locks.holder (.proc p) = none) :
    Inv policy (Function.update held c (.proc p :: held c)) own
      ((m.acquire c (.proc p)).goto c (.look p rest best)) := by
  obtain ⟨hproc, hcpu, hheld, hrest, hbest⟩ := h.scanning hc
  refine h.move (h.holding.acquire hfree)
    ⟨hproc, hcpu, by rw [hheld], List.nodup_middle.1 hrest, hbest⟩ fun hn => ?_
  exact absurd hproc hn

theorem Inv.swap (h : Inv policy held own m) {p old : Fin NPROC} {rest : List (Fin NPROC)}
    (hc : m.control c = .swap p rest old) :
    Inv policy (Function.update held c ((held c).erase (.proc old))) own
      ((m.release c (.proc old)).goto c (.scan rest (some p))) := by
  obtain ⟨hproc, hcpu, hheld, hrest, hp⟩ := h.scanning hc
  have hne : p ≠ old := by
    have := h.holding.nodup c
    rw [hheld] at this
    simpa using this
  refine h.move (h.holding.release (by simp [hheld])) ⟨hproc, hcpu, ?_, hrest, ?_⟩ fun hn => ?_
  · rw [hheld, List.erase_cons_tail (by simpa using hne), List.erase_cons_head]
    rfl
  · rintro b ⟨⟩
    exact hp
  · exact absurd hproc hn

theorem Inv.pass (h : Inv policy held own m) {p : Fin NPROC} {rest : List (Fin NPROC)}
    {best : Option (Fin NPROC)} (hc : m.control c = .pass p rest best) :
    Inv policy (Function.update held c ((held c).erase (.proc p))) own
      ((m.release c (.proc p)).goto c (.scan rest best)) := by
  obtain ⟨hproc, hcpu, hheld, hrest, hbest⟩ := h.scanning hc
  refine h.move (h.holding.release (by simp [hheld]))
    ⟨hproc, hcpu, ?_, (List.nodup_cons.1 hrest).2, hbest⟩ fun hn => ?_
  · rw [hheld, List.erase_cons_head]
  · exact absurd hproc hn

/-- A scan that looks at a process may queue it. -/
theorem visit_spec (policy : Policy) (p : Fin NPROC) (s : State NPROC Core) :
    (policy.visit p s).cpu = s.cpu ∧ (∀ q, q ≠ p → (policy.visit p s).procs q = s.procs q)
      ∧ (∀ q, ((policy.visit p s).procs q).state = (s.procs q).state)
      ∧ ((s.procs p).state = .runnable → policy.Good ((policy.visit p s).procs p)) := by
  cases policy with
  | fifo => exact ⟨rfl, fun _ _ => rfl, fun _ => rfl, fun h => ⟨h, by simp⟩⟩
  | mlfq =>
    refine ⟨rfl, fun q hq => ?_, fun q => ?_, fun h => ⟨?_, fun _ => ?_⟩⟩
    · simp [Policy.visit, Action.next_procs, Action.slot, Ne.symm hq]
    · by_cases hq : p = q <;> simp [Policy.visit, Action.next_procs, Action.slot, Action.body,
        Proc.visit, hq]
    · simpa [Policy.visit, Action.next_procs, Action.slot, Action.body, Proc.visit] using h
    · cases hqueued : (s.procs p).queued <;> simp [Policy.visit, Action.next_procs, Action.slot,
        Action.body, Proc.visit, h, hqueued]

theorem visit_onCores {s : State NPROC Core} (h : s.OnCores) (policy : Policy) (p : Fin NPROC) :
    (policy.visit p s).OnCores := by
  cases policy with
  | fifo => exact h
  | mlfq => exact h.next (a := .visit p) trivial

theorem Inv.look (h : Inv policy held own m) {p : Fin NPROC} {rest : List (Fin NPROC)}
    {best : Option (Fin NPROC)} (hc : m.control c = .look p rest best) :
    Inv policy held own ({ m with base := policy.visit p m.base }.goto c
      (if policy.better p best (policy.visit p m.base) then
        best.elim (.scan rest (some p)) (.swap p rest)
      else .pass p rest best)) := by
  obtain ⟨hproc, hcpu, hheld, hrest, hbest⟩ := h.scanning hc
  obtain ⟨hvcpu, hvother, hvstate, hvgood⟩ := visit_spec policy p m.base
  have hgood : ∀ b ∈ best, policy.Good ((policy.visit p m.base).procs b) := by
    intro b hb
    have hnodup := h.holding.nodup c
    rw [hheld, List.nodup_cons] at hnodup
    rw [hvother b]
    · exact hbest b hb
    · rintro rfl
      exact hnodup.1 (by simpa using hb)
  have hcore : (if policy.better p best (policy.visit p m.base) then
        best.elim (.scan rest (some p)) (.swap p rest) else .pass p rest best :
        Control NPROC Core).Ok policy ((m.proc c).bind own) (held c) (m.proc c)
      ((policy.visit p m.base).cpu c) (policy.visit p m.base).procs := by
    rw [hvcpu]
    split_ifs with hbetter
    · simp only [Policy.better, Bool.and_eq_true, decide_eq_true_eq, hvstate] at hbetter
      have hp := hvgood hbetter.1
      cases best with
      | none =>
        refine ⟨hproc, hcpu, hheld, hrest, ?_⟩
        rintro b ⟨⟩
        exact hp
      | some b =>
        refine ⟨hproc, hcpu, hheld, hrest.sublist ?_, hp⟩
        simp
    · exact ⟨hproc, hcpu, hheld, hrest, hgood⟩
  refine h.step c h.holding (visit_onCores h.onCores policy p) ?_ h.parent (fun c' hc' => ?_)
    (fun q hq => hvother q ?_) ?_ fun q hq hno =>
      h.away q ?_ fun c' hc' => hno c' (hc'.goto rfl rfl ?_)
  · intro r q hr
    exact (hvstate q).trans (h.used r q hr)
  · simp [Machine.goto, Function.update_of_ne hc', hvcpu]
  · rintro rfl
    exact hq (by simp [hheld])
  · simpa [Machine.goto] using hcore
  · rw [← hvstate]
    exact hq
  · rintro rfl
    exact absurd (hproc.symm.trans hc'.1) (by simp)

/-- Nobody executes the candidate of a scan. -/
theorem Inv.not_executes (h : Inv policy held own m) {p : Fin NPROC}
    {rest : List (Fin NPROC)} (hc : m.control c = .scan rest (some p)) (c' : Core) :
    ¬ m.Executes c' p := by
  rintro ⟨hp, k, hk⟩
  obtain ⟨-, -, hheld, -, hbest⟩ := h.scanning hc
  rcases h.placed hp with hcpu | ⟨hheld', -⟩
  · have := (h.onCores.running p).2 ⟨c', hcpu⟩
    rw [(hbest p rfl).1] at this
    cases this
  · obtain rfl := h.holding.unique hheld' (show .proc p ∈ held c by simp [hheld])
    rw [hc] at hk
    cases hk

theorem Inv.dispatch (h : Inv policy held own m) {p : Fin NPROC}
    (hc : m.control c = .scan [] (some p)) :
    (Action.dispatch c p).can m.base ∧ policy.Good (m.base.procs p)
      ∧ Inv policy held own
        ({ m.act (.dispatch c p) with proc := Function.update m.proc c (some p) }.goto c
          (.code (m.context p))) := by
  obtain ⟨hproc, hcpu, hheld, -, hbest⟩ := h.scanning hc
  have hrun := (hbest p rfl).1
  have hcan : (Action.dispatch c p).can m.base := ⟨hrun, hcpu⟩
  have hother : ∀ q, q ≠ p → ((Action.dispatch c p).next m.base).procs q = m.base.procs q := by
    intro q hq
    simp [Action.next_procs, Action.slot, Ne.symm hq]
  refine ⟨hcan, hbest p rfl, h.step c h.holding (h.onCores.next hcan) ?_ h.parent
    (fun c' hc' => ?_) (fun q hq => hother q ?_) ?_ fun q hq hno y => ?_⟩
  · intro r q hr
    exact used_next hcan (h.used r q hr) (by simp) (by simp)
  · simp [Machine.goto, Machine.act, Function.update_of_ne hc', Action.next, Action.cpu]
  · rintro rfl
    exact hq (by simp [hheld])
  · have hk := h.away p (by simp [hrun, ProcState.Live]) (h.not_executes hc)
      ((Action.dispatch c p).next m.base).procs
    have hnext : ((Action.dispatch c p).next m.base).cpu c = some p := by
      simp [Action.next, Action.cpu]
    simp only [Machine.goto, Machine.act, Function.update_self, hnext, hheld]
    exact ⟨hk, .inl rfl⟩
  · have hqp : q ≠ p := by
      rintro rfl
      simp [Machine.goto, Machine.act, Action.next_procs, Action.slot, Action.body, Proc.dispatch,
        ProcState.Live] at hq
    refine h.away q ?_ (fun c' hc' => hno c' ?_) y
    · rw [← hother q hqp]
      exact hq
    · have hcc : c' ≠ c := by
        rintro rfl
        exact absurd (hproc.symm.trans hc'.1) (by simp)
      refine hc'.goto ?_ ?_ fun hcc' => absurd hcc' hcc
      · exact Function.update_of_ne hcc _ _
      · rfl

theorem Inv.back (h : Inv policy held own m) {q : Fin NPROC} (hc : m.control c = .back q) :
    Inv policy held own ({ m with proc := Function.update m.proc c none }.goto c
      (.code (.release (.proc q) .done))) := by
  obtain ⟨hproc, hcpu, hheld, -⟩ := h.scanning hc
  refine h.step c h.holding h.onCores h.used h.parent (fun c' hc' => ?_) (fun _ _ => rfl) ?_
    fun r hr hno => h.away r hr fun c' hc' => hno c' ?_
  · simp [Machine.goto, Function.update_of_ne hc']
  · simp only [Machine.goto, Function.update_self, hcpu, hheld]
    exact ⟨Code.Ok.release_head ⟨rfl, rfl, rfl⟩, .inl rfl⟩
  · have hcc : c' ≠ c := by
      rintro rfl
      obtain ⟨-, k, hk⟩ := hc'
      rw [hc] at hk
      cases hk
    refine hc'.goto ?_ ?_ fun hcc' => absurd hcc' hcc
    · exact Function.update_of_ne hcc _ _
    · rfl

end Steps

section Runs

variable {policy : Policy} {held : Core → List (Lock NPROC)}
  {own : Fin NPROC → Option (Fin NPROC)} {m : Machine NPROC Core} {c : Core}

/-- A step that is a critical section, or none. -/
def Refined (policy : Policy) (m : Machine NPROC Core) (a : Step NPROC Core) : Prop :=
  (policy.sections NPROC Core).Valid (m.actions policy a) m.base
    ∧ (policy.sections NPROC Core).exec (m.actions policy a) m.base = (m.next policy a).base

theorem sections_can {a : Action NPROC Core} {s : State NPROC Core} (hcan : a.can s)
    (hqueued : policy = .mlfq → ∀ c p, a = .dispatch c p → (s.procs p).queued = true) :
    (policy.sections NPROC Core).can a s := by
  cases policy with
  | fifo => exact hcan
  | mlfq =>
    refine ⟨hcan, ?_⟩
    cases a <;> first | trivial | exact hqueued rfl _ _ rfl

theorem sections_exec (policy : Policy) (a : Action NPROC Core) (s : State NPROC Core) :
    (policy.sections NPROC Core).exec [a] s = a.next s := by
  cases policy <;> rfl

theorem inv_code (h : Inv policy held own m) {k : Code NPROC Core} (hc : m.control c = .code k)
    (hcan : m.can (.run c)) :
    Refined policy m (.run c) ∧ ∃ held' own', Inv policy held' own' (m.next policy (.run c)) := by
  unfold Refined
  simp only [Machine.can, hc] at hcan
  simp only [Machine.next, Machine.actions, hc, Machine.run]
  cases k with
  | done => exact hcan.elim
  | panicked => exact hcan.elim
  | acquire l k => exact ⟨⟨trivial, rfl⟩, _, _, h.acquire hc hcan⟩
  | release l k => exact ⟨⟨trivial, rfl⟩, _, _, h.release hc⟩
  | read q k => exact ⟨⟨trivial, rfl⟩, _, _, h.read hc⟩
  | act a k =>
    obtain ⟨hallowed, hinv⟩ := h.act hc
    refine ⟨⟨⟨sections_can hallowed.can fun _ c' p hd => ?_, trivial⟩, sections_exec _ _ _⟩, _, _,
      hinv⟩
    have := hallowed.mine
    rw [hd] at this
    exact this.elim
  | sched k =>
    obtain ⟨q, hq, -, -, hinv⟩ := h.sched hc
    simp only [Machine.runCode, hq]
    exact ⟨⟨trivial, rfl⟩, _, _, hinv⟩

theorem inv_run (h : Inv policy held own m) (hcan : m.can (.run c)) :
    Refined policy m (.run c) ∧ ∃ held' own', Inv policy held' own' (m.next policy (.run c)) := by
  cases hc : m.control c with
  | code k => exact inv_code h hc hcan
  | scan rest best =>
    unfold Refined
    simp only [Machine.can, hc] at hcan
    rcases rest with _ | ⟨p, rest⟩
    · cases best with
      | none =>
        simp only [Machine.next, Machine.actions, hc, Machine.run]
        obtain ⟨hproc, hcpu, hheld, -⟩ := h.scanning hc
        refine ⟨⟨trivial, rfl⟩, held, own, h.goto ⟨⟨hheld, ?_, ?_⟩, .inl ?_⟩ fun _ _ => ⟨_, rfl⟩⟩
        · rw [hproc]
          rfl
        · rw [hcpu, hproc]
        · rw [hcpu, hproc]
      | some p =>
        simp only [Machine.next, Machine.actions, hc, Machine.run]
        obtain ⟨hdispatch, hgood, hinv⟩ := h.dispatch hc
        refine ⟨⟨⟨sections_can hdispatch ?_, trivial⟩, sections_exec _ _ _⟩, held, own, hinv⟩
        rintro hpolicy c' p' ⟨⟩
        exact hgood.2 hpolicy
    · simp only [Machine.next, Machine.actions, hc, Machine.run]
      exact ⟨⟨trivial, rfl⟩, _, _, h.scan hc hcan⟩
  | look p rest best =>
    unfold Refined
    have hinv := h.look hc
    have hnext : m.next policy (.run c) = { m with base := policy.visit p m.base }.goto c
        (if policy.better p best (policy.visit p m.base) then
          best.elim (.scan rest (some p)) (.swap p rest)
        else .pass p rest best) := by
      simp only [Machine.next, hc, Machine.run]
      split_ifs <;> rfl
    rw [hnext]
    refine ⟨?_, held, own, hinv⟩
    simp only [Machine.actions, hc]
    cases policy with
    | fifo => exact ⟨trivial, rfl⟩
    | mlfq => exact ⟨⟨⟨trivial, trivial⟩, trivial⟩, rfl⟩
  | swap p rest old =>
    unfold Refined
    simp only [Machine.next, Machine.actions, hc, Machine.run]
    exact ⟨⟨trivial, rfl⟩, _, _, h.swap hc⟩
  | pass p rest best =>
    unfold Refined
    simp only [Machine.next, Machine.actions, hc, Machine.run]
    exact ⟨⟨trivial, rfl⟩, _, _, h.pass hc⟩
  | back q =>
    unfold Refined
    simp only [Machine.next, Machine.actions, hc, Machine.run]
    exact ⟨⟨trivial, rfl⟩, _, _, h.back hc⟩

omit [DecidableEq Core] in
theorem done_of_matches {control : Control NPROC Core} (h : control matches .code .done) :
    control = .code .done := by
  cases control with
  | code k => cases k <;> simp_all
  | _ => simp at h

theorem inv_next (h : Inv policy held own m) {a : Step NPROC Core} (hcan : m.can a) :
    Refined policy m a ∧ ∃ held' own', Inv policy held' own' (m.next policy a) := by
  cases a with
  | run c => exact inv_run h hcan
  | start c =>
    have hc := done_of_matches hcan.1
    obtain ⟨⟨hheld, -, hcpu⟩, -⟩ := h.code hc
    refine ⟨⟨trivial, rfl⟩, held, own, h.goto ⟨hcan.2, hcpu.trans hcan.2, hheld,
      List.nodup_finRange NPROC, by simp⟩ fun hn => ?_⟩
    exact absurd hcan.2 hn
  | call c r =>
    have hc := done_of_matches hcan.1
    obtain ⟨q, hq⟩ := Option.isSome_iff_exists.1 hcan.2
    obtain ⟨⟨hheld, hown, hcpu⟩, -⟩ := h.code hc
    have hnext : m.next policy (.call c r) = m.goto c (.code (r.code policy q)) := by
      simp [Machine.next, hq]
    unfold Refined
    rw [hnext]
    refine ⟨⟨trivial, rfl⟩, held, own, h.goto ⟨?_, .inl hcpu⟩ fun _ _ => ⟨_, rfl⟩⟩
    rw [hown, hheld, hcpu, hq]
    exact r.ok policy m.base.procs
  | interrupt c i =>
    cases hc : m.control c with
    | code k =>
      obtain ⟨hk, hplace⟩ := h.code hc
      have hheld : held c = [] := by
        rw [← List.length_eq_zero_iff, ← h.holding.noff]
        exact hcan.2
      have hon : m.base.cpu c = m.proc c := by
        rcases hplace with hon | ⟨q, -, -, hq, -⟩
        · exact hon
        · simp [hheld] at hq
      have hnext : m.next policy (.interrupt c i)
          = m.goto c (.code (i.code policy (m.proc c) k)) := by
        simp [Machine.next, hc]
      unfold Refined
      rw [hnext]
      refine ⟨⟨trivial, rfl⟩, held, own, h.goto ⟨?_, .inl hon⟩ fun _ _ => ⟨_, rfl⟩⟩
      rw [hheld, hon] at hk ⊢
      exact i.ok policy hk
    | _ => simp [Machine.can, hc] at hcan

theorem inv_boot (policy : Policy) :
    Inv policy (fun _ => []) (fun _ => none) (Machine.boot : Machine NPROC Core) := by
  have hcpu : ∀ c, (Machine.boot : Machine NPROC Core).base.cpu c = none := by
    intro c
    simp only [Machine.boot, userinit]
    rcases List.finRange NPROC with _ | ⟨p, l⟩ <;> rfl
  refine ⟨Locks.holding_free, ?_, by simp, by simp, fun c => ⟨⟨rfl, rfl, hcpu c⟩, .inl (hcpu c)⟩,
    fun q _ _ y => Code.Ok.release_head ⟨rfl, rfl, rfl⟩⟩
  rw [Machine.boot, (valid_sections _ _ userinit_valid).2]
  exact onCores_exec onCores_boot _ userinit_valid

/-- The lock machine refines the critical sections of its build. -/
theorem machine_refines (policy : Policy) :
    (machine NPROC Core policy).Refines (policy.sections NPROC Core) Machine.base
      (fun a m => m.actions policy a) (fun m => ∃ held own, Inv policy held own m) where
  keeps := fun _ _ ⟨_, _, h⟩ hcan => (inv_next h hcan).2
  valid := fun _ _ ⟨_, _, h⟩ hcan => (inv_next h hcan).1.1
  exec := fun _ _ ⟨_, _, h⟩ hcan => (inv_next h hcan).1.2

theorem inv_exec (policy : Policy) (as : List (Step NPROC Core))
    (hv : (machine NPROC Core policy).Valid as .boot) :
    ∃ held own, Inv policy held own ((machine NPROC Core policy).exec as .boot) :=
  (machine NPROC Core policy).invariant (I := fun m => ∃ held own, Inv policy held own m)
    (machine_refines policy).keeps ⟨_, _, inv_boot policy⟩ as hv

end Runs

end Kernel

end CShellXv6
