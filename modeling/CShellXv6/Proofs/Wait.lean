import CShellXv6.Kernel.Wait
import CShellXv6.Proofs.Builds
import Mathlib.Order.WellFounded

/-!
# A child is not lost to a failed wait

`kwaitx` frees the child only once everything has been copied out, and nothing else touches what it
reports of a ZOMBIE (`zombie_next`). So a child that could not be reported stays, and a later pass
that comes to it reports the same.
-/

namespace CShellXv6

namespace Kernel

variable {NPROC : ℕ} {Core : Type*}

section Copying

variable {copyout : ℕ → Bool}

theorem copyOut_all : ∀ {values : List (ℕ × Int)},
    (∀ v ∈ values, v.1 ≠ 0 → copyout v.1 = true) →
    copyOut copyout values = (true, values.filter (·.1 ≠ 0))
  | [], _ => rfl
  | (addr, value) :: rest, h => by
    obtain ⟨hv, hrest⟩ := List.forall_mem_cons.1 h
    rw [copyOut, copyOut_all hrest]
    split_ifs with haddr hcopy
    · simp [haddr]
    · simp [haddr]
    · exact absurd (hv haddr) hcopy

theorem copyOut_fails : ∀ {values : List (ℕ × Int)},
    (∃ v ∈ values, v.1 ≠ 0 ∧ copyout v.1 = false) → (copyOut copyout values).1 = false
  | [], h => by simp at h
  | (addr, value) :: rest, h => by
    rw [copyOut]
    split_ifs with haddr hcopy
    · refine copyOut_fails ?_
      simpa [haddr] using h
    · refine copyOut_fails ?_
      simpa [hcopy] using h
    · rfl

variable (call : Waitx NPROC) (x : Proc)

theorem copyOut_copiesAll (h : call.CopiesAll) :
    copyOut call.copyout (call.values x) = (true, call.stored x) := by
  refine copyOut_all fun v hv => ?_
  simp only [Waitx.values, List.mem_cons, List.not_mem_nil, or_false] at hv
  rcases hv with rfl | rfl | rfl | rfl <;> exact h _ (by simp)

theorem copyOut_not_copiesAll (h : ¬ call.CopiesAll) :
    (copyOut call.copyout (call.values x)).1 = false := by
  unfold Waitx.CopiesAll at h
  push Not at h
  obtain ⟨addr, haddr, hne, hcopy⟩ := h
  simp only [List.mem_cons, List.not_mem_nil, or_false] at haddr
  refine copyOut_fails ?_
  rcases haddr with rfl | rfl | rfl | rfl
  · exact ⟨(call.addr, x.xstate), by simp [Waitx.values], hne, by simpa using hcopy⟩
  · exact ⟨(call.rtAddr, x.stats.rtime), by simp [Waitx.values], hne, by simpa using hcopy⟩
  · exact ⟨(call.wtAddr, x.stats.wtime), by simp [Waitx.values], hne, by simpa using hcopy⟩
  · exact ⟨(call.restAddr, x.stats.restime), by simp [Waitx.values], hne, by simpa using hcopy⟩

end Copying

section Passes

theorem kwaitxLoop_kwaitLoop (call : Waitx NPROC) (p : Fin NPROC) (procs : Fin NPROC → Proc) :
    ∀ (l : List (Fin NPROC)) (havekids : Bool),
      kwaitxLoop { call with rtAddr := 0, wtAddr := 0, restAddr := 0 } p procs l havekids
        = kwaitLoop call p procs l havekids
  | [], _ => rfl
  | pp :: l, havekids => by
    rw [kwaitxLoop, kwaitLoop, kwaitxLoop_kwaitLoop call p procs l,
      kwaitxLoop_kwaitLoop call p procs l]
    by_cases haddr : call.addr = 0
    · simp [Waitx.values, copyOut, haddr]
    · by_cases hcopy : call.copyout call.addr = true <;>
        simp [Waitx.values, copyOut, haddr, hcopy]

/-- What a pass does that comes to a ZOMBIE first. -/
theorem kwaitxLoop_first {call : Waitx NPROC} {p child : Fin NPROC} {procs : Fin NPROC → Proc}
    (hchild : call.parent child = some p ∧ (procs child).state = .zombie)
    (hfirst : ∀ q < child, ¬ (call.parent q = some p ∧ (procs q).state = .zombie)) :
    ∀ {l : List (Fin NPROC)} {havekids : Bool}, l.Pairwise (· < ·) → child ∈ l →
      kwaitxLoop call p procs l havekids
        = if (copyOut call.copyout (call.values (procs child))).1 then
            .reaped child (procs child).pid (copyOut call.copyout (call.values (procs child))).2
          else .failed (copyOut call.copyout (call.values (procs child))).2
  | [], _, _, h => by simp at h
  | pp :: l, havekids, hl, h => by
    rw [kwaitxLoop]
    rcases List.mem_cons.1 h with rfl | hmem
    · rw [if_pos hchild.1, if_pos hchild.2]
      rcases copyOut call.copyout (call.values (procs child)) with ⟨_ | _, stored⟩ <;> rfl
    · have hpp := hfirst pp (List.rel_of_pairwise_cons hl hmem)
      by_cases hparent : call.parent pp = some p
      · rw [if_pos hparent, if_neg fun hzombie => hpp ⟨hparent, hzombie⟩]
        exact kwaitxLoop_first hchild hfirst hl.of_cons hmem
      · rw [if_neg hparent]
        exact kwaitxLoop_first hchild hfirst hl.of_cons hmem

variable {t : Family NPROC Core} {p child : Fin NPROC}

theorem kwaitx_first (h : t.FirstZombie p child) (call : Waitx NPROC) :
    kwaitx (t.ask call) p t.base.procs
      = if (copyOut call.copyout (call.values (t.base.procs child))).1 then
          .reaped child (t.base.procs child).pid
            (copyOut call.copyout (call.values (t.base.procs child))).2
        else .failed (copyOut call.copyout (call.values (t.base.procs child))).2 :=
  @kwaitxLoop_first NPROC (t.ask call) p child t.base.procs h.1 h.2 _ _
    (List.pairwise_lt_finRange NPROC) (List.mem_finRange child)

theorem kwaitx_copiesAll (h : t.FirstZombie p child) {call : Waitx NPROC} (hcall : call.CopiesAll) :
    kwaitx (t.ask call) p t.base.procs
      = .reaped child (t.base.procs child).pid (call.stored (t.base.procs child)) := by
  rw [kwaitx_first h, copyOut_copiesAll call _ hcall, if_pos rfl]

theorem kwaitx_fails (h : t.FirstZombie p child) {call : Waitx NPROC} (hcall : ¬ call.CopiesAll) :
    ∃ stored, kwaitx (t.ask call) p t.base.procs = .failed stored := by
  rw [kwaitx_first h, copyOut_not_copiesAll call _ hcall]
  exact ⟨_, rfl⟩

/-- Where there is a ZOMBIE, there is one the pass comes to first. -/
theorem exists_firstZombie (h : t.ZombieOf p child) :
    ∃ other ≤ child, t.FirstZombie p other := by
  obtain ⟨other, hother, hmin⟩ :=
    WellFounded.has_min wellFounded_lt {q | t.ZombieOf p q} ⟨child, h⟩
  exact ⟨other, not_lt.1 (hmin child h), hother, fun q hq hz => hmin q hz hq⟩

end Passes

section Steps

variable {t : Family NPROC Core} {p child : Fin NPROC}

/-- What `kwaitx` reports of a process is the same. -/
structure SameReport (x y : Proc) : Prop where
  state : y.state = x.state
  pid : y.pid = x.pid
  xstate : y.xstate = x.xstate
  stats : y.stats = x.stats

theorem SameReport.refl (x : Proc) : SameReport x x :=
  ⟨rfl, rfl, rfl, rfl⟩

theorem SameReport.trans {x y z : Proc} (h : SameReport x y) (h' : SameReport y z) :
    SameReport x z :=
  ⟨h'.state.trans h.state, h'.pid.trans h.pid, h'.xstate.trans h.xstate, h'.stats.trans h.stats⟩

theorem SameReport.values {x y : Proc} (h : SameReport x y) (call : Waitx NPROC) :
    call.values y = call.values x := by
  simp only [Waitx.values, h.xstate, h.stats]

/-- No critical section but `freeproc` touches what is reported of a ZOMBIE. -/
theorem sameReport_body {a : Action NPROC Core} {s : State NPROC Core} {q : Fin NPROC}
    (hslot : a.slot = some q) (hcan : a.can s) (hfree : a ≠ .free q)
    (hzombie : (s.procs q).state = .zombie) : SameReport (s.procs q) (a.body s (s.procs q)) := by
  have hdoes := does_body hcan hslot
  generalize a.body s (s.procs q) = y at hdoes
  cases hdoes with
  | free => exact absurd rfl hfree
  | alloc pid hx | ready hx | charge c _ _ _ hx | dispatch c hx | exit c status hx =>
    exact absurd (hzombie.symm.trans hx) (by decide)
  | boost | visit => exact ⟨rfl, rfl, rfl, rfl⟩
  | updateTime =>
    have hrun : (s.procs q).state ≠ .running := by
      rw [hzombie]
      decide
    have hrtime : (s.procs q).updateTime = s.procs q := by
      simp only [Proc.updateTime, if_neg hrun]
    rw [hrtime]
    exact .refl _
  | move ha hy =>
    rw [hy.eq]
    refine ⟨?_, rfl, rfl, rfl⟩
    rcases hy.state with hstate | ⟨hold, -⟩
    · exact hstate
    · simp [hzombie] at hold

variable [DecidableEq Core]

theorem Family.ZombieOf.act (h : t.ZombieOf p child) {a : Action NPROC Core} (hcan : a.can t.base)
    (hfree : a ≠ .free child) :
    SameReport (t.base.procs child) ((a.next t.base).procs child) := by
  rw [Action.next_procs]
  by_cases hslot : a.slot = some child
  · rw [if_pos hslot]
    exact sameReport_body hslot hcan hfree h.2
  · rw [if_neg hslot]
    exact .refl _

/-- A pass that does not reap the child leaves it. -/
theorem Family.ZombieOf.leaves (h : t.ZombieOf p child) (c : Core) (q : Fin NPROC)
    {w : Waited NPROC} (hw : w.child ≠ some child)
    (hsleeps : w = .sleeps → (Action.sleepPrepare c q (.proc q)).can t.base) :
    (w.leaves c q t).ZombieOf p child
      ∧ SameReport (t.base.procs child) ((w.leaves c q t).base.procs child) := by
  cases w with
  | failed stored => exact ⟨h, .refl _⟩
  | gaveUp => exact ⟨h, .refl _⟩
  | reaped other pid stored =>
    have hne : child ≠ other := fun he => hw (by rw [he]; rfl)
    have hprocs : ((Action.free other).next t.base).procs child = t.base.procs child := by
      rw [Action.next_procs, if_neg (by simpa [Action.slot] using Ne.symm hne)]
    have hparent : Function.update t.parent other none child = t.parent child :=
      Function.update_of_ne hne _ _
    refine ⟨⟨hparent.trans h.1, ?_⟩, ?_⟩
    · exact (congrArg Proc.state hprocs).trans h.2
    · exact hprocs ▸ .refl _
  | sleeps =>
    have hsame := h.act (hsleeps rfl) (by simp)
    exact ⟨⟨h.1, hsame.state.trans h.2⟩, hsame⟩

theorem kwaitLoop_parent {call : Waitx NPROC} {q r : Fin NPROC} {procs : Fin NPROC → Proc} :
    ∀ {l : List (Fin NPROC)} {havekids : Bool},
      (kwaitLoop call q procs l havekids).child = some r → call.parent r = some q
  | [], havekids, h => by
    unfold kwaitLoop at h
    split_ifs at h <;> cases h
  | pp :: l, havekids, h => by
    unfold kwaitLoop at h
    split_ifs at h with hparent hzombie hfail haddr
    · cases h
    · obtain rfl := Option.some.inj h
      exact hparent
    · obtain rfl := Option.some.inj h
      exact hparent
    · exact kwaitLoop_parent h
    · exact kwaitLoop_parent h

/-- Only a pass in its parent reaps a child. -/
theorem kwaitx_parent {call : Waitx NPROC} {q r : Fin NPROC} {procs : Fin NPROC → Proc}
    (h : (kwaitx call q procs).child = some r) : call.parent r = some q := by
  cases hw : kwaitx call q procs with
  | reaped other pid stored =>
    rw [hw] at h
    obtain rfl := Option.some.inj h
    exact (kwaitxLoop_reaped hw).1
  | failed stored | gaveUp | sleeps =>
    rw [hw] at h
    cases h

variable {init : Fin NPROC}

/-- One step leaves a ZOMBIE and what is reported of it alone. -/
theorem zombie_next (h : t.ZombieOf p child) {d : FamilyStep NPROC Core} (hcan : d.can init t)
    (hspares : Spares p child d t) :
    (d.next init t).ZombieOf p child
      ∧ SameReport (t.base.procs child) ((d.next init t).base.procs child) := by
  cases d with
  | act a =>
    have hfree : a ≠ .free child := by
      rintro rfl
      exact absurd (h.2.symm.trans hcan) (by decide)
    have hact : a.can t.base := by
      cases a with
      | free q => exact .inl hcan
      | exit c q status => exact hcan.elim
      | _ => exact hcan
    have hsame := h.act hact hfree
    exact ⟨⟨h.1, hsame.state.trans h.2⟩, hsame⟩
  | adopt other q =>
    have hne : child ≠ other := by
      rintro rfl
      exact absurd (h.2.symm.trans hcan) (by decide)
    exact ⟨⟨(Function.update_of_ne hne _ _).trans h.1, h.2⟩, .refl _⟩
  | exit c q status =>
    have hsame := h.act hcan.1 (by simp)
    have hq : t.parent child ≠ some q := fun he =>
      hspares (Option.some.inj (he.symm.trans h.1))
    exact ⟨⟨(if_neg hq).trans h.1, hsame.state.trans h.2⟩, hsame⟩
  | kwait c q call =>
    refine h.leaves c q (fun hw => ?_) fun _ => hcan
    exact hspares (Option.some.inj ((kwaitLoop_parent hw).symm.trans h.1)) hw
  | kwaitx c q call =>
    refine h.leaves c q (fun hw => ?_) fun _ => hcan
    exact hspares (Option.some.inj ((kwaitx_parent hw).symm.trans h.1)) hw

theorem zombie_exec : ∀ {ds : List (FamilyStep NPROC Core)} {t : Family NPROC Core},
    t.ZombieOf p child → (families NPROC Core init).Valid ds t →
    (families NPROC Core init).Each (Spares p child) ds t →
      ((families NPROC Core init).exec ds t).ZombieOf p child
        ∧ SameReport (t.base.procs child)
          (((families NPROC Core init).exec ds t).base.procs child)
  | [], _, h, _, _ => ⟨h, .refl _⟩
  | _ :: _, _, h, hv, he => by
    obtain ⟨hzombie, hsame⟩ := zombie_next h hv.1 he.1
    obtain ⟨hzombie', hsame'⟩ := zombie_exec hzombie hv.2 he.2
    exact ⟨hzombie', hsame.trans hsame'⟩

end Steps

section Retry

variable [DecidableEq Core]

/-- With the other addresses 0, a pass of `kwaitx` is one of `kwait`. A pass of which a `copyout`
fails returns -1 and leaves everything; and behind any further steps, a pass that can copy out
everything reaps the child with what would have been reported of it before, unless it comes to
another ZOMBIE first. -/
theorem kwaitx_retry (init p : Fin NPROC) (t : Family NPROC Core) :
    (∀ call, kwaitx (t.ask { call with rtAddr := 0, wtAddr := 0, restAddr := 0 }) p t.base.procs
        = kwait (t.ask call) p t.base.procs)
    ∧ ∀ child, t.FirstZombie p child → ∀ call : Waitx NPROC, ¬ call.CopiesAll →
      (kwaitx (t.ask call) p t.base.procs).returns = some (-1)
      ∧ (∀ c, (kwaitx (t.ask call) p t.base.procs).leaves c p t = t)
      ∧ ∀ ds, (families NPROC Core init).Valid ds t →
        (families NPROC Core init).Each (Spares p child) ds t →
        ∀ call' : Waitx NPROC, call'.CopiesAll → ∀ t', t' = (families NPROC Core init).exec ds t →
          t'.ZombieOf p child
          ∧ (t'.FirstZombie p child → kwaitx (t'.ask call') p t'.base.procs
            = .reaped child (t.base.procs child).pid (call'.stored (t.base.procs child)))
          ∧ (¬ t'.FirstZombie p child → ∃ other < child,
            kwaitx (t'.ask call') p t'.base.procs
              = .reaped other (t'.base.procs other).pid (call'.stored (t'.base.procs other))) := by
  refine ⟨fun call => kwaitxLoop_kwaitLoop (t.ask call) p t.base.procs _ _,
    fun child hfirst call hcall => ?_⟩
  obtain ⟨stored, hfailed⟩ := kwaitx_fails hfirst hcall
  rw [hfailed]
  refine ⟨rfl, fun _ => rfl, fun ds hv he call' hcall' t' ht' => ?_⟩
  obtain ⟨hzombie, hsame⟩ := zombie_exec hfirst.1 hv he
  rw [← ht'] at hzombie hsame
  refine ⟨hzombie, fun hfirst' => ?_, fun hnot => ?_⟩
  · rw [kwaitx_copiesAll hfirst' hcall', hsame.pid, Waitx.stored, hsame.values]
    rfl
  · obtain ⟨other, hle, hother⟩ := exists_firstZombie hzombie
    refine ⟨other, lt_of_le_of_ne hle ?_, kwaitx_copiesAll hother hcall'⟩
    rintro rfl
    exact hnot hother

/-- The caller is in slot 0, and has a RUNNABLE child in slot 1 and a ZOMBIE in slot 2. -/
def siblings : Family 3 Unit where
  base :=
    { ticks := 10
      nextpid := 4
      procs := fun q =>
        if q = 0 then { Proc.zero with state := .running, pid := 1 }
        else if q = 1 then { Proc.zero with state := .runnable, pid := 2, firstRun := 5 }
        else { Proc.zero with
          state := .zombie, pid := 3, xstate := 7, ctime := 2, etime := 9, rtime := 3
          firstRun := 4 }
      cpu := fun _ => some 0 }
  parent q := if q = 0 then none else some 0

/-- One call cannot copy out to its third address, and the other can copy out everything. -/
def waitCall (all : Bool) : Waitx 3 :=
  ⟨fun _ => none, 8, 16, 24, 32, fun addr => all || addr ≠ 24⟩

theorem kwaitx_retry_ticks :
    kwaitx (((families 3 Unit 0).exec [.act .tick, .act (.boost 2)] siblings).ask (waitCall true)) 0
        ((families 3 Unit 0).exec [.act .tick, .act (.boost 2)] siblings).base.procs
      = .reaped 2 3 [(8, 7), (16, 3), (24, 4), (32, 2)] := by
  have h := (kwaitx_retry 0 0 siblings).2 2 (by decide) (waitCall false) (by decide)
  have hreaped := (h.2.2 [.act .tick, .act (.boost 2)] ⟨trivial, trivial, trivial⟩
    ⟨trivial, trivial, trivial⟩ (waitCall true) (by decide) _ rfl).2.1 (by decide)
  exact hreaped.trans (by decide +kernel)

/-- The other child runs and exits behind the failed call. -/
def siblingExits : List (FamilyStep 3 Unit) :=
  [.act (.yield () 0), .act (.dispatch () 1), .exit () 1 0, .act (.dispatch () 0)]

theorem sibling_reaped_first :
    (kwaitx (siblings.ask (waitCall false)) 0 siblings.base.procs).returns = some (-1)
      ∧ (siblings.base.procs 2).pid = 3
      ∧ (families 3 Unit 0).Valid siblingExits siblings
      ∧ (families 3 Unit 0).Each (Spares 0 2) siblingExits siblings
      ∧ (kwaitx (((families 3 Unit 0).exec siblingExits siblings).ask (waitCall true)) 0
        ((families 3 Unit 0).exec siblingExits siblings).base.procs).returns = some 2 := by
  refine ⟨by decide, rfl, ⟨⟨rfl, rfl⟩, ⟨rfl, rfl⟩, ⟨⟨rfl, rfl⟩, by decide⟩, ⟨rfl, rfl⟩, trivial⟩,
    ⟨trivial, trivial, Fin.zero_ne_one.symm, trivial, trivial⟩, by decide⟩

end Retry

end Kernel

end CShellXv6
