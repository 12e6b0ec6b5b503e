import CShellXv6.Kernel.Deadlock
import CShellXv6.Proofs.Locks

/-!
# The scans cannot deadlock

Kernel code acquires a lock only above those it holds (`Code.Ordered`), and a scan goes up the
process table. A step of one core gives the others no lock, so all of them stay in order
(`ord_next`), and cores that wait only for locks above their own cannot wait for one another.
-/

namespace CShellXv6

namespace Kernel

variable {NPROC : ℕ} {Core : Type*}

theorem Lock.rank_lt (l : Lock NPROC) : l.rank < 3 + NPROC := by
  cases l <;> simp only [Lock.rank] <;> omega

/-- Code that holds `held` acquires only locks above what it holds. -/
def Code.Ordered : Code NPROC Core → Set (Lock NPROC) → Prop
  | .done, _ | .panicked, _ => True
  | .acquire l k, held => (∀ l' ∈ held, l'.rank < l.rank) ∧ k.Ordered (insert l held)
  | .release l k, held => k.Ordered (held \ {l})
  | .act _ k, held | .sched k, held => k.Ordered held
  | .read _ k, held => ∀ x, (k x).Ordered held

section Routines

variable {held held' : Set (Lock NPROC)} {k : Code NPROC Core}

theorem Code.Ordered.mono (h : k.Ordered held) (hsub : held' ⊆ held) : k.Ordered held' := by
  induction k generalizing held held' with
  | done => trivial
  | panicked => trivial
  | acquire l k ih =>
    exact ⟨fun l' hl' => h.1 l' (hsub hl'), ih h.2 (Set.insert_subset_insert hsub)⟩
  | release l k ih => exact ih h fun l' hl' => ⟨hsub hl'.1, hl'.2⟩
  | act a k ih => exact ih h hsub
  | sched k ih => exact ih h hsub
  | read q k ih => exact fun x => ih x (h x) hsub

/-- What was acquired last is given up. -/
theorem Code.Ordered.release_head {l : Lock NPROC} (h : k.Ordered held) :
    (Code.release l k).Ordered (insert l held) :=
  h.mono fun _ hl => hl.1.resolve_left hl.2

/-- Every lock of a process is above `held`. -/
def BelowProcs (held : Set (Lock NPROC)) : Prop :=
  ∀ l ∈ held, l.rank < 2

theorem BelowProcs.acquire (hheld : BelowProcs held) {q : Fin NPROC}
    (h : k.Ordered (insert (.proc q) held)) : (Code.acquire (.proc q) k).Ordered held :=
  ⟨fun l hl => Nat.lt_of_lt_of_le (hheld l hl) (Nat.le_add_right 2 q), h⟩

theorem belowProcs_empty : BelowProcs (∅ : Set (Lock NPROC)) :=
  fun _ hl => hl.elim

theorem belowProcs_one {l : Lock NPROC} (hl : l.rank < 2) :
    BelowProcs (insert l (∅ : Set (Lock NPROC))) := by
  rintro _ (rfl | h)
  · exact hl
  · exact h.elim

theorem belowProcs_wait : BelowProcs (insert Lock.wait (∅ : Set (Lock NPROC))) :=
  belowProcs_one (by simp [Lock.rank])

/-- A look at a process, under its lock. -/
theorem ordered_look (hheld : BelowProcs held) {q : Fin NPROC} {f : Proc → Code NPROC Core}
    (h : ∀ x, (f x).Ordered (insert (.proc q) held)) :
    (Code.acquire (.proc q) (.read q f)).Ordered held :=
  hheld.acquire h

theorem ordered_foldr {f : Fin NPROC → Code NPROC Core → Code NPROC Core}
    (hf : ∀ q rest, rest.Ordered held → (f q rest).Ordered held) (hk : k.Ordered held) :
    ∀ l : List (Fin NPROC), (l.foldr f k).Ordered held
  | [] => hk
  | q :: l => hf q _ (ordered_foldr hf hk l)

theorem ordered_section (hheld : BelowProcs held) {q : Fin NPROC}
    {a : Core → Action NPROC Core} (hk : k.Ordered held) :
    (Code.acquire (.proc q) (.act a (.release (.proc q) k))).Ordered held :=
  hheld.acquire hk.release_head

theorem ordered_walk (hheld : BelowProcs held) {a : Fin NPROC → Action NPROC Core}
    (hk : k.Ordered held) : (Code.walk a k).Ordered held :=
  ordered_foldr (fun _ _ h => ordered_section hheld h) hk _

theorem ordered_kkill (hheld : BelowProcs held) (pid : Int) (hk : k.Ordered held) :
    (Code.kkill pid k).Ordered held := by
  refine ordered_foldr (fun q rest hrest => ordered_look hheld fun x => ?_) hk _
  split_ifs
  · exact hk.release_head
  · exact hrest.release_head

theorem ordered_killed (hheld : BelowProcs held) {q : Fin NPROC} {f : Bool → Code NPROC Core}
    (hf : ∀ b, (f b).Ordered held) : (Code.killed q f).Ordered held :=
  ordered_look hheld fun x => (hf x.killed).release_head

theorem ordered_yield (p : Fin NPROC) (hk : k.Ordered ∅) : (Code.yield p k).Ordered ∅ :=
  belowProcs_empty.acquire hk.release_head

theorem ordered_sleep (p : Fin NPROC) (hk : k.Ordered ∅) : (Code.sleep p k).Ordered ∅ := by
  refine ordered_look belowProcs_empty fun x => ?_
  split_ifs
  · exact hk.release_head
  · exact hk.release_head

theorem ordered_allocproc {found : Fin NPROC → Code NPROC Core}
    (hfound : ∀ q, (found q).Ordered (insert (.proc q) ∅)) (hk : k.Ordered ∅) :
    (Code.allocproc found k).Ordered ∅ := by
  refine ordered_foldr (fun q rest hrest => ordered_look belowProcs_empty fun x => ?_) hk _
  split_ifs
  · refine ⟨fun l hl => ?_, ?_⟩
    · obtain rfl : l = .proc q := by simpa using hl
      simp only [Lock.rank]
      omega
    · exact (hfound q).release_head
  · exact hrest.release_head

theorem ordered_kfork (memory : Bool) (hk : k.Ordered ∅) : (Code.kfork memory k).Ordered ∅ := by
  refine ordered_allocproc (fun q => ?_) hk
  split_ifs
  · refine Code.Ordered.release_head ⟨fun _ hl => hl.elim, Code.Ordered.release_head ?_⟩
    exact ordered_section belowProcs_empty hk
  · exact hk.release_head

theorem ordered_kexit (p : Fin NPROC) (status : Int) (children : ℕ) (parent : Option Chan) :
    (Code.kexit p status children parent : Code NPROC Core).Ordered ∅ := by
  have hwakeups : ∀ n (k : Code NPROC Core), k.Ordered (insert Lock.wait ∅) →
      ((Code.wakeup (some (.proc 0)))^[n] k).Ordered (insert Lock.wait ∅) := by
    intro n
    induction n with
    | zero => exact fun _ h => h
    | succ n ih => exact fun k h => ih _ (ordered_walk belowProcs_wait h)
  exact ⟨fun _ hl => hl.elim,
    hwakeups _ _ (ordered_walk belowProcs_wait (belowProcs_wait.acquire trivial))⟩

theorem ordered_kwait (p : Fin NPROC) (children : List (Fin NPROC)) (copied : Bool)
    (hk : k.Ordered ∅) : (Code.kwait p children copied k).Ordered ∅ := by
  refine ⟨fun _ hl => hl.elim,
    ordered_foldr (fun q rest hrest => ordered_look belowProcs_wait fun x => ?_) ?_ _⟩
  · split_ifs
    · exact hk.release_head.release_head
    · exact hk.release_head.release_head
    · exact hrest.release_head
  · split_ifs
    · exact hk.release_head
    · refine ordered_killed belowProcs_wait fun isKilled => ?_
      split_ifs
      · exact hk.release_head
      · exact ordered_section belowProcs_wait (ordered_sleep p hk).release_head

theorem ordered_mlfqHigher (hheld : BelowProcs held) {found : Code NPROC Core} (pri : Int)
    (self : Fin NPROC) (hfound : found.Ordered held) (hk : k.Ordered held) :
    (Code.mlfqHigher pri self found k).Ordered held := by
  refine ordered_foldr (fun q rest hrest => ?_) hk _
  split_ifs
  · exact hrest
  · refine ordered_look hheld fun x => Code.Ordered.release_head ?_
    split_ifs
    · exact hfound
    · exact hrest

theorem ordered_mlfqTick (p : Fin NPROC) (hk : k.Ordered ∅) : (Code.mlfqTick p k).Ordered ∅ := by
  refine ordered_look belowProcs_empty fun x => Code.Ordered.release_head ?_
  split_ifs
  · exact ordered_yield p hk
  · exact ordered_mlfqHigher belowProcs_empty _ _ (ordered_yield p hk) hk

theorem ordered_tick (policy : Policy) (p : Fin NPROC) (hk : k.Ordered ∅) :
    (if policy = .mlfq then Code.mlfqTick p k else k).Ordered ∅ := by
  split_ifs
  · exact ordered_mlfqTick p hk
  · exact hk

theorem ordered_timer (policy : Policy) (clock boosts : Bool) (hk : k.Ordered ∅) :
    (if clock then Code.clockintr policy boosts k else k).Ordered ∅ := by
  have hticks : BelowProcs (insert Lock.tickslock (∅ : Set (Lock NPROC))) :=
    belowProcs_one (by simp [Lock.rank, Lock.tickslock])
  split_ifs
  · refine ⟨fun _ hl => hl.elim, ordered_walk hticks (Code.Ordered.release_head ?_)⟩
    refine ordered_walk belowProcs_empty ?_
    split_ifs
    · exact ordered_walk belowProcs_empty hk
    · exact hk
  · exact hk

theorem ordered_under (outer : Option ℕ) {body : Code NPROC Core → Code NPROC Core}
    (hbody : ∀ held k, BelowProcs held → k.Ordered held → (body k).Ordered held)
    (hk : k.Ordered ∅) : (Code.under outer body k).Ordered ∅ := by
  cases outer with
  | none => exact hbody ∅ k belowProcs_empty hk
  | some address =>
    exact ⟨fun _ hl => hl.elim, hbody _ _ (belowProcs_one (by simp [Lock.rank])) hk.release_head⟩

theorem Call.ordered (r : Call NPROC) (policy : Policy) (p : Fin NPROC) :
    (r.code policy p : Code NPROC Core).Ordered ∅ := by
  have hdone : (Code.done : Code NPROC Core).Ordered ∅ := trivial
  cases r with
  | kfork memory => exact ordered_kfork memory hdone
  | kexit status children parent => exact ordered_kexit p status children parent
  | kwait children copied => exact ordered_kwait p children copied hdone
  | kkill pid => exact ordered_kkill belowProcs_empty pid hdone
  | setkilled => exact ordered_section belowProcs_empty hdone
  | killed => exact ordered_killed belowProcs_empty fun _ => hdone
  | sleepPrepare outer chan =>
    exact ordered_under outer (fun _ _ hheld hk => ordered_section hheld hk) hdone
  | sleep => exact ordered_sleep p hdone
  | wakeup outer chan =>
    exact ordered_under outer (fun _ _ hheld hk => ordered_walk hheld hk) hdone
  | usertrap clock boosts children parent =>
    refine ordered_timer policy clock boosts (ordered_killed belowProcs_empty fun isKilled => ?_)
    cases isKilled with
    | true => exact ordered_kexit p (-1) children parent
    | false => exact ordered_tick policy p hdone

theorem Interrupt.ordered (i : Interrupt) (policy : Policy) (p : Option (Fin NPROC))
    (hk : k.Ordered ∅) : (i.code policy p k).Ordered ∅ := by
  cases i with
  | device outer chan =>
    exact ordered_under outer (fun _ _ hheld hk => ordered_walk hheld hk) hk
  | timer clock boosts =>
    refine ordered_timer policy clock boosts ?_
    cases p with
    | none => simpa using hk
    | some q => exact ordered_tick policy q hk

end Routines

section Steps

variable [DecidableEq Core] {policy : Policy} {m : Machine NPROC Core} {c : Core}

/-- A scan goes up the process table, and code acquires its locks in order. -/
def Control.Ordered (held : Set (Lock NPROC)) : Control NPROC Core → Prop
  | .code k => k.Ordered held
  | .scan rest best | .pass _ rest best => (best.toList ++ rest).Pairwise (· < ·)
  | .look p rest best => (best.toList ++ p :: rest).Pairwise (· < ·)
  | .swap p rest _ => (p :: rest).Pairwise (· < ·)
  | .back _ => True

def Machine.heldBy (m : Machine NPROC Core) (c : Core) : Set (Lock NPROC) :=
  {l | m.locks.holder l = some c}

structure Ord (m : Machine NPROC Core) : Prop where
  core : ∀ c, (m.control c).Ordered (m.heldBy c)
  away : ∀ q, (m.context q).Ordered {.proc q}

omit [DecidableEq Core] in
theorem Control.Ordered.mono {held held' : Set (Lock NPROC)} {control : Control NPROC Core}
    (h : control.Ordered held) (hsub : held' ⊆ held) : control.Ordered held' := by
  cases control with
  | code k => exact Code.Ordered.mono h hsub
  | _ => exact h

omit [DecidableEq Core] in
/-- A step of `c` that gives the others no lock and keeps `c` in order. -/
theorem Ord.step (h : Ord m) (c : Core) {m' : Machine NPROC Core}
    (hothers : ∀ c', c' ≠ c → m'.control c' = m.control c' ∧ m'.heldBy c' ⊆ m.heldBy c')
    (hcore : (m'.control c).Ordered (m'.heldBy c))
    (haway : ∀ q, (m'.context q).Ordered {.proc q}) : Ord m' := by
  refine ⟨fun c' => ?_, haway⟩
  by_cases hc : c' = c
  · rw [hc]
    exact hcore
  · obtain ⟨hcontrol, hsub⟩ := hothers c' hc
    rw [hcontrol]
    exact (h.core c').mono hsub

/-- A step that changes only the locks and the processes, and where the core is. -/
theorem Ord.move (h : Ord m) (m' : Machine NPROC Core) (hcontrol : m'.control = m.control)
    (hheld : ∀ c', c' ≠ c → m'.heldBy c' ⊆ m.heldBy c') {control : Control NPROC Core}
    (hcore : control.Ordered (m'.heldBy c)) (haway : ∀ q, (m'.context q).Ordered {.proc q}) :
    Ord (m'.goto c control) := by
  refine h.step c (fun c' hc => ⟨?_, hheld c' hc⟩) ?_ haway
  · simp [Machine.goto, Function.update_of_ne hc, hcontrol]
  · simp only [Machine.goto, Function.update_self]
    exact hcore

theorem Ord.goto (h : Ord m) {control : Control NPROC Core}
    (hcore : control.Ordered (m.heldBy c)) : Ord (m.goto c control) :=
  h.move m rfl (fun _ _ => subset_rfl) hcore h.away

theorem heldBy_acquire (m : Machine NPROC Core) (c : Core) (l : Lock NPROC) (c' : Core) :
    (m.acquire c l).heldBy c' ⊆ if c' = c then insert l (m.heldBy c) else m.heldBy c' := by
  intro l' hl'
  have hl' : Function.update m.locks.holder l (some c) l' = some c' := hl'
  rw [Function.update_apply] at hl'
  by_cases hl : l' = l
  · rw [if_pos hl] at hl'
    rw [if_pos (Option.some.inj hl').symm]
    exact .inl hl
  · rw [if_neg hl] at hl'
    split_ifs with hc
    · exact .inr (by rwa [hc] at hl')
    · exact hl'

theorem heldBy_release (m : Machine NPROC Core) (c : Core) (l : Lock NPROC) (c' : Core) :
    (m.release c l).heldBy c' ⊆ m.heldBy c' \ {l} := by
  intro l' hl'
  have hl' : Function.update m.locks.holder l none l' = some c' := hl'
  rw [Function.update_apply] at hl'
  split_ifs at hl' with hl
  exact ⟨hl', hl⟩

theorem Ord.acquire (h : Ord m) {l : Lock NPROC} {control : Control NPROC Core}
    (hcore : control.Ordered (insert l (m.heldBy c))) :
    Ord ((m.acquire c l).goto c control) := by
  have hsub := heldBy_acquire m c l
  refine h.move (m.acquire c l) rfl (fun c' hc => ?_) (hcore.mono ?_) h.away
  · simpa [hc] using hsub c'
  · simpa using hsub c

theorem Ord.release (h : Ord m) {l : Lock NPROC} {control : Control NPROC Core}
    (hcore : control.Ordered (m.heldBy c \ {l})) : Ord ((m.release c l).goto c control) :=
  h.move (m.release c l) rfl (fun c' _ => (heldBy_release m c l c').trans fun _ hl => hl.1)
    (hcore.mono (heldBy_release m c l c)) h.away

omit [DecidableEq Core] in
theorem Ord.code (h : Ord m) {k : Code NPROC Core} (hc : m.control c = .code k) :
    k.Ordered (m.heldBy c) := by
  have hcore := h.core c
  rwa [hc] at hcore

omit [DecidableEq Core] in
theorem Ord.scanning (h : Ord m) {control : Control NPROC Core} (hc : m.control c = control) :
    control.Ordered (m.heldBy c) := by
  rw [← hc]
  exact h.core c

theorem Inv.heldBy {held : Core → List (Lock NPROC)} {own : Fin NPROC → Option (Fin NPROC)}
    (h : Inv policy held own m) (c : Core) : m.heldBy c = {l | l ∈ held c} :=
  Set.ext fun l => h.holding.holder c l

theorem act_away (h : Ord m) (a : Action NPROC Core) (q : Fin NPROC) :
    ((m.act a).context q).Ordered {.proc q} := by
  by_cases ha : a = .alloc q
  · subst ha
    simp only [Machine.act, Function.update_self]
    trivial
  · rw [act_context m ha]
    exact h.away q

variable {held : Core → List (Lock NPROC)} {own : Fin NPROC → Option (Fin NPROC)}

theorem ord_code (h : Inv policy held own m) (ho : Ord m) {k : Code NPROC Core}
    (hc : m.control c = .code k) (hcan : m.can (.run c)) : Ord (m.next policy (.run c)) := by
  have hk := ho.code hc
  simp only [Machine.can, hc] at hcan
  simp only [Machine.next, hc, Machine.run]
  cases k with
  | done => exact hcan.elim
  | panicked => exact hcan.elim
  | acquire l k => exact ho.acquire (show (Control.code k).Ordered _ from hk.2)
  | release l k => exact ho.release (show (Control.code k).Ordered _ from hk)
  | read q k => exact ho.goto (show (Control.code (k _)).Ordered _ from hk _)
  | act a k => exact ho.move (m.act (a c)) rfl (fun _ _ => subset_rfl) hk (act_away ho (a c))
  | sched k =>
    obtain ⟨q, hq, hheld, -⟩ := h.sched hc
    simp only [Machine.runCode, hq]
    refine ho.move { m with context := Function.update m.context q k } rfl
      (fun _ _ => subset_rfl) trivial fun r => ?_
    by_cases hr : r = q
    · subst hr
      simp only [Function.update_self]
      refine Code.Ordered.mono hk fun l hl => ?_
      rw [h.heldBy, hheld]
      simpa using hl
    · simp only [Function.update_of_ne hr]
      exact ho.away r

theorem ord_run (h : Inv policy held own m) (ho : Ord m) (hcan : m.can (.run c)) :
    Ord (m.next policy (.run c)) := by
  cases hc : m.control c with
  | code k => exact ord_code h ho hc hcan
  | scan rest best =>
    have hscan := ho.scanning hc
    simp only [Machine.can, hc] at hcan
    simp only [Machine.next, hc]
    rcases rest with _ | ⟨p, rest⟩
    · cases best with
      | none => exact ho.goto trivial
      | some p =>
        obtain ⟨-, -, hheld, -⟩ := h.scanning hc
        refine ho.move
          { m.act (.dispatch c p) with proc := Function.update m.proc c (some p) } rfl
          (fun _ _ => subset_rfl) (Code.Ordered.mono (ho.away p) ?_)
          (act_away ho (.dispatch c p))
        show m.heldBy c ⊆ _
        rw [h.heldBy, hheld]
        simp
    · exact ho.acquire (show (Control.look p rest best).Ordered _ from hscan)
  | look p rest best =>
    have hlook := ho.scanning hc
    simp only [Machine.next, hc, Machine.run]
    split_ifs
    · refine ho.move { m with base := policy.visit p m.base } rfl (fun _ _ => subset_rfl) ?_ ho.away
      cases best with
      | none => exact hlook
      | some b => exact (List.pairwise_cons.1 hlook).2
    · refine ho.move { m with base := policy.visit p m.base } rfl (fun _ _ => subset_rfl)
        (hlook.sublist ?_) ho.away
      exact List.Sublist.append_left (List.sublist_cons_self p rest) _
  | swap p rest old =>
    have hswap := ho.scanning hc
    simp only [Machine.next, hc]
    exact ho.release (show (Control.scan rest (some p)).Ordered _ from hswap)
  | pass p rest best =>
    have hpass := ho.scanning hc
    simp only [Machine.next, hc]
    exact ho.release (show (Control.scan rest best).Ordered _ from hpass)
  | back q =>
    simp only [Machine.next, hc]
    exact ho.move { m with proc := Function.update m.proc c none } rfl (fun _ _ => subset_rfl)
      trivial ho.away

theorem ord_next (h : Inv policy held own m) (ho : Ord m) {a : Step NPROC Core}
    (hcan : m.can a) : Ord (m.next policy a) := by
  cases a with
  | run c => exact ord_run h ho hcan
  | start c =>
    refine ho.goto ?_
    simpa [Control.Ordered] using List.pairwise_lt_finRange NPROC
  | call c r =>
    obtain ⟨⟨hheld, -⟩, -⟩ := h.code (done_of_matches hcan.1)
    obtain ⟨q, hq⟩ := Option.isSome_iff_exists.1 hcan.2
    simp only [Machine.next, hq, Option.elim_some]
    refine ho.goto (Code.Ordered.mono (r.ordered policy q) ?_)
    rw [h.heldBy, hheld]
    simp
  | interrupt c i =>
    have hheld : held c = [] := by
      rw [← List.length_eq_zero_iff, ← h.holding.noff]
      exact hcan.2
    cases hc : m.control c with
    | code k =>
      simp only [Machine.next, hc]
      have hnone : m.heldBy c = ∅ := by
        rw [h.heldBy, hheld]
        simp
      refine ho.goto ?_
      rw [hnone]
      refine i.ordered policy (m.proc c) ?_
      rw [← hnone]
      exact ho.code hc
    | _ => simp [Machine.can, hc] at hcan

theorem ord_exec (policy : Policy) (as : List (Step NPROC Core))
    (hv : (machine NPROC Core policy).Valid as .boot) :
    Ord ((machine NPROC Core policy).exec as .boot) := by
  refine ((machine NPROC Core policy).invariant
    (I := fun m => (∃ held own, Inv policy held own m) ∧ Ord m) ?_ ?_ as hv).2
  · rintro a m ⟨⟨held, own, h⟩, ho⟩ hcan
    exact ⟨(inv_next h hcan).2, ord_next h ho hcan⟩
  · exact ⟨⟨_, _, inv_boot policy⟩, fun _ => trivial, fun _ => trivial⟩

/-- A core waits only for a lock above all it holds. -/
theorem Ord.above (h : Inv policy held own m) (ho : Ord m) {l l' : Lock NPROC}
    (hl : (m.control c).awaited = some l) (hl' : m.locks.holder l' = some c) :
    l'.rank < l.rank := by
  have hcore := ho.core c
  cases hc : m.control c <;> rw [hc] at hcore hl
  case code k =>
    cases k <;> simp only [Control.awaited, reduceCtorEq, Option.some.injEq] at hl
    subst hl
    exact hcore.1 l' hl'
  case scan rest best =>
    obtain ⟨-, -, hheld, -⟩ := h.scanning hc
    rcases rest with _ | ⟨p, rest⟩ <;>
      simp only [Control.awaited, reduceCtorEq, Option.some.injEq] at hl
    subst hl
    rw [h.holding.holder, hheld, List.mem_map] at hl'
    obtain ⟨b, hb, rfl⟩ := hl'
    have hlt := (List.pairwise_append.1 hcore).2.2 b hb p (by simp)
    simp only [Lock.rank]
    omega
  all_goals simp [Control.awaited] at hl

end Steps

/-- Under any interleaving of any number of cores, with either scan, no cores wait for one another,
and none for itself. -/
theorem no_deadlock [DecidableEq Core] (policy : Policy) (as : List (Step NPROC Core))
    (hv : (machine NPROC Core policy).Valid as .boot) :
    let m := (machine NPROC Core policy).exec as .boot
    (∀ S : Set Core, S.Nonempty → ¬ m.Deadlock S)
      ∧ ∀ c l, (m.control c).awaited = some l → m.locks.holder l ≠ some c := by
  intro m
  obtain ⟨held, own, h⟩ := inv_exec policy as hv
  have ho := ord_exec policy as hv
  refine ⟨fun S hS => ?_, fun c l hl hself => ?_⟩
  · exact Locks.not_deadlock Lock.rank_lt (fun c l l' hl hl' => ho.above h hl hl') hS
  · exact absurd (ho.above h hl hself) (Nat.lt_irrefl _)

/-- Core `false` waits for process 0 while core `true`, which holds it, goes on. -/
def contended : List (Step 2 Bool) :=
  [.start true, .run true, .run true, .start false]

theorem no_deadlock_contended :
    let m := (machine 2 Bool .mlfq).exec contended .boot
    ((machine 2 Bool .mlfq).Valid contended .boot
      ∧ (m.control false).awaited = some (.proc 0) ∧ m.locks.holder (.proc 0) = some true
      ∧ (m.control true).awaited = some (.proc 1))
    ∧ (∀ S : Set Bool, S.Nonempty → ¬ m.Deadlock S)
      ∧ ∀ c l, (m.control c).awaited = some l → m.locks.holder l ≠ some c :=
  ⟨by decide, no_deadlock .mlfq contended (by decide)⟩

end Kernel

end CShellXv6
