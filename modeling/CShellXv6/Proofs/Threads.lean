import CShellXv6.Kernel.Locks
import CShellXv6.Proofs.Sections

/-!
# What kernel code does with locks

`Code.Ok` says that code executed by a process, or by an interrupt, takes only locks it does not
hold and gives up only those it holds, does to a process only what it may under the lock of that
process, and switches only with the lock of its own process held and no other. It is about any core
and any state that others may leave behind: what is known of a process lasts while its lock is held,
and a slot that was allocated stays the child of who allocated it.
-/

namespace CShellXv6

namespace Kernel

variable {NPROC : ℕ} {Core : Type*} [DecidableEq Core]

/-- What a thread on core `c` that holds the locks `held` knows of the state. -/
structure View (held : List (Lock NPROC)) (own : Option (Fin NPROC)) (x : Fin NPROC → Proc)
    (cpu : Option (Fin NPROC)) (c : Core) (s : State NPROC Core) : Prop where
  procs : ∀ q, .proc q ∈ held → s.procs q = x q
  core : s.cpu c = cpu
  used : ∀ q, own = some q → (s.procs q).state = .used
  running : ∀ q, cpu = some q → (s.procs q).state = .running

/-- What the thread of `p` may do on core `c`: only a scheduler dispatches, and only its parent
frees a child or makes it ready. -/
def Action.Mine (p : Option (Fin NPROC)) (own : Option (Fin NPROC)) (c : Core)
    (s : State NPROC Core) : Action NPROC Core → Prop
  | alloc _ => p ≠ none ∧ own = none
  | free q => (s.procs q).state = .zombie ∨ own = some q
  | ready q => own = some q
  | charge c' _ | yield c' _ | sleepPrepare c' _ _ | sleep c' _ | exit c' _ _ => c' = c
  | dispatch _ _ => False
  | tick | boost _ | visit _ | wake _ _ | kill _ _ | setkilled _ | updateTime _ => True

/-- The child behind an action. -/
def Action.child (own : Option (Fin NPROC)) : Action NPROC Core → Option (Fin NPROC)
  | alloc q => some q
  | free q => if own = some q then none else own
  | ready _ => none
  | _ => own

/-- The action can happen, by a thread that has not given up its core, under the lock it needs. -/
structure Action.Allowed (p : Option (Fin NPROC)) (held : List (Lock NPROC))
    (own : Option (Fin NPROC)) (c : Core) (s : State NPROC Core) (a : Action NPROC Core) :
    Prop where
  can : a.can s
  on : s.cpu c = p
  held : ∀ q, a.slot = some q → .proc q ∈ held
  mine : a.Mine p own c s

/-- Whether a switched-out process goes on some time. -/
def ProcState.Live : ProcState → Prop
  | used | sleeping | runnable => True
  | unused | running | zombie => False

/-- Code of `p` that holds `held` and has the child `own`; it has seen `x`, and `cpu` is the process
of its core. -/
def Code.Ok (p : Option (Fin NPROC)) : Code NPROC Core → List (Lock NPROC) → Option (Fin NPROC) →
    (Fin NPROC → Proc) → Option (Fin NPROC) → Prop
  | .done, held, own, _, cpu => held = [] ∧ own = none ∧ cpu = p
  | .acquire l k, held, own, x, cpu =>
    l ∉ held ∧ ∀ (c : Core) s, View held own x cpu c s → k.Ok p (l :: held) own s.procs cpu
  | .release l k, held, own, x, cpu =>
    l ∈ held ∧ (∀ q, p = some q → l = .proc q → cpu = p) ∧ k.Ok p (held.erase l) own x cpu
  | .act a k, held, own, x, cpu => ∀ c s, View held own x cpu c s → (a c).Allowed p held own c s
    ∧ k.Ok p held ((a c).child own) ((a c).next s).procs (((a c).next s).cpu c)
  | .read q k, held, own, x, cpu => .proc q ∈ held ∧ (k (x q)).Ok p held own x cpu
  | .sched k, held, own, x, cpu => ∃ q, p = some q ∧ held = [.proc q] ∧ cpu = none
    ∧ ((x q).state = .zombie
      ∨ (x q).state.Live ∧ ∀ y, k.Ok p [.proc q] own y p)
  | .panicked, _, _, _, _ => False

section Ok

variable {p : Option (Fin NPROC)} {held : List (Lock NPROC)} {own : Option (Fin NPROC)}
  {x y : Fin NPROC → Proc} {cpu : Option (Fin NPROC)} {c : Core} {s : State NPROC Core}

omit [DecidableEq Core] in
theorem View.congr (h : View held own y cpu c s) (hxy : ∀ q, .proc q ∈ held → y q = x q) :
    View held own x cpu c s :=
  ⟨fun q hq => (h.procs q hq).trans (hxy q hq), h.core, h.used, h.running⟩

/-- Code depends on others only through the processes whose locks it holds. -/
theorem Code.Ok.congr {k : Code NPROC Core} (h : k.Ok p held own x cpu)
    (hxy : ∀ q, .proc q ∈ held → y q = x q) : k.Ok p held own y cpu := by
  induction k generalizing held own x y cpu with
  | done => exact h
  | acquire l k ih => exact ⟨h.1, fun c s hs => h.2 c s (hs.congr hxy)⟩
  | release l k ih => exact ⟨h.1, h.2.1, ih h.2.2 fun q hq => hxy q (List.mem_of_mem_erase hq)⟩
  | act a k ih => exact fun c s hs => h c s (hs.congr hxy)
  | read q k ih =>
    refine ⟨h.1, ?_⟩
    rw [hxy q h.1]
    exact ih _ h.2 hxy
  | sched k ih =>
    obtain ⟨q, hp, rfl, hcpu, hstate⟩ := h
    refine ⟨q, hp, rfl, hcpu, ?_⟩
    rwa [hxy q (by simp)]
  | panicked => exact h

/-- Code that holds no lock can go on from any state. -/
theorem Code.Ok.free {k : Code NPROC Core} (h : k.Ok p [] own x cpu) (y : Fin NPROC → Proc) :
    k.Ok p [] own y cpu :=
  h.congr (by simp)

theorem Code.Ok.release_head {k : Code NPROC Core} {l : Lock NPROC} (h : k.Ok p held own x p) :
    (Code.release l k).Ok p (l :: held) own x p :=
  ⟨by simp, fun _ _ _ => rfl, by simpa using h⟩

end Ok

section Calm

/-- What a thread does to a process without changing who runs or what is used. -/
def Action.Calm (p : Option (Fin NPROC)) (c : Core) : Action NPROC Core → Prop
  | tick | boost _ | visit _ | wake _ _ | kill _ _ | setkilled _ | updateTime _ => True
  | charge c' q | sleepPrepare c' q _ => c' = c ∧ p = some q
  | alloc _ | free _ | ready _ | dispatch _ _ | yield _ _ | sleep _ _ | exit _ _ _ => False

variable {p : Option (Fin NPROC)} {held : List (Lock NPROC)} {own : Option (Fin NPROC)}
  {x : Fin NPROC → Proc} {c : Core} {s : State NPROC Core} {a : Action NPROC Core}

omit [DecidableEq Core] in
theorem Action.Calm.allowed (ha : a.Calm p c) (hs : View held own x p c s)
    (hheld : ∀ q, a.slot = some q → .proc q ∈ held) : a.Allowed p held own c s := by
  cases a <;> simp only [Action.Calm] at ha
  case charge c' q | sleepPrepare c' q chan =>
    obtain ⟨rfl, hp⟩ := ha
    exact ⟨⟨hs.core.trans hp, hs.running q hp⟩, hs.core, hheld, rfl⟩
  all_goals exact ⟨trivial, hs.core, hheld, trivial⟩

theorem Action.Calm.cpu (ha : a.Calm p c) (s : State NPROC Core) : (a.next s).cpu = s.cpu := by
  cases a <;> first | rfl | exact ha.elim

omit [DecidableEq Core] in
theorem Action.Calm.child (ha : a.Calm p c) (own : Option (Fin NPROC)) : a.child own = own := by
  cases a <;> first | rfl | exact ha.elim

end Calm

section Routines

variable {p : Option (Fin NPROC)} {held : List (Lock NPROC)} {own : Option (Fin NPROC)}
  {x : Fin NPROC → Proc} {k : Code NPROC Core}

theorem ok_foldr {f : Fin NPROC → Code NPROC Core → Code NPROC Core}
    (hf : ∀ q rest, rest.Ok p held own x p → (f q rest).Ok p held own x p)
    (hk : k.Ok p held own x p) : ∀ l : List (Fin NPROC), (l.foldr f k).Ok p held own x p
  | [] => hk
  | q :: l => hf q _ (ok_foldr hf hk l)

/-- A look at a process, under its lock. -/
theorem ok_look {q : Fin NPROC} {f : Proc → Code NPROC Core} (hq : .proc q ∉ held)
    (h : ∀ y, (∀ r, .proc r ∈ held → y r = x r) → (f (y q)).Ok p (.proc q :: held) own y p) :
    (Code.acquire (.proc q) (.read q f)).Ok p held own x p :=
  ⟨hq, fun _ s hs => ⟨by simp, h s.procs hs.procs⟩⟩

/-- A calm action to a process whose lock is held, and given up then. -/
theorem ok_act_release {a : Core → Action NPROC Core} {q : Fin NPROC} (hq : .proc q ∉ held)
    (ha : ∀ c, (a c).Calm p c) (hslot : ∀ c, (a c).slot = some q) (hk : k.Ok p held own x p) :
    (Code.act a (.release (.proc q) k)).Ok p (.proc q :: held) own x p := by
  refine fun c s hs => ⟨(ha c).allowed hs (by simp [hslot]), ?_⟩
  rw [(ha c).child, (ha c).cpu, hs.core]
  refine Code.Ok.release_head (hk.congr fun r hr => ?_)
  have hne : q ≠ r := by
    rintro rfl
    exact hq hr
  rw [Action.next_procs, hslot, if_neg (by simpa using hne), hs.procs r (List.mem_cons_of_mem _ hr)]

theorem ok_section {a : Core → Action NPROC Core} {q : Fin NPROC} (hq : .proc q ∉ held)
    (ha : ∀ c, (a c).Calm p c) (hslot : ∀ c, (a c).slot = some q) (hk : k.Ok p held own x p) :
    (Code.acquire (.proc q) (.act a (.release (.proc q) k))).Ok p held own x p :=
  ⟨hq, fun _ _ hs => ok_act_release hq ha hslot (hk.congr hs.procs)⟩

theorem ok_walk {a : Fin NPROC → Action NPROC Core} (hheld : ∀ q, .proc q ∉ held)
    (ha : ∀ q c, (a q).Calm p c) (hslot : ∀ q, (a q).slot = some q) (hk : k.Ok p held own x p) :
    (Code.walk a k).Ok p held own x p :=
  ok_foldr (fun q _ h => ok_section (hheld q) (ha q) (fun _ => hslot q) h) hk _

theorem ok_wakeup (chan : Option Chan) (hheld : ∀ q, .proc q ∉ held) (hk : k.Ok p held own x p) :
    (Code.wakeup chan k).Ok p held own x p :=
  ok_walk hheld (fun _ _ => trivial) (fun _ => rfl) hk

theorem ok_kkill (pid : Int) (hheld : ∀ q, .proc q ∉ held) (hk : k.Ok p held own x p) :
    (Code.kkill pid k).Ok p held own x p := by
  refine ok_foldr (fun q rest hrest => ok_look (hheld q) fun y hy => ?_) hk _
  split_ifs
  · exact ok_act_release (hheld q) (fun _ => trivial) (fun _ => rfl) (hk.congr hy)
  · exact (hrest.congr hy).release_head

theorem ok_killed {q : Fin NPROC} {f : Bool → Code NPROC Core} (hq : .proc q ∉ held)
    (hf : ∀ b, (f b).Ok p held own x p) : (Code.killed q f).Ok p held own x p :=
  ok_look hq fun _ hy => ((hf _).congr hy).release_head

theorem ok_sleepPrepare {q : Fin NPROC} (chan : Chan) (hq : .proc q ∉ held)
    (hk : k.Ok (some q) held own x (some q)) :
    (Code.sleepPrepare q chan k).Ok (some q) held own x (some q) :=
  ok_section hq (fun _ => ⟨rfl, rfl⟩) (fun _ => rfl) hk

theorem ok_yield {q : Fin NPROC} (hk : k.Ok (some q) [] own x (some q)) :
    (Code.yield q k).Ok (some q) [] own x (some q) := by
  refine ⟨by simp, fun _ _ _ c s hs => ⟨⟨⟨hs.core, hs.running q rfl⟩, hs.core, ?_, rfl⟩, ?_⟩⟩
  · simp [Action.slot]
  · refine ⟨q, rfl, rfl, by simp [Action.next, Action.cpu], .inr ⟨?_, fun y => ?_⟩⟩
    · simp [Action.next_procs, Action.slot, Action.body, Proc.yield, ProcState.Live]
    · exact (hk.free y).release_head

theorem ok_sleep {q : Fin NPROC} (hk : k.Ok (some q) [] own x (some q)) :
    (Code.sleep q k).Ok (some q) [] own x (some q) := by
  refine ok_look (by simp) fun y _ => ?_
  split_ifs with hchan
  · refine fun c s hs => ⟨⟨⟨hs.core, hs.running q rfl⟩, hs.core, by simp [Action.slot], rfl⟩, ?_⟩
    have hsleeps : (s.procs q).chan ≠ none := by rwa [hs.procs q (by simp)]
    refine ⟨q, rfl, rfl, by simp [Action.next, Action.cpu, hsleeps], .inr ⟨?_, fun y => ?_⟩⟩
    · simp [Action.next_procs, Action.slot, Action.body, Proc.sleep, hsleeps, ProcState.Live]
    · exact (hk.free y).release_head
  · exact (hk.free y).release_head

theorem ok_allocproc {found : Fin NPROC → Code NPROC Core} (hp : p ≠ none)
    (hfound : ∀ q y, (found q).Ok p [.proc q] (some q) y p) (hk : k.Ok p [] none x p) :
    (Code.allocproc found k).Ok p [] none x p := by
  refine ok_foldr (fun q rest hrest => ok_look (by simp) fun y _ => ?_) hk _
  split_ifs with hunused
  · refine ⟨by simp, fun _ s hs c s' hs' =>
      ⟨⟨?_, hs'.core, by simp [Action.slot], hp, rfl⟩, ?_⟩⟩
    · rw [Action.can, hs'.procs q (by simp), hs.procs q (by simp)]
      exact hunused
    · rw [show ((Action.alloc q).next s').cpu c = p from hs'.core]
      exact (hfound q _).release_head
  · exact (hrest.free y).release_head

/-- A process that was allocated is made ready or freed by its parent, whatever the others do. -/
theorem ok_kfork (memory : Bool) (hp : p ≠ none) (hk : k.Ok p [] none x p) :
    (Code.kfork memory k).Ok p [] none x p := by
  refine ok_allocproc hp (fun q y => ?_) hk
  split_ifs
  · refine Code.Ok.release_head ⟨by simp, fun _ s hs => Code.Ok.release_head ⟨by simp, ?_⟩⟩
    refine fun _ _ _ c s hs => ⟨⟨hs.used q rfl, hs.core, by simp [Action.slot], rfl⟩, ?_⟩
    rw [show ((Action.ready q).next s).cpu c = p from hs.core]
    exact (hk.free _).release_head
  · refine fun c s hs => ⟨⟨.inl (hs.used q rfl), hs.core, by simp [Action.slot], .inr rfl⟩, ?_⟩
    rw [show ((Action.free q).next s).cpu c = p from hs.core, Action.child, if_pos rfl]
    exact (hk.free _).release_head

theorem ok_kexit {q : Fin NPROC} (status : Int) (children : ℕ) (parent : Option Chan) :
    (Code.kexit q status children parent : Code NPROC Core).Ok (some q) [] none x (some q) := by
  refine ⟨by simp, fun _ s _ => ?_⟩
  have hwakeups : ∀ n (k : Code NPROC Core), k.Ok (some q) [.wait] none s.procs (some q) →
      ((Code.wakeup (some (.proc 0)))^[n] k).Ok (some q) [.wait] none s.procs (some q) := by
    intro n
    induction n with
    | zero => exact fun _ h => h
    | succ n ih => exact fun k h => ih _ (ok_wakeup _ (by simp) h)
  refine hwakeups _ _ (ok_wakeup _ (by simp) ⟨by simp, fun _ _ _ c s hs => ?_⟩)
  refine ⟨⟨⟨hs.core, hs.running q rfl⟩, hs.core, by simp [Action.slot], rfl⟩, by simp, by simp, ?_⟩
  refine ⟨q, rfl, by simp, by simp [Action.next, Action.cpu], .inl ?_⟩
  simp [Action.next_procs, Action.slot, Action.body, Proc.exit]

theorem ok_kwait {q : Fin NPROC} (children : List (Fin NPROC)) (copied : Bool)
    (hk : k.Ok (some q) [] none x (some q)) :
    (Code.kwait q children copied k).Ok (some q) [] none x (some q) := by
  refine ⟨by simp, fun _ s _ =>
    ok_foldr (fun r rest hrest => ok_look (by simp) fun y hy => ?_) ?_ _⟩
  · split_ifs with hzombie
    · refine fun c s hs => ⟨⟨.inr ?_, hs.core, by simp [Action.slot], .inl ?_⟩, ?_⟩
      · rwa [hs.procs r (by simp)]
      · rwa [hs.procs r (by simp)]
      · rw [show ((Action.free r).next s).cpu c = some q from hs.core]
        exact (hk.free _).release_head.release_head
    · exact (hk.free _).release_head.release_head
    · exact (hrest.congr hy).release_head
  · split_ifs
    · exact (hk.free _).release_head
    · refine ok_killed (by simp) fun isKilled => ?_
      split_ifs
      · exact (hk.free _).release_head
      · exact ok_sleepPrepare _ (by simp) (ok_sleep (hk.free _)).release_head

theorem ok_mlfqHigher {found : Code NPROC Core} (pri : Int) (self : Fin NPROC)
    (hheld : ∀ q, .proc q ∉ held) (hfound : found.Ok p held own x p) (hk : k.Ok p held own x p) :
    (Code.mlfqHigher pri self found k).Ok p held own x p := by
  refine ok_foldr (fun q rest hrest => ?_) hk _
  split_ifs
  · exact hrest
  · refine ok_look (hheld q) fun y hy => Code.Ok.release_head ?_
    split_ifs
    · exact hfound.congr hy
    · exact hrest.congr hy

theorem ok_mlfqTick {q : Fin NPROC} (hk : k.Ok (some q) [] own x (some q)) :
    (Code.mlfqTick q k).Ok (some q) [] own x (some q) := by
  refine ok_look (by simp) fun y _ =>
    ok_act_release (by simp) (fun _ => ⟨rfl, rfl⟩) (fun _ => rfl) ?_
  split_ifs
  · exact ok_yield (hk.free y)
  · exact ok_mlfqHigher _ _ (by simp) (ok_yield (hk.free y)) (hk.free y)

theorem ok_clockintr (policy : Policy) (boosts : Bool) (hk : k.Ok p [] own x p) :
    (Code.clockintr policy boosts k).Ok p [] own x p := by
  have hproc : ∀ q : Fin NPROC, Lock.proc q ∉ [Lock.tickslock] := by simp [Lock.tickslock]
  refine ⟨by simp, fun _ _ _ c s hs => ⟨Action.Calm.allowed trivial hs (by simp [Action.slot]), ?_⟩⟩
  rw [show (Action.tick.next s).cpu c = p from hs.core]
  refine ok_wakeup _ hproc (Code.Ok.release_head ?_)
  refine ok_walk (by simp) (fun _ _ => trivial) (fun _ => rfl) ?_
  split_ifs
  · exact ok_walk (by simp) (fun _ _ => trivial) (fun _ => rfl) (hk.free _)
  · exact hk.free _

theorem ok_under (outer : Option ℕ) {body : Code NPROC Core → Code NPROC Core}
    (hbody : ∀ held x k, (∀ q, .proc q ∉ held) → k.Ok p held own x p → (body k).Ok p held own x p)
    (hk : k.Ok p [] own x p) : (Code.under outer body k).Ok p [] own x p := by
  cases outer with
  | none => exact hbody [] x k (by simp) hk
  | some address =>
    exact ⟨by simp, fun _ s _ => hbody _ _ _ (by simp) (hk.free s.procs).release_head⟩

theorem ok_tick {q : Fin NPROC} (policy : Policy) (hk : k.Ok (some q) [] own x (some q)) :
    (if policy = .mlfq then Code.mlfqTick q k else k).Ok (some q) [] own x (some q) := by
  split_ifs
  · exact ok_mlfqTick hk
  · exact hk

theorem ok_timer (policy : Policy) (clock boosts : Bool) (hk : k.Ok p [] own x p) :
    (if clock then Code.clockintr policy boosts k else k).Ok p [] own x p := by
  split_ifs
  · exact ok_clockintr policy boosts hk
  · exact hk

theorem Call.ok (r : Call NPROC) (policy : Policy) {q : Fin NPROC} (x : Fin NPROC → Proc) :
    (r.code policy q : Code NPROC Core).Ok (some q) [] none x (some q) := by
  have hdone : (Code.done : Code NPROC Core).Ok (some q) [] none x (some q) := ⟨rfl, rfl, rfl⟩
  cases r with
  | kfork memory => exact ok_kfork memory (by simp) hdone
  | kexit status children parent => exact ok_kexit status children parent
  | kwait children copied => exact ok_kwait children copied hdone
  | kkill pid => exact ok_kkill pid (by simp) hdone
  | setkilled => exact ok_section (by simp) (fun _ => trivial) (fun _ => rfl) hdone
  | killed => exact ok_killed (by simp) fun _ => hdone
  | sleepPrepare outer chan =>
    exact ok_under outer (fun _ _ _ hheld hk => ok_sleepPrepare chan (hheld q) hk) hdone
  | sleep => exact ok_sleep hdone
  | wakeup outer chan =>
    exact ok_under outer (fun _ _ _ hheld hk => ok_wakeup (some chan) hheld hk) hdone
  | usertrap clock boosts children parent =>
    refine ok_timer policy clock boosts (ok_killed (by simp) fun isKilled => ?_)
    cases isKilled with
    | true => exact ok_kexit (-1) children parent
    | false => exact ok_tick policy hdone

theorem Interrupt.ok (i : Interrupt) (policy : Policy) (hk : k.Ok p [] own x p) :
    (i.code policy p k).Ok p [] own x p := by
  cases i with
  | device outer chan =>
    exact ok_under outer (fun _ _ _ hheld hk => ok_wakeup (some chan) hheld hk) hk
  | timer clock boosts =>
    refine ok_timer policy clock boosts ?_
    cases p with
    | none => simpa using hk
    | some q => exact ok_tick policy hk

end Routines

end Kernel

end CShellXv6
