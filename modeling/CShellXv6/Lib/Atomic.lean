import CShellXv6.Lib.Journal
import CShellXv6.Lib.Runs

/-!
# The atomic store of a redo journal

A number of operations change blocks; what they have changed becomes durable at once, and only when
none of them goes on; a crash brings back what was durable. That is `Atomic.store`.

`journal` is what does it: operations that change blocks in memory and log them, a commit when the
last of them ends, one instruction at a time, and a recovery behind every crash, which may crash
itself. It refines the atomic store (`journal_refines`).
-/

namespace CShellXv6

namespace Atomic

@[ext] structure State (H B T : Type*) where
  view : H → B
  durable : H → B
  ops : List T

inductive Step (H B T : Type*) where
  | begin (t : T)
  | put (t : T) (b : H) (f : B → B)
  | finish (t : T)
  | sync
  | crash

variable {H B T : Type*} [DecidableEq H] [DecidableEq T]

def Step.can (s : State H B T) : Step H B T → Prop
  | begin t => t ∉ s.ops
  | put t _ _ => t ∈ s.ops
  | finish t => t ∈ s.ops
  | sync => s.ops = []
  | crash => True

def Step.next (s : State H B T) : Step H B T → State H B T
  | begin t => { s with ops := t :: s.ops }
  | put _ b f => { s with view := Function.update s.view b (f (s.view b)) }
  | finish t => { s with ops := s.ops.erase t }
  | sync => { s with durable := s.view }
  | crash => { s with view := s.durable, ops := [] }

def store : System (Step H B T) (State H B T) where
  can a s := a.can s
  next a s := a.next s

end Atomic

namespace Journal

variable {B T : Type*} (L : Layout B)

/-- `ops` are the threads inside of an operation, `dirty` is the block that a thread has changed
and not yet logged or written, and `work` is what is left of a commit or, if `recovering`, of a
recovery. -/
structure State (B T : Type*) where
  store : Store B
  ops : List T
  dirty : T → Option ℕ
  work : Option (T × List Instr)
  recovering : Bool

inductive Step (B T : Type*) where
  | begin (t : T)
  | put (t : T) (b : ℕ) (f : B → B)
  | log (t : T) (b : ℕ)
  | finish (t : T)
  | work
  | done
  | crash (t : T)

namespace Step

variable [DecidableEq T]

def next (s : State B T) : Step B T → State B T
  | begin t => { s with ops := t :: s.ops }
  | put t b f =>
    { s with
      store := { s.store with view := Function.update s.store.view b (f (s.store.view b)) }
      dirty := Function.update s.dirty t (some b) }
  | log t b =>
    { s with
      store := { s.store with
        logged := if b ∈ s.store.logged then s.store.logged else s.store.logged ++ [b] }
      dirty := Function.update s.dirty t none }
  | finish t =>
    { s with
      ops := s.ops.erase t
      work := if s.ops.erase t = [] then some (t, L.commit s.store.logged) else none }
  | work =>
    match s.work with
    | some (t, i :: p) =>
      { s with
        store := i.next L s.store
        dirty := Function.update s.dirty t (i.dirty L (s.dirty t))
        work := some (t, if i = .load then L.recover (L.read (s.store.view L.start)) else p) }
    | _ => s
  | done => { s with work := none, recovering := false }
  | crash t => ⟨⟨s.store.disk, s.store.disk, []⟩, [], fun _ => none, some (t, [.load]), true⟩

def can (s : State B T) : Step B T → Prop
  | begin t => s.work = none ∧ t ∉ s.ops
  | put t b _ => t ∈ s.ops ∧ s.dirty t = none ∧ L.Home b
  | log t b =>
    t ∈ s.ops ∧ (s.dirty t = none ∨ s.dirty t = some b) ∧ L.Home b
      ∧ (b ∈ s.store.logged ∨ s.store.logged.length < L.size)
  | finish t => t ∈ s.ops ∧ s.dirty t = none
  | work => ∃ t i p, s.work = some (t, i :: p)
  | done => ∃ t, s.work = some (t, [])
  | crash _ => True

def commits (s : State B T) : Step B T → Bool
  | work =>
    match s.work with
    | some (_, i :: _) => i.commits L s.store
    | _ => false
  | _ => false

end Step

section

variable [DecidableEq T]

def journal : System (Step B T) (State B T) where
  can a s := a.can L s
  next a s := a.next L s

/-- The blocks as an atomic store. -/
def abs (s : State B T) : Atomic.State {b // L.Home b} B T where
  view b := if s.recovering then L.recovered s.store.disk b else s.store.view b
  durable b := L.recovered s.store.disk b
  ops := s.ops

/-- What a step does to the atomic store. -/
def out [DecidablePred L.Home] (a : Step B T) (s : State B T) :
    List (Atomic.Step {b // L.Home b} B T) :=
  match a with
  | .begin t => [.begin t]
  | .put t b f => if h : L.Home b then [.put t ⟨b, h⟩ f] else []
  | .log _ _ => []
  | .finish t => [.finish t]
  | .work => if a.commits L s then [.sync] else []
  | .done => []
  | .crash _ => [.crash]

end

section Invariant

variable {L} {s : State B T} {d : ℕ → B}

/-- Between a commit and the next: operations change blocks and log them. -/
structure Idle (L : Layout B) (s : State B T) (d : ℕ → B) : Prop where
  working : s.recovering = false
  head : L.read (s.store.disk L.start) = []
  ok : L.Ok s.store.logged
  durable : ∀ b, L.Home b → s.store.disk b = d b
  clean : ∀ b, s.store.view b = s.store.disk b ∨ b ∈ s.store.logged ∨ ∃ t, s.dirty t = some b
  dirty : ∀ t b, s.dirty t = some b → t ∈ s.ops ∧ L.Home b

/-- What a crash leaves. -/
structure Crashed (L : Layout B) (w : Work B) : Prop where
  ok : L.Ok (L.read (w.store.disk L.start))
  recovered : ∀ b, L.Home b → L.recovered w.store.disk b = w.durable b
  view : w.store.view = w.store.disk
  dirty : w.dirty = none

/-- During a commit or a recovery. -/
structure Busy (L : Layout B) (s : State B T) (d : ℕ → B) (t : T) (p : List Instr) : Prop where
  ops : s.ops = []
  others : ∀ u, u ≠ t → s.dirty u = none
  safe : (p = [.load] ∧ s.recovering = true ∧ Crashed L ⟨s.store, s.dirty t, d⟩)
    ∨ (Instr.load ∉ p ∧ Safe L s.recovering s.store.view p ⟨s.store, s.dirty t, d⟩)

structure Inv (L : Layout B) (s : State B T) (d : ℕ → B) : Prop where
  nodup : s.ops.Nodup
  idle : s.work = none → Idle L s d
  busy : ∀ t p, s.work = some (t, p) → Busy L s d t p

theorem Crashed.kept {w : Work B} (h : Crashed L w) (v : ℕ → B) (p : List Instr) :
    Kept L true v p w :=
  ⟨h.ok, h.recovered, fun b => .inl (by rw [h.view]), by simp⟩

theorem Busy.kept {t : T} {p : List Instr} (h : Busy L s d t p) :
    Kept L s.recovering s.store.view p ⟨s.store, s.dirty t, d⟩ := by
  rcases h.safe with ⟨-, hr, hc⟩ | ⟨-, hs⟩
  · rw [hr]
    exact hc.kept _ p
  · exact hs.kept

theorem Inv.recovered (h : Inv L s d) : L.Ok (L.read (s.store.disk L.start))
    ∧ ∀ b, L.Home b → L.recovered s.store.disk b = d b := by
  rcases hw : s.work with _ | ⟨t, p⟩
  · have hi := h.idle hw
    refine ⟨hi.head ▸ Layout.ok_nil, fun b hb => ?_⟩
    rw [Layout.recovered_of_notMem (by rw [hi.head]; exact List.not_mem_nil), hi.durable b hb]
  · have hk := (h.busy t p hw).kept
    exact ⟨hk.ok, hk.recovered⟩

/-- A block is kept in memory for the log. -/
def Pinned (s : State B T) (b : ℕ) : Prop :=
  match s.work with
  | none => b ∈ s.store.logged
  | some (_, p) => Instr.unpin b ∈ p

theorem Inv.clean (h : Inv L s d) (b : ℕ) :
    s.store.view b = s.store.disk b ∨ Pinned s b ∨ ∃ t, s.dirty t = some b := by
  unfold Pinned
  rcases hw : s.work with _ | ⟨t, p⟩
  · exact (h.idle hw).clean b
  · rcases (h.busy t p hw).kept.clean b with hb | hb | hb
    · exact .inl hb
    · exact .inr (.inr ⟨t, hb⟩)
    · exact .inr (.inl hb)

theorem Inv.work_eq_none {t : T} (h : Inv L s d) (ht : t ∈ s.ops) : s.work = none := by
  rcases hw : s.work with _ | ⟨u, p⟩
  · rfl
  · rw [(h.busy u p hw).ops] at ht
    cases ht

theorem Inv.of_idle {s : State B T} (hn : s.ops.Nodup) (hw : s.work = none) (h : Idle L s d) :
    Inv L s d :=
  ⟨hn, fun _ => h, by simp [hw]⟩

theorem Inv.of_busy {s : State B T} {t : T} {p : List Instr} (hw : s.work = some (t, p))
    (h : Busy L s d t p) : Inv L s d where
  nodup := h.ops ▸ List.nodup_nil
  idle hn := by simp [hw] at hn
  busy u q hq := by
    rw [hw] at hq
    cases hq
    exact h

/-- An instruction of a commit leaves the blocks in memory as they are. -/
theorem Busy.view_eq {t : T} {i : Instr} {p : List Instr} (h : Busy L s d t (i :: p))
    (hr : s.recovering = false) {b : ℕ} (hb : L.Home b) :
    (i.next L s.store).view b = s.store.view b := by
  rcases h.safe with ⟨-, hc, -⟩ | ⟨-, hs⟩
  · rw [hr] at hc
    cases hc
  · exact hs.2.2.kept.view hr b hb

theorem Busy.quiet {t : T} {i : Instr} {p : List Instr} (h : Busy L s d t (i :: p))
    (hr : s.recovering = true) : i.commits L s.store = false := by
  rcases h.safe with ⟨hp, -⟩ | ⟨-, hs⟩
  · obtain ⟨rfl, -⟩ := List.cons.inj hp
    rfl
  · exact hs.2.1 hr

theorem settled_of_done {t : T} (h : Busy L s d t []) :
    Settled L s.recovering s.store.view ⟨s.store, s.dirty t, d⟩ :=
  h.safe.elim (fun hc => absurd hc.1 (by simp)) And.right

variable [DecidableEq T]

theorem inv_begin {t : T} (h : Inv L s d) (hc : (Step.begin t).can L s) :
    Inv L ((Step.begin t).next L s) d := by
  have hi := h.idle hc.1
  refine .of_idle (List.nodup_cons.2 ⟨hc.2, h.nodup⟩) hc.1
    ⟨hi.working, hi.head, hi.ok, hi.durable, hi.clean, ?_⟩
  exact fun u b hu => ⟨List.mem_cons_of_mem _ (hi.dirty u b hu).1, (hi.dirty u b hu).2⟩

theorem inv_put {t : T} {b : ℕ} {f : B → B} (h : Inv L s d) (hc : (Step.put t b f).can L s) :
    Inv L ((Step.put t b f).next L s) d := by
  obtain ⟨ht, hd, hb⟩ := hc
  have hw := h.work_eq_none ht
  have hi := h.idle hw
  refine .of_idle h.nodup hw ⟨hi.working, hi.head, hi.ok, hi.durable, fun c => ?_, fun u c hu => ?_⟩
  · by_cases hcb : c = b
    · exact .inr (.inr ⟨t, by simp [Step.next, hcb]⟩)
    · simp only [Step.next, Function.update_of_ne hcb]
      refine (hi.clean c).imp_right (Or.imp_right ?_)
      rintro ⟨u, hu⟩
      have : u ≠ t := by
        rintro rfl
        rw [hd] at hu
        cases hu
      exact ⟨u, by rwa [Function.update_of_ne this]⟩
  · by_cases hut : u = t
    · simp only [Step.next, hut, Function.update_self, Option.some.injEq] at hu
      exact ⟨hut ▸ ht, hu ▸ hb⟩
    · simp only [Step.next, Function.update_of_ne hut] at hu
      exact hi.dirty u c hu

theorem ok_log {l : List ℕ} {b : ℕ} (hl : L.Ok l) (hb : L.Home b)
    (hlen : b ∈ l ∨ l.length < L.size) : L.Ok (if b ∈ l then l else l ++ [b]) := by
  split
  case isTrue => exact hl
  case isFalse hbl =>
    have := hlen.resolve_left hbl
    refine ⟨List.nodup_append.2 ⟨hl.nodup, List.nodup_singleton b, ?_⟩, by simp; omega, ?_⟩
    · rintro c hc _ hc' rfl
      exact hbl (List.mem_singleton.1 hc' ▸ hc)
    · intro c hc
      rcases List.mem_append.1 hc with hc | hc
      · exact hl.home c hc
      · exact List.mem_singleton.1 hc ▸ hb

theorem inv_log {t : T} {b : ℕ} (h : Inv L s d) (hc : (Step.log t b).can L s) :
    Inv L ((Step.log t b).next L s) d := by
  obtain ⟨ht, hd, hb, hlen⟩ := hc
  have hw := h.work_eq_none ht
  have hi := h.idle hw
  have hmem : ∀ c, c ∈ s.store.logged ∨ c = b →
      c ∈ if b ∈ s.store.logged then s.store.logged else s.store.logged ++ [b] := by
    rintro c (hc | rfl) <;> split <;> simp [*]
  refine .of_idle h.nodup hw ⟨hi.working, hi.head, ok_log hi.ok hb hlen, hi.durable, fun c => ?_,
    fun u c hu => ?_⟩
  · rcases hi.clean c with hc | hc | ⟨u, hu⟩
    · exact .inl hc
    · exact .inr (.inl (hmem c (.inl hc)))
    · by_cases hut : u = t
      · refine .inr (.inl (hmem c (.inr ?_)))
        rw [hut] at hu
        simpa [hu] using hd
      · exact .inr (.inr ⟨u, by simpa [Step.next, Function.update_of_ne hut] using hu⟩)
  · by_cases hut : u = t
    · simp [Step.next, hut] at hu
    · simp only [Step.next, Function.update_of_ne hut] at hu
      exact hi.dirty u c hu

theorem inv_finish {t : T} (h : Inv L s d) (hc : (Step.finish t).can L s) :
    Inv L ((Step.finish t).next L s) d := by
  obtain ⟨ht, hd⟩ := hc
  have hi := h.idle (h.work_eq_none ht)
  have hdirty : ∀ u b, s.dirty u = some b → u ∈ s.ops.erase t ∧ L.Home b := by
    intro u b hu
    have hut : u ≠ t := by
      rintro rfl
      rw [hd] at hu
      cases hu
    exact ⟨(List.mem_erase_of_ne hut).2 (hi.dirty u b hu).1, (hi.dirty u b hu).2⟩
  by_cases hops : s.ops.erase t = []
  · have hnone : ∀ u, s.dirty u = none := by
      intro u
      rcases hu : s.dirty u with _ | b
      · rfl
      · have := (hdirty u b hu).1
        rw [hops] at this
        cases this
    have hlog : Logging L s.store.view s.store.logged 0 ⟨s.store, s.dirty t, d⟩ := by
      refine ⟨rfl, hi.head, hi.durable, by simp, fun b => ?_, fun _ _ => rfl⟩
      refine (hi.clean b).imp_right fun hb => .inr (hb.resolve_right ?_)
      rintro ⟨u, hu⟩
      rw [hnone u] at hu
      cases hu
    refine .of_busy (t := t) (p := L.commit s.store.logged) (by simp [Step.next, hops])
      ⟨hops, fun u _ => hnone u, .inr ⟨load_notMem_commit _, ?_⟩⟩
    have := safe_commit hi.ok hlog hd
    rwa [← hi.working] at this
  · refine .of_idle (h.nodup.erase t) (by simp [Step.next, hops])
      ⟨hi.working, hi.head, hi.ok, hi.durable, hi.clean, hdirty⟩

theorem next_work {t : T} {i : Instr} {p : List Instr} (hw : s.work = some (t, i :: p)) :
    (Step.work : Step B T).next L s =
      { s with
        store := i.next L s.store
        dirty := Function.update s.dirty t (i.dirty L (s.dirty t))
        work := some (t, if i = .load then L.recover (L.read (s.store.view L.start)) else p) } := by
  rw [Step.next, hw]

theorem Busy.next {t : T} {i : Instr} {p : List Instr} (h : Busy L s d t (i :: p))
    (hw : s.work = some (t, i :: p)) : Inv L ((Step.work : Step B T).next L s)
      (if i.commits L s.store then s.store.view else d) := by
  have hothers : ∀ u, u ≠ t → Function.update s.dirty t (i.dirty L (s.dirty t)) u = none :=
    fun u hu => by rw [Function.update_of_ne hu, h.others u hu]
  rw [next_work hw]
  refine .of_busy rfl ⟨h.ops, hothers, .inr ?_⟩
  rcases h.safe with ⟨hp, hr, hc⟩ | ⟨hp, hs⟩
  · obtain ⟨rfl, rfl⟩ := List.cons.inj hp
    have hview : s.store.view = s.store.disk := hc.view
    have hd : s.dirty t = none := hc.dirty
    rw [if_pos rfl, hr, hview]
    refine ⟨load_notMem_recover _, ?_⟩
    have := safe_recover (v := s.store.disk) hc.ok hc.recovered
    simpa [Instr.next, Instr.dirty, Instr.commits, hview, hd] using this
  · rw [List.mem_cons, not_or] at hp
    rw [if_neg (Ne.symm hp.1)]
    refine ⟨hp.2, Safe.congr (fun hr b hb => (h.view_eq hr hb).symm) ?_⟩
    dsimp only
    rw [Function.update_self]
    exact hs.2.2

theorem inv_done (h : Inv L s d) (hc : (Step.done : Step B T).can L s) :
    Inv L ((Step.done : Step B T).next L s) d := by
  obtain ⟨t, hw⟩ := hc
  have hb := h.busy t _ hw
  have hs := settled_of_done hb
  have hlog : s.store.logged = [] := hs.logged
  have hnone : ∀ u, s.dirty u = none := fun u =>
    if hu : u = t then hu ▸ hs.dirty else hb.others u hu
  refine .of_idle h.nodup rfl
    ⟨rfl, hs.head, hlog ▸ Layout.ok_nil, hs.durable, fun b => .inl (hs.clean b), fun u b hu => ?_⟩
  rw [show ((Step.done : Step B T).next L s).dirty u = none from hnone u] at hu
  cases hu

theorem inv_crash {t : T} (h : Inv L s d) : Inv L ((Step.crash t).next L s) d :=
  .of_busy (t := t) rfl ⟨rfl, fun _ _ => rfl,
    .inl ⟨rfl, rfl, h.recovered.1, h.recovered.2, rfl, rfl⟩⟩

theorem inv_step (a : Step B T) (h : Inv L s d) (hc : a.can L s) :
    Inv L (a.next L s) (if a.commits L s then s.store.view else d) := by
  cases a with
  | begin t => exact inv_begin h hc
  | put t b f => exact inv_put h hc
  | log t b => exact inv_log h hc
  | finish t => exact inv_finish h hc
  | work =>
    obtain ⟨t, i, p, hw⟩ := hc
    rw [show (Step.work : Step B T).commits L s = i.commits L s.store by simp [Step.commits, hw]]
    exact (h.busy t _ hw).next hw
  | done => exact inv_done h hc
  | crash t => exact inv_crash h

/-- The blocks that are logged can always be listed in a header. -/
theorem logged_step (a : Step B T) (h : Inv L s d) (hl : L.Ok s.store.logged) (hc : a.can L s) :
    L.Ok (a.next L s).store.logged := by
  cases a with
  | begin | put | finish | done => exact hl
  | log t b => exact ok_log hl hc.2.2.1 hc.2.2.2
  | crash t => exact Layout.ok_nil
  | work =>
    obtain ⟨t, i, p, hw⟩ := hc
    rw [next_work hw]
    cases i with
    | copy | head | write | unpin => exact hl
    | clear => exact Layout.ok_nil
    | load =>
      rcases (h.busy t _ hw).safe with ⟨-, -, hcr⟩ | ⟨hp, -⟩
      · have hview : s.store.view = s.store.disk := hcr.view
        change L.Ok (L.read (s.store.view L.start))
        rw [hview]
        exact hcr.ok
      · exact absurd List.mem_cons_self hp

/-- What is durable changes only where a header is written, and then to what is in memory. -/
theorem durable_next (a : Step B T) (h : Inv L s d) (hc : a.can L s) {b : ℕ} (hb : L.Home b) :
    L.recovered (a.next L s).store.disk b
      = if a.commits L s then s.store.view b else L.recovered s.store.disk b := by
  rw [(inv_step a h hc).recovered.2 b hb, h.recovered.2 b hb]
  split <;> rfl

theorem abs_work (h : Inv L s d) (hc : (Step.work : Step B T).can L s) :
    abs L ((Step.work : Step B T).next L s) = if (Step.work : Step B T).commits L s
      then { abs L s with durable := (abs L s).view } else abs L s := by
  have hd := fun b : {b // L.Home b} => durable_next _ h hc b.2
  obtain ⟨t, i, p, hw⟩ := hc
  have hb := h.busy t _ hw
  rw [show (Step.work : Step B T).commits L s = i.commits L s.store by simp [Step.commits, hw]]
    at hd ⊢
  rw [next_work hw] at hd ⊢
  cases hr : s.recovering with
  | true =>
    rw [hb.quiet hr] at hd ⊢
    refine Atomic.State.ext (funext fun b => ?_) (funext hd) rfl
    simpa [abs, hr] using hd b
  | false =>
    have hv : ∀ b : {b // L.Home b}, (i.next L s.store).view b = s.store.view b :=
      fun b => hb.view_eq hr b.2
    cases hcm : i.commits L s.store <;> rw [hcm] at hd
    · refine Atomic.State.ext (funext fun b => ?_) (funext hd) rfl
      simpa [abs, hr] using hv b
    · refine Atomic.State.ext (funext fun b => ?_) (funext fun b => ?_) rfl
      · simpa [abs, hr] using hv b
      · simpa [abs, hr] using hd b

theorem abs_done (h : Inv L s d) (hc : (Step.done : Step B T).can L s) :
    abs L ((Step.done : Step B T).next L s) = abs L s := by
  obtain ⟨t, hw⟩ := hc
  have hs := settled_of_done (h.busy t _ hw)
  refine Atomic.State.ext (funext fun b => ?_) rfl rfl
  have hv : s.store.view b = s.store.disk b := hs.clean b
  have hrec : L.recovered s.store.disk b = s.store.disk b :=
    Layout.recovered_of_notMem (by rw [hs.head]; exact List.not_mem_nil)
  simp [abs, Step.next, hv, hrec]

theorem journal_refines [DecidablePred L.Home] :
    (journal (T := T) L).Refines Atomic.store (abs L) (out L) (fun s => ∃ d, Inv L s d) where
  keeps a s := fun ⟨_, h⟩ hc => ⟨_, inv_step a h hc⟩
  valid a s := by
    rintro ⟨d, h⟩ hc
    cases a with
    | begin t => exact ⟨hc.2, trivial⟩
    | put t b f =>
      rw [out, dif_pos hc.2.2]
      exact ⟨hc.1, trivial⟩
    | log t b => trivial
    | finish t => exact ⟨hc.1, trivial⟩
    | work =>
      simp only [out]
      split
      case isTrue =>
        obtain ⟨t, i, p, hw⟩ := hc
        exact ⟨(h.busy t _ hw).ops, trivial⟩
      case isFalse => trivial
    | done => trivial
    | crash t => exact ⟨trivial, trivial⟩
  exec a s := by
    rintro ⟨d, h⟩ hc
    cases a with
    | begin t => rfl
    | put t b f =>
      have hr := (h.idle (h.work_eq_none hc.1)).working
      rw [out, dif_pos hc.2.2]
      simp only [System.exec_cons, System.exec_nil, Atomic.store, Atomic.Step.next, abs, journal,
        Step.next, hr]
      congr 1
      funext c
      by_cases hcb : c = ⟨b, hc.2.2⟩
      · simp [hcb]
      · have : c.1 ≠ b := fun he => hcb (Subtype.ext he)
        simp [Function.update_of_ne hcb, Function.update_of_ne this]
    | log t b => rfl
    | finish t => rfl
    | work =>
      refine Eq.trans ?_ (abs_work h hc).symm
      simp only [out]
      split <;> rfl
    | done => exact (abs_done h hc).symm
    | crash t =>
      simp [out, Atomic.store, Atomic.Step.next, abs, journal, Step.next]

end Invariant

end Journal

end CShellXv6
