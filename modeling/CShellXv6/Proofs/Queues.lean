import CShellXv6.Kernel.Queues
import CShellXv6.Proofs.Sections

/-!
# Where a woken process is in its queue

The scan does not move a process that is queued, and sleeping leaves `queued` set, so a woken
process comes back at its old place. It is at the tail only if that place was taken in the tick
of its waking (`woken_at_tail`).
-/

namespace CShellXv6

namespace Kernel

variable {NPROC : ℕ} {Core : Type*} [DecidableEq Core]

section Steps

variable {a : Action NPROC Core} {s : State NPROC Core} {p : Fin NPROC}

/-- Only a boost, and a charge while it runs, changes the queue of a process. -/
theorem priority_next (hcan : a.can s) (hp : (s.procs p).state ≠ .unused)
    (hcharge : ∀ c, a ≠ .charge c p) :
    ((a.next s).procs p).priority = if a = .boost p then 0 else (s.procs p).priority := by
  rw [Action.next_procs]
  split_ifs with hslot hboost hboost
  · subst hboost
    simp [Action.body, Proc.boost, hp]
  · have hdoes := does_body hcan hslot
    generalize a.body s (s.procs p) = y at hdoes
    cases hdoes with
    | alloc pid hx => exact absurd hx hp
    | charge c => exact absurd rfl (hcharge c)
    | boost => exact absurd rfl hboost
    | free | ready | visit | dispatch | exit | updateTime => rfl
    | move ha hy => rw [hy.eq]
  · subst hboost
    simp [Action.slot] at hslot
  · rfl

/-- What an action does to a RUNNABLE process: dispatches it, queues it, or leaves it where it
is. -/
theorem runnable_next (hcan : a.can s) (hp : s.Runnable p) :
    (∃ c, a = .dispatch c p)
      ∨ ((a.next s).Runnable p ∧ ((a.next s).procs p).ctime = (s.procs p).ctime
        ∧ ((a.next s).procs p).firstRun = (s.procs p).firstRun
        ∧ if a = .visit p ∧ (s.procs p).queued = false then
            ((a.next s).procs p).queued = true ∧ ((a.next s).procs p).enqTime = s.ticks
          else ((a.next s).procs p).queued = (s.procs p).queued
            ∧ ((a.next s).procs p).enqTime = (s.procs p).enqTime) := by
  unfold State.Runnable at hp ⊢
  rw [Action.next_procs]
  split_ifs with hslot hvisit hvisit
  · obtain ⟨rfl, hq⟩ := hvisit
    exact .inr (by simp [Action.body, Proc.visit, hp, hq])
  · have hdoes := does_body hcan hslot
    generalize a.body s (s.procs p) = y at hdoes
    cases hdoes with
    | alloc pid hx | free hx | ready hx | charge _ _ _ _ hx | exit _ _ hx => simp [hp] at hx
    | dispatch c => exact .inl ⟨c, rfl⟩
    | boost | updateTime => exact .inr ⟨hp, rfl, rfl, rfl, rfl⟩
    | visit =>
      have hq : (s.procs p).queued = true := by simpa using hvisit
      exact .inr (by simp [Proc.visit, hp, hq])
    | move ha hy =>
      rcases hy.state with hstate | ⟨hstate, -⟩
      · refine .inr ⟨hstate.trans hp, ?_⟩
        rw [hy.eq]
        exact ⟨rfl, rfl, rfl, rfl⟩
      · simp [hp] at hstate
  · obtain ⟨rfl, -⟩ := hvisit
    simp [Action.slot] at hslot
  · exact .inr ⟨hp, rfl, rfl, rfl, rfl⟩

theorem stamps_next (hcan : a.can s) (p : Fin NPROC) :
    (((a.next s).procs p).enqTime = (s.procs p).enqTime
        ∨ ((a.next s).procs p).enqTime = s.ticks)
      ∧ (((a.next s).procs p).ctime = (s.procs p).ctime
        ∨ ((a.next s).procs p).ctime = s.ticks) := by
  rw [Action.next_procs]
  split_ifs with hslot
  · have hdoes := does_body hcan hslot
    generalize a.body s (s.procs p) = y at hdoes
    cases hdoes with
    | alloc => exact ⟨.inr rfl, .inr rfl⟩
    | charge _ _ _ _ _ henq => exact ⟨henq, .inl rfl⟩
    | visit =>
      refine ⟨?_, .inl rfl⟩
      simp only [Proc.visit]
      split_ifs
      · exact .inr rfl
      · exact .inl rfl
    | free | ready | boost | dispatch | exit | updateTime => exact ⟨.inl rfl, .inl rfl⟩
    | move ha hy =>
      rw [hy.eq]
      exact ⟨.inl rfl, .inl rfl⟩
  · exact ⟨.inl rfl, .inl rfl⟩

/-- A process that no scan has queued has not run. -/
def Unqueued (x : Proc) : Prop :=
  x.state ≠ .unused → x.queued = false →
    (x.state = .used ∨ x.state = .runnable) ∧ x.firstRun = -1

theorem unqueued_next (hcan : (mlfqSections NPROC Core).can a s) (h : Unqueued (s.procs p)) :
    Unqueued ((a.next s).procs p) := by
  obtain ⟨hcan, hqueued⟩ := hcan
  rw [Action.next_procs]
  split_ifs with hslot
  · have hdoes := does_body hcan hslot
    generalize a.body s (s.procs p) = y at hdoes
    cases hdoes with
    | alloc => exact fun _ _ => ⟨.inl rfl, rfl⟩
    | free => exact fun hused _ => absurd rfl hused
    | ready hx => exact fun _ hq => ⟨.inr rfl, (h (by simp [hx]) hq).2⟩
    | charge | boost | updateTime => exact h
    | visit =>
      intro hused hq
      refine h hused ?_
      by_contra hqueued
      simp [Proc.visit, hqueued] at hq
    | dispatch c hx =>
      intro _ hq
      simp [show (s.procs p).queued = false from hq] at hqueued
    | exit c status hx =>
      intro _ hq
      have hold := (h (by simp [hx]) hq).1
      simp [hx] at hold
    | move ha hy =>
      intro hused hq
      rw [hy.eq] at hq ⊢
      rcases hy.state with hstate | ⟨hstate, -⟩
      · rw [hstate] at hused ⊢
        exact h hused hq
      · have hold := (h (by rcases hstate with hs | hs <;> simp [hs]) hq).1
        rcases hstate with hs | hs <;> simp [hs] at hold
  · exact h

end Steps

section Runs

variable {p : Fin NPROC}

theorem after_append (as bs : List (Action NPROC Core)) :
    after (as ++ bs) = (mlfqSections NPROC Core).exec bs (after as) :=
  System.exec_append _ as bs _

theorem valid_split {u v : List (Action NPROC Core)}
    (hv : (mlfqSections NPROC Core).Valid (u ++ v) .boot) :
    (mlfqSections NPROC Core).Valid u .boot ∧ (mlfqSections NPROC Core).Valid v (after u) :=
  (System.valid_append _ _ _ _).1 hv

/-- Until the tick counter wraps it counts the ticks, and no stamp is later than it. -/
theorem stamps_le (as : List (Action NPROC Core)) (hv : (mlfqSections NPROC Core).Valid as .boot)
    (hticks : as.count .tick < 2 ^ 32) :
    (after as).ticks = as.count .tick
      ∧ ∀ p, ((after as).procs p).enqTime ≤ (after as).ticks
        ∧ ((after as).procs p).ctime ≤ (after as).ticks := by
  revert hticks
  refine (mlfqSections NPROC Core).history (I := fun as s => as.count .tick < 2 ^ 32 →
    s.ticks = as.count .tick
      ∧ ∀ p, (s.procs p).enqTime ≤ s.ticks ∧ (s.procs p).ctime ≤ s.ticks) ?_ ?_ as hv
  · simp [State.boot, Proc.zero]
  · intro as a s hI hcan hcount
    rw [List.count_append, List.count_singleton] at hcount ⊢
    obtain ⟨hs, hle⟩ := hI (by omega)
    have hnext : ((mlfqSections NPROC Core).next a s).ticks
        = s.ticks + if a = .tick then 1 else 0 := by
      by_cases ha : a = .tick
      · subst ha
        simp only [beq_self_eq_true, if_true] at hcount
        simp only [mlfqSections, Action.next, incr, if_true]
        omega
      · rw [if_neg ha]
        exact Action.next_ticks ha s
    refine ⟨by simp [hnext, hs], fun p => ?_⟩
    have hstamps := stamps_next hcan.1 p
    have := hle p
    rw [hnext]
    simp only [mlfqSections]
    omega

theorem unqueued_after (as : List (Action NPROC Core))
    (hv : (mlfqSections NPROC Core).Valid as .boot) (p : Fin NPROC) :
    Unqueued ((after as).procs p) := by
  refine (mlfqSections NPROC Core).invariant (I := fun s => Unqueued (s.procs p))
    (fun a s hI hcan => unqueued_next hcan hI) ?_ as hv
  intro hu
  simp [State.boot, Proc.zero] at hu

theorem count_append_left {u v : List (Action NPROC Core)} {n : ℕ}
    (h : (u ++ v).count .tick < n) : u.count .tick < n := by
  rw [List.count_append] at h
  omega

theorem ticks_le_of_append {u v : List (Action NPROC Core)}
    (hv : (mlfqSections NPROC Core).Valid (u ++ v) .boot) (hticks : (u ++ v).count .tick < 2 ^ 32) :
    (after u).ticks ≤ (after (u ++ v)).ticks := by
  rw [(stamps_le (u ++ v) hv hticks).1,
    (stamps_le u (valid_split hv).1 (count_append_left hticks)).1, List.count_append]
  omega

/-- A RUNNABLE process that is not dispatched or visited stays where it is. -/
theorem unseen_throughout {e : ℕ} : ∀ {mid : List (Action NPROC Core)} {s : State NPROC Core},
    (mlfqSections NPROC Core).Valid mid s →
    (∀ a ∈ mid, a ≠ .visit p ∧ ∀ c, a ≠ .dispatch c p) →
    (s.Runnable p ∧ (s.procs p).enqTime = e) →
      (mlfqSections NPROC Core).Throughout (fun t => t.Runnable p ∧ (t.procs p).enqTime = e) mid s
  | [], _, _, _, h => h
  | a :: mid, s, hv, hmid, h => by
    obtain ⟨hvisit, hdispatch⟩ := hmid a (by simp)
    refine ⟨h, unseen_throughout hv.2 (fun b hb => hmid b (by simp [hb])) ?_⟩
    rcases runnable_next hv.1.1 h.1 with ⟨c, hc⟩ | ⟨hrun, -, -, hplace⟩
    · exact absurd hc (hdispatch c)
    · rw [if_neg (by simp [hvisit])] at hplace
      exact ⟨hrun, hplace.2.trans h.2⟩

/-- While it is SLEEPING or RUNNABLE only a boost changes the queue of a process. -/
theorem priority_exec : ∀ {as : List (Action NPROC Core)} {s : State NPROC Core},
    (mlfqSections NPROC Core).Valid as s →
    (mlfqSections NPROC Core).Throughout (fun t => t.Sleeping p ∨ t.Runnable p) as s →
      (((mlfqSections NPROC Core).exec as s).procs p).priority
        = if .boost p ∈ as then 0 else (s.procs p).priority
  | [], _, _, _ => by simp
  | a :: as, s, hv, h => by
    have hstate : (s.procs p).state ≠ .unused ∧ (s.procs p).state ≠ .running := by
      rcases h.1 with hs | hs <;> simp [show (s.procs p).state = _ from hs]
    have hcharge : ∀ c, a ≠ .charge c p := by
      rintro c rfl
      exact hstate.2 hv.1.1.2
    have ih := priority_exec hv.2 h.2
    rw [System.exec_cons, ih, mlfqSections, priority_next hv.1.1 hstate.1 hcharge]
    by_cases ha : a = .boost p
    · simp [ha]
    · simp [ha, Ne.symm ha]

/-- A queued RUNNABLE process keeps its place while it stays RUNNABLE. -/
theorem place_exec {q : Fin NPROC} {as : List (Action NPROC Core)} {s : State NPROC Core}
    (hv : (mlfqSections NPROC Core).Valid as s)
    (h : (mlfqSections NPROC Core).Throughout (·.Runnable q) as s) :
    (((mlfqSections NPROC Core).exec as s).procs q).ctime = (s.procs q).ctime
      ∧ (((mlfqSections NPROC Core).exec as s).procs q).firstRun = (s.procs q).firstRun
      ∧ ((s.procs q).queued = true →
        (((mlfqSections NPROC Core).exec as s).procs q).queued = true
          ∧ (((mlfqSections NPROC Core).exec as s).procs q).enqTime = (s.procs q).enqTime) := by
  refine System.Throughout.rel (mlfqSections NPROC Core) (R := fun s t =>
    (t.procs q).ctime = (s.procs q).ctime ∧ (t.procs q).firstRun = (s.procs q).firstRun
      ∧ ((s.procs q).queued = true → (t.procs q).queued = true
        ∧ (t.procs q).enqTime = (s.procs q).enqTime)) (fun s => by simp) ?_ ?_ hv h
  · rintro s t u ⟨h1, h2, h3⟩ ⟨h4, h5, h6⟩
    refine ⟨h4.trans h1, h5.trans h2, fun hq => ?_⟩
    obtain ⟨hq, he⟩ := h3 hq
    exact ⟨(h6 hq).1, (h6 hq).2.trans he⟩
  · intro a s hcan hs ht
    rcases runnable_next hcan.1 hs with ⟨c, rfl⟩ | ⟨-, h1, h2, h3⟩
    · simp [State.Runnable, mlfqSections, Action.next_procs, Action.slot, Action.body,
        Proc.dispatch] at ht
    · refine ⟨h1, h2, fun hq => ?_⟩
      rw [if_neg (by simp [hq])] at h3
      exact ⟨h3.1.trans hq, h3.2⟩

/-- A process RUNNABLE since an earlier tick is queued, and in an earlier tick, where another is
woken as `FreshWake` says. -/
theorem FreshWake.earlier {w : Action NPROC Core} {q : Fin NPROC} {u x : List (Action NPROC Core)}
    (hv : (mlfqSections NPROC Core).Valid (u ++ x) .boot) (hticks : (u ++ x).count .tick < 2 ^ 32)
    (hfresh : FreshWake w (after (u ++ x))) (hwoken : Wakes w (after (u ++ x)) p)
    (hlt : (after u).ticks < (after (u ++ x)).ticks)
    (hq : (mlfqSections NPROC Core).Throughout (·.Runnable q) x (after u)) :
    ((after (u ++ x)).procs q).queued = true
      ∧ ((after (u ++ x)).procs q).enqTime < (after (u ++ x)).ticks := by
  have hu := valid_split hv
  have hle := (stamps_le u hu.1 (count_append_left hticks)).2 q
  obtain ⟨hctime, hfirst, hplace⟩ := place_exec hu.2 hq
  rw [← after_append] at hctime hfirst hplace
  cases hqueued : ((after u).procs q).queued with
  | true =>
    obtain ⟨h1, h2⟩ := hplace hqueued
    exact ⟨h1, by rw [h2]; omega⟩
  | false =>
    have hrun : ((after u).procs q).state = .runnable := hq.first
    have hnew := (unqueued_after u hu.1 q (by simp [hrun]) hqueued).2
    have hlast : (after (u ++ x)).Runnable q := by
      rw [after_append]
      exact hq.last
    rcases (hfresh p hwoken).2 q hlast (hfirst.trans hnew) with h | h
    · omega
    · exact h

variable {as mid : List (Action NPROC Core)} {w : Action NPROC Core}

/-- A process woken in the tick it was put at the tail is found there by the next scan. -/
theorem woken_enqTime
    (hv : (mlfqSections NPROC Core).Valid (as ++ w :: (mid ++ [.visit p])) .boot)
    (hticks : (as ++ w :: (mid ++ [.visit p])).count .tick < 2 ^ 32)
    (hwoken : Wakes w (after as) p) (henq : ((after as).procs p).enqTime = (after as).ticks)
    (hunseen : ∀ a ∈ mid, a ≠ .visit p ∧ ∀ c, a ≠ .dispatch c p) :
    (mlfqSections NPROC Core).Throughout (·.Runnable p) mid (w.next (after as))
      ∧ (after as).ticks ≤ ((after (as ++ w :: (mid ++ [.visit p]))).procs p).enqTime := by
  have hstart : ((w.next (after as)).procs p).enqTime = (after as).ticks := by
    rcases (stamps_next (valid_split hv).2.1.1 p).1 with h | h
    · exact h.trans henq
    · exact h
  rw [← List.cons_append, ← List.append_assoc] at hv hticks ⊢
  have hmid := unseen_throughout (valid_split (valid_split hv).1).2.2 hunseen ⟨hwoken.2, hstart⟩
  have hseen : ((after (as ++ w :: mid)).procs p).enqTime = (after as).ticks := by
    rw [after_append]
    exact hmid.last.2
  have hmono := ticks_le_of_append (valid_split hv).1 (count_append_left hticks)
  refine ⟨hmid.mono _ fun t ht => ht.1, ?_⟩
  rw [after_append _ [_]]
  simp only [System.exec_cons, System.exec_nil, mlfqSections, Action.next_procs, Action.slot,
    Action.body, Proc.visit, if_true, hseen]
  split_ifs
  · exact hmono
  · exact Nat.le_refl _

/-- What has been RUNNABLE since an earlier tick has its place from an earlier tick. -/
theorem earlier_enqTime {bs : List (Action NPROC Core)}
    (hv : (mlfqSections NPROC Core).Valid (as ++ w :: bs) .boot)
    (hticks : (as ++ w :: bs).count .tick < 2 ^ 32)
    (hfresh : FreshWake w (after as)) (hwoken : Wakes w (after as) p) {q : Fin NPROC}
    {u v : List (Action NPROC Core)} (hsplit : as ++ w :: bs = u ++ v)
    (hlt : (after u).ticks < (after as).ticks)
    (hq : (mlfqSections NPROC Core).Throughout (·.Runnable q) v (after u)) :
    ((after (as ++ w :: bs)).procs q).enqTime < (after as).ticks := by
  rcases List.append_eq_append_iff.1 hsplit with ⟨x, rfl, hx⟩ | ⟨x, rfl, rfl⟩
  · have hprefix := hv
    rw [hx, ← List.append_assoc] at hprefix hticks
    have := ticks_le_of_append (valid_split hprefix).1 (count_append_left hticks)
    omega
  · have hvalid := valid_split hv
    rw [System.throughout_append] at hq
    obtain ⟨hqueued, henq⟩ := hfresh.earlier hvalid.1 (count_append_left hticks) hwoken hlt hq.1
    rw [← after_append] at hq
    obtain ⟨-, -, hplace⟩ := place_exec hvalid.2 hq.2
    rw [← after_append] at hplace
    rw [(hplace hqueued).2]
    exact henq

/-- From falling asleep to being seen again only a boost changes the queue of a process. -/
theorem slept_priority {before nap : List (Action NPROC Core)} {c : Core}
    (hv : (mlfqSections NPROC Core).Valid
      (before ++ .sleep c p :: nap ++ w :: (mid ++ [.visit p])) .boot)
    (hasleep : (mlfqSections NPROC Core).Throughout (·.Sleeping p) nap
      (after (before ++ [.sleep c p])))
    (hwoken : Wakes w (after (before ++ .sleep c p :: nap)) p)
    (hawake : (mlfqSections NPROC Core).Throughout (·.Runnable p) mid
      (w.next (after (before ++ .sleep c p :: nap)))) :
    ((after (before ++ .sleep c p :: nap ++ w :: (mid ++ [.visit p]))).procs p).priority
      = if .boost p ∈ nap ++ mid then 0 else ((after before).procs p).priority := by
  have hsplit : before ++ .sleep c p :: nap ++ w :: (mid ++ [.visit p])
      = before ++ [.sleep c p] ++ (nap ++ w :: mid) ++ [.visit p] := by simp
  have hnap : after (before ++ .sleep c p :: nap)
      = (mlfqSections NPROC Core).exec nap (after (before ++ [.sleep c p])) := by
    rw [← after_append]
    simp
  have hboost : w ≠ .boost p := by
    rintro rfl
    obtain ⟨h1, h2⟩ := hwoken
    simp only [State.Sleeping, State.Runnable, Action.next_procs, Action.slot, Action.body,
      Proc.boost, if_true] at h1 h2
    simp [h1] at h2
  rw [hsplit] at hv ⊢
  have hvalid := valid_split (valid_split hv).1
  have hsleep := (valid_split hvalid.1).2.1.1
  have hrun := priority_exec (p := p) hvalid.2 ((System.throughout_append _).2
    ⟨hasleep.mono _ fun t => .inl, .inl (hnap ▸ hwoken.1), hnap ▸ hawake.mono _ fun t => .inr⟩)
  have hbefore : ((after (before ++ [.sleep c p])).procs p).priority
      = ((after before).procs p).priority := by
    rw [after_append]
    exact (priority_next hsleep (by simp [hsleep.2]) (by simp)).trans (by simp)
  have hvisit : ∀ t : State NPROC Core, (((Action.visit p).next t).procs p).priority
      = (t.procs p).priority := by
    intro t
    simp [Action.next_procs, Action.slot, Action.body, Proc.visit]
  rw [after_append _ [_], after_append _ (nap ++ w :: mid)]
  refine (hvisit _).trans (hrun.trans ?_)
  rw [hbefore]
  simp [Ne.symm hboost]

theorem Waking.atTail {before nap : List (Action NPROC Core)} {c : Core}
    (hv : (mlfqSections NPROC Core).Valid as .boot) (hticks : as.count .tick < 2 ^ 32)
    (hw : Waking as p before c nap w mid)
    (hfresh : FreshWake w (after (before ++ .sleep c p :: nap))) :
    AtTail as p before c nap mid := by
  obtain ⟨rfl, hasleep, hwoken, hunseen⟩ := hw
  obtain ⟨hawake, htail⟩ := woken_enqTime hv hticks hwoken (hfresh p hwoken).1 hunseen
  refine ⟨slept_priority hv hasleep hwoken hawake, htail, fun q u v hsplit hlt hq _ hahead => ?_⟩
  have := earlier_enqTime hv hticks hfresh hwoken hsplit hlt hq
  rcases hahead with h | ⟨h, -⟩ <;> omega

end Runs

/-- In every run in which processes are only woken in the tick they were put at the tail, and when
every RUNNABLE process that has not run yet is new in this tick or was queued in an earlier one, a
woken process is at the tail of its queue when the scheduler sees it. -/
theorem woken_at_tail (as : List (Action NPROC Core))
    (hv : (mlfqSections NPROC Core).Valid as .boot) (hticks : as.count .tick < 2 ^ 32)
    (hfresh : (mlfqSections NPROC Core).Each FreshWake as .boot) (p : Fin NPROC)
    (before : List (Action NPROC Core)) (c : Core) (nap : List (Action NPROC Core))
    (w : Action NPROC Core) (mid : List (Action NPROC Core))
    (hw : Waking as p before c nap w mid) : AtTail as p before c nap mid := by
  refine hw.atTail hv hticks ?_
  rw [hw.split] at hfresh
  exact System.Each.behind _ _ hfresh

/-- Process 0 falls to queue 1 in tick 1 and to queue 2 in tick 5. Process 1, which it forks in
tick 4, is put at the tail of queue 1 in tick 6 and is the first to run there; it sleeps and is
woken in the same tick. -/
def freshBefore : List (Action 2 Unit) :=
  [.alloc 0, .ready 0, .visit 0, .dispatch () 0,
    .tick, .charge () 0, .yield () 0, .visit 0, .dispatch () 0,
    .tick, .charge () 0, .tick, .charge () 0, .tick, .charge () 0, .alloc 1, .ready 1,
    .tick, .charge () 0, .yield () 0, .visit 0, .visit 1, .dispatch () 1,
    .tick, .charge () 1, .yield () 1, .visit 0, .visit 1, .dispatch () 1,
    .sleepPrepare () 1 (.other 0)]

def freshRun : List (Action 2 Unit) :=
  freshBefore ++ .sleep () 1 :: [] ++ .wake 1 (some (.other 0)) :: ([.visit 0] ++ [.visit 1])

theorem woken_at_tail_freshRun :
    ((mlfqSections 2 Unit).Valid freshRun .boot ∧ freshRun.count .tick < 2 ^ 32
      ∧ (mlfqSections 2 Unit).Each FreshWake freshRun .boot
      ∧ Waking freshRun 1 freshBefore () [] (.wake 1 (some (.other 0))) [.visit 0])
    ∧ AtTail freshRun 1 freshBefore () [] [.visit 0] := by
  have hv : (mlfqSections 2 Unit).Valid freshRun .boot := by decide +kernel
  have hfresh : (mlfqSections 2 Unit).Each FreshWake freshRun .boot := by decide +kernel
  have hw : Waking freshRun 1 freshBefore () [] (.wake 1 (some (.other 0))) [.visit 0] :=
    ⟨rfl, by decide, by decide +kernel, by simp⟩
  exact ⟨⟨hv, by decide, hfresh, hw⟩,
    woken_at_tail freshRun hv (by decide) hfresh 1 freshBefore () [] _ [.visit 0] hw⟩

/-- Process 0 sleeps in tick 0, process 1 forks 2 and 3 in tick 1, and 0 is woken in tick 2. -/
def staleBefore : List (Action 64 Unit) :=
  [.alloc 0, .ready 0, .visit 0, .dispatch () 0, .alloc 1, .ready 1,
    .sleepPrepare () 0 (.other 0)]

def staleNap : List (Action 64 Unit) :=
  [.visit 1, .dispatch () 1, .tick, .charge () 1, .yield () 1, .visit 1, .dispatch () 1,
    .alloc 2, .ready 2, .alloc 3, .ready 3,
    .tick, .charge () 1, .yield () 1, .visit 1, .visit 2, .visit 3, .dispatch () 2]

def staleMid : List (Action 64 Unit) :=
  [.tick, .charge () 2, .yield () 2]

def staleRun : List (Action 64 Unit) :=
  staleBefore ++ .sleep () 0 :: staleNap ++ .wake 0 (some (.other 0)) :: (staleMid ++ [.visit 0])

/-- Process 0 comes back at its place from tick 0, before process 3. -/
theorem woken_ahead_staleRun :
    (mlfqSections 64 Unit).Valid staleRun .boot ∧ staleRun.count .tick < 2 ^ 32
      ∧ Waking staleRun 0 staleBefore () staleNap (.wake 0 (some (.other 0))) staleMid
      ∧ (after (staleBefore ++ .sleep () 0 :: staleNap)).ticks = 2
      ∧ ((after staleRun).procs 0).enqTime = 0 ∧ ((after staleRun).procs 3).enqTime = 2
      ∧ ((after staleRun).procs 0).priority = 0 ∧ ((after staleRun).procs 3).priority = 0
      ∧ ¬ AtTail staleRun 0 staleBefore () staleNap staleMid := by
  refine ⟨by decide, by decide, ⟨rfl, by decide, by decide, by simp [staleMid]⟩, by decide,
    by decide, by decide, by decide, by decide, fun h => ?_⟩
  have := h.enqTime
  revert this
  decide

end Kernel

end CShellXv6
