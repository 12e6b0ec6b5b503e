import CShellXv6.Kernel.Sections

/-!
# Waking at the tail

The four queues are kept in the fields of the processes: `priority` names the queue, and within a
queue the scan goes by `enqTime` and then by slot. A process that blocked should be at the tail
of its queue when the scheduler next sees it, behind all that were RUNNABLE there in an earlier
tick.
-/

namespace CShellXv6

namespace Kernel

variable {NPROC : ℕ} {Core : Type*} [DecidableEq Core]

def State.Runnable (p : Fin NPROC) (s : State NPROC Core) : Prop :=
  (s.procs p).state = .runnable

def State.Sleeping (p : Fin NPROC) (s : State NPROC Core) : Prop :=
  (s.procs p).state = .sleeping

instance (p : Fin NPROC) (s : State NPROC Core) : Decidable (s.Runnable p) :=
  inferInstanceAs (Decidable (_ = _))

instance (p : Fin NPROC) (s : State NPROC Core) : Decidable (s.Sleeping p) :=
  inferInstanceAs (Decidable (_ = _))

/-- `p` is before `q` if they are in one queue. -/
def State.Ahead (s : State NPROC Core) (p q : Fin NPROC) : Prop :=
  (s.procs p).enqTime < (s.procs q).enqTime
    ∨ (s.procs p).enqTime = (s.procs q).enqTime ∧ p < q

/-- The state a run of the MLFQ build leads to. -/
def after (as : List (Action NPROC Core)) : State NPROC Core :=
  (mlfqSections NPROC Core).exec as .boot

/-- The action wakes `p`. -/
def Wakes (a : Action NPROC Core) (s : State NPROC Core) (p : Fin NPROC) : Prop :=
  s.Sleeping p ∧ (a.next s).Runnable p

/-- A process is only woken in the tick it was put at the tail, and when every RUNNABLE process
that has not run yet was created in this tick or queued in an earlier one. -/
def FreshWake (a : Action NPROC Core) (s : State NPROC Core) : Prop :=
  ∀ p, Wakes a s p → (s.procs p).enqTime = s.ticks
    ∧ ∀ q, s.Runnable q → (s.procs q).firstRun = -1 →
      (s.procs q).ctime = s.ticks ∨ (s.procs q).queued = true ∧ (s.procs q).enqTime < s.ticks

instance (a : Action NPROC Core) (s : State NPROC Core) (p : Fin NPROC) : Decidable (Wakes a s p) :=
  inferInstanceAs (Decidable (_ ∧ _))

instance (a : Action NPROC Core) (s : State NPROC Core) : Decidable (FreshWake a s) :=
  inferInstanceAs (Decidable (∀ p, Wakes a s p → (s.procs p).enqTime = s.ticks
    ∧ ∀ q, s.Runnable q → (s.procs q).firstRun = -1 →
      (s.procs q).ctime = s.ticks ∨ (s.procs q).queued = true ∧ (s.procs q).enqTime < s.ticks))

/-- The run ends where the scan first sees `p` again: it goes to sleep behind `before`, sleeps
through `nap`, and is woken by `w`. -/
structure Waking (as : List (Action NPROC Core)) (p : Fin NPROC)
    (before : List (Action NPROC Core)) (c : Core) (nap : List (Action NPROC Core))
    (w : Action NPROC Core) (mid : List (Action NPROC Core)) : Prop where
  split : as = before ++ .sleep c p :: nap ++ w :: (mid ++ [.visit p])
  asleep : (mlfqSections NPROC Core).Throughout (·.Sleeping p) nap (after (before ++ [.sleep c p]))
  woken : Wakes w (after (before ++ .sleep c p :: nap)) p
  unseen : ∀ a ∈ mid, a ≠ .visit p ∧ ∀ c, a ≠ .dispatch c p

/-- `p` is in the queue it slept in, or in queue 0 if it was boosted, placed no earlier than the
tick of its waking, and behind all that have been RUNNABLE in its queue since an earlier tick. -/
structure AtTail (as : List (Action NPROC Core)) (p : Fin NPROC)
    (before : List (Action NPROC Core)) (c : Core) (nap mid : List (Action NPROC Core)) :
    Prop where
  priority : ((after as).procs p).priority
    = if .boost p ∈ nap ++ mid then 0 else ((after before).procs p).priority
  enqTime : (after (before ++ .sleep c p :: nap)).ticks ≤ ((after as).procs p).enqTime
  behind : ∀ (q : Fin NPROC) (u v : List (Action NPROC Core)), as = u ++ v →
    (after u).ticks < (after (before ++ .sleep c p :: nap)).ticks →
    (mlfqSections NPROC Core).Throughout (·.Runnable q) v (after u) →
    ((after as).procs q).priority = ((after as).procs p).priority → ¬ (after as).Ahead p q

end Kernel

end CShellXv6
