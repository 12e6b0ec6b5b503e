import CShellXv6.Kernel.Locks
import CShellXv6.Kernel.Queues

/-!
# What a scan must not get wrong

A process is on one core at a time. A scan that has judged a process best keeps its lock until it
switches to it, and at its end holds that lock and no other, so that the process can pass the checks
of `sched` when it gives the core back.
-/

namespace CShellXv6

namespace Kernel

variable {NPROC : ℕ} {Core : Type*} [DecidableEq Core]

/-- The next step of the core panics: it takes a lock it holds, gives up one it does not hold, or
fails a check of `sched`. -/
def Machine.Panics (m : Machine NPROC Core) (c : Core) : Prop :=
  match m.control c with
  | .code (.acquire l _) => m.locks.holder l = some c
  | .scan (p :: _) _ => m.locks.holder (.proc p) = some c
  | .code (.release l _) => m.locks.holder l ≠ some c ∨ m.locks.noff c < 1
  | .swap _ _ p | .pass p _ _ => m.locks.holder (.proc p) ≠ some c ∨ m.locks.noff c < 1
  | .code (.sched _) => ¬ ∃ p, m.proc c = some p ∧ m.locks.holder (.proc p) = some c
    ∧ m.locks.noff c = 1 ∧ (m.base.procs p).state ≠ .running
  | .code .panicked => True
  | .code .done | .code (.act _ _) | .code (.read _ _) | .scan [] _ | .look _ _ _ | .back _ => False

/-- The scan of the core looks at `p` and judges it best. -/
def Machine.Judges (policy : Policy) (m : Machine NPROC Core) (c : Core) (p : Fin NPROC) : Prop :=
  ∃ rest best, m.control c = .look p rest best
    ∧ policy.better p best (policy.visit p m.base) = true

namespace Control

/-- The candidate of a scan. -/
def best : Control NPROC Core → Option (Fin NPROC)
  | scan _ best | look _ _ best | pass _ _ best => best
  | swap p _ _ => some p
  | code _ | back _ => none

def InScan : Control NPROC Core → Prop
  | scan _ _ | look _ _ _ | swap _ _ _ | pass _ _ _ => True
  | code _ | back _ => False

end Control

section Runs

variable (policy : Policy) (as : List (Step NPROC Core)) (c : Core)

/-- The core judged `p` best, and has held its lock ever since, with `p` RUNNABLE. -/
def HeldSince (p : Fin NPROC) : Prop :=
  (machine NPROC Core policy).Since (.run c) (fun m => m.Judges policy c p)
    (fun m => m.locks.holder (.proc p) = some c ∧ m.base.Runnable p) as .boot

/-- The scan the core is in has looked at `q`, and it was not RUNNABLE. -/
def SeenIdle (q : Fin NPROC) : Prop :=
  (machine NPROC Core policy).Since (.run c)
    (fun m => (∃ rest, m.control c = .look q rest none) ∧ ¬ m.base.Runnable q)
    (fun m => (m.control c).InScan) as .boot

end Runs

/-- Behind the run `as`: a RUNNING process is on one core, and no process is on two; whatever step
makes a process RUNNING is a switch to it by a core that has held its lock since judging it best; a
scan at its end holds the lock of its candidate, or none if it found nothing RUNNABLE; and no core
panics. -/
structure WellScheduled (policy : Policy) (as : List (Step NPROC Core)) (m : Machine NPROC Core) :
    Prop where
  unique : ∀ p c c', m.proc c = some p → m.proc c' = some p → c = c'
  running : ∀ p, (m.base.procs p).state = .running → ∃ c, m.proc c = some p
  dispatch : ∀ a p, (machine NPROC Core policy).can a m → (m.base.procs p).state ≠ .running →
    (((machine NPROC Core policy).next a m).base.procs p).state = .running →
      ∃ c, a = .run c ∧ m.base.Runnable p ∧ HeldSince policy as c p
        ∧ ((machine NPROC Core policy).next a m).proc c = some p
        ∧ ((machine NPROC Core policy).next a m).locks.holder (.proc p) = some c
  scanned : ∀ c best, m.control c = .scan [] best →
    (∀ l, m.locks.holder l = some c ↔ ∃ p, best = some p ∧ l = .proc p)
      ∧ m.locks.noff c = best.toList.length
      ∧ (best = none → ∀ q, SeenIdle policy as c q)
  quiet : ∀ c, ¬ m.Panics c

end Kernel

end CShellXv6
