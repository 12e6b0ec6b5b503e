import CShellXv6.Kernel.Locks

/-!
# Who waits for whom

A core waits for a lock while the next thing it does is to acquire it. The locks are ordered: the
locks of other parts of the kernel, then `wait_lock`, then the processes by slot, then `pid_lock`.
-/

namespace CShellXv6

namespace Kernel

variable {NPROC : ℕ} {Core : Type*}

def Lock.rank : Lock NPROC → ℕ
  | other _ => 0
  | wait => 1
  | proc p => 2 + p
  | pid => 2 + NPROC

/-- The lock that is acquired next. -/
def Control.awaited : Control NPROC Core → Option (Lock NPROC)
  | code (.acquire l _) => some l
  | scan (p :: _) _ => some (.proc p)
  | _ => none

/-- Every core of `S` waits for a lock that a core of `S` holds. -/
def Machine.Deadlock (m : Machine NPROC Core) (S : Set Core) : Prop :=
  m.locks.Deadlock (fun c => (m.control c).awaited) S

end Kernel

end CShellXv6
