import CShellXv6.Kernel.Builds

/-!
# Waiting for children

`wait_lock` guards the parents of the processes: `kfork` sets them, `kexit` passes them on to init,
and a pass of `kwait` or `kwaitx` that reaps a child clears its parent. A process becomes a ZOMBIE
under that lock too, so a pass is one step. Only a pass frees a ZOMBIE.
-/

namespace CShellXv6

namespace Kernel

variable {NPROC : ℕ} {Core : Type*}

structure Family (NPROC : ℕ) (Core : Type*) where
  base : State NPROC Core
  parent : Fin NPROC → Option (Fin NPROC)

section Passes

variable (call : Waitx NPROC)

/-- The loop of `kwait` in the process `p`; of the addresses it has only the first. -/
def kwaitLoop (p : Fin NPROC) (procs : Fin NPROC → Proc) :
    List (Fin NPROC) → Bool → Waited NPROC
  | [], havekids => if havekids = false ∨ (procs p).killed then .gaveUp else .sleeps
  | pp :: rest, havekids =>
    if call.parent pp = some p then
      if (procs pp).state = .zombie then
        if call.addr ≠ 0 ∧ call.copyout call.addr = false then .failed []
        else
          .reaped pp (procs pp).pid (if call.addr ≠ 0 then [(call.addr, (procs pp).xstate)] else [])
      else kwaitLoop p procs rest true
    else kwaitLoop p procs rest havekids

def kwait (p : Fin NPROC) (procs : Fin NPROC → Proc) : Waited NPROC :=
  kwaitLoop call p procs (List.finRange NPROC) false

/-- Every address that is given can be copied to. -/
def Waitx.CopiesAll : Prop :=
  ∀ addr ∈ [call.addr, call.rtAddr, call.wtAddr, call.restAddr],
    addr ≠ 0 → call.copyout addr = true

instance : Decidable call.CopiesAll :=
  inferInstanceAs (Decidable (∀ addr ∈ [_, _, _, _], _ → _))

/-- What is stored of a child if every address can be copied to. -/
def Waitx.stored (x : Proc) : List (ℕ × Int) :=
  (call.values x).filter (·.1 ≠ 0)

/-- The call in a family. -/
def Family.ask (t : Family NPROC Core) : Waitx NPROC :=
  { call with parent := t.parent }

end Passes

namespace Waited

/-- What the call returns, if it returns behind this pass. -/
def returns : Waited NPROC → Option Int
  | reaped _ pid _ => some pid
  | failed _ | gaveUp => some (-1)
  | sleeps => none

def child : Waited NPROC → Option (Fin NPROC)
  | reaped child _ _ => some child
  | failed _ | gaveUp | sleeps => none

/-- The family behind a pass in the process `p` on core `c`. -/
def leaves [DecidableEq Core] (c : Core) (p : Fin NPROC) (t : Family NPROC Core) :
    Waited NPROC → Family NPROC Core
  | reaped child _ _ => ⟨(Action.free child).next t.base, Function.update t.parent child none⟩
  | failed _ | gaveUp => t
  | sleeps => ⟨(Action.sleepPrepare c p (.proc p)).next t.base, t.parent⟩

end Waited

/-- A critical section under `p->lock` alone, or one step under `wait_lock`. -/
inductive FamilyStep (NPROC : ℕ) (Core : Type*) where
  | act (a : Action NPROC Core)
  | adopt (child p : Fin NPROC)
  | exit (c : Core) (p : Fin NPROC) (status : Int)
  | kwait (c : Core) (p : Fin NPROC) (call : Waitx NPROC)
  | kwaitx (c : Core) (p : Fin NPROC) (call : Waitx NPROC)

namespace FamilyStep

def next [DecidableEq Core] (init : Fin NPROC) (d : FamilyStep NPROC Core)
    (t : Family NPROC Core) : Family NPROC Core :=
  match d with
  | act a => { t with base := a.next t.base }
  | adopt child p => { t with parent := Function.update t.parent child (some p) }
  | exit c p status =>
    ⟨(Action.exit c p status).next t.base,
      fun q => if t.parent q = some p then some init else t.parent q⟩
  | kwait c p call => (Kernel.kwait (t.ask call) p t.base.procs).leaves c p t
  | kwaitx c p call => (Kernel.kwaitx (t.ask call) p t.base.procs).leaves c p t

/-- `kfork` frees or adopts a child that is USED still. -/
def can (init : Fin NPROC) (d : FamilyStep NPROC Core) (t : Family NPROC Core) : Prop :=
  match d with
  | act (.free q) => (t.base.procs q).state = .used
  | act (.exit _ _ _) => False
  | act a => a.can t.base
  | adopt child _ => (t.base.procs child).state = .used
  | exit c p status => (Action.exit c p status).can t.base ∧ p ≠ init
  | kwait c p _ | kwaitx c p _ => t.base.cpu c = some p ∧ (t.base.procs p).state = .running

end FamilyStep

def families (NPROC : ℕ) (Core : Type*) [DecidableEq Core] (init : Fin NPROC) :
    System (FamilyStep NPROC Core) (Family NPROC Core) where
  can := FamilyStep.can init
  next := FamilyStep.next init

namespace Family

/-- `child` is a ZOMBIE whose parent is `p`. -/
def ZombieOf (t : Family NPROC Core) (p child : Fin NPROC) : Prop :=
  t.parent child = some p ∧ (t.base.procs child).state = .zombie

/-- The one a pass in `p` comes to first. -/
def FirstZombie (t : Family NPROC Core) (p child : Fin NPROC) : Prop :=
  t.ZombieOf p child ∧ ∀ q < child, ¬ t.ZombieOf p q

instance (t : Family NPROC Core) (p child : Fin NPROC) : Decidable (t.ZombieOf p child) :=
  inferInstanceAs (Decidable (_ ∧ _))

instance (t : Family NPROC Core) (p child : Fin NPROC) : Decidable (t.FirstZombie p child) :=
  inferInstanceAs (Decidable (_ ∧ ∀ q < child, ¬ t.ZombieOf p q))

end Family

/-- The step is not the exit of `p`, nor a pass in `p` that reaps `child`. -/
def Spares (p child : Fin NPROC) (d : FamilyStep NPROC Core) (t : Family NPROC Core) : Prop :=
  match d with
  | .act _ | .adopt _ _ => True
  | .exit _ q _ => q ≠ p
  | .kwait _ q call => q = p → (kwait (t.ask call) q t.base.procs).child ≠ some child
  | .kwaitx _ q call => q = p → (kwaitx (t.ask call) q t.base.procs).child ≠ some child

end Kernel

end CShellXv6
