import CShellXv6.Lib.Rings
import Mathlib.Data.List.FinRange

/-!
# The buffer cache

`bcache.list` links all buffers, the most recently used one first. `bget` and `brelse` hold
`bcache.lock` in one section each; the sleeping lock of a buffer is taken behind that of `bget`,
and released before that of `brelse`. `none` stands for a panic.
-/

namespace CShellXv6

namespace Kernel

structure Buf (T D : Type*) where
  valid : Bool
  dev : ℕ
  blockno : ℕ
  /-- The process that holds the sleeping lock. -/
  lock : Option T
  refcnt : ℕ
  data : D

structure Bcache (NBUF : ℕ) (T D : Type*) where
  buf : Fin NBUF → Buf T D
  list : Links (Fin NBUF)

namespace Bcache

variable {NBUF : ℕ} {T D : Type*}

def set (c : Bcache NBUF T D) (b : Fin NBUF) (x : Buf T D) : Bcache NBUF T D :=
  { c with buf := Function.update c.buf b x }

/-- The buffers are zeroed: no block is on device 0. -/
def binit (zero : D) : Bcache NBUF T D where
  buf _ := ⟨false, 0, 0, none, 0, zero⟩
  list := (List.finRange NBUF).foldl Links.insert Links.empty

/-- The section of `bget` under `bcache.lock`. -/
def bget (c : Bcache NBUF T D) (dev blockno : ℕ) : Option (Fin NBUF × Bcache NBUF T D) :=
  match Links.search c.list.next
      (fun b => (c.buf b).dev = dev ∧ (c.buf b).blockno = blockno) (NBUF + 1)
      (c.list.next none) with
  | some b => some (b, c.set b { c.buf b with refcnt := (c.buf b).refcnt + 1 })
  | none =>
    match Links.search c.list.prev (fun b => (c.buf b).refcnt = 0) (NBUF + 1)
        (c.list.prev none) with
    | some b => some (b, c.set b { c.buf b with dev, blockno, valid := false, refcnt := 1 })
    | none => none

/-- The section of `brelse` under `bcache.lock`. -/
def unref (c : Bcache NBUF T D) (b : Fin NBUF) : Bcache NBUF T D :=
  let c' := c.set b { c.buf b with refcnt := (c.buf b).refcnt - 1 }
  if (c'.buf b).refcnt = 0 then { c' with list := (c'.list.remove b).insert b } else c'

def bpin (c : Bcache NBUF T D) (b : Fin NBUF) : Bcache NBUF T D :=
  c.set b { c.buf b with refcnt := (c.buf b).refcnt + 1 }

def bunpin (c : Bcache NBUF T D) (b : Fin NBUF) : Bcache NBUF T D :=
  c.set b { c.buf b with refcnt := (c.buf b).refcnt - 1 }

end Bcache

end Kernel

end CShellXv6
