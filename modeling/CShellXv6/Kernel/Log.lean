import CShellXv6.Kernel.Bio
import CShellXv6.Lib.Atomic
import CShellXv6.Lib.Words
import Mathlib.Data.List.AList

/-!
# The log

File system calls run between `begin_op` and `end_op`, change blocks in their buffers and give them
to `log_write`; the last one to end commits. Any process may read blocks at any time. `commit` and
`recover_from_log` are the sequences of what they do to buffers, and a step is one of these, so that
other processes come in between; a crash comes between any two steps and leaves the disk.

The calls keep to `bread`, change, `log_write`, `brelse`, as the comment at `log_write` asks:
`changed` is the block a process has changed and not yet given to `log_write`.
-/

namespace CShellXv6

namespace Kernel

/-- How far a process is with a buffer: behind `bget`, with the sleeping lock, behind `bread`,
or without the lock and not yet behind `brelse`. -/
inductive Stage where
  | waiting
  | locked
  | ready
  | released
  deriving DecidableEq

structure Handle (NBUF : ℕ) where
  buf : Fin NBUF
  stage : Stage
  deriving DecidableEq

inductive Op where
  | bget (b : ℕ)
  | lock (b : ℕ)
  | fetch (b : ℕ)
  | copy (dst src : ℕ)
  | head
  | bwrite (b : ℕ)
  | bunpin (b : ℕ)
  | unlock (b : ℕ)
  | unref (b : ℕ)
  | load
  | clear
  deriving DecidableEq

open Journal (Layout)

variable {NBUF : ℕ} {T D : Type*}

section Programs

variable (L : Layout D)

def bread (b : ℕ) : List Op :=
  [.bget b, .lock b, .fetch b]

def brelse (b : ℕ) : List Op :=
  [.unlock b, .unref b]

def writeLog : ℕ → List ℕ → List Op
  | _, [] => []
  | tail, b :: bs =>
    bread (L.start + tail + 1) ++ bread b
      ++ [.copy (L.start + tail + 1) b, .bwrite (L.start + tail + 1)]
      ++ brelse b ++ brelse (L.start + tail + 1) ++ writeLog (tail + 1) bs

def writeHead : List Op :=
  bread L.start ++ [.head, .bwrite L.start] ++ brelse L.start

def installTrans (recovering : Bool) : ℕ → List ℕ → List Op
  | _, [] => []
  | tail, b :: bs =>
    bread (L.start + tail + 1) ++ bread b ++ [.copy b (L.start + tail + 1), .bwrite b]
      ++ (if recovering then [] else [.bunpin b])
      ++ brelse (L.start + tail + 1) ++ brelse b ++ installTrans recovering (tail + 1) bs

def commit (lh : List ℕ) : List Op :=
  if lh.length > 0 then
    writeLog L 0 lh ++ writeHead L ++ installTrans L false 0 lh ++ [.clear] ++ writeHead L
  else []

/-- `read_head` up to the end of its loop. -/
def readHead : List Op :=
  bread L.start ++ [.load]

/-- `recover_from_log` behind the loop of `read_head`. -/
def restore (lh : List ℕ) : List Op :=
  brelse L.start ++ installTrans L true 0 lh ++ [.clear] ++ writeHead L

end Programs

/-- `held` are the buffers that processes have got, `ops` the processes between `begin_op` and
`end_op`, and `work` is the process inside of `commit` or `recover_from_log`, with what it has
still to do. -/
structure Log (NBUF : ℕ) (T D : Type*) where
  disk : ℕ → D
  bcache : Bcache NBUF T D
  held : AList fun _ : T × ℕ => Handle NBUF
  lh : List ℕ
  outstanding : ℕ
  committing : Bool
  ncommit : Int
  ops : List T
  changed : T → Option ℕ
  work : Option (T × List Op)
  recovering : Bool

namespace Log

variable [DecidableEq T]

/-- The buffer of block `b` that the process has got so far. -/
def buffer (s : Log NBUF T D) (t : T) (b : ℕ) (stage : Stage) : Option (Fin NBUF) :=
  match s.held.lookup (t, b) with
  | some h => if h.stage = stage then some h.buf else none
  | none => none

def moved (s : Log NBUF T D) (t : T) (b : ℕ) (i : Fin NBUF) (stage : Stage) :
    AList fun _ : T × ℕ => Handle NBUF :=
  s.held.insert (t, b) ⟨i, stage⟩

def setData (s : Log NBUF T D) (i : Fin NBUF) (data : D) : Bcache NBUF T D :=
  s.bcache.set i { s.bcache.buf i with data }

end Log

section Steps

variable [DecidableEq T] (L : Layout D) (dev : ℕ)

def Op.exec (t : T) (s : Log NBUF T D) : Op → Option (Log NBUF T D)
  | .bget b =>
    if (t, b) ∈ s.held then none
    else
      (s.bcache.bget dev b).map fun r =>
        { s with bcache := r.2, held := s.moved t b r.1 .waiting }
  | .lock b =>
    (s.buffer t b .waiting).bind fun i =>
      if (s.bcache.buf i).lock = none then
        some { s with
          bcache := s.bcache.set i { s.bcache.buf i with lock := some t }
          held := s.moved t b i .locked }
      else none
  | .fetch b =>
    (s.buffer t b .locked).map fun i =>
      { s with
        bcache :=
          if (s.bcache.buf i).valid then s.bcache
          else s.bcache.set i
            { s.bcache.buf i with data := s.disk (s.bcache.buf i).blockno, valid := true }
        held := s.moved t b i .ready }
  | .copy dst src =>
    (s.buffer t dst .ready).bind fun i => (s.buffer t src .ready).map fun j =>
      { s with
        bcache := s.setData i (s.bcache.buf j).data
        changed := Function.update s.changed t (some dst) }
  | .head =>
    (s.buffer t L.start .ready).map fun i =>
      { s with
        bcache := s.setData i (L.write s.lh (s.bcache.buf i).data)
        changed := Function.update s.changed t (some L.start) }
  | .bwrite b =>
    (s.buffer t b .ready).bind fun i =>
      if (s.bcache.buf i).lock = some t then
        some { s with
          disk := Function.update s.disk (s.bcache.buf i).blockno (s.bcache.buf i).data
          changed := Function.update s.changed t
            (if s.changed t = some b then none else s.changed t) }
      else none
  | .bunpin b => (s.buffer t b .ready).map fun i => { s with bcache := s.bcache.bunpin i }
  | .unlock b =>
    (s.buffer t b .ready).bind fun i =>
      if (s.bcache.buf i).lock = some t then
        some { s with
          bcache := s.bcache.set i { s.bcache.buf i with lock := none }
          held := s.moved t b i .released }
      else none
  | .unref b =>
    (s.buffer t b .released).map fun i =>
      { s with bcache := s.bcache.unref i, held := s.held.erase (t, b) }
  | .load =>
    (s.buffer t L.start .ready).map fun i => { s with lh := L.read (s.bcache.buf i).data }
  | .clear => some { s with lh := [] }

/-- What every process may do. -/
def Op.reads : Op → Bool
  | .bget _ | .lock _ | .fetch _ | .unlock _ | .unref _ => true
  | _ => false

/-- The system is up, and the process is not the one inside of `commit`. -/
def Log.Free (s : Log NBUF T D) (t : T) : Prop :=
  s.recovering = false ∧ s.work.map Prod.fst ≠ some t

instance (s : Log NBUF T D) (t : T) : Decidable (s.Free t) :=
  inferInstanceAs (Decidable (_ ∧ _))

variable (MAXOPBLOCKS : ℕ)

/-- `begin_op`, or `none` where it sleeps. -/
def Log.beginOp (s : Log NBUF T D) : Option (Log NBUF T D) :=
  if s.committing then none
  else if s.lh.length + (s.outstanding + 1) * MAXOPBLOCKS > L.size then none
  else some { s with outstanding := s.outstanding + 1 }

/-- `end_op` in the process `t`, up to its `commit`. -/
def Log.endOp (t : T) (s : Log NBUF T D) : Option (Log NBUF T D) :=
  if s.committing then none
  else if s.outstanding - 1 = 0 then
    some { s with
      outstanding := s.outstanding - 1
      committing := true
      work := some (t, commit L s.lh) }
  else some { s with outstanding := s.outstanding - 1 }

/-- `log_write` of the buffer `i`. -/
def Log.logWrite (i : Fin NBUF) (s : Log NBUF T D) : Option (Log NBUF T D) :=
  if s.lh.length ≥ L.size then none
  else if s.outstanding < 1 then none
  else if (s.bcache.buf i).blockno ∈ s.lh then some s
  else some { s with
    lh := s.lh ++ [(s.bcache.buf i).blockno]
    bcache := s.bcache.bpin i }

/-- The system starts in the process `t`, with the disk as it is. -/
def Log.boot (zero : D) (t : T) (disk : ℕ → D) : Log NBUF T D where
  disk
  bcache := .binit zero
  held := ∅
  lh := []
  outstanding := 0
  committing := false
  ncommit := 0
  ops := []
  changed _ := none
  work := some (t, readHead L)
  recovering := true

/-- An `int` plus one. -/
def incrInt (n : Int) : Int :=
  (n + 1).bmod (2 ^ 32)

inductive LogStep (T D : Type*) where
  | read (t : T) (op : Op)
  | store (t : T) (b : ℕ) (f : D → D)
  | logWrite (t : T) (b : ℕ)
  | beginOp (t : T)
  | endOp (t : T)
  | work
  | done
  | crash (t : T)

variable [DecidablePred L.Home] (zero : D)

def LogStep.exec (s : Log NBUF T D) : LogStep T D → Option (Log NBUF T D)
  | read t op =>
    -- A changed buffer is given to `log_write` before it is released.
    if s.Free t ∧ op.reads ∧ ∀ b ∈ s.changed t, op ≠ .unlock b then op.exec L dev t s else none
  | store t b f =>
    if s.Free t ∧ t ∈ s.ops ∧ s.changed t = none ∧ L.Home b then
      (s.buffer t b .ready).map fun i =>
        { s with
          bcache := s.setData i (f (s.bcache.buf i).data)
          changed := Function.update s.changed t (some b) }
    else none
  | logWrite t b =>
    if s.Free t ∧ t ∈ s.ops ∧ (s.changed t = none ∨ s.changed t = some b) ∧ L.Home b then
      (s.buffer t b .ready).bind fun i => (s.logWrite L i).map fun s =>
        { s with changed := Function.update s.changed t none }
    else none
  | beginOp t =>
    if s.Free t ∧ t ∉ s.ops then
      (s.beginOp L MAXOPBLOCKS).map fun s => { s with ops := t :: s.ops }
    else none
  | endOp t =>
    -- The call has released its buffers.
    if s.Free t ∧ t ∈ s.ops ∧ s.changed t = none ∧ ∀ k ∈ s.held.keys, k.1 ≠ t then
      (s.endOp L t).map fun s => { s with ops := s.ops.erase t }
    else none
  | work =>
    match s.work with
    | some (t, op :: p) => (op.exec L dev t s).map fun s =>
      { s with work := some (t, if op = .load then restore L s.lh else p) }
    | _ => none
  | done =>
    match s.work with
    | some (_, []) =>
      some { s with
        work := none
        committing := false
        ncommit := if s.recovering then s.ncommit else incrInt s.ncommit
        recovering := false }
    | _ => none
  | crash t => some (.boot L zero t s.disk)

def logSystem : System (LogStep T D) (Log NBUF T D) where
  can a s := (a.exec L dev MAXOPBLOCKS zero s).isSome
  next a s := (a.exec L dev MAXOPBLOCKS zero s).getD s

/-- A process in `sys_sync`: at its test, in its loop with `n`, or behind it. -/
inductive Sync where
  | test
  | loop (n : Int)
  | returned
  deriving DecidableEq

omit [DecidableEq T] in
/-- The loop of `sys_sync` until it sleeps or ends. -/
def Log.syncLoop (s : Log NBUF T D) (n : Int) : Sync :=
  if s.ncommit < n then .loop n else .returned

/-- `sys_sync` until it sleeps or returns. -/
def Log.sysSync (s : Log NBUF T D) : Sync → Sync
  | .test =>
    if s.committing ∨ s.outstanding > 0 then s.syncLoop (incrInt s.ncommit) else .returned
  | .loop n => s.syncLoop n
  | .returned => .returned

/-- The log and a process in `sys_sync`, whose steps are `none`. -/
def syncSystem : System (Option (LogStep T D)) (Log NBUF T D × Sync) where
  can a s :=
    match a with
    | some a => (logSystem L dev MAXOPBLOCKS zero).can a s.1
    | none => s.1.recovering = false
  next a s :=
    match a with
    | some a => ((logSystem L dev MAXOPBLOCKS zero).next a s.1, s.2)
    | none => (s.1, s.1.sysSync s.2)

end Steps

section Journal

variable (dev : ℕ)

/-- The buffer that has the contents of block `b`. -/
def Log.cached (s : Log NBUF T D) (b : ℕ) : Option (Fin NBUF) :=
  (List.finRange NBUF).find? fun i =>
    (s.bcache.buf i).dev = dev ∧ (s.bcache.buf i).blockno = b ∧ (s.bcache.buf i).valid

/-- What a process reads in block `b`. -/
def Log.view (s : Log NBUF T D) (b : ℕ) : D :=
  match s.cached dev b with
  | some i => (s.bcache.buf i).data
  | none => s.disk b

/-- What an operation on buffers does to the blocks. -/
def Op.instr : Op → Option Journal.Instr
  | .copy dst src => some (.copy dst src)
  | .head => some .head
  | .bwrite b => some (.write b)
  | .bunpin b => some (.unpin b)
  | .load => some .load
  | .clear => some .clear
  | .bget _ | .lock _ | .fetch _ | .unlock _ | .unref _ => none

/-- The log as a journal of blocks. -/
def Log.journal (s : Log NBUF T D) : Journal.State D T where
  store := ⟨s.disk, s.view dev, s.lh⟩
  ops := s.ops
  dirty := s.changed
  work := s.work.map fun w => (w.1, w.2.filterMap Op.instr)
  recovering := s.recovering

/-- What a step does to the journal. -/
def LogStep.out (s : Log NBUF T D) : LogStep T D → List (Journal.Step D T)
  | read _ _ => []
  | store t b f => [.put t b f]
  | logWrite t b => [.log t b]
  | beginOp t => [.begin t]
  | endOp t => [.finish t]
  | work =>
    match s.work with
    | some (_, op :: _) => if op.instr.isSome then [.work] else []
    | _ => []
  | done => [.done]
  | crash t => [.crash t]

/-- What a step does to the blocks as an atomic store. -/
def LogStep.effect (L : Layout D) [DecidablePred L.Home] (a : LogStep T D) (s : Log NBUF T D) :
    List (Atomic.Step {b // L.Home b} D T) :=
  match a with
  | read _ _ | logWrite _ _ | done => []
  | store t b f => if h : L.Home b then [.put t ⟨b, h⟩ f] else []
  | beginOp t => [.begin t]
  | endOp t => [.finish t]
  | work =>
    match s.work with
    | some (_, .bwrite b :: _) =>
      if b = L.start ∧ L.read (s.view dev L.start) ≠ [] then [.sync] else []
    | _ => []
  | crash _ => [.crash]

end Journal

section Header

/-! The header block: `n` and the first `n` of the block numbers, behind which the block is not
changed. -/

abbrev BSIZE : ℕ := 1024

abbrev LOGBLOCKS : ℕ := 30

abbrev Block : Type := Fin BSIZE → UInt8

/-- The loop of `write_head`. -/
def writeHeader (lh : List ℕ) (x : Block) : Block :=
  Words.setAll 1 lh (Words.set 0 lh.length x)

/-- The loop of `read_head`; `n` is signed. -/
def readHeader (x : Block) : List ℕ :=
  if Words.get x 0 < 2 ^ 31 then (List.range (Words.get x 0)).map fun i => Words.get x (1 + i)
  else []

end Header

end Kernel

end CShellXv6
