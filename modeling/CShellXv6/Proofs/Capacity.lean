import CShellXv6.Proofs.Recovery
import Mathlib.Algebra.BigOperators.Group.List.Basic
import Mathlib.Algebra.BigOperators.Ring.Finset
import Mathlib.Algebra.Order.BigOperators.Group.Finset
import Mathlib.Data.List.ReduceOption

/-!
# The room in the log and in the buffer cache

`begin_op` lets a call in only if the log has room for `MAXOPBLOCKS` blocks of every call; so a call
that logs fewer than that never meets a full log (`log_never_full`). `log_write` refuses a full log
also where the block is logged already, so a call may not log all `MAXOPBLOCKS`.

With no call going on, everything is on the disk; that is when `sys_sync` returns (`sync_durable`).

There are no more buffers than blocks in a full log, and a commit needs buffers of its own, so it
panics if the log is full (`commit_needs_buffers`).
-/

namespace CShellXv6

namespace Kernel

variable {T : Type*} [DecidableEq T] {start : ℕ} {t : T}

theorem fileSystem_refines : (fileSystem T start).Refines (Journal.journal (logLayout start))
    (Log.journal ROOTDEV) (fun a s => a.out s) (Log.Ok (logLayout start) ROOTDEV) :=
  log_refines (by decide)

theorem ok_up {disk : ℕ → Block} (h : (logLayout start).Ok (readHeader (disk start))) :
    (up start t disk).Ok (logLayout start) ROOTDEV :=
  ok_boot (by decide) h

/-- A step that is taken is that of `exec`. -/
theorem exec_of_can {a : LogStep T Block} {s : Log NBUF T Block}
    (h : (fileSystem T start).can a s) : a.exec (logLayout start) ROOTDEV MAXOPBLOCKS (fun _ => 0) s
      = some ((fileSystem T start).next a s) := by
  obtain ⟨s', hs'⟩ := Option.isSome_iff_exists.1 h
  simp only [fileSystem, logSystem, hs', Option.getD_some]

section Room

/-- How many blocks the calls have added to the log, behind a step. -/
def LogStep.adds (s : Log NBUF T Block) (c : T → ℕ) : LogStep T Block → T → ℕ
  | beginOp t => Function.update c t 0
  | logWrite t b => if b ∈ s.lh then c else Function.update c t (c t + 1)
  | _ => c

/-- The file system, with calls that add fewer than `MAXOPBLOCKS` blocks to the log. -/
def modest (T : Type*) [DecidableEq T] (start : ℕ) :
    System (LogStep T Block) (Log NBUF T Block × (T → ℕ)) where
  can a s := (fileSystem T start).can a s.1 ∧ ∀ t, a.adds s.1 s.2 t < MAXOPBLOCKS
  next a s := ((fileSystem T start).next a s.1, a.adds s.1 s.2)

/-- The blocks in the log, and those the calls may still add. -/
def reserved (s : Log NBUF T Block × (T → ℕ)) : ℕ :=
  s.1.lh.length + (s.1.ops.map fun t => MAXOPBLOCKS - s.2 t).sum

structure Roomy (start : ℕ) (s : Log NBUF T Block × (T → ℕ)) : Prop where
  ok : s.1.Ok (logLayout start) ROOTDEV
  room : s.1.work = none → reserved s ≤ LOGBLOCKS
  few : ∀ t, s.2 t < MAXOPBLOCKS

omit [DecidableEq T] in
theorem sum_le (c : T → ℕ) : ∀ ops : List T,
    (ops.map fun t => MAXOPBLOCKS - c t).sum ≤ ops.length * MAXOPBLOCKS
  | [] => by simp
  | t :: ops => by
    have := sum_le c ops
    simp only [List.map_cons, List.sum_cons, List.length_cons, Nat.succ_mul]
    omega

theorem room_beginOp {s s' : Log NBUF T Block} {c : T → ℕ}
    (h : s.Ok (logLayout start) ROOTDEV)
    (he : (LogStep.beginOp t).exec (logLayout start) ROOTDEV MAXOPBLOCKS (fun _ => 0) s = some s') :
    reserved (s', Function.update c t 0) ≤ LOGBLOCKS := by
  simp only [LogStep.exec] at he
  split at he
  case isFalse => cases he
  case isTrue hc =>
    obtain ⟨s1, hs1, rfl⟩ := Option.map_eq_some_iff.1 he
    unfold Log.beginOp at hs1
    split at hs1
    case isTrue => cases hs1
    case isFalse =>
      split at hs1
      case isTrue => cases hs1
      case isFalse hroom =>
        cases hs1
        have hsum := sum_le (Function.update c t 0) (t :: s.ops)
        rw [List.length_cons, ← h.outstanding] at hsum
        unfold reserved
        have hsize : (logLayout start).size = LOGBLOCKS := rfl
        rw [hsize] at hroom
        dsimp only
        omega

omit [DecidableEq T] in
theorem journal_work_eq_none {s : Log NBUF T Block} :
    (s.journal ROOTDEV).work = none ↔ s.work = none := by
  simp [Log.journal]

/-- A call that adds a block uses up room of its own. -/
theorem sum_add {c : T → ℕ} {ops : List T} (hd : ops.Nodup) (ht : t ∈ ops)
    (hc : c t < MAXOPBLOCKS) :
    (ops.map fun u => MAXOPBLOCKS - Function.update c t (c t + 1) u).sum + 1
      = (ops.map fun u => MAXOPBLOCKS - c u).sum := by
  rw [← List.sum_map_erase _ ht, ← List.sum_map_erase (fun u => MAXOPBLOCKS - c u) ht]
  have hrest : (ops.erase t).map (fun u => MAXOPBLOCKS - Function.update c t (c t + 1) u)
      = (ops.erase t).map fun u => MAXOPBLOCKS - c u := by
    refine List.map_congr_left fun u hu => ?_
    rw [Function.update_of_ne]
    rintro rfl
    exact hd.not_mem_erase hu
  rw [hrest, Function.update_self]
  omega

theorem roomy_step (a : LogStep T Block) (s : Log NBUF T Block × (T → ℕ)) (h : Roomy start s)
    (hc : (modest T start).can a s) : Roomy start ((modest T start).next a s) := by
  obtain ⟨s, c⟩ := s
  obtain ⟨hcan, hfew⟩ := hc
  have hex := exec_of_can hcan
  obtain ⟨hok, hf⟩ := keeps (by decide) a _ h.ok hex
  obtain ⟨d, hd⟩ := h.ok.journal
  have hroom := h.room
  refine ⟨hok, fun hw => ?_, hfew⟩
  change Follows _ a ROOTDEV s _ at hf
  change ((fileSystem T start).next a s).work = none at hw
  change reserved ((fileSystem T start).next a s, a.adds s c) ≤ LOGBLOCKS
  generalize (fileSystem T start).next a s = s' at *
  have hops := congrArg Journal.State.ops hf.exec
  have hlh := congrArg (fun j => j.store.logged) hf.exec
  have hwork := congrArg Journal.State.work hf.exec
  rw [journal_work_eq_none.2 hw] at hwork
  unfold reserved at hroom ⊢
  dsimp only at hroom ⊢
  cases a with
  | read t op =>
    rw [← show s.ops = s'.ops from hops, ← show s.lh = s'.lh from hlh]
    exact hroom (journal_work_eq_none.1 hwork)
  | store t b f =>
    rw [← show s.ops = s'.ops from hops, ← show s.lh = s'.lh from hlh]
    exact hroom (journal_work_eq_none.1 hwork)
  | logWrite t b =>
    have hroom := hroom (journal_work_eq_none.1 hwork)
    have ht : t ∈ s.ops := hf.valid.1.1
    rw [← show s.ops = s'.ops from hops,
      ← show (if b ∈ s.lh then s.lh else s.lh ++ [b]) = s'.lh from hlh]
    simp only [LogStep.adds]
    split
    case isTrue => exact hroom
    case isFalse =>
      have := sum_add (c := c) hd.nodup ht (h.few t)
      rw [List.length_append, List.length_singleton]
      change (s.ops.map _).sum + 1 = (s.ops.map _).sum at this
      omega
  | beginOp t => exact room_beginOp h.ok hex
  | endOp t =>
    have ht : t ∈ s.ops := hf.valid.1.1
    have hroom := hroom (h.ok.work_eq_none ht)
    have := List.sum_map_erase (fun u => MAXOPBLOCKS - c u) ht
    rw [← show s.ops.erase t = s'.ops from hops, ← show s.lh = s'.lh from hlh]
    simp only [LogStep.adds]
    omega
  | work =>
    rw [LogStep.exec] at hex
    split at hex
    case h_2 => cases hex
    case h_1 =>
      obtain ⟨s1, -, rfl⟩ := Option.map_eq_some_iff.1 hex
      cases hw
  | done =>
    obtain ⟨t, ht⟩ := hf.valid.1
    have hb := hd.busy t _ ht
    have hnil : s.lh = [] := (Journal.settled_of_done hb).logged
    rw [← show s.ops = s'.ops from hops, ← show s.lh = s'.lh from hlh, hnil,
      show s.ops = [] from hb.ops]
    simp
  | crash t => cases hwork

/-- Calls that add fewer than `MAXOPBLOCKS` blocks to the log each never meet a full log: neither
`log_write` nor `end_op` panics. -/
theorem log_never_full {disk : ℕ → Block} (hdisk : (logLayout start).Ok (readHeader (disk start)))
    (as : List (LogStep T Block)) (hv : (modest T start).Valid as (up start t disk, fun _ => 0)) :
    let s := ((modest T start).exec as (up start t disk, fun _ => 0)).1
    ∀ u ∈ s.ops, (s.endOp (logLayout start) u).isSome
      ∧ ∀ i, (s.logWrite (logLayout start) i).isSome := by
  intro s u hu
  have h : Roomy start ((modest T start).exec as (up start t disk, fun _ => 0)) :=
    (modest T start).invariant roomy_step ⟨ok_up hdisk, by simp [up, Log.boot], by simp⟩ as hv
  have hw : s.work = none := h.ok.work_eq_none hu
  have hlen : s.lh.length < LOGBLOCKS := by
    have hroom := h.room hw
    have hfew := h.few u
    have := List.sum_map_erase
      (fun v => MAXOPBLOCKS - ((modest T start).exec as (up start t disk, fun _ => 0)).2 v) hu
    change s.lh.length + (s.ops.map _).sum ≤ LOGBLOCKS at hroom
    omega
  have hout : 0 < s.outstanding := by
    rw [h.ok.outstanding]
    exact List.length_pos_of_mem hu
  have hcom : s.committing = false := by
    rw [h.ok.committing, hw]
    rfl
  refine ⟨?_, fun i => ?_⟩
  · simp only [Log.endOp, hcom, Bool.false_eq_true, if_false]
    split <;> rfl
  · have hsize : (logLayout start).size = LOGBLOCKS := rfl
    rw [Log.logWrite, if_neg (by omega), if_neg (by omega)]
    split <;> rfl

instance (a : LogStep Bool Block) (s : Log NBUF Bool Block × (Bool → ℕ)) :
    Decidable ((modest Bool start).can a s) :=
  inferInstanceAs (Decidable ((fileSystem Bool start).can a s.1 ∧ ∀ _, _ < MAXOPBLOCKS))

theorem log_never_full_call :
    let s := ((modest Bool 2).exec (cutOff.take 22) (up 2 false fun _ _ => 0, fun _ => 0)).1
    s.ops = [false] ∧ (s.logWrite (logLayout 2) 0).isSome := by
  have hread : readHeader (fun _ => 0) = [] := by decide +kernel
  have hops : ((modest Bool 2).exec (cutOff.take 22)
      (up 2 false fun _ _ => 0, fun _ => 0)).1.ops = [false] := by decide +kernel
  refine ⟨hops, (log_never_full (by rw [hread]; exact Journal.Layout.ok_nil) _
    (by decide +kernel) false ?_).2 0⟩
  rw [hops]
  exact List.mem_singleton_self _

end Room

section Sync

variable {s s' : Log NBUF T Block}

/-- The file system, and a process in `sys_sync`. -/
def syncing (T : Type*) [DecidableEq T] (start : ℕ) :
    System (Option (LogStep T Block)) (Log NBUF T Block × Sync) :=
  syncSystem (logLayout start) ROOTDEV MAXOPBLOCKS fun _ => 0

@[simp] theorem next_syncing_none (s : Log NBUF T Block) (p : Sync) :
    (syncing T start).next none (s, p) = (s, s.sysSync p) := rfl

theorem exec_syncing : ∀ (v : List (Option (LogStep T Block))) (s : Log NBUF T Block) (p : Sync),
    ((syncing T start).exec v (s, p)).1 = (fileSystem T start).exec v.reduceOption s
  | [], _, _ => rfl
  | some a :: v, s, p => by
    rw [List.reduceOption_cons_of_some, System.exec_cons, System.exec_cons]
    exact exec_syncing v _ p
  | none :: v, s, p => by
    rw [List.reduceOption_cons_of_none, System.exec_cons]
    exact exec_syncing v s _

theorem valid_syncing : ∀ {v : List (Option (LogStep T Block))} {s : Log NBUF T Block} {p : Sync},
    (syncing T start).Valid v (s, p) → (fileSystem T start).Valid v.reduceOption s
  | [], _, _, _ => trivial
  | some a :: v, s, p, h => by
    rw [List.reduceOption_cons_of_some]
    exact ⟨h.1, valid_syncing h.2⟩
  | none :: v, s, p, h => by
    rw [List.reduceOption_cons_of_none]
    exact valid_syncing (p := s.sysSync p) h.2

/-- With no call going on and nothing to commit, the log is empty. -/
structure Rests (start : ℕ) (s : Log NBUF T Block) : Prop where
  ok : s.Ok (logLayout start) ROOTDEV
  empty : s.work = none → s.ops = [] → s.lh = []

theorem rests_step (a : LogStep T Block) (s : Log NBUF T Block) (h : Rests start s)
    (hcan : (fileSystem T start).can a s) : Rests start ((fileSystem T start).next a s) := by
  have hex := exec_of_can hcan
  obtain ⟨hok, hf⟩ := keeps (by decide) a _ h.ok hex
  obtain ⟨d, hd⟩ := h.ok.journal
  refine ⟨hok, fun hw hnil => ?_⟩
  generalize (fileSystem T start).next a s = s' at *
  have hops := congrArg Journal.State.ops hf.exec
  have hlh := congrArg (fun j => j.store.logged) hf.exec
  have hwork := congrArg Journal.State.work hf.exec
  rw [journal_work_eq_none.2 hw] at hwork
  rw [show (s'.journal ROOTDEV).ops = [] from hnil] at hops
  have hkeep : s.ops = [] → s.work = none → s.lh = s'.lh → s'.lh = [] := fun ho hw hl => by
    rw [← hl, h.empty hw ho]
  cases a with
  | read t op => exact hkeep hops (journal_work_eq_none.1 hwork) hlh
  | store t b f => exact hkeep hops (journal_work_eq_none.1 hwork) hlh
  | logWrite t b =>
    have ht : t ∈ s.ops := hf.valid.1.1
    rw [show s.ops = [] from hops] at ht
    cases ht
  | beginOp t => cases hops
  | endOp t =>
    have hnil : s.ops.erase t = [] := hops
    have : (if s.ops.erase t = [] then some (t, (logLayout start).commit s.lh) else none) = none :=
      hwork
    rw [if_pos hnil] at this
    cases this
  | work =>
    rw [LogStep.exec] at hex
    split at hex
    case h_2 => cases hex
    case h_1 =>
      obtain ⟨s1, -, rfl⟩ := Option.map_eq_some_iff.1 hex
      cases hw
  | done =>
    obtain ⟨t, ht⟩ := hf.valid.1
    rw [← show s.lh = s'.lh from hlh]
    exact (Journal.settled_of_done (hd.busy t _ ht)).logged
  | crash t => cases hwork

/-- With no call going on and nothing to commit, everything is on the disk. -/
theorem view_eq_onDisk (h : Rests start s) (hw : s.work = none) (ho : s.ops = [])
    (b : {b // (logLayout start).Home b}) : s.view ROOTDEV b = onDisk start s.disk b := by
  obtain ⟨d, hd⟩ := h.ok.journal
  have hi := hd.idle (journal_work_eq_none.2 hw)
  have hrec : onDisk start s.disk b = s.disk b := by
    refine Journal.Layout.recovered_of_notMem ?_
    rw [show (logLayout start).read (s.disk (logLayout start).start) = [] from hi.head]
    exact List.not_mem_nil
  rw [hrec]
  refine (hi.clean b).resolve_right ?_
  rintro (hc | ⟨t, ht⟩)
  · have hc : b.1 ∈ s.lh := hc
    rw [h.empty hw ho] at hc
    cases hc
  · have ht : t ∈ s.ops := (hi.dirty t b ht).1
    rw [ho] at ht
    cases ht

theorem exec_ncommit {op : Op}
    (he : op.exec (logLayout start) ROOTDEV t s = some s') : s'.ncommit = s.ncommit := by
  cases op <;> grind [Op.exec, Option.map_eq_some_iff, Option.bind_eq_some_iff]

theorem next_ncommit {a : LogStep T Block} (hc : (fileSystem T start).can a s)
    (hcrash : ∀ u, a ≠ .crash u) (hdone : a ≠ .done) :
    ((fileSystem T start).next a s).ncommit = s.ncommit := by
  have hex := exec_of_can hc
  generalize (fileSystem T start).next a s = s' at hex
  cases a with
  | done => exact absurd rfl hdone
  | crash u => exact absurd rfl (hcrash u)
  | read t op =>
    simp only [LogStep.exec] at hex
    split at hex
    · exact exec_ncommit hex
    · cases hex
  | work =>
    rw [LogStep.exec] at hex
    split at hex
    case h_2 => cases hex
    case h_1 =>
      obtain ⟨s1, hs1, rfl⟩ := Option.map_eq_some_iff.1 hex
      have := exec_ncommit hs1
      exact this
  | store | logWrite | beginOp | endOp =>
    grind [LogStep.exec, Log.logWrite, Log.beginOp, Log.endOp, Option.map_eq_some_iff,
      Option.bind_eq_some_iff]

/-- The end of a commit, or of a recovery. -/
def LogStep.commits : LogStep T Block → Bool
  | done => true
  | _ => false

theorem incrInt_eq {n : Int} (h0 : 0 ≤ n) (h : n + 1 < 2 ^ 31) : incrInt n = n + 1 :=
  Int.bmod_eq_of_le (by omega) (by omega)

theorem ncommit_next {a : LogStep T Block} (hc : (fileSystem T start).can a s) (h0 : 0 ≤ s.ncommit)
    (hlt : s.ncommit + (if a.commits then 1 else 0 : ℕ) < 2 ^ 31) :
    0 ≤ ((fileSystem T start).next a s).ncommit
      ∧ ((fileSystem T start).next a s).ncommit ≤ s.ncommit + (if a.commits then 1 else 0 : ℕ) := by
  by_cases hdone : a = .done
  · subst hdone
    have hex := exec_of_can hc
    rw [LogStep.exec] at hex
    split at hex
    case h_2 => cases hex
    case h_1 =>
      rw [← Option.some.inj hex]
      have := incrInt_eq h0 hlt
      simp only [LogStep.commits, if_true]
      split <;> omega
  · by_cases hcrash : ∃ u, a = .crash u
    · obtain ⟨u, rfl⟩ := hcrash
      exact ⟨le_refl 0, h0.trans (by split <;> omega)⟩
    · rw [next_ncommit hc (fun u hu => hcrash ⟨u, hu⟩) hdone]
      split <;> omega

/-- While the commits can be counted, they are. -/
theorem ncommit_exec : ∀ {as : List (LogStep T Block)} {s : Log NBUF T Block},
    (fileSystem T start).Valid as s → 0 ≤ s.ncommit → s.ncommit + as.countP (·.commits) < 2 ^ 31 →
    0 ≤ ((fileSystem T start).exec as s).ncommit
      ∧ ((fileSystem T start).exec as s).ncommit ≤ s.ncommit + as.countP (·.commits)
  | [], _, _, h0, _ => ⟨h0, by simp⟩
  | a :: as, s, hv, h0, hlt => by
    rw [List.countP_cons, Nat.cast_add] at hlt ⊢
    have hstep := ncommit_next hv.1 h0 (by omega)
    have ih := ncommit_exec hv.2 hstep.1 (by omega)
    rw [System.exec_cons]
    exact ⟨ih.1, by omega⟩

/-- A process that waits for a number of commits comes back behind a commit. -/
theorem done_of_loop : ∀ {v : List (Option (LogStep T Block))} {s : Log NBUF T Block} {n : Int},
    (syncing T start).Valid v (s, .loop n) → (∀ u, some (.crash u) ∉ v) → s.ncommit < n →
    ((syncing T start).exec v (s, .loop n)).2 = .returned → ∃ v1 v2, v = v1 ++ some .done :: v2
  | [], _, _, _, _, _, h => nomatch h
  | none :: v, s, n, hv, hcrash, hlt, h => by
    have hstay : s.sysSync (.loop n) = .loop n := if_pos hlt
    obtain ⟨-, hv⟩ := hv
    rw [System.exec_cons, next_syncing_none, hstay] at h
    rw [next_syncing_none, hstay] at hv
    obtain ⟨v1, v2, rfl⟩ := done_of_loop hv
      (fun u hu => hcrash u (List.mem_cons_of_mem _ hu)) hlt h
    exact ⟨none :: v1, v2, rfl⟩
  | some a :: v, s, n, hv, hcrash, hlt, h => by
    by_cases ha : a = .done
    · exact ⟨[], v, by rw [ha, List.nil_append]⟩
    · have hkeep := next_ncommit hv.1 (fun u hu => hcrash u (by simp [hu])) ha
      obtain ⟨v1, v2, rfl⟩ := done_of_loop hv.2
        (fun u hu => hcrash u (List.mem_cons_of_mem _ hu)) (hkeep ▸ hlt) h
      exact ⟨some a :: v1, v2, rfl⟩

/-- Nothing is going on at the test of `sys_sync`, or a commit ends before it returns. -/
theorem idle_or_done : ∀ {v : List (Option (LogStep T Block))} {s : Log NBUF T Block},
    (syncing T start).Valid v (s, .test) → (∀ u, some (.crash u) ∉ v) →
    0 ≤ s.ncommit → s.ncommit + 1 < 2 ^ 31 →
    ((syncing T start).exec v (s, .test)).2 = .returned →
    (∃ v1 v2, v = v1 ++ none :: v2
      ∧ let s := (fileSystem T start).exec v1.reduceOption s
        s.recovering = false ∧ s.committing = false ∧ s.outstanding = 0)
      ∨ ∃ v1 v2, v = v1 ++ some .done :: v2
  | [], _, _, _, _, _, h => nomatch h
  | none :: v, s, hv, hcrash, h0, hlt, h => by
    by_cases hw : s.committing ∨ s.outstanding > 0
    · have hincr := incrInt_eq h0 hlt
      have hloop : s.sysSync .test = .loop (incrInt s.ncommit) := by
        rw [Log.sysSync, if_pos hw, Log.syncLoop, if_pos (by omega)]
      obtain ⟨-, hv⟩ := hv
      rw [System.exec_cons, next_syncing_none, hloop] at h
      rw [next_syncing_none, hloop] at hv
      obtain ⟨v1, v2, rfl⟩ := done_of_loop hv
        (fun u hu => hcrash u (List.mem_cons_of_mem _ hu)) (by omega) h
      exact .inr ⟨none :: v1, v2, rfl⟩
    · refine .inl ⟨[], v, rfl, hv.1, ?_⟩
      rw [List.reduceOption_nil, System.exec_nil]
      simpa using hw
  | some a :: v, s, hv, hcrash, h0, hlt, h => by
    by_cases ha : a = .done
    · exact .inr ⟨[], v, by rw [ha, List.nil_append]⟩
    · have hkeep := next_ncommit hv.1 (fun u hu => hcrash u (by simp [hu])) ha
      rcases idle_or_done hv.2 (fun u hu => hcrash u (List.mem_cons_of_mem _ hu)) (hkeep ▸ h0)
        (hkeep ▸ hlt) h with ⟨v1, v2, rfl, hidle⟩ | ⟨v1, v2, rfl⟩
      · refine .inl ⟨some a :: v1, v2, rfl, ?_⟩
        rw [List.reduceOption_cons_of_some]
        exact hidle
      · exact .inr ⟨some a :: v1, v2, rfl⟩

/-- A commit, or a recovery, ends with no call going on. -/
theorem next_done (h : s.Ok (logLayout start) ROOTDEV)
    (hc : (fileSystem T start).can (.done : LogStep T Block) s) :
    ((fileSystem T start).next (.done : LogStep T Block) s).work = none
      ∧ ((fileSystem T start).next (.done : LogStep T Block) s).ops = [] := by
  have hex := exec_of_can hc
  obtain ⟨d, hd⟩ := h.journal
  rw [LogStep.exec] at hex
  split at hex
  case h_2 => cases hex
  case h_1 t hw =>
    have hjw : (s.journal ROOTDEV).work = some (t, []) := by simp [Log.journal, hw]
    rw [← Option.some.inj hex]
    exact ⟨rfl, (hd.busy t _ hjw).ops⟩

/-- When `sys_sync` returns, there has been a moment since its call with no call of the file system
going on and everything on the disk, if the commits before its call can be counted. -/
theorem sync_durable {disk : ℕ → Block} (hdisk : (logLayout start).Ok (readHeader (disk start)))
    (u : List (LogStep T Block)) (hu : (fileSystem T start).Valid u (up start t disk))
    (hfew : u.countP (·.commits) + 1 < 2 ^ 31) (v : List (Option (LogStep T Block)))
    (hv : (syncing T start).Valid v ((fileSystem T start).exec u (up start t disk), .test))
    (hcrash : ∀ t, some (.crash t) ∉ v)
    (hret : ((syncing T start).exec v
      ((fileSystem T start).exec u (up start t disk), .test)).2 = .returned) :
    ∃ v1 v2, v = v1 ++ v2
      ∧ let s := ((syncing T start).exec v1
          ((fileSystem T start).exec u (up start t disk), .test)).1
        s.ops = [] ∧ ∀ b : {b // (logLayout start).Home b},
          s.view ROOTDEV b = onDisk start s.disk b := by
  have hrest : ∀ w, (fileSystem T start).Valid w (up start t disk) →
      Rests start ((fileSystem T start).exec w (up start t disk)) :=
    (fileSystem T start).invariant rests_step ⟨ok_up hdisk, by simp [up, Log.boot]⟩
  have hvalid : ∀ v1 v2, v = v1 ++ v2 →
      (fileSystem T start).Valid (u ++ v1.reduceOption) (up start t disk) := fun v1 v2 h => by
    rw [h, System.valid_append] at hv
    exact (System.valid_append _ _ _ _).2 ⟨hu, valid_syncing hv.1⟩
  have hzero : (up start t disk).ncommit = 0 := rfl
  have hcount := ncommit_exec hu (le_refl 0) (by omega)
  rcases idle_or_done hv hcrash hcount.1 (by omega) hret with ⟨v1, v2, rfl, hidle⟩ | ⟨v1, v2, rfl⟩
  · have hR := hrest _ (hvalid v1 _ rfl)
    rw [System.exec_append] at hR
    refine ⟨v1, _, rfl, ?_⟩
    rw [exec_syncing]
    generalize (fileSystem T start).exec v1.reduceOption _ = s at hidle hR ⊢
    have hops : s.ops = [] := by
      rw [← List.length_eq_zero_iff, ← hR.ok.outstanding, hidle.2.2]
    have hwork : s.work = none := by
      have := hR.ok.committing
      rw [hidle.1, hidle.2.1, Bool.not_false, Bool.and_true] at this
      simpa using this.symm
    exact ⟨hops, view_eq_onDisk hR hwork hops⟩
  · have hsplit : v1 ++ some .done :: v2 = v1 ++ [some .done] ++ v2 := by simp
    have hvd := hvalid _ _ hsplit
    rw [List.reduceOption_append, ← List.append_assoc] at hvd
    have hR := hrest _ hvd
    obtain ⟨hv1, hdone⟩ := (System.valid_append _ _ _ _).1 hvd
    have hq := next_done (hrest _ hv1).ok hdone.1
    refine ⟨v1 ++ [some .done], v2, hsplit, ?_⟩
    rw [exec_syncing, List.reduceOption_append, System.exec_append, ← System.exec_append _ u]
    rw [System.exec_append] at hR
    exact ⟨hq.2, view_eq_onDisk hR hq.1 hq.2⟩

instance (a : Option (LogStep T Block)) (s : Log NBUF T Block × Sync) :
    Decidable ((syncing T start).can a s) :=
  match a with
  | some a => inferInstanceAs (Decidable ((fileSystem T start).can a s.1))
  | none => inferInstanceAs (Decidable (s.1.recovering = false))

/-- A call has ended and is committing; `sys_sync` sleeps until the commit ends. -/
def syncs : List (Option (LogStep Bool Block)) :=
  none :: List.replicate 40 (some .work) ++ [none, some .done, none]

theorem sync_durable_syncs : ∃ v1 v2, syncs = v1 ++ v2
      ∧ let s := ((syncing Bool 2).exec v1
          ((fileSystem Bool 2).exec (cutOff.take 24) (up 2 false fun _ _ => 0), .test)).1
        s.ops = [] ∧ ∀ b : {b // (logLayout 2).Home b},
          s.view ROOTDEV b = onDisk 2 s.disk b := by
  have hread : readHeader (fun _ => 0) = [] := by decide +kernel
  refine sync_durable (by rw [hread]; exact Journal.Layout.ok_nil) _ (by decide +kernel)
    (by decide +kernel) _ (by decide +kernel) (fun t ht => ?_) (by decide +kernel)
  simp [syncs] at ht

end Sync

section Buffers

variable {c : Bcache NBUF T Block} {held : AList fun _ : T × ℕ => Handle NBUF}
  {changed : T → Option ℕ} {pin : ℕ → ℕ} {l : List ℕ}

open Finset

omit [DecidableEq T] in
/-- Every handle is for one buffer. -/
theorem sum_count : ∑ i, Holders.count (·.buf = i) held = held.entries.length := by
  unfold Holders.count
  induction held.entries with
  | nil => simp
  | cons e es ih => simp [List.countP_cons, sum_add_distrib, ih]

omit [DecidableEq T] in
/-- A block is pinned in one buffer. -/
theorem sum_pins (hu : c.Unique ROOTDEV) :
    (∑ i, if (c.buf i).dev = ROOTDEV then l.count (c.buf i).blockno else 0) ≤ l.length := by
  induction l with
  | nil => simp
  | cons a l ih =>
    have hone : #{i | (c.buf i).dev = ROOTDEV ∧ (c.buf i).blockno = a} ≤ 1 := by
      rw [card_le_one]
      simp only [mem_filter, mem_univ, true_and]
      exact fun i hi j hj => hu i j hi.1 hj.1 (hi.2.trans hj.2.symm)
    calc (∑ i, if (c.buf i).dev = ROOTDEV then (a :: l).count (c.buf i).blockno else 0)
        = (∑ i, if (c.buf i).dev = ROOTDEV then l.count (c.buf i).blockno else 0)
          + #{i | (c.buf i).dev = ROOTDEV ∧ (c.buf i).blockno = a} := by
          rw [card_filter, ← sum_add_distrib]
          refine sum_congr rfl fun i _ => ?_
          by_cases hd : (c.buf i).dev = ROOTDEV
          · by_cases ha : (c.buf i).blockno = a
            · simp [hd, ha]
            · simp [hd, ha, List.count_cons_of_ne (Ne.symm ha)]
          · simp [hd]
      _ ≤ (a :: l).length := by
          rw [List.length_cons]
          omega

/-- With fewer handles and pinned blocks than buffers, a buffer is not in use. -/
theorem exists_refcnt_eq_zero (h : Held ROOTDEV c held changed pin) (hpin : ∀ b, pin b = l.count b)
    (hlt : l.length + held.entries.length < NBUF) : ∃ i, (c.buf i).refcnt = 0 := by
  by_contra hc
  push Not at hc
  have hsum : ∑ i, (c.buf i).refcnt ≤ held.entries.length + l.length := by
    simp only [h.refcnt, hpin, sum_add_distrib, sum_count]
    exact Nat.add_le_add_left (sum_pins h.unique) _
  have hcard : NBUF ≤ ∑ i, (c.buf i).refcnt := by
    calc NBUF = ∑ _i : Fin NBUF, 1 := by simp
      _ ≤ ∑ i, (c.buf i).refcnt := sum_le_sum fun i _ => Nat.pos_of_ne_zero (hc i)
  omega

/-- If as many blocks are pinned as there are buffers, every buffer is for one of them. -/
theorem blockno_mem_of_full (h : Held ROOTDEV c held changed pin)
    (hpin : ∀ b, pin b = l.count b) (hd : l.Nodup) (hlen : l.length = NBUF) (i : Fin NBUF) :
    (c.buf i).dev = ROOTDEV ∧ (c.buf i).blockno ∈ l := by
  set S : Finset (Fin NBUF) := {i | (c.buf i).dev = ROOTDEV ∧ (c.buf i).blockno ∈ l} with hS
  have hsub : l.toFinset ⊆ S.image fun i => (c.buf i).blockno := by
    intro b hb
    rw [List.mem_toFinset] at hb
    obtain ⟨j, h1, h2, -⟩ := h.pinned b (by rw [hpin]; exact List.count_pos_iff.2 hb)
    exact mem_image.2 ⟨j, by simp [hS, h1, h2, hb], h2⟩
  have hcard : NBUF ≤ #S := by
    calc NBUF = #l.toFinset := by rw [List.toFinset_card_of_nodup hd, hlen]
      _ ≤ #(S.image fun i => (c.buf i).blockno) := card_le_card hsub
      _ ≤ #S := card_image_le
  have huniv : S = univ := by
    refine eq_univ_of_card S (le_antisymm (card_le_univ S) ?_)
    rwa [Fintype.card_fin]
  have hi : i ∈ S := huniv ▸ mem_univ i
  simpa [hS] using hi

/-- A commit starts if the logged blocks and the buffers that processes hold leave a buffer, and
panics if every buffer is for a logged block. -/
theorem commit_needs_buffers {disk : ℕ → Block}
    (hdisk : (logLayout start).Ok (readHeader (disk start))) (as : List (LogStep T Block))
    (hv : (fileSystem T start).Valid as (up start t disk)) :
    let s := (fileSystem T start).exec as (up start t disk)
    ∀ u, s.work = some (u, commit (logLayout start) s.lh) → s.lh ≠ [] →
      (s.lh.length + s.held.entries.length < NBUF → (fileSystem T start).can .work s)
        ∧ (s.lh.length = NBUF → s.bcache.bget ROOTDEV (start + 1) = none
          ∧ ¬ (fileSystem T start).can .work s) := by
  intro s u hw hne
  have hok : s.Ok (logLayout start) ROOTDEV :=
    (fileSystem T start).invariant fileSystem_refines.keeps (ok_up hdisk) as hv
  have hlh : (logLayout start).Ok s.lh := by
    obtain ⟨hvj, hej⟩ := fileSystem_refines.run as _ (ok_up hdisk) hv
    have := (Journal.journal (logLayout start)).invariant
      (I := fun j => (∃ d, Journal.Inv _ j d) ∧ (logLayout start).Ok j.store.logged)
      (fun a j hj hc => ⟨⟨_, Journal.inv_step a hj.1.choose_spec hc⟩,
        Journal.logged_step a hj.1.choose_spec hj.2 hc⟩)
      ⟨(ok_up hdisk).journal, Journal.Layout.ok_nil⟩ _ hvj
    rw [hej] at this
    exact this.2
  have hpin : ∀ b, s.pins b = s.lh.count b := fun b => by
    rw [← count_commit (L := logLayout start), Log.pins, hw]
  obtain ⟨p, hp⟩ : ∃ p, commit (logLayout start) s.lh = .bget (start + 0 + 1) :: p := by
    cases hl : s.lh with
    | nil => exact absurd hl hne
    | cons b l => exact ⟨_, rfl⟩
  have hfree : (u, start + 0 + 1) ∉ s.held := by
    have := (hp ▸ hok.fits u _ hw).1
    change (s.held.lookup (u, start + 0 + 1)).map Handle.stage = none at this
    rwa [Option.map_eq_none_iff, AList.lookup_eq_none] at this
  have hcan : (fileSystem T start).can .work s ↔
      s.bcache.bget ROOTDEV (start + 0 + 1) ≠ none := by
    rw [hp] at hw
    change (LogStep.exec (logLayout start) ROOTDEV MAXOPBLOCKS (fun _ => 0) s .work).isSome ↔ _
    simp only [LogStep.exec, hw, Op.exec, if_neg hfree]
    rw [Option.isSome_map, Option.isSome_map, Option.isSome_iff_ne_none]
  obtain ⟨r, hr⟩ := hok.held.listed
  rw [hcan, Ne, not_not, and_self, Bcache.bget_eq_none_iff hr]
  refine ⟨fun hlt hc => ?_, fun hfull => ⟨fun i hi => ?_, fun i hi => ?_⟩⟩
  · obtain ⟨i, hi⟩ := exists_refcnt_eq_zero hok.held hpin hlt
    exact hc.2 i hi
  · have := hlh.home _ (blockno_mem_of_full hok.held hpin hlh.nodup hfull i).2
    rw [hi.2] at this
    exact this.ne_slot (i := 0) (show 0 < LOGBLOCKS by decide) rfl
  · obtain ⟨h1, h2⟩ := blockno_mem_of_full hok.held hpin hlh.nodup hfull i
    have := (hok.held.of_refcnt_eq_zero hi).2 h1
    rw [hpin, List.count_eq_zero] at this
    exact this h2

def logs (t : Option Bool) (b : ℕ) : List (LogStep (Option Bool) Block) :=
  [.read t (.bget b), .read t (.lock b), .read t (.fetch b), .logWrite t b, .read t (.unlock b),
    .read t (.unref b)]

/-- Three calls log ten blocks each. -/
def fills : List (LogStep (Option Bool) Block) :=
  List.replicate 14 .work ++ .done :: [.beginOp none, .beginOp (some false), .beginOp (some true)]
    ++ (List.range 10).flatMap (fun i =>
      logs none (40 + i) ++ logs (some false) (50 + i) ++ logs (some true) (60 + i))
    ++ [.endOp none, .endOp (some false), .endOp (some true)]

theorem commit_needs_buffers_fills :
    (fileSystem Bool 2).can .work
        ((fileSystem Bool 2).exec (cutOff.take 24) (up 2 false fun _ _ => 0))
      ∧ (((fileSystem (Option Bool) 2).exec fills (up 2 none fun _ _ => 0)).bcache.bget ROOTDEV 3
          = none
        ∧ ¬ (fileSystem (Option Bool) 2).can .work
          ((fileSystem (Option Bool) 2).exec fills (up 2 none fun _ _ => 0))) := by
  have hread : readHeader (fun _ => 0) = [] := by decide +kernel
  have hnil : (logLayout 2).Ok (readHeader fun _ => 0) := by
    rw [hread]
    exact Journal.Layout.ok_nil
  exact ⟨(commit_needs_buffers hnil (cutOff.take 24) (by decide +kernel) false (by decide +kernel)
      (by decide +kernel)).1 (by decide +kernel),
    (commit_needs_buffers hnil fills (by decide +kernel) (some true) (by decide +kernel)
      (by decide +kernel)).2 (by decide +kernel)⟩

end Buffers

end Kernel

end CShellXv6
