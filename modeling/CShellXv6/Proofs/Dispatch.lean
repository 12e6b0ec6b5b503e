import CShellXv6.Proofs.Builds

/-!
# Who is dispatched

Both scans go up the process table and give up their candidate only for a process that comes
strictly before it, so they end with the first of the least (`Selection`). The MLFQ scan writes
the keys it compares as it goes, but a key is final once its process has been visited.
-/

namespace CShellXv6

namespace Kernel

variable {NPROC : ℕ}

section Scans

theorem fifoLoop_select (procs : Fin NPROC → Proc) : ∀ (l : List (Fin NPROC))
    (best : Option (Fin NPROC)), fifoLoop procs l best
      = Selection.select (fun p => (procs p).state = .runnable) (fun p => (procs p).ctime) l best
  | [], _ => rfl
  | p :: l, best => by
    have hbefore : ((procs p).state = .runnable
          ∧ best.all fun b => fifoBefore (procs p) (procs b))
        ↔ (procs p).state = .runnable
          ∧ best.all fun b => decide ((procs p).ctime < (procs b).ctime) := Iff.rfl
    rw [fifoLoop, Selection.select_cons, Selection.keep]
    by_cases h : (procs p).state = .runnable
        ∧ best.all fun b => decide ((procs p).ctime < (procs b).ctime)
    · rw [if_pos h, if_pos (hbefore.2 h), fifoLoop_select procs l]
    · rw [if_neg h, if_neg (mt hbefore.1 h), fifoLoop_select procs l]

theorem scanLoop_state : ∀ (l : List (Fin NPROC)) (best : Option (Fin NPROC))
    (s : State NPROC Unit),
    (scanLoop l best s).2 = (mlfqSections NPROC Unit).exec (l.map .visit) s
  | [], _, _ => rfl
  | p :: l, best, s => by
    rw [scanLoop, List.map_cons, System.exec_cons]
    split_ifs
    · exact scanLoop_state l _ _
    · exact scanLoop_state l _ _

theorem mlfqRound_eq (s : State NPROC Unit) :
    mlfqRound s = (mlfqScan s, (mlfqScan s).elim
      { s with procs := fun p => (s.procs p).visit s.ticks }
      fun p => (Action.dispatch () p).next
        { s with procs := fun p => (s.procs p).visit s.ticks }) := by
  have hstate := scanLoop_state (List.finRange NPROC) none s
  rw [visits_exec] at hstate
  rw [← hstate]
  rfl

/-- The scan of the one-CPU machine is this one. -/
theorem mlfqRound_base (c : Cpu NPROC) :
    (Build.mlfq.next (.event .scan) c).base = (mlfqRound c.base).2 := by
  have hvisits := visits_exec c.base
  rw [exec_mlfqSections] at hvisits
  rw [mlfqRound_eq, Build.next, Build.work, Build.actions, if_pos rfl, System.exec_append,
    hvisits]
  rcases h : mlfqScan c.base with _ | b
  · simp [Build.pick, h]
  · simp [Build.pick, h, sections]

theorem fifoRound_base (c : Cpu NPROC) :
    (Build.fifo.next (.event .scan) c).base = (fifoRound c.base).2 := by
  rw [fifoRound, Build.next, Build.work, Build.actions]
  rcases h : fifoLoop c.base.procs (List.finRange NPROC) none with _ | b
  · simp [Build.pick, h]
  · simp [Build.pick, h, sections]

end Scans

section Keeps

theorem scanKeeps_visit (x : Proc) (ticks : ℕ) : ScanKeeps false x (x.visit ticks) := by
  refine ⟨rfl, fun h => ?_, fun _ => ⟨rfl, rfl⟩⟩
  simp only [Proc.visit, if_neg h, and_self]

theorem ScanKeeps.dispatch {x y : Proc} (h : ScanKeeps false x y) (ticks : ℕ) :
    ScanKeeps true x (y.dispatch ticks) := by
  refine ⟨?_, h.queue, by simp⟩
  rw [h.fields]
  rfl

/-- The table behind the switch to `best`. -/
theorem scanKeeps_round {s t : State NPROC Unit}
    (h : ∀ p, ScanKeeps false (s.procs p) (t.procs p)) (best : Option (Fin NPROC))
    (p : Fin NPROC) :
    ScanKeeps (best = some p) (s.procs p)
      ((best.elim t fun p => (Action.dispatch () p).next t).procs p) := by
  rcases best with _ | b
  · simpa using h p
  · simp only [Option.elim_some, Action.next_procs, Action.slot, Option.some.injEq]
    by_cases hb : b = p
    · simpa [hb, Action.body] using (h p).dispatch t.ticks
    · simpa [hb] using h p

end Keeps

section Least

theorem mlfqKey_le_iff (s : State NPROC Unit) {p q : Fin NPROC} (hp : s.Runnable p)
    (hq : s.Runnable q) : s.mlfqKey p ≤ s.mlfqKey q
      ↔ toLex (((s.procs p).visit s.ticks).queueKey, p)
        ≤ toLex (((s.procs q).visit s.ticks).queueKey, q) := by
  have hkey : ∀ {r}, s.Runnable r → ((s.procs r).visit s.ticks).queueKey
      = toLex ((s.procs r).priority,
        if (s.procs r).queued then (s.procs r).enqTime else s.ticks) := by
    intro r hr
    have hr : (s.procs r).state = .runnable := hr
    cases hq : (s.procs r).queued <;> simp [Proc.queueKey, Proc.visit, hr, hq]
  rw [hkey hp, hkey hq, State.mlfqKey, State.mlfqKey]
  simp only [Prod.Lex.le_iff, Prod.Lex.lt_iff, ofLex_toLex, EmbeddingLike.apply_eq_iff_eq,
    Prod.mk.injEq]
  tauto

/-- The MLFQ scan dispatches the least by queue, place in it and slot, and the FIFO scan the least
by creation and slot. -/
theorem scan_dispatches_least (s : State NPROC Unit) :
    DispatchesLeast s s.mlfqKey (mlfqRound s) ∧ DispatchesLeast s s.fifoKey (fifoRound s) := by
  have hsorted := List.pairwise_lt_finRange NPROC
  refine ⟨?_, ?_⟩
  · rw [mlfqRound_eq]
    refine ⟨fun p => ?_, ?_, fun p hp => ?_, scanKeeps_round (fun p => scanKeeps_visit _ _) _, ?_⟩
    · rw [mlfqScan_select, Selection.select_eq_some_iff _ _ hsorted List.mem_finRange]
      refine and_congr_right fun hp => forall_congr' fun q => ?_
      exact ⟨fun h hq => (mlfqKey_le_iff s hp hq).2 (h hq),
        fun h hq => (mlfqKey_le_iff s hp hq).1 (h hq)⟩
    · rw [mlfqScan_select, Selection.select_eq_none_iff _ _ hsorted List.mem_finRange]
      rfl
    · have hp : mlfqScan s = some p := hp
      simp [hp, Action.next_procs, Action.slot, Action.body, Proc.dispatch]
    · rcases mlfqScan s with _ | b <;> exact ⟨rfl, rfl⟩
  · have hselect := fifoLoop_select s.procs (List.finRange NPROC) none
    refine ⟨fun p => ?_, ?_, fun p hp => ?_,
      scanKeeps_round (fun p => ⟨rfl, fun _ => ⟨rfl, rfl⟩, fun _ => ⟨rfl, rfl⟩⟩) _, ?_⟩
    · rw [fifoRound, hselect, Selection.select_eq_some_iff _ _ hsorted List.mem_finRange]
      rfl
    · rw [fifoRound, hselect, Selection.select_eq_none_iff _ _ hsorted List.mem_finRange]
      rfl
    · have hp : fifoLoop s.procs (List.finRange NPROC) none = some p := hp
      simp [fifoRound, hp, Action.next_procs, Action.slot, Action.body, Proc.dispatch]
    · rw [fifoRound]
      rcases fifoLoop s.procs (List.finRange NPROC) none with _ | b <;> exact ⟨rfl, rfl⟩

end Least

end Kernel

end CShellXv6
