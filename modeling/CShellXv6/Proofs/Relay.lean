import CShellXv6.Shell.Relay

/-!
# What the relay delivers

A target has received, the shell still owes it, or the pipe still holds what the child wrote. So
what a return loses is what the pipe holds then, and that is nothing unless the child wrote and
exited between a poll and the wait behind it.

A file receives what its targets receive. So two targets that lead to one file give it every byte
twice.
-/

namespace CShellXv6

namespace Shell

namespace Relay

variable {s : State} {background : Bool}

/-- What the target `i` has still to get of the buffer. -/
def Pc.owed (pc : Pc) (i : ℕ) : List UInt8 :=
  match pc with
  | .write target buffer written =>
    if i < target then [] else if i = target then buffer.drop written else buffer
  | _ => []

/-- The read end is open here. -/
def Pc.Relaying : Pc → Prop
  | .poll | .read | .write _ _ _ => True
  | .waitpid | .returned _ => False

structure Inv (s : State) : Prop where
  targets : s.received ≠ []
  conserved : ∀ i bytes, s.received[i]? = some bytes →
    bytes ++ s.pc.owed i ++ s.pipe = s.wrote
  eof : s.readFd = false → s.pipe = [] ∧ ¬ s.HasWriter
  relaying : s.pc.Relaying → s.readFd = true
  returned : s.pc = .returned false ↔ s.life = .reaped

/-- The child is gone and the wait that follows leaves its last bytes in the pipe. -/
def State.Doomed (s : State) : Prop :=
  s.pc = .waitpid ∧ s.readFd = true ∧ s.pipe ≠ []

/-- How it shows in the state whether all went well up to here. -/
def Fate (well : Prop) (s : State) : Prop :=
  match s.life with
  | .running | .stopped => well
  | .exited => well ↔ ¬ s.Doomed
  | .reaped => well ↔ s.pipe = []

theorem owed_loop (s : State) (i : ℕ) : s.loop.pc.owed i = [] := by
  unfold State.loop
  split <;> rfl

theorem writeAll_eq (s : State) (target : ℕ) (buffer : List UInt8) (written : ℕ) :
    ∃ pc, s.writeAll target buffer written = { s with pc := pc }
      ∧ (pc = .write target buffer written ∨ pc = .write (target + 1) buffer 0
        ∨ pc = s.loop.pc) := by
  unfold State.writeAll
  split_ifs
  · exact ⟨_, rfl, .inl rfl⟩
  · exact ⟨_, rfl, .inr (.inl rfl)⟩
  · exact ⟨_, rfl, .inr (.inr rfl)⟩

theorem owed_writeAll (s : State) (target : ℕ) (buffer : List UInt8) (written : ℕ) {i : ℕ}
    (hi : i < s.received.length) :
    (s.writeAll target buffer written).pc.owed i = (Pc.write target buffer written).owed i := by
  unfold State.writeAll
  split_ifs with hw ht
  · rfl
  · have hdrop : buffer.drop written = [] := List.drop_eq_nil_of_le (by omega)
    rcases Nat.lt_trichotomy i target with h | rfl | h
    · simp [Pc.owed, h, Nat.lt_succ_of_lt h]
    · simp [Pc.owed, hdrop]
    · simp only [Pc.owed, if_neg (show ¬ i < target + 1 by omega),
        if_neg (show ¬ i < target by omega), if_neg (show i ≠ target by omega), List.drop_zero,
        ite_self]
  · rw [owed_loop]
    have hdrop : buffer.drop written = [] := List.drop_eq_nil_of_le (by omega)
    rcases Nat.lt_or_ge i target with h | h
    · simp [Pc.owed, h]
    · have : i = target := by omega
      simp [Pc.owed, this, hdrop]

theorem Inv.goto (h : Inv s) {pc : Pc}
    (howed : ∀ i < s.received.length, pc.owed i = s.pc.owed i)
    (hrelaying : pc.Relaying → s.readFd = true)
    (hreturned : pc = .returned false ↔ s.life = .reaped) : Inv { s with pc := pc } := by
  refine ⟨h.targets, fun i bytes hi => ?_, h.eof, hrelaying, hreturned⟩
  have hlt : i < s.received.length := (List.getElem?_eq_some_iff.1 hi).1
  rw [howed i hlt]
  exact h.conserved i bytes hi

theorem Inv.loop (h : Inv s) (howed : ∀ i < s.received.length, s.pc.owed i = [])
    (hlife : s.life ≠ .reaped) : Inv s.loop := by
  refine h.goto (fun i hi => ?_) ?_ ?_
  · rw [howed i hi]
    exact owed_loop s i
  · split_ifs with hfd
    · exact fun _ => hfd
    · exact False.elim
  · split_ifs <;> simp [hlife]

theorem Inv.writeAll (h : Inv s) {target : ℕ} {buffer : List UInt8} {written : ℕ}
    (howed : ∀ i < s.received.length, (Pc.write target buffer written).owed i = s.pc.owed i)
    (hfd : s.readFd = true) (hlife : s.life ≠ .reaped) :
    Inv (s.writeAll target buffer written) := by
  have hpc := fun i hi => (owed_writeAll s target buffer written (i := i) hi).trans (howed i hi)
  obtain ⟨pc, heq, hcases⟩ := writeAll_eq s target buffer written
  rw [heq] at hpc ⊢
  refine h.goto hpc (fun _ => hfd) ?_
  rcases hcases with rfl | rfl | rfl <;> simp [hlife, State.loop, hfd]

theorem not_reaped (h : Inv s) (hpc : s.pc ≠ .returned false) : s.life ≠ .reaped :=
  fun hlife => hpc (h.returned.2 hlife)

/-- A write takes from what is owed to the target what the target then has. -/
theorem Inv.put (h : Inv s) {target : ℕ} {buffer : List UInt8} {written bytes : ℕ}
    (hpc : s.pc = .write target buffer written) : Inv (s.put target buffer written bytes) := by
  have hfd : s.readFd = true := h.relaying (by rw [hpc]; trivial)
  have hlife := not_reaped h (by simp [hpc])
  let s' : State :=
    { s with
      received := s.received.modify target (· ++ (buffer.drop written).take bytes)
      writes := s.writes ++ [(target, (buffer.drop written).take bytes)]
      pc := .write target buffer (written + bytes) }
  have hs' : Inv s' := by
    refine ⟨by simpa [s'] using h.targets, fun i got hi => ?_, h.eof, fun _ => hfd,
      by simp [s', hlife]⟩
    have hi : (s.received.modify target (· ++ (buffer.drop written).take bytes))[i]? = some got :=
      hi
    rw [List.getElem?_modify, Option.map_eq_map, Option.map_eq_some_iff] at hi
    obtain ⟨old, hold, rfl⟩ := hi
    have hinv := h.conserved i old hold
    rw [hpc] at hinv
    simp only [s', ← hinv, Pc.owed]
    rcases Nat.lt_trichotomy i target with hi | rfl | hi
    · simp [hi, Nat.ne_of_gt hi]
    · simp [← List.drop_drop]
    · simp [Nat.ne_of_lt hi, Nat.ne_of_gt hi, Nat.lt_asymm hi]
  exact Inv.writeAll (s := s') hs' (fun _ _ => rfl) hfd hlife

theorem Inv.read (h : Inv s) {bytes : ℕ} (hcan : (Step.read bytes).can s) :
    Inv (s.read bytes) := by
  obtain ⟨hpc, -, -, heof⟩ := hcan
  have hlife := not_reaped h (by simp [hpc])
  have hfd : s.readFd = true := h.relaying (by rw [hpc]; trivial)
  have hconserved := h.conserved
  simp only [hpc, Pc.owed, List.append_nil] at hconserved
  unfold State.read
  split_ifs with hbytes
  · refine ⟨h.targets, fun i got hi => ?_, fun _ => heof hbytes, False.elim, by simp [hlife]⟩
    simpa [Pc.owed] using hconserved i got hi
  · refine ⟨h.targets, fun i got hi => ?_, fun hfd' => ?_, fun _ => hfd, by simp [hlife]⟩
    · rw [← hconserved i got hi]
      simp only [Pc.owed, Nat.not_lt_zero, if_false, List.drop_zero, ite_self, List.append_assoc,
        List.take_append_drop]
    · simp [hfd] at hfd'

theorem Inv.waitpid (h : Inv s) (hpc : s.pc = .waitpid) : Inv (s.waitpid background) := by
  have hlife := not_reaped h (by simp [hpc])
  have howed : ∀ i < s.received.length, s.pc.owed i = [] := fun i _ => by rw [hpc]; rfl
  unfold State.waitpid
  split_ifs with hexit hnews hback
  · exact ⟨h.targets, fun i got hi => by simpa [hpc, Pc.owed] using h.conserved i got hi, h.eof,
      False.elim, by simp⟩
  · exact Inv.loop (s := { s with unreported := false })
      ⟨h.targets, h.conserved, h.eof, h.relaying, h.returned⟩ howed hlife
  · exact ⟨h.targets, fun i got hi => by simpa [hpc, Pc.owed] using h.conserved i got hi, h.eof,
      False.elim, by simp [hlife]⟩
  · exact h.loop howed hlife

theorem inv_next (h : Inv s) {a : Step} (hcan : a.can s) : Inv (a.next background s) := by
  cases a with
  | childWrite bytes =>
    obtain ⟨hlife, hstdout⟩ := hcan
    refine ⟨h.targets, fun i got hi => ?_, fun hfd => ?_, h.relaying, h.returned⟩
    · simp only [Step.next, ← List.append_assoc]
      rw [h.conserved i got hi]
    · exact absurd (.inl hstdout) (h.eof hfd).2
  | childFork =>
    refine ⟨h.targets, h.conserved, fun hfd => ?_, h.relaying, h.returned⟩
    exact absurd (.inl hcan.2) (h.eof hfd).2
  | childClose =>
    refine ⟨h.targets, h.conserved, fun hfd => ⟨(h.eof hfd).1, ?_⟩, h.relaying, h.returned⟩
    exact fun hw => (h.eof hfd).2 (hw.elim (fun h => by simp [Step.next] at h) .inr)
  | heirClose =>
    refine ⟨h.targets, h.conserved, fun hfd => ⟨(h.eof hfd).1, ?_⟩, h.relaying, h.returned⟩
    exact fun hw => (h.eof hfd).2 (hw.imp id fun h => Nat.lt_of_lt_of_le h (Nat.sub_le _ _))
  | exit =>
    refine ⟨h.targets, h.conserved, fun hfd => ⟨(h.eof hfd).1, ?_⟩, h.relaying, ?_⟩
    · exact fun hw => (h.eof hfd).2 (hw.elim (fun h => by simp [Step.next] at h) .inr)
    · have hcan : s.life = .running ∨ s.life = .stopped := hcan
      have := h.returned
      rcases hcan with hlife | hlife <;> simp_all [Step.next]
  | stop =>
    have hlife : s.life = .running := hcan
    have := h.returned
    exact ⟨h.targets, h.conserved, h.eof, h.relaying, by simp_all [Step.next]⟩
  | «continue» =>
    have hlife : s.life = .stopped := hcan
    have := h.returned
    exact ⟨h.targets, h.conserved, h.eof, h.relaying, by simp_all [Step.next]⟩
  | poll ready =>
    have hlife := not_reaped h (by simp [hcan.1])
    refine h.goto (fun i _ => ?_) (fun _ => h.relaying (by rw [hcan.1]; trivial)) ?_
    · rw [hcan.1]
      split_ifs <;> rfl
    · split_ifs <;> simp [hlife]
  | read bytes => exact h.read hcan
  | write bytes =>
    cases hpc : s.pc with
    | write target buffer written =>
      simp only [Step.next, hpc]
      exact h.put hpc
    | _ => simp [Step.can, hpc] at hcan
  | waitpid => exact h.waitpid hcan.1
  | interrupted =>
    exact h.loop (fun i _ => by rw [hcan.1]; rfl) (not_reaped h (by simp [hcan.1]))

/-- The child has not ended yet. -/
def Life.Alive (life : Life) : Prop :=
  life = .running ∨ life = .stopped

theorem fate_alive {well : Prop} (hlife : s.life.Alive) : Fate well s ↔ well := by
  unfold Fate
  rcases hlife with hlife | hlife <;> rw [hlife]

theorem fate_still_alive {well : Prop} {s' : State} (h : Fate well s) (hlife : s.life.Alive)
    (hlife' : s'.life.Alive) : Fate well s' :=
  (fate_alive hlife').2 ((fate_alive hlife).1 h)

theorem fate_same {well : Prop} {s' : State} (h : Fate well s) (hlife : s'.life = s.life)
    (hdoomed : s'.Doomed ↔ s.Doomed) (hpipe : s'.pipe = s.pipe) : Fate well s' := by
  unfold Fate at h ⊢
  rwa [hlife, hdoomed, hpipe]

/-- Before the wait returns, what dooms no bytes changes nothing. -/
theorem fate_spared {well : Prop} {s' : State} (h : Fate well s) (hreaped : s.life ≠ .reaped)
    (hlife : s'.life = s.life) (hs : ¬ s.Doomed) (hs' : ¬ s'.Doomed) : Fate well s' := by
  unfold Fate at h ⊢
  rw [hlife]
  cases hl : s.life <;> simp_all

theorem not_doomed_of_pc (hpc : s.pc ≠ .waitpid) : ¬ s.Doomed :=
  fun h => hpc h.1

theorem not_doomed_loop (s : State) : ¬ s.loop.Doomed := by
  rintro ⟨hpc, hfd, -⟩
  have hfd : s.readFd = true := hfd
  simp [State.loop, hfd] at hpc

theorem not_doomed_put {target : ℕ} {buffer : List UInt8} {written bytes : ℕ} :
    ¬ (s.put target buffer written bytes).Doomed := by
  unfold State.put State.writeAll
  split_ifs
  · exact not_doomed_of_pc (by simp)
  · exact not_doomed_of_pc (by simp)
  · exact not_doomed_loop _

theorem life_put {target : ℕ} {buffer : List UInt8} {written bytes : ℕ} :
    (s.put target buffer written bytes).life = s.life := by
  unfold State.put State.writeAll
  split_ifs <;> rfl

theorem fate_exit {well : Prop} (h : Fate well s) (hlife : s.life.Alive) :
    Fate (well ∧ Timely .exit s) (Step.exit.next background s) := by
  have hwell : well := (fate_alive hlife).1 h
  show well ∧ Timely .exit s ↔ ¬ s.Doomed
  rw [and_iff_right hwell]
  constructor
  · exact fun htimely hdoomed => hdoomed.2.2 (htimely rfl hdoomed.1 hdoomed.2.1)
  · intro hspared _ hpc hfd
    by_contra hpipe
    exact hspared ⟨hpc, hfd, hpipe⟩

theorem fate_waitpid {well : Prop} (hinv : Inv s) (h : Fate well s) (hpc : s.pc = .waitpid) :
    Fate well (s.waitpid background) := by
  unfold State.waitpid
  split_ifs with hexit hnews hback
  · have h : well ↔ ¬ s.Doomed := by simpa only [Fate, hexit] using h
    show well ↔ s.pipe = []
    rw [h]
    cases hfd : s.readFd with
    | true => simp [State.Doomed, hpc, hfd]
    | false => simp [State.Doomed, hfd, (hinv.eof hfd).1]
  all_goals
    have hlife : s.life.Alive := by
      have := not_reaped hinv (by simp [hpc])
      cases hl : s.life <;> simp_all [Life.Alive]
    exact fate_still_alive h hlife hlife

theorem fate_next {well : Prop} (hinv : Inv s) (h : Fate well s) {a : Step} (hcan : a.can s) :
    Fate (well ∧ Timely a s) (a.next background s) := by
  by_cases hexit : a = .exit
  · subst hexit
    exact fate_exit h hcan
  have htimely : Timely a s := fun ha => absurd ha hexit
  rw [and_iff_left htimely]
  cases a with
  | childWrite bytes =>
    exact fate_still_alive h (.inl hcan.1) (.inl hcan.1)
  | childFork | childClose | heirClose => exact fate_same h rfl Iff.rfl rfl
  | exit => exact absurd rfl hexit
  | stop => exact fate_still_alive h (.inl hcan) (.inr rfl)
  | «continue» => exact fate_still_alive h (.inr hcan) (.inl rfl)
  | poll ready =>
    refine fate_spared h (not_reaped hinv (by simp [hcan.1])) rfl
      (not_doomed_of_pc (by simp [hcan.1])) ?_
    cases ready with
    | true => exact not_doomed_of_pc (by simp [Step.next])
    | false =>
      rintro ⟨-, -, hpipe⟩
      simpa using hcan.2.2 (.inl hpipe)
  | read bytes =>
    refine fate_spared h (not_reaped hinv (by simp [hcan.1])) ?_
      (not_doomed_of_pc (by simp [hcan.1])) ?_
    · simp only [Step.next, State.read]
      split_ifs <;> rfl
    · simp only [Step.next, State.read]
      split_ifs
      · rintro ⟨-, hfd, -⟩
        simp at hfd
      · exact not_doomed_of_pc (by simp)
  | write bytes =>
    cases hpc : s.pc with
    | write target buffer written =>
      simp only [Step.next, hpc]
      exact fate_spared h (not_reaped hinv (by simp [hpc])) life_put
        (not_doomed_of_pc (by simp [hpc])) not_doomed_put
    | _ => simp [Step.can, hpc] at hcan
  | waitpid => exact fate_waitpid hinv h hcan.1
  | interrupted =>
    refine fate_spared h (not_reaped hinv (by simp [hcan.1])) rfl ?_ (not_doomed_loop s)
    rintro ⟨-, hfd, -⟩
    simp [hcan.2] at hfd

theorem inv_start {output : OutputRedirect} (hfiles : output.files ≠ [])
    (hfd : 0 ≤ output.readFd) : Inv (start output) := by
  have hstart : start output =
      ⟨.running, false, true, 0, [], [], true, output.files.map fun _ => [], [], .poll⟩ := by
    simp [start, State.loop, hfd]
  rw [hstart]
  refine ⟨by simpa using hfiles, fun i bytes hi => ?_, by simp, fun _ => rfl, by simp⟩
  simp only [List.getElem?_map, Option.map_eq_some_iff] at hi
  obtain ⟨-, -, rfl⟩ := hi
  rfl

theorem inv_exec {output : OutputRedirect} (hstart : Inv (start output)) (as : List Step)
    (hv : (waitWithRelay background).Valid as (start output)) :
    Inv ((waitWithRelay background).exec as (start output))
      ∧ Fate ((waitWithRelay background).Each Timely as (start output))
        ((waitWithRelay background).exec as (start output)) := by
  induction as using List.reverseRecOn with
  | nil => exact ⟨hstart, trivial⟩
  | append_singleton as a ih =>
    rw [System.valid_append] at hv
    obtain ⟨hinv, hfate⟩ := ih hv.1
    rw [System.each_snoc, System.exec_append]
    exact ⟨inv_next hinv hv.2.1, fate_next hinv hfate hv.2.1⟩

/-- What a return on the child's exit leaves in the pipe is what no target gets. -/
theorem Inv.delivered_iff (h : Inv s) (hret : s.Returned) : s.Delivered ↔ s.pipe = [] := by
  have hconserved : ∀ (i : ℕ) bytes, s.received[i]? = some bytes → bytes ++ s.pipe = s.wrote := by
    intro i bytes hi
    have hpc : s.pc = .returned false := hret
    simpa [hpc, Pc.owed] using h.conserved i bytes hi
  constructor
  · intro hdelivered
    obtain ⟨bytes, hmem⟩ := List.exists_mem_of_ne_nil _ h.targets
    obtain ⟨i, hi⟩ := List.getElem?_of_mem hmem
    have hsum := hconserved i bytes hi
    rw [hdelivered bytes hmem] at hsum
    exact List.append_right_eq_self.1 hsum
  · intro hpipe bytes hmem
    obtain ⟨i, hi⟩ := List.getElem?_of_mem hmem
    rw [← hconserved i bytes hi, hpipe, List.append_nil]

section Files

/-- What has been written through one target. -/
def State.through (s : State) (i : ℕ) : List UInt8 :=
  (s.writes.filter fun w => w.1 = i).flatMap Prod.snd

/-- The `n` targets have received what was written through them. -/
structure Logged (n : ℕ) (s : State) : Prop where
  targets : s.received.length = n
  through : ∀ i bytes, s.received[i]? = some bytes → s.through i = bytes
  writing : ∀ target buffer written, s.pc = .write target buffer written → target < n

variable {n : ℕ}

theorem Logged.goto (h : Logged n s) {pc : Pc}
    (hpc : ∀ target buffer written, pc = .write target buffer written → target < n) :
    Logged n { s with pc := pc } :=
  ⟨h.targets, h.through, hpc⟩

theorem Logged.loop (h : Logged n s) : Logged n s.loop := by
  refine h.goto fun target buffer written => ?_
  split_ifs <;> simp

theorem Logged.writeAll (h : Logged n s) {target : ℕ} (ht : target < n) (buffer : List UInt8)
    (written : ℕ) : Logged n (s.writeAll target buffer written) := by
  unfold State.writeAll
  split_ifs with hw hnext
  · refine h.goto fun target' _ _ he => ?_
    cases he
    exact ht
  · refine h.goto fun target' _ _ he => ?_
    cases he
    rwa [← h.targets]
  · exact h.loop

theorem Logged.put (h : Logged n s) {target : ℕ} (ht : target < n) (buffer : List UInt8)
    (written bytes : ℕ) : Logged n (s.put target buffer written bytes) := by
  unfold State.put
  refine Logged.writeAll ?_ ht buffer (written + bytes)
  refine ⟨by simpa using h.targets, fun i got hi => ?_, fun t b w hpc => h.writing t b w hpc⟩
  rw [List.getElem?_modify, Option.map_eq_map, Option.map_eq_some_iff] at hi
  obtain ⟨old, hold, rfl⟩ := hi
  have hi := h.through i old hold
  unfold State.through at hi ⊢
  rw [List.filter_append, List.flatMap_append, hi]
  by_cases hit : target = i <;> simp [hit]

theorem logged_next (hinv : Inv s) (h : Logged n s) {a : Step} (hcan : a.can s) :
    Logged n (a.next background s) := by
  cases a with
  | childWrite | childFork | childClose | heirClose | exit | stop | «continue» =>
    exact ⟨h.targets, h.through, h.writing⟩
  | poll ready =>
    refine h.goto fun target buffer written => ?_
    split_ifs <;> simp
  | read bytes =>
    simp only [Step.next, State.read]
    split_ifs
    · exact ⟨h.targets, h.through, by simp⟩
    · refine ⟨h.targets, h.through, fun target _ _ he => ?_⟩
      cases he
      rw [← h.targets]
      exact List.length_pos_iff.2 hinv.targets
  | write bytes =>
    cases hpc : s.pc with
    | write target buffer written =>
      simp only [Step.next, hpc]
      exact h.put (h.writing _ _ _ hpc) _ _ _
    | _ => simp [Step.can, hpc] at hcan
  | waitpid =>
    simp only [Step.next, State.waitpid]
    split_ifs
    · exact ⟨h.targets, h.through, by simp⟩
    · exact Logged.loop ⟨h.targets, h.through, h.writing⟩
    · exact ⟨h.targets, h.through, by simp⟩
    · exact h.loop
  | interrupted => exact h.loop

theorem logged_start (output : OutputRedirect) : Logged output.files.length (start output) := by
  refine Logged.loop ⟨by simp, fun i bytes hi => ?_, by simp⟩
  simp only [List.getElem?_map, Option.map_eq_some_iff] at hi
  obtain ⟨-, -, rfl⟩ := hi
  rfl

theorem logged_exec {output : OutputRedirect} (hstart : Inv (start output)) (as : List Step)
    (hv : (waitWithRelay background).Valid as (start output)) :
    Logged output.files.length ((waitWithRelay background).exec as (start output)) := by
  refine ((waitWithRelay background).invariant
    (I := fun s => Inv s ∧ Logged output.files.length s) (fun a s h hcan => ?_)
    ⟨hstart, logged_start output⟩ as hv).2
  exact ⟨inv_next h.1 hcan, logged_next h.1 h.2 hcan⟩

variable {F : Type*} [DecidableEq F] {files : List F}

/-- A file with one target has received what went through it. -/
theorem into_eq_through (hd : files.Nodup) {i : ℕ} {f : F} (hi : files[i]? = some f) :
    s.into files f = s.through i := by
  unfold State.into State.through
  congr 1
  refine List.filter_congr fun w _ => ?_
  obtain ⟨hlt, rfl⟩ := List.getElem?_eq_some_iff.1 hi
  rw [decide_eq_decide]
  constructor
  · intro hw
    exact ((List.getElem?_inj hlt hd).1 (hi.trans hw.symm)).symm
  · rintro rfl
    exact hi

/-- A file with two targets has received at least what went through both. -/
theorem length_into {i j : ℕ} {f : F} (hij : i ≠ j) (hi : files[i]? = some f)
    (hj : files[j]? = some f) :
    (s.through i).length + (s.through j).length ≤ (s.into files f).length := by
  unfold State.into State.through
  induction s.writes with
  | nil => simp
  | cons w ws ih =>
    have hone : ∀ p : ℕ × List UInt8 → Bool, (((w :: ws).filter p).flatMap Prod.snd).length
        = (if p w then w.2.length else 0) + ((ws.filter p).flatMap Prod.snd).length := by
      intro p
      rw [List.filter_cons]
      split <;> simp
    rw [hone, hone, hone]
    by_cases h1 : w.1 = i
    · have h2 : w.1 ≠ j := fun h => hij (h1.symm.trans h)
      simp only [h1, hi, decide_true, if_true, decide_false, Bool.false_eq_true, if_false, hij]
      omega
    · by_cases h2 : w.1 = j
      · simp only [h2, hj, decide_true, if_true, decide_false, Bool.false_eq_true, if_false,
          Ne.symm hij]
        omega
      · simp only [h1, h2, decide_false, Bool.false_eq_true, if_false]
        omega

/-- Where every target has its own file, the files have what the targets have. -/
theorem deliveredTo_iff (h : Logged n s) (hlen : files.length = n) (hd : files.Nodup) :
    s.DeliveredTo files ↔ s.Delivered := by
  constructor
  · intro hall bytes hmem
    obtain ⟨i, hi⟩ := List.getElem?_of_mem hmem
    have hlt : i < files.length := by
      rw [hlen, ← h.targets]
      exact (List.getElem?_eq_some_iff.1 hi).1
    have hf : files[i]? = some files[i] := List.getElem?_eq_getElem hlt
    rw [← h.through i bytes hi, ← into_eq_through hd hf]
    exact hall _ (List.getElem_mem hlt)
  · intro hall f hf
    obtain ⟨i, hi⟩ := List.getElem?_of_mem hf
    have hlt : i < s.received.length := by
      rw [h.targets, ← hlen]
      exact (List.getElem?_eq_some_iff.1 hi).1
    rw [into_eq_through hd hi, h.through i _ (List.getElem?_eq_getElem hlt)]
    exact hall _ (List.getElem_mem hlt)

/-- If nothing is written, nothing is received. -/
theorem deliveredTo_of_wrote_nil (h : Logged n s) (hinv : Inv s) (hlen : files.length = n)
    (hnil : s.wrote = []) : s.DeliveredTo files := by
  intro f _
  rw [hnil]
  unfold State.into
  refine List.flatMap_eq_nil_iff.2 fun w hw => ?_
  obtain ⟨hmem, hf⟩ := List.mem_filter.1 hw
  have hlt : w.1 < s.received.length := by
    rw [h.targets, ← hlen]
    exact (List.getElem?_eq_some_iff.1 (of_decide_eq_true hf)).1
  have hget := List.getElem?_eq_getElem hlt
  have hthrough := h.through _ _ hget
  have hconserved := hinv.conserved _ _ hget
  rw [hnil, List.append_assoc, List.append_eq_nil_iff] at hconserved
  rw [hconserved.1] at hthrough
  exact List.flatMap_eq_nil_iff.1 hthrough w (List.mem_filter.2 ⟨hmem, by simp⟩)

/-- If every target has every byte, a file with two of them has none, or has one twice. -/
theorem nodup_of_deliveredTo (h : Logged n s) (hlen : files.length = n) (hall : s.Delivered)
    (hto : s.DeliveredTo files) : files.Nodup ∨ s.wrote = [] := by
  by_contra hc
  obtain ⟨hd, hne⟩ := not_or.1 hc
  rw [List.nodup_iff_getElem?_ne_getElem?] at hd
  push Not at hd
  obtain ⟨i, j, hij, hj, heq⟩ := hd
  have hthrough : ∀ k, k < files.length → s.through k = s.wrote := by
    intro k hk
    have hlt : k < s.received.length := by rw [h.targets, ← hlen]; exact hk
    rw [h.through k _ (List.getElem?_eq_getElem hlt)]
    exact hall _ (List.getElem_mem hlt)
  have hfj : files[j]? = some files[j] := List.getElem?_eq_getElem hj
  have htwice := length_into (s := s) (Nat.ne_of_lt hij) (heq.trans hfj) hfj
  rw [hthrough i (by omega), hthrough j hj, hto _ (List.getElem_mem hj)] at htwice
  have := List.length_pos_iff.2 hne
  omega

end Files

end Relay

/-- The targets of a command share a pipe. -/
theorem prepareOutput_readFd {env : Env} {tokens : List Token} {output : OutputRedirect}
    {w w' : World} (h : prepareOutput env tokens outputRedirectInit w = (0, output, w'))
    (hfiles : output.files ≠ []) : 0 ≤ output.readFd := by
  unfold prepareOutput at h
  simp only [] at h
  split_ifs at h with hresult hpos hpipe
  · exact absurd (congrArg Prod.fst h) hresult
  · simp at h
  · simp only [Prod.mk.injEq, true_and] at h
    rw [← h.1]
    exact Int.natCast_nonneg _
  · simp only [Prod.mk.injEq, true_and] at h
    rw [← h.1, ← List.length_pos_iff] at hfiles
    exact absurd hfiles hpos

open Relay

def relayedTokens : List Token :=
  [⟨.word, ['h', 'i']⟩, ⟨.opGt, ['>']⟩, ⟨.word, ['f']⟩, ⟨.opGtgt, ['>', '>']⟩, ⟨.word, ['g']⟩]

/-- The bytes go to both targets in two parts, the second behind the child's exit. -/
def relayedRun : List Relay.Step :=
  [.poll false, .childWrite [104, 105], .waitpid, .poll true, .read 1, .write 1, .write 1,
    .exit, .poll true, .read 1, .write 1, .write 1, .poll true, .read 0, .waitpid]

end Shell

end CShellXv6
