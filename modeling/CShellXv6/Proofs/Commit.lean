import CShellXv6.Proofs.LogOps

/-!
# What a commit and a recovery do with buffers

`commit` and `recover_from_log` use the buffers as the file system calls do (`fits_commit`,
`fits_restore`), and seen as blocks they are the journal's programs (`instr_commit`,
`instr_restore`).
-/

namespace CShellXv6

namespace Kernel

open Journal (Layout)

variable {D : Type*} {L : Layout D}

/-- The process can go on with the operation, as far as its own buffers go. -/
def Op.Fits (L : Layout D) (g : ℕ → Option Stage) (d : Option ℕ) : Op → Prop
  | .bget b => g b = none
  | .lock b => g b = some .waiting
  | .fetch b => g b = some .locked
  | .copy dst src => g dst = some .ready ∧ g src = some .ready
  | .head | .load => g L.start = some .ready
  | .bwrite b | .bunpin b => g b = some .ready
  | .unlock b => g b = some .ready ∧ d ≠ some b
  | .unref b => g b = some .released
  | .clear => True

/-- The program gets its buffers before it uses them, writes what it has changed before it releases
it, and releases all of them. What comes behind `load` depends on what is loaded. -/
def Fits (L : Layout D) : List Op → (ℕ → Option Stage) → Option ℕ → Prop
  | [], g, d => (g = fun _ => none) ∧ d = none
  | op :: p, g, d => op.Fits L g d ∧
    if op = .load then g = Function.update (fun _ => none) L.start (some .ready) ∧ d = none
    else Fits L p (op.moves g) (op.instr.elim d fun i => i.dirty L d)

variable {p : List Op} {g : ℕ → Option Stage} {d : Option ℕ} {b : ℕ}

theorem fits_bread (hb : g b = none) (h : Fits L p (Function.update g b (some .ready)) d) :
    Fits L (bread b ++ p) g d := by
  simpa [bread, Fits, Op.Fits, Op.moves, Op.instr, hb] using h

theorem fits_brelse (hb : g b = some .ready) (hd : d ≠ some b)
    (h : Fits L p (Function.update g b none) d) : Fits L (brelse b ++ p) g d := by
  simpa [brelse, Fits, Op.Fits, Op.moves, Op.instr, hb, hd] using h

theorem slot_eq (tail : ℕ) : L.start + tail + 1 = L.slot tail := by
  unfold Layout.slot
  omega

section Pair

variable {a : ℕ} (hab : a ≠ b)

/-- Two buffers are read. -/
def both (a b : ℕ) : ℕ → Option Stage :=
  Function.update (Function.update (fun _ => none) a (some .ready)) b (some .ready)

include hab in
theorem both_left : both a b a = some .ready := by
  rw [both, Function.update_of_ne hab, Function.update_self]

theorem both_right : both a b b = some .ready :=
  Function.update_self ..

include hab in
theorem fits_breads (h : Fits L p (both a b) none) :
    Fits L (bread a ++ (bread b ++ p)) (fun _ => none) none :=
  fits_bread rfl (fits_bread (Function.update_of_ne hab.symm ..) h)

include hab in
/-- They are released, in either order. -/
theorem fits_brelses (h : Fits L p (fun _ => none) none) :
    Fits L (brelse a ++ (brelse b ++ p)) (both a b) none := by
  refine fits_brelse (both_left hab) (by simp) (fits_brelse ?_ (by simp) ?_)
  · rw [Function.update_of_ne hab.symm, both_right]
  · rwa [show Function.update (Function.update (both a b) a none) b none = fun _ => none from ?_]
    funext x
    by_cases hxb : x = b
    · rw [hxb, Function.update_self]
    · rw [Function.update_of_ne hxb]
      by_cases hxa : x = a
      · rw [hxa, Function.update_self]
      · rw [Function.update_of_ne hxa, both, Function.update_of_ne hxb, Function.update_of_ne hxa]

include hab in
theorem both_comm : both a b = both b a :=
  Function.update_comm hab _ _ _

end Pair

theorem fits_writeLog : ∀ (l : List ℕ) (tail : ℕ), (∀ b ∈ l, L.Home b) →
    tail + l.length ≤ L.size → Fits L p (fun _ => none) none →
    Fits L (writeLog L tail l ++ p) (fun _ => none) none
  | [], _, _, _, h => h
  | b :: l, tail, hl, htail, h => by
    rw [List.length_cons] at htail
    have hne : b ≠ L.slot tail := (hl b List.mem_cons_self).ne_slot (by omega)
    have ih := fits_writeLog l (tail + 1) (fun b hb => hl b (List.mem_cons_of_mem _ hb))
      (by omega) h
    simp only [writeLog, List.append_assoc, slot_eq]
    refine fits_breads hne.symm ⟨⟨both_left hne.symm, both_right⟩, ?_⟩
    rw [both_comm hne.symm]
    refine ⟨both_right, ?_⟩
    simpa [Op.instr, Op.moves, Journal.Instr.dirty] using fits_brelses hne ih

theorem fits_installTrans (recovering : Bool) : ∀ (l : List ℕ) (tail : ℕ), (∀ b ∈ l, L.Home b) →
    tail + l.length ≤ L.size → Fits L p (fun _ => none) none →
    Fits L (installTrans L recovering tail l ++ p) (fun _ => none) none
  | [], _, _, _, h => h
  | b :: l, tail, hl, htail, h => by
    rw [List.length_cons] at htail
    have hne : b ≠ L.slot tail := (hl b List.mem_cons_self).ne_slot (by omega)
    have ih := fits_installTrans recovering l (tail + 1)
      (fun b hb => hl b (List.mem_cons_of_mem _ hb)) (by omega) h
    simp only [installTrans, List.append_assoc, slot_eq]
    refine fits_breads hne.symm ⟨⟨both_right, both_left hne.symm⟩, both_right, ?_⟩
    have hrest := fits_brelses hne.symm ih
    cases recovering with
    | true => simpa [Op.instr, Op.moves, Journal.Instr.dirty] using hrest
    | false =>
      simpa [Op.instr, Op.moves, Op.Fits, Journal.Instr.dirty, Fits, both_right] using hrest

theorem fits_writeHead (h : Fits L p (fun _ => none) none) :
    Fits L (writeHead L ++ p) (fun _ => none) none := by
  simp only [writeHead, List.append_assoc]
  have hg : Function.update (fun _ => none) L.start (some Stage.ready) L.start = some .ready :=
    Function.update_self ..
  refine fits_bread rfl ⟨hg, hg, fits_brelse hg (by simp [Op.instr, Journal.Instr.dirty]) ?_⟩
  simpa [Op.instr, Op.moves, Journal.Instr.dirty] using h

theorem fits_nil : Fits L [] (fun _ => none) none :=
  ⟨rfl, rfl⟩

/-- The end of `commit` and of `recover_from_log`. -/
theorem fits_erase : Fits L ([.clear] ++ writeHead L) (fun _ => none) none := by
  have := fits_writeHead (L := L) fits_nil
  rw [List.append_nil] at this
  exact ⟨trivial, by simpa [Op.instr, Op.moves, Journal.Instr.dirty] using this⟩

theorem fits_commit {l : List ℕ} (hl : L.Ok l) : Fits L (commit L l) (fun _ => none) none := by
  unfold commit
  split
  case isTrue =>
    simp only [List.append_assoc]
    exact fits_writeLog l 0 hl.home (by simpa using hl.length)
      (fits_writeHead (fits_installTrans false l 0 hl.home (by simpa using hl.length) fits_erase))
  case isFalse => exact fits_nil

theorem fits_readHead : Fits L (readHead L) (fun _ => none) none :=
  fits_bread rfl ⟨Function.update_self .., by simp⟩

theorem fits_restore {l : List ℕ} (hl : L.Ok l) :
    Fits L (restore L l) (Function.update (fun _ => none) L.start (some .ready)) none := by
  simp only [restore, List.append_assoc]
  refine fits_brelse (Function.update_self ..) (by simp) ?_
  have := fits_installTrans true l 0 hl.home (by simpa using hl.length) fits_erase
  simpa using this

/-! What the programs do to the blocks, and how often they unpin one. -/

theorem instr_writeLog : ∀ (l : List ℕ) (tail : ℕ),
    (writeLog L tail l).filterMap Op.instr = L.writeLog tail l
  | [], _ => rfl
  | b :: l, tail => by
    simp [writeLog, Layout.writeLog, bread, brelse, Op.instr, slot_eq, List.filterMap_cons,
      instr_writeLog l]

theorem instr_writeHead : (writeHead L).filterMap Op.instr = L.writeHead := by
  simp [writeHead, Layout.writeHead, bread, brelse, Op.instr, List.filterMap_cons]

theorem instr_installTrans (recovering : Bool) : ∀ (l : List ℕ) (tail : ℕ),
    (installTrans L recovering tail l).filterMap Op.instr = L.install recovering tail l
  | [], _ => rfl
  | b :: l, tail => by
    cases recovering <;>
      simp [installTrans, Layout.install, bread, brelse, Op.instr, slot_eq, List.filterMap_cons,
        instr_installTrans _ l]

theorem instr_commit (l : List ℕ) : (commit L l).filterMap Op.instr = L.commit l := by
  cases l with
  | nil => rfl
  | cons b l =>
    simp [commit, Layout.commit, Layout.erase, instr_writeLog, instr_writeHead, instr_installTrans,
      Op.instr]

theorem instr_restore (l : List ℕ) : (restore L l).filterMap Op.instr = L.recover l := by
  simp [restore, Layout.recover, Layout.erase, instr_writeHead, instr_installTrans, Op.instr,
    brelse, List.filterMap_cons]

theorem count_writeLog : ∀ (l : List ℕ) (tail b : ℕ), (writeLog L tail l).count (.bunpin b) = 0
  | [], _, _ => rfl
  | a :: l, tail, b => by
    simp [writeLog, bread, brelse, count_writeLog l]

theorem count_writeHead (b : ℕ) : (writeHead L).count (.bunpin b) = 0 := by
  simp [writeHead, bread, brelse]

theorem count_installTrans (recovering : Bool) : ∀ (l : List ℕ) (tail b : ℕ),
    (installTrans L recovering tail l).count (.bunpin b) = if recovering then 0 else l.count b
  | [], _, _ => by simp [installTrans]
  | a :: l, tail, b => by
    cases recovering <;>
      simp [installTrans, bread, brelse, count_installTrans _ l, List.count_cons]

theorem count_commit (l : List ℕ) (b : ℕ) : (commit L l).count (.bunpin b) = l.count b := by
  cases l with
  | nil => rfl
  | cons a l => simp [commit, count_writeLog, count_writeHead, count_installTrans]

theorem count_readHead (b : ℕ) : (readHead L).count (.bunpin b) = 0 := by
  simp [readHead, bread]

theorem count_restore (l : List ℕ) (b : ℕ) : (restore L l).count (.bunpin b) = 0 := by
  simp [restore, brelse, count_writeHead, count_installTrans]

end Kernel

end CShellXv6
