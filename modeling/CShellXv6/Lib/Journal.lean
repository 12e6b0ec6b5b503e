import Mathlib.Logic.Function.Basic
import Mathlib.Data.List.Nodup

/-!
# Redo journals

Blocks are changed in memory and written to the disk later: first copies of them to the slots of a
log, then the header of the log, which lists them, then the blocks themselves, then an empty header.
A crash leaves the disk, and behind it the blocks in the header are copied from their slots.

`recovered` is what a disk comes to by that. Wherever a commit is cut off, it is what the blocks
held before, or, from the write of the header on, what they hold in memory; and wherever a recovery
is cut off, it stays what it was (`safe_commit`, `safe_recover`).
-/

namespace CShellXv6

namespace Journal

/-- Where the log is, how its header is kept in a block, and which blocks are logged. -/
structure Layout (B : Type*) where
  start : ℕ
  size : ℕ
  Home : ℕ → Prop
  read : B → List ℕ
  write : List ℕ → B → B
  away : ∀ b, Home b → b < start ∨ start + size < b
  read_write : ∀ l x, l.length ≤ size → (∀ b ∈ l, Home b) → read (write l x) = l

/-- The blocks on the disk and in memory, and the blocks that are logged. -/
structure Store (B : Type*) where
  disk : ℕ → B
  view : ℕ → B
  logged : List ℕ

inductive Instr where
  | copy (dst src : ℕ)
  | head
  | write (b : ℕ)
  | unpin (b : ℕ)
  | load
  | clear
  deriving DecidableEq

variable {B : Type*} (L : Layout B)

namespace Layout

def slot (i : ℕ) : ℕ :=
  L.start + 1 + i

/-- The blocks from the slots of the log to the blocks themselves. -/
def installed : ℕ → List ℕ → (ℕ → B) → ℕ → B
  | _, [], disk => disk
  | i, b :: bs, disk => installed (i + 1) bs (Function.update disk b (disk (L.slot i)))

/-- What a recovery makes of the disk. -/
def recovered (disk : ℕ → B) : ℕ → B :=
  L.installed 0 (L.read (disk L.start)) disk

def writeLog : ℕ → List ℕ → List Instr
  | _, [] => []
  | i, b :: bs => .copy (L.slot i) b :: .write (L.slot i) :: writeLog (i + 1) bs

def writeHead : List Instr :=
  [.head, .write L.start]

def install (recovering : Bool) : ℕ → List ℕ → List Instr
  | _, [] => []
  | i, b :: bs =>
    .copy b (L.slot i) :: .write b
      :: ((if recovering then [] else [.unpin b]) ++ install recovering (i + 1) bs)

/-- The end of a commit and of a recovery. -/
def erase : List Instr :=
  .clear :: L.writeHead

def commit (l : List ℕ) : List Instr :=
  if l = [] then []
  else L.writeLog 0 l ++ (L.writeHead ++ (L.install false 0 l ++ L.erase))

def recover (l : List ℕ) : List Instr :=
  L.install true 0 l ++ L.erase

end Layout

def Instr.next (s : Store B) : Instr → Store B
  | copy dst src => { s with view := Function.update s.view dst (s.view src) }
  | head => { s with view := Function.update s.view L.start (L.write s.logged (s.view L.start)) }
  | write b => { s with disk := Function.update s.disk b (s.view b) }
  | unpin _ => s
  | load => { s with logged := L.read (s.view L.start) }
  | clear => { s with logged := [] }

/-- The block that is changed in memory and not yet written, behind the instruction. -/
def Instr.dirty (d : Option ℕ) : Instr → Option ℕ
  | copy dst _ => some dst
  | head => some L.start
  | write b => if d = some b then none else d
  | unpin _ | load | clear => d

/-- The instruction writes a header that lists blocks. -/
def Instr.commits (s : Store B) : Instr → Bool
  | write b => b = L.start && !(L.read (s.view b)).isEmpty
  | _ => false

/-- The blocks can be listed in a header. -/
structure Layout.Ok (l : List ℕ) : Prop where
  nodup : l.Nodup
  length : l.length ≤ L.size
  home : ∀ b ∈ l, L.Home b

namespace Layout

variable {L}

theorem Home.ne_start {b : ℕ} (hb : L.Home b) : b ≠ L.start := by
  have := L.away b hb
  omega

theorem Home.ne_slot {b i : ℕ} (hb : L.Home b) (hi : i < L.size) : b ≠ L.slot i := by
  have := L.away b hb
  unfold slot
  omega

theorem slot_ne_start (i : ℕ) : L.slot i ≠ L.start := by
  unfold slot
  omega

theorem slot_inj {i j : ℕ} : L.slot i = L.slot j ↔ i = j := by
  unfold slot
  omega

theorem ok_nil : L.Ok [] :=
  ⟨List.nodup_nil, Nat.zero_le _, by simp⟩

theorem Ok.lt_size {l : List ℕ} (hl : L.Ok l) {j b : ℕ} (h : l[j]? = some b) : j < L.size :=
  Nat.lt_of_lt_of_le (List.getElem?_eq_some_iff.1 h).1 hl.length

theorem installed_of_notMem : ∀ {l : List ℕ} {i : ℕ} {disk : ℕ → B} {b : ℕ}, b ∉ l →
    L.installed i l disk b = disk b
  | [], _, _, _, _ => rfl
  | x :: l, i, disk, b, h => by
    rw [List.mem_cons, not_or] at h
    rw [installed, installed_of_notMem h.2, Function.update_of_ne h.1]

theorem installed_slot : ∀ {l : List ℕ} {i j : ℕ} {disk : ℕ → B} {b : ℕ}, l.Nodup →
    (∀ b ∈ l, L.Home b) → i + l.length ≤ L.size → l[j]? = some b →
    L.installed i l disk b = disk (L.slot (i + j))
  | x :: l, i, 0, disk, b, hd, _, _, h => by
    obtain rfl : x = b := by simpa using h
    rw [installed, installed_of_notMem (List.nodup_cons.1 hd).1, Function.update_self,
      Nat.add_zero]
  | x :: l, i, j + 1, disk, b, hd, hh, hi, h => by
    rw [List.getElem?_cons_succ] at h
    have hj := (List.getElem?_eq_some_iff.1 h).1
    rw [List.length_cons] at hi
    rw [installed, installed_slot (List.nodup_cons.1 hd).2
      (fun b hb => hh b (List.mem_cons_of_mem _ hb)) (by omega) h, Function.update_of_ne,
      Nat.add_right_comm, Nat.add_assoc i j 1]
    exact (Home.ne_slot (hh x List.mem_cons_self) (by omega)).symm

theorem recovered_slot {disk : ℕ → B} (h : L.Ok (L.read (disk L.start))) {j b : ℕ}
    (hj : (L.read (disk L.start))[j]? = some b) : L.recovered disk b = disk (L.slot j) := by
  rw [recovered, installed_slot h.nodup h.home (by have := h.length; omega) hj, Nat.zero_add]

theorem recovered_of_notMem {disk : ℕ → B} {b : ℕ} (h : b ∉ L.read (disk L.start)) :
    L.recovered disk b = disk b :=
  installed_of_notMem h

end Layout

/-- What a program works on: the blocks, the block it has changed and not yet written, and the
blocks as they were when a header was last written. -/
structure Work (B : Type*) where
  store : Store B
  dirty : Option ℕ
  durable : ℕ → B

def Instr.run (w : Work B) (i : Instr) : Work B :=
  ⟨i.next L w.store, i.dirty L w.dirty, if i.commits L w.store then w.store.view else w.durable⟩

section Run

variable (w : Work B)

@[simp] theorem run_copy (dst src : ℕ) : (Instr.copy dst src).run L w =
    ⟨⟨w.store.disk, Function.update w.store.view dst (w.store.view src), w.store.logged⟩, some dst,
      w.durable⟩ := rfl

@[simp] theorem run_head : Instr.head.run L w =
    ⟨⟨w.store.disk, Function.update w.store.view L.start (L.write w.store.logged
      (w.store.view L.start)), w.store.logged⟩, some L.start, w.durable⟩ := rfl

@[simp] theorem run_write (b : ℕ) : (Instr.write b).run L w =
    ⟨⟨Function.update w.store.disk b (w.store.view b), w.store.view, w.store.logged⟩,
      if w.dirty = some b then none else w.dirty,
      if (Instr.write b).commits L w.store then w.store.view else w.durable⟩ := rfl

@[simp] theorem run_clear : Instr.clear.run L w =
    ⟨⟨w.store.disk, w.store.view, []⟩, w.dirty, w.durable⟩ := rfl

end Run

/-- With the program `p` left, a crash loses nothing that is durable, and a block that is not on
the disk as it is in memory is the one being changed or still has to be unpinned. Except in a
recovery, the blocks in memory stay as `v` has them. -/
structure Kept (recovering : Bool) (v : ℕ → B) (p : List Instr) (w : Work B) : Prop where
  ok : L.Ok (L.read (w.store.disk L.start))
  recovered : ∀ b, L.Home b → L.recovered w.store.disk b = w.durable b
  clean : ∀ b, w.store.view b = w.store.disk b ∨ w.dirty = some b ∨ Instr.unpin b ∈ p
  view : recovering = false → ∀ b, L.Home b → w.store.view b = v b

/-- Nothing is left in the log. -/
structure Settled (recovering : Bool) (v : ℕ → B) (w : Work B) : Prop where
  head : L.read (w.store.disk L.start) = []
  logged : w.store.logged = []
  dirty : w.dirty = none
  clean : ∀ b, w.store.view b = w.store.disk b
  durable : ∀ b, L.Home b → w.store.disk b = w.durable b
  view : recovering = false → ∀ b, L.Home b → w.store.view b = v b

/-- The program settles the log, a crash before any of its instructions loses nothing, and a
recovery commits nothing. -/
def Safe (recovering : Bool) (v : ℕ → B) : List Instr → Work B → Prop
  | [], w => Settled L recovering v w
  | i :: p, w => Kept L recovering v (i :: p) w
    ∧ (recovering = true → i.commits L w.store = false) ∧ Safe recovering v p (i.run L w)

section Programs

variable {L} {v : ℕ → B} {l : List ℕ}

/-- The slots of the first `k` blocks are written, the header is not. -/
structure Logging (L : Layout B) (v : ℕ → B) (l : List ℕ) (k : ℕ) (w : Work B) : Prop where
  logged : w.store.logged = l
  head : L.read (w.store.disk L.start) = []
  old : ∀ b, L.Home b → w.store.disk b = w.durable b
  slots : ∀ j b, j < k → l[j]? = some b → w.store.disk (L.slot j) = w.store.view b
  clean : ∀ b, w.store.view b = w.store.disk b ∨ w.dirty = some b ∨ b ∈ l
  view : ∀ b, L.Home b → w.store.view b = v b

theorem Logging.kept {k : ℕ} {w : Work B} (h : Logging L v l k w) {p : List Instr}
    (hp : ∀ b ∈ l, Instr.unpin b ∈ p) : Kept L false v p w where
  ok := h.head ▸ Layout.ok_nil
  recovered b hb := by
    rw [Layout.recovered_of_notMem (by rw [h.head]; exact List.not_mem_nil), h.old b hb]
  clean b := (h.clean b).imp_right (Or.imp_right (hp b))
  view _ := h.view

/-- The header is written, and the blocks `left` are still to be copied from their slots. -/
structure Installing (L : Layout B) (recovering : Bool) (v : ℕ → B) (l left : List ℕ)
    (w : Work B) : Prop where
  head : L.read (w.store.disk L.start) = l
  slots : ∀ j b, l[j]? = some b → w.store.disk (L.slot j) = w.durable b
  home : ∀ b, L.Home b → b ∉ left → w.store.disk b = w.durable b
  clean : ∀ b, w.store.view b = w.store.disk b ∨ w.dirty = some b
    ∨ (b ∈ left ∧ recovering = false)
  view : recovering = false → ∀ b, L.Home b → w.store.view b = v b ∧ w.durable b = v b

theorem Installing.kept {left : List ℕ} {w : Work B}
    (h : Installing L recovering v l left w) (hl : L.Ok l) (hleft : left ⊆ l) {p : List Instr}
    (hp : recovering = false → ∀ b ∈ left, Instr.unpin b ∈ p) : Kept L recovering v p w where
  ok := h.head.symm ▸ hl
  recovered b hb := by
    by_cases hm : b ∈ l
    · obtain ⟨j, hj⟩ := List.mem_iff_getElem?.1 hm
      rw [Layout.recovered_slot (h.head.symm ▸ hl) (j := j) (by rw [h.head, hj]), h.slots j b hj]
    · rw [Layout.recovered_of_notMem (by rwa [h.head]), h.home b hb fun hc => hm (hleft hc)]
  clean b := (h.clean b).imp_right (Or.imp_right fun hb => hp hb.2 b hb.1)
  view hr b hb := (h.view hr b hb).1

theorem Safe.kept : ∀ {p : List Instr} {w : Work B}, Safe L recovering v p w →
    Kept L recovering v p w
  | [], w, h => by
    refine ⟨h.head ▸ Layout.ok_nil, fun b hb => ?_, fun b => .inl (h.clean b), h.view⟩
    rw [Layout.recovered_of_notMem (by rw [h.head]; exact List.not_mem_nil), h.durable b hb]
  | _ :: _, _, h => h.1

theorem Safe.congr {v' : ℕ → B} (hv : recovering = false → ∀ b, L.Home b → v b = v' b) :
    ∀ {p : List Instr} {w : Work B}, Safe L recovering v p w → Safe L recovering v' p w
  | [], _, h =>
    ⟨h.head, h.logged, h.dirty, h.clean, h.durable,
      fun hr b hb => (h.view hr b hb).trans (hv hr b hb)⟩
  | _ :: _, _, h =>
    ⟨⟨h.1.ok, h.1.recovered, h.1.clean, fun hr b hb => (h.1.view hr b hb).trans (hv hr b hb)⟩,
      h.2.1, h.2.2.congr hv⟩

theorem commits_of_ne_start {s : Store B} {b : ℕ} (hb : b ≠ L.start) :
    (Instr.write b).commits L s = false := by
  simp [Instr.commits, hb]

theorem commits_of_read_nil {s : Store B} (h : L.read (s.view L.start) = []) :
    (Instr.write L.start).commits L s = false := by
  simp [Instr.commits, h]

/-- A block that is written is on the disk as it is in memory, and the others stay as they are. -/
theorem clean_write {P : ℕ → Prop} {w : Work B} {x : ℕ} (hx : w.dirty = some x)
    (h : ∀ b, w.store.view b = w.store.disk b ∨ w.dirty = some b ∨ P b) (b : ℕ) :
    w.store.view b = Function.update w.store.disk x (w.store.view x) b ∨ P b := by
  by_cases hb : b = x
  · left
    rw [hb, Function.update_self]
  · rw [Function.update_of_ne hb]
    refine (h b).imp_right fun hb' => hb'.resolve_left fun hc => hb ?_
    rw [hx] at hc
    exact (Option.some.inj hc).symm

theorem clean_change {P : ℕ → Prop} {w : Work B} (hd : w.dirty = none) {x : ℕ} {y : B}
    (h : ∀ b, w.store.view b = w.store.disk b ∨ w.dirty = some b ∨ P b) (b : ℕ) :
    Function.update w.store.view x y b = w.store.disk b ∨ some x = some b ∨ P b := by
  by_cases hb : b = x
  · exact .inr (.inl (by rw [hb]))
  · rw [Function.update_of_ne hb]
    exact (h b).imp_right fun hb' => .inr (hb'.resolve_left (by simp [hd]))

theorem Installing.setHead {w : Work B}
    (h : Installing L recovering v l [] w) (hd : w.dirty = none) :
    Installing L recovering v l [] (Instr.head.run L w) := by
  rw [run_head]
  refine ⟨h.head, h.slots, h.home, clean_change hd h.clean, fun hr b hb => ?_⟩
  dsimp only
  rw [Function.update_of_ne hb.ne_start]
  exact h.view hr b hb

theorem Installing.putHead {w : Work B}
    (h : Installing L recovering v l [] w) (hd : w.dirty = some L.start)
    (hlog : w.store.logged = []) (hr : L.read (w.store.view L.start) = []) :
    Settled L recovering v ((Instr.write L.start).run L w) := by
  rw [run_write, commits_of_read_nil hr, hd, if_pos rfl, if_neg (by simp)]
  refine ⟨?_, hlog, rfl, fun b => ?_, fun b hb => ?_, fun hr b hb => (h.view hr b hb).1⟩
  · dsimp only
    rwa [Function.update_self]
  · exact (clean_write hd h.clean b).resolve_right (by simp)
  · dsimp only
    rw [Function.update_of_ne hb.ne_start, h.home b hb List.not_mem_nil]

theorem safe_erase {w : Work B} (hl : L.Ok l)
    (h : Installing L recovering v l [] w) (hd : w.dirty = none) :
    Safe L recovering v L.erase w := by
  have hkept : ∀ (p : List Instr) (w : Work B), Installing L recovering v l [] w →
      Kept L recovering v p w :=
    fun p w h => h.kept hl (List.nil_subset _) (by simp)
  have h1 : Installing L recovering v l [] (Instr.clear.run L w) :=
    ⟨h.head, h.slots, h.home, h.clean, h.view⟩
  have h2 := h1.setHead hd
  have hr : L.read ((Instr.head.run L (Instr.clear.run L w)).store.view L.start) = [] := by
    rw [run_head, run_clear]
    dsimp only
    rw [Function.update_self, L.read_write [] _ (Nat.zero_le _) (by simp)]
  exact ⟨hkept _ _ h, fun _ => rfl, hkept _ _ h1, fun _ => rfl, hkept _ _ h2,
    fun _ => commits_of_read_nil hr, h2.putHead rfl rfl hr⟩

/-- A block goes from its slot to the memory, and then to the disk. -/
theorem Installing.copyHome {i b : ℕ} {bs : List ℕ} {w : Work B}
    (h : Installing L recovering v l (b :: bs) w) (hd : w.dirty = none)
    (hs : w.store.view (L.slot i) = w.durable b) :
    Installing L recovering v l (b :: bs) ((Instr.copy b (L.slot i)).run L w) := by
  rw [run_copy]
  refine ⟨h.head, h.slots, h.home, clean_change hd h.clean, fun hr c hc => ?_⟩
  refine ⟨?_, (h.view hr c hc).2⟩
  dsimp only
  by_cases he : c = b
  · rw [he, Function.update_self, hs, ← he, (h.view hr c hc).2]
  · rw [Function.update_of_ne he, (h.view hr c hc).1]

theorem Installing.putHome {b : ℕ} {bs : List ℕ} {w : Work B}
    (h : Installing L recovering v l (b :: bs) w) (hl : L.Ok l) (hb : L.Home b)
    (hd : w.dirty = some b) (hv : w.store.view b = w.durable b) :
    Installing L recovering v l bs ((Instr.write b).run L w) := by
  rw [run_write, commits_of_ne_start hb.ne_start, hd, if_pos rfl, if_neg (by simp)]
  refine ⟨?_, fun j c hj => ?_, fun c hc hcb => ?_, fun c => ?_, h.view⟩ <;> dsimp only
  · rw [Function.update_of_ne hb.ne_start.symm, h.head]
  · rw [Function.update_of_ne (hb.ne_slot (hl.lt_size hj)).symm, h.slots j c hj]
  · by_cases he : c = b
    · rw [he, Function.update_self, hv]
    · rw [Function.update_of_ne he]
      exact h.home c hc (by simp [he, hcb])
  · by_cases he : c = b
    · left
      rw [he, Function.update_self]
    · refine (clean_write hd h.clean c).imp_right fun hc => .inr ⟨?_, hc.2⟩
      exact (List.mem_cons.1 hc.1).resolve_left he

theorem unpin_mem_install : ∀ (bs : List ℕ) (i : ℕ), ∀ b ∈ bs,
    Instr.unpin b ∈ L.install false i bs
  | x :: bs, i, b, hb => by
    rcases List.mem_cons.1 hb with rfl | hb
    · simp [Layout.install]
    · have := unpin_mem_install bs (i + 1) b hb
      simp [Layout.install, this]

theorem load_notMem_install (recovering : Bool) : ∀ (bs : List ℕ) (i : ℕ),
    Instr.load ∉ L.install recovering i bs
  | [], _ => List.not_mem_nil
  | b :: bs, i => by
    have := load_notMem_install recovering bs (i + 1)
    cases recovering <;> simpa [Layout.install] using this

theorem load_notMem_recover (l : List ℕ) : Instr.load ∉ L.recover l := by
  simp [Layout.recover, Layout.erase, Layout.writeHead, load_notMem_install]

theorem load_notMem_writeLog : ∀ (bs : List ℕ) (i : ℕ), Instr.load ∉ L.writeLog i bs
  | [], _ => List.not_mem_nil
  | b :: bs, i => by
    have := load_notMem_writeLog bs (i + 1)
    simpa [Layout.writeLog] using this

theorem load_notMem_commit (l : List ℕ) : Instr.load ∉ L.commit l := by
  unfold Layout.commit
  split <;> simp [Layout.erase, Layout.writeHead, load_notMem_install, load_notMem_writeLog]

theorem safe_install (hl : L.Ok l) : ∀ (bs : List ℕ) (i : ℕ), l.drop i = bs →
    ∀ w : Work B, Installing L recovering v l bs w → w.dirty = none →
    Safe L recovering v (L.install recovering i bs ++ L.erase) w
  | [], _, _, w, h, hd => safe_erase hl h hd
  | b :: bs, i, hi, w, h, hd => by
    have hsub : b :: bs ⊆ l := hi ▸ List.drop_subset i l
    have hb : L.Home b := hl.home b (hsub List.mem_cons_self)
    have hib : l[i]? = some b := by
      rw [← List.head?_drop, hi, List.head?_cons]
    have hbs : l.drop (i + 1) = bs := by
      rw [← List.tail_drop, hi, List.tail_cons]
    -- The slot is on the disk as it is in memory: it is no block that is left.
    have hslot : w.store.view (L.slot i) = w.durable b := by
      rw [← h.slots i b hib]
      refine (h.clean (L.slot i)).resolve_right ?_
      rw [hd]
      rintro (hc | ⟨hc, -⟩)
      · cases hc
      · exact Layout.Home.ne_slot (hl.home _ (hsub hc)) (hl.lt_size hib) rfl
    have h1 := h.copyHome hd hslot
    have h2 := h1.putHome hl hb rfl (by simp [hslot])
    have hrest := safe_install hl bs (i + 1) hbs _ h2 (by simp)
    cases recovering with
    | true =>
      exact ⟨h.kept hl hsub (by simp), fun _ => rfl, h1.kept hl hsub (by simp),
        fun _ => commits_of_ne_start hb.ne_start, hrest⟩
    | false =>
      have hp : ∀ c ∈ b :: bs,
          Instr.unpin c ∈ Instr.unpin b :: (L.install false (i + 1) bs ++ L.erase) := by
        intro c hc
        rcases List.mem_cons.1 hc with rfl | hc
        · simp
        · simp [unpin_mem_install bs (i + 1) c hc]
      refine ⟨h.kept hl hsub fun _ c hc => ?_, by simp, h1.kept hl hsub fun _ c hc => ?_, by simp,
        h2.kept hl (fun c hc => hsub (List.mem_cons_of_mem _ hc)) fun _ c hc => ?_, by simp, hrest⟩
      · exact List.mem_cons_of_mem _ (List.mem_cons_of_mem _ (hp c hc))
      · exact List.mem_cons_of_mem _ (hp c hc)
      · exact hp c (List.mem_cons_of_mem _ hc)

theorem Logging.copyLog {i b : ℕ} {w : Work B} (h : Logging L v l i w) (hl : L.Ok l)
    (hib : l[i]? = some b) (hd : w.dirty = none) :
    Logging L v l i ((Instr.copy (L.slot i) b).run L w) := by
  rw [run_copy]
  have hne : ∀ c, L.Home c → Function.update w.store.view (L.slot i) (w.store.view b) c
      = w.store.view c := fun c hc => Function.update_of_ne (hc.ne_slot (hl.lt_size hib)) ..
  refine ⟨h.logged, h.head, h.old, fun j c hj hc => ?_, clean_change hd h.clean, fun c hc => ?_⟩
    <;> dsimp only
  · rw [hne c (hl.home c (List.mem_of_getElem? hc)), h.slots j c hj hc]
  · rw [hne c hc, h.view c hc]

theorem Logging.putLog {i b : ℕ} {w : Work B} (h : Logging L v l i w) (hl : L.Ok l)
    (hib : l[i]? = some b) (hd : w.dirty = some (L.slot i))
    (hv : w.store.view (L.slot i) = w.store.view b) :
    Logging L v l (i + 1) ((Instr.write (L.slot i)).run L w) := by
  rw [run_write, commits_of_ne_start (Layout.slot_ne_start i), hd, if_pos rfl, if_neg (by simp)]
  refine ⟨h.logged, ?_, fun c hc => ?_, fun j c hj hc => ?_, fun c => ?_, h.view⟩ <;> dsimp only
  · rw [Function.update_of_ne (Layout.slot_ne_start i).symm, h.head]
  · rw [Function.update_of_ne (hc.ne_slot (hl.lt_size hib)), h.old c hc]
  · rcases Nat.lt_succ_iff_lt_or_eq.1 hj with hj | rfl
    · rw [Function.update_of_ne (by rw [Ne, Layout.slot_inj]; omega), h.slots j c hj hc]
    · rw [Function.update_self, hv]
      rw [hib] at hc
      rw [Option.some.inj hc]
  · exact (clean_write hd h.clean c).imp_right .inr

theorem safe_writeLog (hl : L.Ok l) {rest : List Instr} (hp : ∀ b ∈ l, Instr.unpin b ∈ rest)
    (hrest : ∀ w : Work B, Logging L v l l.length w → w.dirty = none → Safe L false v rest w) :
    ∀ (bs : List ℕ) (i : ℕ), l.drop i = bs → ∀ w : Work B, Logging L v l i w → w.dirty = none →
    Safe L false v (L.writeLog i bs ++ rest) w
  | [], i, hi, w, h, hd => by
    refine hrest w ⟨h.logged, h.head, h.old, fun j b hj hb => h.slots j b ?_ hb, h.clean, h.view⟩ hd
    rw [List.drop_eq_nil_iff] at hi
    omega
  | b :: bs, i, hi, w, h, hd => by
    have hib : l[i]? = some b := by rw [← List.head?_drop, hi, List.head?_cons]
    have hbs : l.drop (i + 1) = bs := by rw [← List.tail_drop, hi, List.tail_cons]
    have hne : b ≠ L.slot i := (hl.home b (List.mem_of_getElem? hib)).ne_slot (hl.lt_size hib)
    have h1 := h.copyLog hl hib hd
    have h2 := h1.putLog hl hib rfl (by simp [Function.update_of_ne hne])
    have hmem : ∀ c ∈ l, ∀ p : List Instr, Instr.unpin c ∈ p ++ rest :=
      fun c hc p => List.mem_append_right p (hp c hc)
    exact ⟨h.kept fun c hc => hmem c hc (L.writeLog i (b :: bs)), by simp,
      h1.kept fun c hc => hmem c hc (.write (L.slot i) :: L.writeLog (i + 1) bs), by simp,
      safe_writeLog hl hp hrest bs (i + 1) hbs _ h2 (by simp)⟩

theorem Logging.setHead {w : Work B} (h : Logging L v l l.length w) (hl : L.Ok l)
    (hd : w.dirty = none) : Logging L v l l.length (Instr.head.run L w) := by
  rw [run_head]
  refine ⟨h.logged, h.head, h.old, fun j c hj hc => ?_, clean_change hd h.clean, fun c hc => ?_⟩
    <;> dsimp only
  · rw [Function.update_of_ne (hl.home c (List.mem_of_getElem? hc)).ne_start, h.slots j c hj hc]
  · rw [Function.update_of_ne hc.ne_start, h.view c hc]

/-- The header is written, and from here on the blocks are durable as they are in memory. -/
theorem Logging.putHead {w : Work B} (h : Logging L v l l.length w) (hne : l ≠ [])
    (hd : w.dirty = some L.start) (hr : L.read (w.store.view L.start) = l) :
    Installing L false v l l ((Instr.write L.start).run L w) := by
  have hc : (Instr.write L.start).commits L w.store = true := by
    simp [Instr.commits, hr, hne]
  rw [run_write, hc, hd, if_pos rfl, if_pos rfl]
  refine ⟨?_, fun j c hj => ?_, fun c hc hcl => ?_, fun c => ?_,
    fun _ c hc => ⟨h.view c hc, h.view c hc⟩⟩ <;> dsimp only
  · rwa [Function.update_self]
  · rw [Function.update_of_ne (Layout.slot_ne_start j),
      h.slots j c (List.getElem?_eq_some_iff.1 hj).1 hj]
  · have := (clean_write hd h.clean c).resolve_right hcl
    exact this.symm
  · exact (clean_write hd h.clean c).imp_right fun hcl => .inr ⟨hcl, rfl⟩

theorem safe_writeHead (hl : L.Ok l) (hne : l ≠ []) {w : Work B} (h : Logging L v l l.length w)
    (hd : w.dirty = none) :
    Safe L false v (L.writeHead ++ (L.install false 0 l ++ L.erase)) w := by
  have h1 := h.setHead hl hd
  have hr : L.read ((Instr.head.run L w).store.view L.start) = l := by
    rw [run_head]
    dsimp only
    rw [Function.update_self, h.logged, L.read_write l _ hl.length hl.home]
  have h2 := h1.putHead hne rfl hr
  have hp : ∀ b ∈ l, ∀ p : List Instr, Instr.unpin b ∈ p ++ (L.install false 0 l ++ L.erase) :=
    fun b hb p => List.mem_append_right p (List.mem_append_left _ (unpin_mem_install l 0 b hb))
  exact ⟨h.kept fun b hb => hp b hb L.writeHead, by simp,
    h1.kept fun b hb => hp b hb [.write L.start], by simp,
    safe_install hl l 0 rfl _ h2 (by simp)⟩

/-- A commit, from a log that is empty on the disk and blocks that differ from the disk only
where they are logged. -/
theorem safe_commit (hl : L.Ok l) {w : Work B} (h : Logging L v l 0 w) (hd : w.dirty = none) :
    Safe L false v (L.commit l) w := by
  unfold Layout.commit
  split
  case isTrue hnil =>
    subst hnil
    exact ⟨h.head, h.logged, hd, fun b => by simpa [hd] using h.clean b, h.old,
      fun _ => h.view⟩
  case isFalse hne =>
    refine safe_writeLog hl (fun b hb => ?_) (fun w h hd => safe_writeHead hl hne h hd) l 0 rfl w
      h hd
    exact List.mem_append_right _ (List.mem_append_left _ (unpin_mem_install l 0 b hb))

/-- A recovery, from what a crash leaves. -/
theorem safe_recover {disk d : ℕ → B} (hl : L.Ok (L.read (disk L.start)))
    (h : ∀ b, L.Home b → L.recovered disk b = d b) :
    Safe L true v (L.recover (L.read (disk L.start)))
      ⟨⟨disk, disk, L.read (disk L.start)⟩, none, d⟩ := by
  refine safe_install hl _ 0 rfl _
    ⟨rfl, fun j b hj => ?_, fun b hb hbl => ?_, fun b => .inl rfl, by simp⟩ rfl
  · change disk (L.slot j) = d b
    rw [← h b (hl.home b (List.mem_of_getElem? hj)), Layout.recovered_slot hl hj]
  · change disk b = d b
    rw [← h b hb, Layout.recovered_of_notMem hbl]

end Programs

end Journal

end CShellXv6
