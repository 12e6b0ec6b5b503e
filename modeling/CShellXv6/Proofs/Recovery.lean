import CShellXv6.Proofs.Log

/-!
# A crash loses no call that was committed, and keeps no part of one

The header block holds what is written to it (`readHeader_writeHeader`), so the log of the file
system is a log in the sense of `log_refines_store`. Every run of it, with crashes anywhere and any
number of them, is a run of an atomic store: `recovered` of the disk is what was in memory when a
header was last written, and no call was going on then.
-/

namespace CShellXv6

namespace Kernel

theorem get_zero_writeHeader {lh : List ℕ} {x : Block} (h : lh.length ≤ LOGBLOCKS) :
    Words.get (writeHeader lh x) 0 = lh.length := by
  have hl : lh.length ≤ 30 := h
  rw [writeHeader, Words.get_setAll_of_lt (by omega), Words.get_set_self (by decide) (by omega)]

theorem readHeader_writeHeader {lh : List ℕ} {x : Block} (h : lh.length ≤ LOGBLOCKS)
    (hb : ∀ b ∈ lh, b < 2 ^ 32) : readHeader (writeHeader lh x) = lh := by
  have hn := get_zero_writeHeader (x := x) h
  have hl : lh.length ≤ 30 := h
  have hB : BSIZE = 1024 := rfl
  rw [readHeader, hn, if_pos (by omega)]
  refine List.ext_getElem (by simp) fun i hi hi' => ?_
  rw [List.getElem_map, List.getElem_range, writeHeader, Words.get_setAll hi' (by omega) hb]

/-- The log of a file system whose superblock has `logstart` at `start`. -/
def logLayout (start : ℕ) : Journal.Layout Block where
  start
  size := LOGBLOCKS
  Home b := b < 2 ^ 32 ∧ (b < start ∨ start + LOGBLOCKS < b)
  read := readHeader
  write := writeHeader
  away _ h := h.2
  read_write _ _ h hb := readHeader_writeHeader h fun b hm => (hb b hm).1

instance (start : ℕ) : DecidablePred (logLayout start).Home := fun b =>
  inferInstanceAs (Decidable (b < 2 ^ 32 ∧ (b < start ∨ start + LOGBLOCKS < b)))

abbrev ROOTDEV : ℕ := 1

abbrev MAXOPBLOCKS : ℕ := 10

abbrev NBUF : ℕ := 30

/-- The file system's blocks, with a log at `start`. -/
def fileSystem (T : Type*) [DecidableEq T] (start : ℕ) :
    System (LogStep T Block) (Log NBUF T Block) :=
  logSystem (logLayout start) ROOTDEV MAXOPBLOCKS fun _ => 0

/-- The file system comes up in the process `t`. -/
def up {T : Type*} (start : ℕ) (t : T) (disk : ℕ → Block) : Log NBUF T Block :=
  .boot (logLayout start) (fun _ => 0) t disk

section

variable {T : Type*} [DecidableEq T]

instance (start : ℕ) (a : LogStep T Block) (s : Log NBUF T Block) :
    Decidable ((fileSystem T start).can a s) :=
  inferInstanceAs (Decidable (_ = true))

variable {start : ℕ} {t : T} {disk : ℕ → Block}

/-- What `recovered` makes of the disk, for the blocks outside of the log. -/
def onDisk (start : ℕ) (disk : ℕ → Block) (b : {b // (logLayout start).Home b}) : Block :=
  (logLayout start).recovered disk b

/-- What a run does to the blocks as an atomic store. -/
def effects (start : ℕ) (as : List (LogStep T Block)) (s : Log NBUF T Block) :
    List (Atomic.Step {b // (logLayout start).Home b} Block T) :=
  (fileSystem T start).trace (fun a s => a.effect ROOTDEV (logLayout start) s) as s

/-- Every run is one of an atomic store of the blocks: what a recovery would bring back is what is
durable there, and what a process reads is what is stored there. -/
theorem fileSystem_atomic (hdisk : (logLayout start).Ok (readHeader (disk start)))
    (as : List (LogStep T Block)) (hv : (fileSystem T start).Valid as (up start t disk)) :
    let s := (fileSystem T start).exec as (up start t disk)
    let d := onDisk start disk
    let a := Atomic.store.exec (effects start as (up start t disk)) ⟨d, d, []⟩
    Atomic.store.Valid (effects start as (up start t disk)) ⟨d, d, []⟩ ∧ a.ops = s.ops
      ∧ onDisk start s.disk = a.durable
      ∧ ∀ u i (b : {b // (logLayout start).Home b}), s.recovering = false →
        s.buffer u b.1 .ready = some i → (s.bcache.buf i).data = a.view b := by
  intro s d a
  have hok : (up start t disk).Ok (logLayout start) ROOTDEV := ok_boot (by decide) hdisk
  have hr : (fileSystem T start).Refines Atomic.store (Log.store (logLayout start) ROOTDEV)
      (fun a s => a.effect ROOTDEV (logLayout start) s) (Log.Ok (logLayout start) ROOTDEV) :=
    log_refines_store (by decide)
  have hs : s.Ok (logLayout start) ROOTDEV :=
    (fileSystem T start).invariant (fun a s h hc => hr.keeps a s h hc) hok as hv
  have h0 : Log.store (logLayout start) ROOTDEV (up start t disk) = ⟨d, d, []⟩ := by
    rw [Log.store, up, journal_boot (by decide)]
    rfl
  obtain ⟨hvalid, hexec⟩ := hr.run as _ hok hv
  rw [h0] at hvalid hexec
  have ha : a = Log.store (logLayout start) ROOTDEV s := hexec
  refine ⟨hvalid, by rw [ha]; rfl, by rw [ha]; rfl, fun u i b hrec hb => ?_⟩
  rw [Log.buffer_eq_some] at hb
  have hib := hs.held.bufs u b _ hb
  rw [ha, ← view_of_valid hs.held.unique hib.1 hib.2 (hs.held.valid u b i hb)]
  simp [Log.store, Journal.abs, Log.journal, hrec]

end

/-- The log is empty when the system comes up; a call changes block 40, and the system goes down
when the header of the commit has just been written. -/
def cutOff : List (LogStep Bool Block) :=
  List.replicate 14 .work ++ .done :: .beginOp false
    :: [.bget 40, .lock 40, .fetch 40].map (.read false)
    ++ .store false 40 (Function.update · 0 7) :: .logWrite false 40
    :: [.unlock 40, .unref 40].map (.read false)
    ++ .endOp false :: List.replicate 17 .work ++ [.crash true]

theorem fileSystem_atomic_cutOff :
    let s := (fileSystem Bool 2).exec cutOff (up 2 false fun _ _ => 0)
    s.disk 40 0 = 0 ∧ onDisk 2 s.disk ⟨40, by decide⟩ 0 = 7 ∧ onDisk 2 s.disk
      = (Atomic.store.exec (effects 2 cutOff (up 2 false fun _ _ => 0))
        ⟨onDisk 2 fun _ _ => 0, onDisk 2 fun _ _ => 0, []⟩).durable := by
  have hread : readHeader (fun _ => 0) = [] := by decide +kernel
  refine ⟨by decide +kernel, by decide +kernel, ?_⟩
  exact (fileSystem_atomic (by rw [hread]; exact Journal.Layout.ok_nil) cutOff
    (by decide +kernel)).2.2.1

end Kernel

end CShellXv6
