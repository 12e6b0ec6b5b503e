import CShellXv6.Proofs.Commit

/-!
# The log makes file system calls atomic

Seen as blocks, `commit` and `recover_from_log` are the journal's programs, and the buffers keep
what the journal needs of them; so the log is a journal (`log_refines`), and with it an atomic store
(`log_refines_store`).
-/

namespace CShellXv6

namespace Kernel

open Journal (Layout)

variable {NBUF : ℕ} {T D : Type*} {L : Layout D} {dev : ℕ}

/-- How often the log has pinned the block. -/
def Log.pins (s : Log NBUF T D) (b : ℕ) : ℕ :=
  match s.work with
  | none => s.lh.count b
  | some (_, p) => p.count (.bunpin b)

theorem pinned_iff (dev : ℕ) (s : Log NBUF T D) (b : ℕ) :
    Journal.Pinned (s.journal dev) b ↔ 0 < s.pins b := by
  unfold Journal.Pinned Log.pins Log.journal
  rcases s.work with _ | ⟨t, p⟩
  · simp [List.count_pos_iff]
  · simp only [Option.map_some, List.mem_filterMap, List.count_pos_iff]
    refine ⟨?_, fun h => ⟨_, h, rfl⟩⟩
    rintro ⟨op, hop, hi⟩
    cases op <;> simp only [Op.instr, reduceCtorEq, Option.some.injEq, Journal.Instr.unpin.injEq]
      at hi
    exact hi ▸ hop

theorem load_iff {op : Op} {i : Journal.Instr} (h : op.instr = some i) :
    i = .load ↔ op = .load := by
  cases op <;> simp only [Op.instr, reduceCtorEq, Option.some.injEq] at h <;> subst h <;> simp

theorem pins_congr {s s' : Log NBUF T D} (hw : s'.work = s.work) (hl : s'.lh = s.lh) :
    s'.pins = s.pins := by
  unfold Log.pins
  rw [hw, hl]

theorem journal_eq {s : Log NBUF T D} {j : Journal.State D T} (hb : s.blocks dev = j.store)
    (ho : s.ops = j.ops) (hc : s.changed = j.dirty)
    (hw : (s.work.map fun w => (w.1, w.2.filterMap Op.instr)) = j.work)
    (hr : s.recovering = j.recovering) : s.journal dev = j := by
  obtain ⟨store, ops, dirty, work, recovering⟩ := j
  have hb' : (⟨s.disk, s.view dev, s.lh⟩ : Journal.Store D) = store := hb
  unfold Log.journal
  rw [hb', ho, hc, hw, hr]

/-- What `log_write` does with a buffer. -/
theorem logWrite_cases {s s' : Log NBUF T D} {i : Fin NBUF} (h : s.logWrite L i = some s') :
    s.lh.length < L.size ∧ (((s.bcache.buf i).blockno ∈ s.lh ∧ s' = s)
      ∨ ((s.bcache.buf i).blockno ∉ s.lh ∧ s' = { s with
        lh := s.lh ++ [(s.bcache.buf i).blockno]
        bcache := s.bcache.bpin i })) := by
  unfold Log.logWrite at h
  split at h
  case isTrue => cases h
  case isFalse hlen =>
    split at h
    case isTrue => cases h
    case isFalse =>
      refine ⟨by omega, ?_⟩
      split at h
      case isTrue hm => exact .inl ⟨hm, (Option.some.inj h).symm⟩
      case isFalse hm => exact .inr ⟨hm, (Option.some.inj h).symm⟩

theorem endOp_cases {s s' : Log NBUF T D} {t : T} (h : s.endOp L t = some s') :
    s.committing = false ∧ ((s.outstanding - 1 = 0 ∧ s' = { s with
      outstanding := s.outstanding - 1
      committing := true
      work := some (t, commit L s.lh) })
    ∨ (s.outstanding - 1 ≠ 0 ∧ s' = { s with outstanding := s.outstanding - 1 })) := by
  unfold Log.endOp at h
  split at h
  case isTrue => cases h
  case isFalse hc =>
    refine ⟨by simpa using hc, ?_⟩
    split at h
    case isTrue ho => exact .inl ⟨ho, (Option.some.inj h).symm⟩
    case isFalse ho => exact .inr ⟨ho, (Option.some.inj h).symm⟩

theorem view_boot {zero : D} {t : T} (hdev : dev ≠ 0) (disk : ℕ → D) :
    (Log.boot L zero t disk : Log NBUF T D).view dev = disk := by
  funext b
  exact view_of_not_valid fun i hi _ => absurd hi.symm hdev

theorem journal_boot {zero : D} {t : T} (hdev : dev ≠ 0) (disk : ℕ → D) :
    (Log.boot L zero t disk : Log NBUF T D).journal dev
      = ⟨⟨disk, disk, []⟩, [], fun _ => none, some (t, [.load]), true⟩ :=
  journal_eq (blocks_eq rfl (view_boot hdev disk) rfl) rfl rfl rfl rfl

variable [DecidableEq T] {s s' : Log NBUF T D} {t : T} {b : ℕ}

structure Log.Ok (L : Layout D) (dev : ℕ) (s : Log NBUF T D) : Prop where
  held : Held dev s.bcache s.held s.changed s.pins
  fits : ∀ t p, s.work = some (t, p) → Fits L p (s.stage t) (s.changed t)
  outstanding : s.outstanding = s.ops.length
  committing : s.committing = (s.work.isSome && !s.recovering)
  journal : ∃ d, Journal.Inv L (s.journal dev) d

theorem Log.Ok.clean (h : s.Ok L dev) (b : ℕ) :
    s.view dev b = s.disk b ∨ 0 < s.pins b ∨ ∃ t, s.changed t = some b := by
  obtain ⟨d, hd⟩ := h.journal
  rw [← pinned_iff dev]
  exact hd.clean b

/-- Between `begin_op` and `end_op` nothing is committed. -/
theorem Log.Ok.work_eq_none (h : s.Ok L dev) (ht : t ∈ s.ops) : s.work = none := by
  obtain ⟨d, hd⟩ := h.journal
  have := hd.work_eq_none (t := t) ht
  simpa [Log.journal] using this

theorem fits_of_work_eq_none (hw : s.work = none) (t : T) (p : List Op)
    (h : s.work = some (t, p)) : Fits L p (s.stage t) (s.changed t) := by
  rw [hw] at h
  cases h

/-- Behind `load` there is nothing left of `read_head`, and the header can be installed. -/
theorem Log.Ok.load {p : List Op} (h : s.Ok L dev) (hw : s.work = some (t, .load :: p)) :
    L.Ok (L.read (s.view dev L.start)) ∧ ∀ b, s.pins b = 0 := by
  obtain ⟨d, hd⟩ := h.journal
  have hjw : (s.journal dev).work = some (t, .load :: p.filterMap Op.instr) := by
    simp [Log.journal, hw, Op.instr]
  rcases (hd.busy t _ hjw).safe with ⟨hp, -, hc⟩ | ⟨hp, -⟩
  · have hview : s.view dev = s.disk := hc.view
    refine ⟨hview ▸ hc.ok, fun b => ?_⟩
    have := (pinned_iff dev s b).not
    rw [Nat.pos_iff_ne_zero, not_not] at this
    refine this.1 ?_
    unfold Journal.Pinned
    rw [hjw, hp]
    simp
  · exact absurd List.mem_cons_self hp

/-- What is left to unpin behind an operation of `commit` or `recover_from_log`. -/
theorem Log.Ok.unpins {op : Op} {p : List Op} (h : s.Ok L dev)
    (hw : s.work = some (t, op :: p)) (l : List ℕ) :
    op.Unpins s.pins fun b => (if op = .load then restore L l else p).count (.bunpin b) := by
  have hpins : s.pins = fun b => (op :: p).count (.bunpin b) := by
    unfold Log.pins
    rw [hw]
  by_cases hop : op = .load
  · subst hop
    refine funext fun b => ?_
    rw [(h.load hw).2 b, if_pos rfl, count_restore]
  · rw [hpins, if_neg hop]
    cases op with
    | bunpin b =>
      refine ⟨List.count_cons_self, fun a ha => (List.count_cons_of_ne ?_).symm⟩
      simpa using Ne.symm ha
    | load => exact absurd rfl hop
    | bget | lock | fetch | copy | head | bwrite | unlock | unref | clear =>
      exact funext fun a => (List.count_cons_of_ne (by simp)).symm

/-- The steps of the journal that a step of the log is. -/
structure Follows (L : Layout D) (a : LogStep T D) (dev : ℕ) (s s' : Log NBUF T D) : Prop where
  valid : (Journal.journal L).Valid (a.out s) (s.journal dev)
  exec : (Journal.journal L).exec (a.out s) (s.journal dev) = s'.journal dev

theorem Follows.journal {a : LogStep T D} (h : Follows L a dev s s')
    (hs : ∃ d, Journal.Inv L (s.journal dev) d) : ∃ d, Journal.Inv L (s'.journal dev) d := by
  rw [← h.exec]
  refine (Journal.journal L).invariant (I := fun u => ∃ d, Journal.Inv L u d)
    (fun b u hu hc => ?_) hs _ h.valid
  obtain ⟨d, hd⟩ := hu
  exact ⟨_, Journal.inv_step b hd hc⟩

theorem held_boot {zero : D} (hdev : dev ≠ 0) (disk : ℕ → D) :
    Held dev (Log.boot L zero t disk : Log NBUF T D).bcache ∅ (fun _ => none)
      (Log.boot L zero t disk : Log NBUF T D).pins := by
  have hpins : ∀ b, (Log.boot L zero t disk : Log NBUF T D).pins b = 0 := count_readHead
  constructor
  case listed => exact ⟨_, Bcache.listed_binit zero⟩
  case unique => exact fun i j hi => absurd hi.symm hdev
  case bufs => simp
  case refcnt =>
    intro i
    rw [hpins, ite_self]
    rfl
  case lock =>
    intro i u
    simp [Log.boot, Bcache.binit]
  case valid => simp
  case changed => simp
  case pinned =>
    intro b hb
    rw [hpins b] at hb
    cases hb

/-- The system may be started with any disk whose log can be recovered. -/
theorem ok_boot {zero : D} (hdev : dev ≠ 0) {disk : ℕ → D} (hdisk : L.Ok (L.read (disk L.start))) :
    (Log.boot L zero t disk : Log NBUF T D).Ok L dev where
  held := held_boot hdev disk
  fits u p hu := by
    cases hu
    exact fits_readHead
  outstanding := rfl
  committing := rfl
  journal := by
    rw [journal_boot hdev]
    exact ⟨L.recovered disk, .of_busy (t := t) rfl
      ⟨rfl, fun _ _ => rfl, .inl ⟨rfl, rfl, hdisk, fun _ _ => rfl, rfl, rfl⟩⟩⟩

variable [DecidablePred L.Home] {m : ℕ} {zero : D}

/-- A step keeps what the log needs, and is what it is in the journal. -/
def Keeps (L : Layout D) [DecidablePred L.Home] (dev m : ℕ) (zero : D) (a : LogStep T D)
    (s : Log NBUF T D) : Prop :=
  ∀ s', s.Ok L dev → a.exec L dev m zero s = some s' → s'.Ok L dev ∧ Follows L a dev s s'

theorem keeps_read (op : Op) : Keeps L dev m zero (.read t op) s := by
  intro s' h he
  simp only [LogStep.exec] at he
  split at he
  case isFalse => cases he
  case isTrue hc =>
    obtain ⟨hfree, hread, hun⟩ := hc
    have hpin : op.Unpins s.pins s.pins := by
      cases op <;> first | rfl | simp [Op.reads] at hread
    have hi : op.instr = none := by
      cases op <;> first | rfl | simp [Op.reads] at hread
    have heff := exec_effect h.held h.clean hpin (fun b hb hcb => hun b hcb hb) he
    have hblocks : s'.blocks dev = s.blocks dev := by
      rw [heff.blocks, hi, Option.elim_none]
    have hchanged : s'.changed = s.changed := by
      rw [heff.changed, hi, Option.elim_none]
    have hj : s'.journal dev = s.journal dev :=
      journal_eq hblocks heff.ops hchanged (by rw [heff.work]; rfl) heff.recovering
    have hlh : s'.lh = s.lh := congrArg Journal.Store.logged hblocks
    refine ⟨⟨?_, fun u p hu => ?_, ?_, ?_, hj ▸ h.journal⟩, trivial, hj.symm⟩
    · rw [pins_congr heff.work hlh]
      exact heff.held
    · rw [heff.work] at hu
      have hut : u ≠ t := by
        rintro rfl
        exact hfree.2 (by rw [hu]; rfl)
      rw [heff.stage, Function.update_of_ne hut, hchanged]
      exact h.fits u p hu
    · rw [heff.outstanding, heff.ops, h.outstanding]
    · rw [heff.committing, heff.work, heff.recovering, h.committing]

theorem keeps_store (f : D → D) : Keeps L dev m zero (.store t b f) s := by
  intro s' h he
  simp only [LogStep.exec] at he
  split at he
  case isFalse => cases he
  case isTrue hc =>
    obtain ⟨-, ht, hch, hb⟩ := hc
    obtain ⟨i, hi, hs'⟩ := Option.map_eq_some_iff.1 he
    rw [Log.buffer_eq_some] at hi
    have hw := h.work_eq_none ht
    have hib := h.held.bufs t b _ hi
    have hv : s.view dev b = (s.bcache.buf i).data :=
      view_of_valid h.held.unique hib.1 hib.2 (h.held.valid t b i hi)
    have hview : s'.view dev = Function.update (s.view dev) b (f (s.view dev b)) := by
      rw [hv]
      exact view_setData h.held hi (by rw [← hs']) (by rw [← hs'])
    have hf : Follows L (.store t b f) dev s s' := by
      refine ⟨⟨⟨ht, hch, hb⟩, trivial⟩, ?_⟩
      simp only [LogStep.out, System.exec_cons, System.exec_nil, Journal.journal,
        Journal.Step.next, Log.journal, hview]
      rw [← hs']
    refine ⟨⟨?_, fits_of_work_eq_none (by rw [← hs', hw]), ?_, ?_, hf.journal h.journal⟩, hf⟩
      <;> rw [← hs']
    · exact h.held.alter hi rfl rfl rfl rfl rfl (fun _ _ => rfl) (changed_update _)
    · exact h.outstanding
    · exact h.committing

theorem keeps_logWrite : Keeps L dev m zero (.logWrite t b) s := by
  intro s' h he
  simp only [LogStep.exec] at he
  split at he
  case isFalse => cases he
  case isTrue hc =>
    obtain ⟨-, ht, hch, hb⟩ := hc
    obtain ⟨i, hi, he⟩ := Option.bind_eq_some_iff.1 he
    obtain ⟨s1, hs1, hs'⟩ := Option.map_eq_some_iff.1 he
    rw [Log.buffer_eq_some] at hi
    have hw := h.work_eq_none ht
    have hib := h.held.bufs t b _ hi
    have hchanged : ∀ u a, Function.update s.changed t none u = some a → s.changed u = some a := by
      intro u a hu
      by_cases hut : u = t
      · simp [hut] at hu
      · simpa [hut] using hu
    obtain ⟨hlen, ⟨hm, rfl⟩ | ⟨hm, rfl⟩⟩ := logWrite_cases hs1 <;> rw [hib.2] at hm
    · have hf : Follows L (.logWrite t b) dev s1 s' := by
        refine ⟨⟨⟨ht, hch, hb, .inl hm⟩, trivial⟩, ?_⟩
        rw [← hs']
        simp only [LogStep.out, System.exec_cons, System.exec_nil, Journal.journal,
          Journal.Step.next, Log.journal, if_pos hm]
        rfl
      refine ⟨⟨?_, fits_of_work_eq_none (by rw [← hs', hw]), ?_, ?_, hf.journal h.journal⟩, hf⟩
        <;> rw [← hs']
      · exact h.held.changed_mono hchanged
      · exact h.outstanding
      · exact h.committing
    · rw [hib.2] at hs'
      have hview : s'.view dev = s.view dev := by
        rw [← hs']
        exact view_set rfl rfl rfl rfl rfl rfl
      have hf : Follows L (.logWrite t b) dev s s' := by
        refine ⟨⟨⟨ht, hch, hb, .inr hlen⟩, trivial⟩, ?_⟩
        simp only [LogStep.out, System.exec_cons, System.exec_nil, Journal.journal,
          Journal.Step.next, Log.journal, if_neg hm, hview]
        rw [← hs']
      have hpins : ∀ a, s'.pins a = s.lh.count a + [b].count a := by
        intro a
        rw [← hs']
        simp only [Log.pins, hw, List.count_append]
      have hpin : ∀ a, s.pins a = s.lh.count a := by
        intro a
        simp only [Log.pins, hw]
      have hheld :
          Held dev (s.bcache.bpin i) s.held (Function.update s.changed t none) s'.pins := by
        refine h.held.alter hi rfl rfl rfl rfl ?_ (fun a ha => ?_)
          fun u a hu => .inr (hchanged u a hu)
        · rw [hpins, hpin, List.count_singleton_self]
          dsimp only
          omega
        · have hz : [b].count a = 0 := List.count_eq_zero_of_not_mem (by simpa using ha)
          rw [hpins, hpin, hz, Nat.add_zero]
      refine ⟨⟨?_, fits_of_work_eq_none (by rw [← hs', hw]), ?_, ?_, hf.journal h.journal⟩, hf⟩
      · rw [← hs'] at hheld ⊢
        exact hheld
      · rw [← hs']
        exact h.outstanding
      · rw [← hs']
        exact h.committing

theorem keeps_endOp : Keeps L dev m zero (.endOp t) s := by
  intro s' h he
  simp only [LogStep.exec] at he
  split at he
  case isFalse => cases he
  case isTrue hc =>
    obtain ⟨hfree, ht, hch, hheld⟩ := hc
    obtain ⟨s1, hs1, hs'⟩ := Option.map_eq_some_iff.1 he
    have hw := h.work_eq_none ht
    have hlen : (s.ops.erase t).length = s.outstanding - 1 := by
      rw [List.length_erase_of_mem ht, h.outstanding]
    have hnil : s.outstanding - 1 = 0 ↔ s.ops.erase t = [] := by
      rw [← hlen, List.length_eq_zero_iff]
    obtain ⟨d, hd⟩ := h.journal
    have hok : L.Ok s.lh := (hd.idle (by simp [Log.journal, hw])).ok
    obtain ⟨-, ⟨ho, rfl⟩ | ⟨ho, rfl⟩⟩ := endOp_cases hs1
    · have hf : Follows L (.endOp t) dev s s' := by
        refine ⟨⟨⟨ht, hch⟩, trivial⟩, ?_⟩
        rw [← hs']
        simp only [LogStep.out, System.exec_cons, System.exec_nil, Journal.journal,
          Journal.Step.next, Log.journal, if_pos (hnil.1 ho), Option.map_some, instr_commit]
        rfl
      have hstage : s.stage t = fun _ => none := by
        funext a
        unfold Log.stage
        rw [Option.map_eq_none_iff, AList.lookup_eq_none]
        exact fun hm => hheld (t, a) hm rfl
      refine ⟨⟨?_, fun u p hu => ?_, ?_, ?_, hf.journal h.journal⟩, hf⟩
      · have hpins : s'.pins = s.pins := by
          funext a
          rw [← hs']
          simp only [Log.pins, hw, count_commit]
        rw [hpins, ← hs']
        exact h.held
      · rw [← hs'] at hu ⊢
        cases hu
        change Fits L (commit L s.lh) (s.stage t) (s.changed t)
        rw [hstage, hch]
        exact fits_commit hok
      · rw [← hs']
        exact hlen.symm
      · rw [← hs']
        simp [hfree.1]
    · have hf : Follows L (.endOp t) dev s s' := by
        refine ⟨⟨⟨ht, hch⟩, trivial⟩, ?_⟩
        rw [← hs']
        simp only [LogStep.out, System.exec_cons, System.exec_nil, Journal.journal,
          Journal.Step.next, Log.journal, if_neg (fun hn => ho (hnil.2 hn)), hw, Option.map_none]
        rfl
      refine ⟨⟨?_, fits_of_work_eq_none (by rw [← hs', hw]), ?_, ?_, hf.journal h.journal⟩, hf⟩
        <;> rw [← hs']
      · exact h.held
      · exact hlen.symm
      · exact h.committing

theorem keeps_done : Keeps L dev m zero (.done : LogStep T D) s := by
  intro s' h he
  simp only [LogStep.exec] at he
  split at he
  case h_2 => cases he
  case h_1 t hw =>
    obtain ⟨d, hd⟩ := h.journal
    have hjw : (s.journal dev).work = some (t, []) := by simp [Log.journal, hw]
    have hlh : s.lh = [] := (Journal.settled_of_done (hd.busy t _ hjw)).logged
    have hs' := Option.some.inj he
    have hf : Follows L (.done : LogStep T D) dev s s' := by
      refine ⟨⟨⟨t, hjw⟩, trivial⟩, ?_⟩
      rw [← hs']
      rfl
    refine ⟨⟨?_, fits_of_work_eq_none (by rw [← hs']), ?_, ?_, hf.journal h.journal⟩, hf⟩
    · have hpins : s'.pins = s.pins := by
        funext a
        rw [← hs']
        simp [Log.pins, hw, hlh]
      rw [hpins, ← hs']
      exact h.held
    · rw [← hs']
      exact h.outstanding
    · rw [← hs']
      simp

theorem keeps_beginOp : Keeps L dev m zero (.beginOp t) s := by
  intro s' h he
  simp only [LogStep.exec] at he
  split at he
  case isFalse => cases he
  case isTrue hc =>
    obtain ⟨hfree, ht⟩ := hc
    obtain ⟨s1, hs1, rfl⟩ := Option.map_eq_some_iff.1 he
    unfold Log.beginOp at hs1
    split at hs1
    case isTrue => cases hs1
    case isFalse hcom =>
      split at hs1
      case isTrue => cases hs1
      case isFalse =>
        cases hs1
        have hw : s.work = none := by
          have := h.committing
          rw [Bool.not_eq_true] at hcom
          rw [hcom, hfree.1] at this
          simpa using this.symm
        have hf : Follows L (.beginOp t) dev s
            { s with outstanding := s.outstanding + 1, ops := t :: s.ops } :=
          ⟨⟨⟨by simp [Log.journal, hw], ht⟩, trivial⟩, rfl⟩
        exact ⟨⟨h.held, h.fits, by simp [h.outstanding], h.committing, hf.journal h.journal⟩, hf⟩

theorem keeps_work : Keeps L dev m zero (.work : LogStep T D) s := by
  intro s' h he
  simp only [LogStep.exec] at he
  split at he
  case h_2 => cases he
  case h_1 t op p hw =>
    obtain ⟨s1, hs1, hs'⟩ := Option.map_eq_some_iff.1 he
    have hfit := h.fits t _ hw
    have heff := exec_effect h.held h.clean (h.unpins hw s1.lh) (fun b hb => by
      subst hb
      exact hfit.1.2) hs1
    have hlh : op = .load → s1.lh = L.read (s.view dev L.start) := by
      rintro rfl
      exact congrArg Journal.Store.logged heff.blocks
    have hjw : (s.journal dev).work = some (t, (op :: p).filterMap Op.instr) := by
      simp only [Log.journal, hw, Option.map_some]
    have hf : Follows L (.work : LogStep T D) dev s s' := by
      rcases hi : op.instr with _ | i
      · have hop : op ≠ .load := by
          rintro rfl
          cases hi
        have hblocks := heff.blocks
        have hchanged := heff.changed
        rw [hi, Option.elim_none] at hblocks hchanged
        rw [List.filterMap_cons_none hi] at hjw
        have hout : (.work : LogStep T D).out s = [] := by
          simp only [LogStep.out, hw, hi, Option.isSome_none, Bool.false_eq_true, if_false]
        rw [if_neg hop] at hs'
        refine ⟨by rw [hout]; trivial, ?_⟩
        rw [hout, System.exec_nil, ← hs']
        refine (journal_eq hblocks heff.ops hchanged ?_ heff.recovering).symm
        exact hjw.symm
      · have hblocks := heff.blocks
        have hchanged := heff.changed
        rw [hi, Option.elim_some] at hblocks hchanged
        rw [List.filterMap_cons_some hi] at hjw
        have hout : (.work : LogStep T D).out s = [.work] := by
          simp only [LogStep.out, hw, hi, Option.isSome_some, if_true]
        refine ⟨by rw [hout]; exact ⟨⟨t, i, _, hjw⟩, trivial⟩, ?_⟩
        rw [hout, System.exec_cons, System.exec_nil]
        change (Journal.Step.work : Journal.Step D T).next L (s.journal dev) = _
        rw [Journal.next_work hjw, ← hs']
        refine (journal_eq hblocks heff.ops hchanged ?_ heff.recovering).symm
        dsimp only [Option.map_some]
        by_cases hop : op = .load
        · rw [if_pos hop, if_pos ((load_iff hi).2 hop), instr_restore, hlh hop]
          rfl
        · rw [if_neg hop, if_neg fun hc => hop ((load_iff hi).1 hc)]
    refine ⟨⟨?_, fun u q hu => ?_, ?_, ?_, hf.journal h.journal⟩, hf⟩
    · rw [← hs']
      exact heff.held
    · rw [← hs'] at hu ⊢
      cases hu
      change Fits L _ (s1.stage t) (s1.changed t)
      have hchanged :
          s1.changed t = op.instr.elim (s.changed t) fun i => i.dirty L (s.changed t) := by
        rw [heff.changed]
        cases op.instr <;> simp
      rw [heff.stage, hchanged, Function.update_self]
      by_cases hop : op = .load
      · subst hop
        have hg := hfit.2
        rw [if_pos rfl] at hg
        rw [if_pos rfl, hlh rfl]
        simp only [Op.moves, Op.instr, Option.elim_some, Journal.Instr.dirty]
        rw [hg.1, hg.2]
        exact fits_restore (h.load hw).1
      · rw [if_neg hop]
        have := hfit.2
        rwa [if_neg hop] at this
    · rw [← hs']
      change s1.outstanding = s1.ops.length
      rw [heff.outstanding, heff.ops, h.outstanding]
    · rw [← hs']
      change s1.committing = (true && !s1.recovering)
      rw [heff.committing, heff.recovering, h.committing, hw]
      rfl

theorem keeps_crash (hdev : dev ≠ 0) : Keeps L dev m zero (.crash t) s := by
  intro s' h he
  cases he
  obtain ⟨d, hd⟩ := h.journal
  refine ⟨ok_boot hdev hd.recovered.1, ⟨trivial, trivial⟩, ?_⟩
  rw [journal_boot hdev]
  rfl

theorem keeps (hdev : dev ≠ 0) (a : LogStep T D) : Keeps L dev m zero a s := by
  cases a with
  | read t op => exact keeps_read op
  | store t b f => exact keeps_store f
  | logWrite t b => exact keeps_logWrite
  | beginOp t => exact keeps_beginOp
  | endOp t => exact keeps_endOp
  | work => exact keeps_work
  | done => exact keeps_done
  | crash t => exact keeps_crash hdev

theorem log_refines (hdev : dev ≠ 0) :
    (logSystem L dev m zero : System (LogStep T D) (Log NBUF T D)).Refines (Journal.journal L)
      (Log.journal dev) (fun a s => a.out s) (Log.Ok L dev) := by
  have hstep : ∀ (a : LogStep T D) (s : Log NBUF T D), s.Ok L dev →
      (logSystem L dev m zero).can a s →
      ((logSystem L dev m zero).next a s).Ok L dev
        ∧ Follows L a dev s ((logSystem L dev m zero).next a s) := by
    intro a s h hc
    obtain ⟨s', hs'⟩ := Option.isSome_iff_exists.1 hc
    have hnext : (logSystem L dev m zero).next a s = s' := by
      simp only [logSystem, hs', Option.getD_some]
    rw [hnext]
    exact keeps hdev a s' h hs'
  exact ⟨fun a s h hc => (hstep a s h hc).1, fun a s h hc => (hstep a s h hc).2.valid,
    fun a s h hc => (hstep a s h hc).2.exec⟩

theorem effect_eq (a : LogStep T D) (s : Log NBUF T D) :
    (Journal.journal L).trace (Journal.out L) (a.out s) (s.journal dev) = a.effect dev L s := by
  cases a with
  | work =>
    rcases hw : s.work with _ | ⟨t, _ | ⟨op, p⟩⟩
    · simp [LogStep.out, LogStep.effect, hw, System.trace]
    · simp [LogStep.out, LogStep.effect, hw, System.trace]
    · cases op with
      | bwrite b =>
        by_cases hb : b = L.start <;>
          simp [LogStep.out, LogStep.effect, hw, System.trace, Journal.out, Journal.Step.commits,
            Log.journal, Op.instr, Journal.Instr.commits, hb]
      | bget | lock | fetch | copy | head | bunpin | unlock | unref | load | clear =>
        simp [LogStep.out, LogStep.effect, hw, System.trace, Journal.out, Journal.Step.commits,
          Log.journal, Op.instr, Journal.Instr.commits]
  | read | store | logWrite | beginOp | endOp | done | crash =>
    simp [LogStep.out, LogStep.effect, System.trace, Journal.out]

/-- The blocks as an atomic store. -/
def Log.store (L : Layout D) (dev : ℕ) (s : Log NBUF T D) : Atomic.State {b // L.Home b} D T :=
  Journal.abs L (s.journal dev)

theorem log_refines_store (hdev : dev ≠ 0) :
    (logSystem L dev m zero : System (LogStep T D) (Log NBUF T D)).Refines Atomic.store
      (Log.store L dev) (fun a s => a.effect dev L s) (Log.Ok L dev) := by
  have h : (logSystem L dev m zero : System (LogStep T D) (Log NBUF T D)).Refines
      (Journal.journal L) (Log.journal dev) (fun a s => a.out s) (Log.Ok L dev) := log_refines hdev
  have h' := h.trans Journal.journal_refines fun s hs => hs.journal
  simp only [effect_eq] at h'
  exact h'

end Kernel

end CShellXv6
