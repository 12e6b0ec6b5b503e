import CShellXv6.Proofs.Buffers

/-!
# What an operation on buffers does to the blocks

Seen as blocks on the disk and in memory, `bget`, the sleeping lock, `bread` and `brelse` do
nothing, and the other operations do what the journal's instructions do (`exec_effect`).
-/

namespace CShellXv6

namespace Kernel

open Journal (Layout)

variable {NBUF : ℕ} {T D : Type*} {L : Layout D} {dev : ℕ}

/-- The blocks read the same behind a change of anything but the contents of a buffer. -/
theorem view_set {s s' : Log NBUF T D} {i : Fin NBUF} {x : Buf T D}
    (hd : s'.disk = s.disk) (hc : s'.bcache.buf = (s.bcache.set i x).buf)
    (hdev : x.dev = (s.bcache.buf i).dev) (hno : x.blockno = (s.bcache.buf i).blockno)
    (hvalid : x.valid = (s.bcache.buf i).valid) (hdata : x.data = (s.bcache.buf i).data) :
    s'.view dev = s.view dev := by
  refine view_congr hd fun j => ?_
  rw [hc]
  by_cases hj : j = i
  · rw [hj, Bcache.set_self]
    exact ⟨hdev, hno, hvalid, hdata⟩
  · rw [Bcache.set_of_ne hj]
    exact ⟨rfl, rfl, rfl, rfl⟩

/-- The blocks on the disk and in memory. -/
def Log.blocks (dev : ℕ) (s : Log NBUF T D) : Journal.Store D :=
  ⟨s.disk, s.view dev, s.lh⟩

theorem blocks_eq {s : Log NBUF T D} {d v : ℕ → D} {l : List ℕ} (hd : s.disk = d)
    (hv : s.view dev = v) (hl : s.lh = l) : s.blocks dev = ⟨d, v, l⟩ := by
  rw [Log.blocks, hd, hv, hl]

/-- A buffer that is filled holds what is on the disk. -/
theorem view_fetch {s s' : Log NBUF T D} {i : Fin NBUF} (hu : s.bcache.Unique dev)
    (hdev : (s.bcache.buf i).dev = dev) (hv : (s.bcache.buf i).valid = false)
    (hd : s'.disk = s.disk)
    (hc : s'.bcache = s.bcache.set i
      { s.bcache.buf i with data := s.disk (s.bcache.buf i).blockno, valid := true }) :
    s'.view dev = s.view dev := by
  have hu' : s'.bcache.Unique dev := by
    rw [hc]
    exact hu.set rfl rfl
  funext a
  rcases view_spec dev s a with ⟨j, h1, h2, h3, h4⟩ | ⟨h1, h2⟩
  · have hji : j ≠ i := by
      rintro rfl
      rw [hv] at h3
      cases h3
    rw [h4, view_of_valid (i := j) hu'] <;> rw [hc, Bcache.set_of_ne hji] <;> assumption
  · rw [h2]
    by_cases ha : (s.bcache.buf i).blockno = a
    · rw [view_of_valid (i := i) hu'] <;> rw [hc, Bcache.set_self]
      exacts [congrArg s.disk ha, hdev, ha]
    · rw [view_of_not_valid, hd]
      intro j hj hj'
      rw [hc] at hj hj' ⊢
      by_cases hji : j = i
      · rw [hji, Bcache.set_self] at hj'
        exact absurd hj' ha
      · rw [Bcache.set_of_ne hji] at hj hj' ⊢
        have := h1 j
        simpa [hj, hj'] using this

variable [DecidableEq T]

/-- How far the process is with block `b`. -/
def Log.stage (s : Log NBUF T D) (t : T) (b : ℕ) : Option Stage :=
  (s.held.lookup (t, b)).map Handle.stage

/-- How far a process is with its blocks behind the operation. -/
def Op.moves (g : ℕ → Option Stage) : Op → ℕ → Option Stage
  | .bget b => Function.update g b (some .waiting)
  | .lock b => Function.update g b (some .locked)
  | .fetch b => Function.update g b (some .ready)
  | .unlock b => Function.update g b (some .released)
  | .unref b => Function.update g b none
  | .copy _ _ | .head | .bwrite _ | .bunpin _ | .load | .clear => g

/-- The operation unpins the block. -/
def Op.Unpins (op : Op) (pin pin' : ℕ → ℕ) : Prop :=
  match op with
  | .bunpin b => pin b = pin' b + 1 ∧ ∀ a, a ≠ b → pin' a = pin a
  | _ => pin' = pin

/-- What the operation of the process `t` does. -/
structure Op.Effect (L : Layout D) (dev : ℕ) (t : T) (op : Op) (pin' : ℕ → ℕ)
    (s s' : Log NBUF T D) : Prop where
  held : Held dev s'.bcache s'.held s'.changed pin'
  blocks : s'.blocks dev = op.instr.elim (s.blocks dev) fun i => i.next L (s.blocks dev)
  changed : s'.changed = op.instr.elim s.changed fun i =>
    Function.update s.changed t (i.dirty L (s.changed t))
  stage : s'.stage = Function.update s.stage t (op.moves (s.stage t))
  rest : s' = { s with
    disk := s'.disk, bcache := s'.bcache, held := s'.held, lh := s'.lh, changed := s'.changed }

namespace Op.Effect

variable {t : T} {op : Op} {pin' : ℕ → ℕ} {s s' : Log NBUF T D}

theorem work (h : op.Effect L dev t pin' s s') : s'.work = s.work := by
  rw [h.rest]

theorem ops (h : op.Effect L dev t pin' s s') : s'.ops = s.ops := by
  rw [h.rest]

theorem outstanding (h : op.Effect L dev t pin' s s') : s'.outstanding = s.outstanding := by
  rw [h.rest]

theorem committing (h : op.Effect L dev t pin' s s') : s'.committing = s.committing := by
  rw [h.rest]

theorem recovering (h : op.Effect L dev t pin' s s') : s'.recovering = s.recovering := by
  rw [h.rest]

end Op.Effect

theorem stage_moved {s : Log NBUF T D} {t : T} {b : ℕ} {i : Fin NBUF} {st : Stage}
    {s' : Log NBUF T D} (h : s'.held = s.held.insert (t, b) ⟨i, st⟩) :
    s'.stage = Function.update s.stage t (Function.update (s.stage t) b (some st)) := by
  funext u a
  unfold Log.stage
  rw [h, lookup_moved]
  by_cases hu : u = t
  · subst hu
    by_cases ha : a = b
    · simp [ha]
    · simp [ha]
  · simp [hu]

theorem stage_erased {s : Log NBUF T D} {t : T} {b : ℕ} {s' : Log NBUF T D}
    (h : s'.held = s.held.erase (t, b)) :
    s'.stage = Function.update s.stage t (Function.update (s.stage t) b none) := by
  funext u a
  unfold Log.stage
  rw [h, lookup_erased]
  by_cases hu : u = t
  · subst hu
    by_cases ha : a = b
    · simp [ha]
    · simp [ha]
  · simp [hu]

theorem stage_same {s : Log NBUF T D} {t : T} {s' : Log NBUF T D} (h : s'.held = s.held) :
    s'.stage = Function.update s.stage t (s.stage t) := by
  rw [Function.update_eq_self]
  unfold Log.stage
  rw [h]

section Effects

variable {s s' : Log NBUF T D} {t : T} {b : ℕ} {i : Fin NBUF} {pin pin' : ℕ → ℕ}

/-- A process that changes a buffer it has read changes the block. -/
theorem view_setData {data : D} (h : Held dev s.bcache s.held s.changed pin)
    (hb : s.held.lookup (t, b) = some ⟨i, .ready⟩) (hd : s'.disk = s.disk)
    (hc : s'.bcache = s.setData i data) :
    s'.view dev = Function.update (s.view dev) b data := by
  have hi := h.bufs t b _ hb
  have hv := h.valid t b i hb
  have hu : s'.bcache.Unique dev := by
    rw [hc]
    exact h.unique.set rfl rfl
  funext a
  by_cases ha : a = b
  · rw [ha, Function.update_self, view_of_valid (i := i) hu] <;>
      rw [hc, Log.setData, Bcache.set_self]
    exacts [hi.1, hi.2, hv]
  · rw [Function.update_of_ne ha]
    rcases view_spec dev s a with ⟨j, h1, h2, h3, h4⟩ | ⟨h1, h2⟩
    · have hj : j ≠ i := by
        rintro rfl
        exact ha (h2.symm.trans hi.2)
      rw [h4, view_of_valid (i := j) hu] <;> rw [hc, Log.setData, Bcache.set_of_ne hj] <;>
        assumption
    · rw [h2, ← hd]
      refine view_of_not_valid fun j hj hj' => ?_
      rw [hc, Log.setData] at hj hj' ⊢
      by_cases hji : j = i
      · rw [hji, Bcache.set_self] at hj'
        exact absurd (hj'.symm.trans hi.2) ha
      · rw [Bcache.set_of_ne hji] at hj hj' ⊢
        have := h1 j
        simpa [hj, hj'] using this

theorem exec_bget (he : (Op.bget b).exec L dev t s = some s') : (t, b) ∉ s.held ∧
    ∃ i c, s.bcache.bget dev b = some (i, c)
      ∧ s' = { s with bcache := c, held := s.moved t b i .waiting } := by
  simp only [Op.exec] at he
  split at he
  case isTrue => cases he
  case isFalse hb =>
    obtain ⟨⟨i, c⟩, hc, rfl⟩ := Option.map_eq_some_iff.1 he
    exact ⟨hb, i, c, hc, rfl⟩

/-- A buffer that is taken for another block holds what is on the disk. -/
theorem view_recycled {x : Buf T D}
    (h : Held dev s.bcache s.held s.changed pin)
    (hclean : ∀ b, s.view dev b = s.disk b ∨ 0 < pin b ∨ ∃ t, s.changed t = some b)
    (hr : (s.bcache.buf i).refcnt = 0)
    (hx : x.valid = false) (hd : s'.disk = s.disk)
    (hc : s'.bcache = s.bcache.set i x) (hu : s'.bcache.Unique dev) :
    s'.view dev = s.view dev := by
  obtain ⟨hfree, hpin⟩ := h.of_refcnt_eq_zero hr
  funext a
  rcases view_spec dev s a with ⟨j, h1, h2, h3, h4⟩ | ⟨h1, h2⟩
  · by_cases hji : j = i
    · subst hji
      have hdisk : s.view dev a = s.disk a := by
        rcases hclean a with hv | hp | ⟨u, hu'⟩
        · exact hv
        · rw [← h2, hpin h1] at hp
          cases hp
        · obtain ⟨k, hk⟩ := h.changed u a hu'
          obtain ⟨hk1, hk2⟩ := h.bufs u a _ hk
          cases h.unique k j hk1 h1 (hk2.trans h2.symm)
          exact absurd hk (hfree u a _)
      rw [hdisk, ← hd]
      refine view_of_not_valid fun k hk hk' => ?_
      rw [hc] at hk hk' ⊢
      by_cases hkj : k = j
      · rw [hkj, Bcache.set_self, hx]
      · rw [Bcache.set_of_ne hkj] at hk hk'
        exact absurd (h.unique k j hk h1 (hk'.trans h2.symm)) hkj
    · rw [h4, view_of_valid (i := j) hu] <;> rw [hc, Bcache.set_of_ne hji] <;> assumption
  · rw [h2, ← hd]
    refine view_of_not_valid fun j hj hj' => ?_
    rw [hc] at hj hj' ⊢
    by_cases hji : j = i
    · rw [hji, Bcache.set_self, hx]
    · rw [Bcache.set_of_ne hji] at hj hj' ⊢
      have := h1 j
      simpa [hj, hj'] using this

theorem effect_bget (h : Held dev s.bcache s.held s.changed pin)
    (hclean : ∀ b, s.view dev b = s.disk b ∨ 0 < pin b ∨ ∃ t, s.changed t = some b)
    (he : (Op.bget b).exec L dev t s = some s') : (Op.bget b).Effect L dev t pin s s' := by
  obtain ⟨hb, i, c, hc, rfl⟩ := exec_bget he
  obtain ⟨l, hl⟩ := h.listed
  rcases Bcache.bget_cases hl hc with ⟨hd, hn, rfl⟩ | ⟨hm, hr, rfl⟩
  · refine ⟨h.got hb ⟨hd, hn⟩, ?_, rfl, stage_moved rfl, rfl⟩
    exact congrArg (Journal.Store.mk _ · _) (view_set rfl rfl rfl rfl rfl rfl)
  · have h' := (h.recycled hr hm).got (i := i) hb (by simp)
    rw [Bcache.set_self, Bcache.set_set] at h'
    refine ⟨h', ?_, rfl, stage_moved rfl, rfl⟩
    exact congrArg (Journal.Store.mk _ · _)
      (view_recycled h hclean hr rfl rfl rfl h'.unique)

theorem effect_lock (h : Held dev s.bcache s.held s.changed pin)
    (he : (Op.lock b).exec L dev t s = some s') : (Op.lock b).Effect L dev t pin s s' := by
  obtain ⟨i, hi, he⟩ := Option.bind_eq_some_iff.1 he
  rw [Log.buffer_eq_some] at hi
  split at he
  case isFalse => cases he
  case isTrue hl =>
    cases he
    refine ⟨h.move hi rfl rfl (by simp) (fun u => ?_) rfl (fun _ _ => rfl) .inl (fun u a hu => ?_),
      ?_, rfl, stage_moved rfl, rfl⟩
    · simp [hl, Stage.Holds, eq_comm]
    · refine .inr ⟨hu, ?_⟩
      rintro ⟨rfl, rfl⟩
      obtain ⟨j, hj⟩ := h.changed u a hu
      rw [hi] at hj
      cases hj
    · exact congrArg (Journal.Store.mk _ · _) (view_set rfl rfl rfl rfl rfl rfl)

theorem effect_fetch (h : Held dev s.bcache s.held s.changed pin)
    (he : (Op.fetch b).exec L dev t s = some s') : (Op.fetch b).Effect L dev t pin s s' := by
  obtain ⟨i, hi, rfl⟩ := Option.map_eq_some_iff.1 he
  rw [Log.buffer_eq_some] at hi
  have hib := h.bufs t b _ hi
  have hl := h.lock_eq hi (.inl rfl)
  have hlock : ∀ u, (s.bcache.buf i).lock = some u ↔
      (u = t ∧ Stage.ready.Holds) ∨ (u ≠ t ∧ (s.bcache.buf i).lock = some u) := by
    intro u
    rw [hl, Option.some.injEq, eq_comm]
    simp [Stage.Holds]
  have hchanged : ∀ u a, s.changed u = some a →
      (u = t ∧ a = b ∧ Stage.ready = .ready) ∨ (s.changed u = some a ∧ ¬ (u = t ∧ a = b)) := by
    intro u a hu
    by_cases he : u = t ∧ a = b
    · exact .inl ⟨he.1, he.2, rfl⟩
    · exact .inr ⟨hu, he⟩
  split
  case isTrue hv =>
    have h' := h.move (x := s.bcache.buf i) hi rfl rfl (fun _ => hv) hlock rfl (fun _ _ => rfl) .inl
      hchanged
    rw [Bcache.set_same] at h'
    exact ⟨h', rfl, rfl, stage_moved rfl, rfl⟩
  case isFalse hv =>
    refine ⟨h.move hi rfl rfl (fun _ => rfl) hlock rfl (fun _ _ => rfl) .inl hchanged,
      blocks_eq rfl ?_ rfl, rfl, stage_moved rfl, rfl⟩
    exact view_fetch h.unique hib.1 (by simpa using hv) (by rfl) (by rfl)

theorem changed_update (changed : T → Option ℕ) (u : T) (a : ℕ)
    (hu : Function.update changed t (some b) u = some a) :
    (u = t ∧ a = b) ∨ changed u = some a := by
  by_cases hut : u = t
  · subst hut
    rw [Function.update_self] at hu
    exact .inl ⟨rfl, (Option.some.inj hu).symm⟩
  · rw [Function.update_of_ne hut] at hu
    exact .inr hu

theorem effect_copy {dst src : ℕ} (h : Held dev s.bcache s.held s.changed pin)
    (he : (Op.copy dst src).exec L dev t s = some s') :
    (Op.copy dst src).Effect L dev t pin s s' := by
  obtain ⟨i, hi, he⟩ := Option.bind_eq_some_iff.1 he
  obtain ⟨j, hj, rfl⟩ := Option.map_eq_some_iff.1 he
  rw [Log.buffer_eq_some] at hi hj
  refine ⟨h.alter hi rfl rfl rfl rfl rfl (fun _ _ => rfl) (changed_update _), ?_, rfl,
    stage_same rfl, rfl⟩
  have hjb := h.bufs t src _ hj
  have hv : s.view dev src = (s.bcache.buf j).data :=
    view_of_valid h.unique hjb.1 hjb.2 (h.valid t src j hj)
  refine blocks_eq rfl ((view_setData h hi (by rfl) (by rfl)).trans ?_) rfl
  rw [← hv]
  rfl

theorem effect_head (h : Held dev s.bcache s.held s.changed pin)
    (he : Op.head.exec L dev t s = some s') : Op.head.Effect L dev t pin s s' := by
  obtain ⟨i, hi, rfl⟩ := Option.map_eq_some_iff.1 he
  rw [Log.buffer_eq_some] at hi
  refine ⟨h.alter hi rfl rfl rfl rfl rfl (fun _ _ => rfl) (changed_update _), ?_, rfl,
    stage_same rfl, rfl⟩
  have hib := h.bufs t _ _ hi
  have hv : s.view dev L.start = (s.bcache.buf i).data :=
    view_of_valid h.unique hib.1 hib.2 (h.valid t _ i hi)
  refine blocks_eq rfl ((view_setData h hi (by rfl) (by rfl)).trans ?_) rfl
  rw [← hv]
  rfl

/-- `bwrite` leaves the block in memory as it is. -/
theorem view_bwrite (h : Held dev s.bcache s.held s.changed pin)
    (hb : s.held.lookup (t, b) = some ⟨i, .ready⟩) (hc : s'.bcache = s.bcache)
    (hd : s'.disk = Function.update s.disk b (s.bcache.buf i).data) :
    s'.view dev = s.view dev := by
  have hi := h.bufs t b _ hb
  have hv := h.valid t b i hb
  funext a
  rcases view_spec dev s a with ⟨j, h1, h2, h3, h4⟩ | ⟨h1, h2⟩
  · rw [h4, view_of_valid (i := j) (hc ▸ h.unique)] <;> rw [hc] <;> assumption
  · have hab : a ≠ b := by
      rintro rfl
      exact h1 i ⟨hi.1, hi.2, hv⟩
    rw [h2, view_of_not_valid, hd, Function.update_of_ne hab]
    intro j hj hj'
    rw [hc] at hj hj' ⊢
    have := h1 j
    simpa [hj, hj'] using this

theorem effect_bwrite (h : Held dev s.bcache s.held s.changed pin)
    (he : (Op.bwrite b).exec L dev t s = some s') : (Op.bwrite b).Effect L dev t pin s s' := by
  obtain ⟨i, hi, he⟩ := Option.bind_eq_some_iff.1 he
  rw [Log.buffer_eq_some] at hi
  split at he
  case isFalse => cases he
  case isTrue =>
    cases he
    have hib := h.bufs t b _ hi
    have hv : s.view dev b = (s.bcache.buf i).data :=
      view_of_valid h.unique hib.1 hib.2 (h.valid t b i hi)
    refine ⟨h.changed_mono fun u a hu => ?_, ?_, rfl, stage_same rfl, rfl⟩
    · by_cases hut : u = t
      · subst hut
        simp only [Function.update_self] at hu
        split at hu
        · cases hu
        · exact hu
      · simpa [hut] using hu
    · have hd : Function.update s.disk (s.bcache.buf i).blockno (s.bcache.buf i).data
          = Function.update s.disk b (s.view dev b) := by
        rw [hib.2, hv]
      exact blocks_eq hd (view_bwrite h hi rfl (by rw [hib.2])) rfl

theorem effect_bunpin (h : Held dev s.bcache s.held s.changed pin)
    (hpin : pin b = pin' b + 1 ∧ ∀ a, a ≠ b → pin' a = pin a)
    (he : (Op.bunpin b).exec L dev t s = some s') : (Op.bunpin b).Effect L dev t pin' s s' := by
  obtain ⟨i, hi, rfl⟩ := Option.map_eq_some_iff.1 he
  rw [Log.buffer_eq_some] at hi
  have hib := h.bufs t b _ hi
  have hr := h.refcnt i
  simp only [hib.1, hib.2, if_true] at hr
  refine ⟨h.alter hi rfl rfl rfl rfl ?_ hpin.2 (fun u a hu => .inr hu), ?_, ?_, stage_same rfl, rfl⟩
  · dsimp only
    omega
  · exact congrArg (Journal.Store.mk _ · _) (view_set rfl rfl rfl rfl rfl rfl)
  · exact (Function.update_eq_self ..).symm

theorem effect_unlock (h : Held dev s.bcache s.held s.changed pin) (hb : s.changed t ≠ some b)
    (he : (Op.unlock b).exec L dev t s = some s') : (Op.unlock b).Effect L dev t pin s s' := by
  obtain ⟨i, hi, he⟩ := Option.bind_eq_some_iff.1 he
  rw [Log.buffer_eq_some] at hi
  split at he
  case isFalse => cases he
  case isTrue hl =>
    cases he
    refine ⟨h.move hi rfl rfl (by simp) (fun u => ?_) rfl (fun _ _ => rfl) .inl (fun u a hu => ?_),
      ?_, rfl, stage_moved rfl, rfl⟩
    · simp only [hl, Stage.Holds, reduceCtorEq, or_self, and_false, false_or, Option.some.injEq,
        false_iff, not_and]
      exact fun hut htu => hut htu.symm
    · refine .inr ⟨hu, ?_⟩
      rintro ⟨rfl, rfl⟩
      exact hb hu
    · exact congrArg (Journal.Store.mk _ · _) (view_set rfl rfl rfl rfl rfl rfl)

theorem effect_unref (h : Held dev s.bcache s.held s.changed pin)
    (he : (Op.unref b).exec L dev t s = some s') : (Op.unref b).Effect L dev t pin s s' := by
  obtain ⟨i, hi, rfl⟩ := Option.map_eq_some_iff.1 he
  rw [Log.buffer_eq_some] at hi
  obtain ⟨l, hl⟩ := h.listed
  refine ⟨(h.dropped hi).of_buf_eq (Bcache.unref_buf i) ⟨_, hl.unref i⟩, ?_, rfl,
    stage_erased rfl, rfl⟩
  exact congrArg (Journal.Store.mk _ · _)
    (view_set rfl (Bcache.unref_buf i) rfl rfl rfl rfl)

theorem effect_load (h : Held dev s.bcache s.held s.changed pin)
    (he : Op.load.exec L dev t s = some s') : Op.load.Effect L dev t pin s s' := by
  obtain ⟨i, hi, rfl⟩ := Option.map_eq_some_iff.1 he
  rw [Log.buffer_eq_some] at hi
  have hib := h.bufs t _ _ hi
  have hv : s.view dev L.start = (s.bcache.buf i).data :=
    view_of_valid h.unique hib.1 hib.2 (h.valid t _ i hi)
  refine ⟨h, ?_, (Function.update_eq_self ..).symm, stage_same rfl, rfl⟩
  exact congrArg (Journal.Store.mk _ _) (by rw [← hv]; rfl)

theorem effect_clear (h : Held dev s.bcache s.held s.changed pin)
    (he : Op.clear.exec L dev t s = some s') : Op.clear.Effect L dev t pin s s' := by
  cases he
  exact ⟨h, rfl, (Function.update_eq_self ..).symm, stage_same rfl, rfl⟩

theorem exec_effect {op : Op} (h : Held dev s.bcache s.held s.changed pin)
    (hclean : ∀ b, s.view dev b = s.disk b ∨ 0 < pin b ∨ ∃ t, s.changed t = some b)
    (hpin : op.Unpins pin pin') (hun : ∀ b, op = .unlock b → s.changed t ≠ some b)
    (he : op.exec L dev t s = some s') : op.Effect L dev t pin' s s' := by
  cases op with
  | bunpin b => exact effect_bunpin h hpin he
  | bget b =>
    cases hpin
    exact effect_bget h hclean he
  | lock b =>
    cases hpin
    exact effect_lock h he
  | fetch b =>
    cases hpin
    exact effect_fetch h he
  | copy dst src =>
    cases hpin
    exact effect_copy h he
  | head =>
    cases hpin
    exact effect_head h he
  | bwrite b =>
    cases hpin
    exact effect_bwrite h he
  | unlock b =>
    cases hpin
    exact effect_unlock h (hun b rfl) he
  | unref b =>
    cases hpin
    exact effect_unref h he
  | load =>
    cases hpin
    exact effect_load h he
  | clear =>
    cases hpin
    exact effect_clear h he

end Effects

end Kernel

end CShellXv6
