import CShellXv6.Kernel.Log
import CShellXv6.Lib.Holders
import CShellXv6.Proofs.Bio

/-!
# Who holds the buffers

A buffer counts the processes that have got it and the log, if its block is pinned; its sleeping
lock is held by the one process that is between `bread` and `brelse` with it. So a buffer that is
taken for another block holds nothing that is not on the disk, and the blocks read the same behind
(`view_bget`).
-/

namespace CShellXv6

namespace Kernel

variable {NBUF : ℕ} {T D : Type*} {dev : ℕ}

section View

variable {s s' : Log NBUF T D} {b : ℕ} {i : Fin NBUF}

/-- Where a block is read from. -/
theorem view_spec (dev : ℕ) (s : Log NBUF T D) (b : ℕ) :
    (∃ i, (s.bcache.buf i).dev = dev ∧ (s.bcache.buf i).blockno = b
      ∧ (s.bcache.buf i).valid = true ∧ s.view dev b = (s.bcache.buf i).data)
    ∨ ((∀ i, ¬ ((s.bcache.buf i).dev = dev ∧ (s.bcache.buf i).blockno = b
      ∧ (s.bcache.buf i).valid = true)) ∧ s.view dev b = s.disk b) := by
  unfold Log.view
  rcases hc : s.cached dev b with _ | i
  · right
    refine ⟨fun i => ?_, rfl⟩
    have := List.find?_eq_none.1 hc i (List.mem_finRange i)
    simpa using this
  · left
    have := List.find?_some hc
    rw [decide_eq_true_eq] at this
    exact ⟨i, this.1, this.2.1, this.2.2, rfl⟩

theorem view_of_valid (hu : s.bcache.Unique dev) (hd : (s.bcache.buf i).dev = dev)
    (hn : (s.bcache.buf i).blockno = b) (hv : (s.bcache.buf i).valid = true) :
    s.view dev b = (s.bcache.buf i).data := by
  rcases view_spec dev s b with ⟨j, h1, h2, -, h4⟩ | ⟨h, -⟩
  · rw [h4, hu i j hd h1 (hn.trans h2.symm)]
  · exact absurd ⟨hd, hn, hv⟩ (h i)

theorem view_of_not_valid (h : ∀ i, (s.bcache.buf i).dev = dev → (s.bcache.buf i).blockno = b →
    (s.bcache.buf i).valid = false) : s.view dev b = s.disk b := by
  rcases view_spec dev s b with ⟨j, h1, h2, h3, -⟩ | ⟨-, h⟩
  · rw [h j h1 h2] at h3
    cases h3
  · exact h

/-- The blocks read the same if the buffers have the same contents. -/
theorem view_congr (hd : s'.disk = s.disk)
    (hb : ∀ i, (s'.bcache.buf i).dev = (s.bcache.buf i).dev
      ∧ (s'.bcache.buf i).blockno = (s.bcache.buf i).blockno
      ∧ (s'.bcache.buf i).valid = (s.bcache.buf i).valid
      ∧ (s'.bcache.buf i).data = (s.bcache.buf i).data) : s'.view dev = s.view dev := by
  funext b
  have hc : s'.cached dev b = s.cached dev b := by
    unfold Log.cached
    congr 1
    funext i
    rw [(hb i).1, (hb i).2.1, (hb i).2.2.1]
  unfold Log.view
  rw [hc, hd]
  rcases s.cached dev b with _ | i
  · rfl
  · exact (hb i).2.2.2

end View

variable [DecidableEq T]

/-- A process that is so far holds the sleeping lock. -/
def Stage.Holds (stage : Stage) : Prop :=
  stage = .locked ∨ stage = .ready

/-- The buffers, the processes that hold them, and how often each block is pinned. -/
structure Held (dev : ℕ) (c : Bcache NBUF T D) (held : AList fun _ : T × ℕ => Handle NBUF)
    (changed : T → Option ℕ) (pin : ℕ → ℕ) : Prop where
  listed : ∃ l, c.Listed l
  unique : c.Unique dev
  bufs : ∀ t b h, held.lookup (t, b) = some h →
    (c.buf h.buf).dev = dev ∧ (c.buf h.buf).blockno = b
  refcnt : ∀ i, (c.buf i).refcnt = Holders.count (·.buf = i) held
    + if (c.buf i).dev = dev then pin (c.buf i).blockno else 0
  lock : ∀ i t, (c.buf i).lock = some t ↔
    ∃ b stage, held.lookup (t, b) = some ⟨i, stage⟩ ∧ stage.Holds
  valid : ∀ t b i, held.lookup (t, b) = some ⟨i, .ready⟩ → (c.buf i).valid = true
  changed : ∀ t b, changed t = some b → ∃ i, held.lookup (t, b) = some ⟨i, .ready⟩
  pinned : ∀ b, 0 < pin b →
    ∃ i, (c.buf i).dev = dev ∧ (c.buf i).blockno = b ∧ (c.buf i).valid = true

section Handles

variable {held : AList fun _ : T × ℕ => Handle NBUF}

theorem lookup_moved {t u : T} {b a : ℕ} {h : Handle NBUF} :
    (held.insert (t, b) h).lookup (u, a)
      = if u = t ∧ a = b then some h else held.lookup (u, a) := by
  split
  case isTrue he =>
    rw [he.1, he.2, AList.lookup_insert]
  case isFalse he =>
    rw [AList.lookup_insert_ne]
    rintro hc
    exact he ⟨congrArg Prod.fst hc, congrArg Prod.snd hc⟩

theorem lookup_erased {t u : T} {b a : ℕ} :
    (held.erase (t, b)).lookup (u, a) = if u = t ∧ a = b then none else held.lookup (u, a) := by
  split
  case isTrue he =>
    rw [he.1, he.2, AList.lookup_erase]
  case isFalse he =>
    rw [AList.lookup_erase_ne]
    rintro hc
    exact he ⟨congrArg Prod.fst hc, congrArg Prod.snd hc⟩

theorem Log.buffer_eq_some {s : Log NBUF T D} {t : T} {b : ℕ} {stage : Stage} {i : Fin NBUF} :
    s.buffer t b stage = some i ↔ s.held.lookup (t, b) = some ⟨i, stage⟩ := by
  unfold Log.buffer
  rcases s.held.lookup (t, b) with _ | ⟨j, st⟩
  · simp
  · by_cases h : st = stage <;> simp [h]

end Handles

namespace Held

variable {c : Bcache NBUF T D} {held : AList fun _ : T × ℕ => Handle NBUF}
  {changed : T → Option ℕ} {pin pin' : ℕ → ℕ} {t : T} {b : ℕ} {i : Fin NBUF} {x : Buf T D}
  {stage stage' : Stage}

/-- The buffer of a block that a process has got is that of no other block. -/
theorem block_eq (h : Held dev c held changed pin) {u : T} {a : ℕ}
    (hb : held.lookup (t, b) = some ⟨i, stage⟩) (ha : held.lookup (u, a) = some ⟨i, stage'⟩) :
    a = b :=
  (h.bufs u a _ ha).2.symm.trans (h.bufs t b _ hb).2

theorem lock_eq (h : Held dev c held changed pin) (hb : held.lookup (t, b) = some ⟨i, stage⟩)
    (hs : stage.Holds) : (c.buf i).lock = some t :=
  (h.lock i t).2 ⟨b, stage, hb, hs⟩

/-- A buffer changes, but not the block it is for, and with it how far a process is with it. -/
theorem set {held' : AList fun _ : T × ℕ => Handle NBUF} {changed' : T → Option ℕ}
    (h : Held dev c held changed pin) (old new : Option Stage)
    (hb : held.lookup (t, b) = old.map (Handle.mk i))
    (hi : (c.buf i).dev = dev ∧ (c.buf i).blockno = b)
    (hb' : ∀ u a, held'.lookup (u, a)
      = if u = t ∧ a = b then new.map (Handle.mk i) else held.lookup (u, a))
    (hdev : x.dev = (c.buf i).dev) (hno : x.blockno = (c.buf i).blockno)
    (hvalid : (c.buf i).valid = true ∨ new = some .ready → x.valid = true)
    (hlock : ∀ u, x.lock = some u ↔
      (u = t ∧ ∃ stage ∈ new, stage.Holds) ∨ (u ≠ t ∧ (c.buf i).lock = some u))
    (hcount : ∀ j, j ≠ i → Holders.count (·.buf = j) held' = Holders.count (·.buf = j) held)
    (hrefcnt : x.refcnt + (Holders.count (·.buf = i) held + pin b)
      = (c.buf i).refcnt + (Holders.count (·.buf = i) held' + pin' b))
    (hpin : ∀ a, a ≠ b → pin' a = pin a) (hpinned : 0 < pin' b → 0 < pin b ∨ x.valid = true)
    (hchanged : ∀ u a, changed' u = some a →
      (u = t ∧ a = b ∧ new = some .ready) ∨ (changed u = some a ∧ ¬ (u = t ∧ a = b))) :
    Held dev (c.set i x) held' changed' pin' := by
  have hd := Bcache.set_dev hdev
  have hn := Bcache.set_blockno hno
  have hv : ∀ j, (c.buf j).valid = true → ((c.set i x).buf j).valid = true := fun j hj => by
    by_cases hji : j = i
    · rw [hji, Bcache.set_self]
      exact hvalid (.inl (hji ▸ hj))
    · rwa [Bcache.set_of_ne hji]
  constructor
  case listed => exact h.listed
  case unique => exact h.unique.set hdev hno
  case bufs =>
    intro u a g hg
    rw [hd, hn]
    rw [hb'] at hg
    split at hg
    case isTrue he =>
      obtain ⟨st, -, rfl⟩ := Option.map_eq_some_iff.1 hg
      exact ⟨hi.1, he.2 ▸ hi.2⟩
    case isFalse => exact h.bufs u a g hg
  case refcnt =>
    intro j
    rw [hd, hn]
    have hj := h.refcnt j
    by_cases hji : j = i
    · subst hji
      rw [Bcache.set_self]
      simp only [hi.1, hi.2, if_true] at hj ⊢
      omega
    · rw [Bcache.set_of_ne hji, hj, hcount j hji]
      by_cases hjd : (c.buf j).dev = dev
      · rw [if_pos hjd, if_pos hjd, hpin]
        exact fun hc => hji (h.unique j i hjd hi.1 (hc.trans hi.2.symm))
      · rw [if_neg hjd, if_neg hjd]
  case lock =>
    intro j u
    by_cases hji : j = i
    · subst hji
      rw [Bcache.set_self, hlock]
      constructor
      · rintro (⟨rfl, st, hst, hs⟩ | ⟨hu, hl⟩)
        · exact ⟨b, st, by rw [hb', if_pos ⟨rfl, rfl⟩, hst]; rfl, hs⟩
        · obtain ⟨a, st, ha, hs⟩ := (h.lock j u).1 hl
          exact ⟨a, st, by rwa [hb', if_neg (fun he => hu he.1)], hs⟩
      · rintro ⟨a, st, ha, hs⟩
        rw [hb'] at ha
        split at ha
        case isTrue he =>
          obtain ⟨st', hst, he'⟩ := Option.map_eq_some_iff.1 ha
          cases he'
          exact .inl ⟨he.1, st, hst, hs⟩
        case isFalse he =>
          refine .inr ⟨fun hu => he ⟨hu, ?_⟩, (h.lock j u).2 ⟨a, st, ha, hs⟩⟩
          exact (h.bufs u a _ ha).2.symm.trans hi.2
    · rw [Bcache.set_of_ne hji, h.lock]
      refine exists_congr fun a => exists_congr fun st => and_congr_left fun _ => ?_
      rw [hb']
      split
      case isTrue he =>
        rw [he.1, he.2, hb]
        have hne : ∀ o : Option Stage, o.map (Handle.mk i) ≠ some ⟨j, st⟩ := fun o ho => by
          obtain ⟨_, -, he⟩ := Option.map_eq_some_iff.1 ho
          exact hji (congrArg Handle.buf he).symm
        exact iff_of_false (hne old) (hne new)
      case isFalse => rfl
  case valid =>
    intro u a j hj
    rw [hb'] at hj
    split at hj
    case isTrue =>
      obtain ⟨st, hst, he⟩ := Option.map_eq_some_iff.1 hj
      cases he
      rw [Bcache.set_self]
      exact hvalid (.inr hst)
    case isFalse => exact hv j (h.valid u a j hj)
  case changed =>
    intro u a hu
    rw [hb']
    rcases hchanged u a hu with ⟨rfl, rfl, rfl⟩ | ⟨hu, hne⟩
    · exact ⟨i, by rw [if_pos ⟨rfl, rfl⟩]; rfl⟩
    · rw [if_neg hne]
      exact h.changed u a hu
  case pinned =>
    intro a ha
    have hold : 0 < pin a → ∃ j, ((c.set i x).buf j).dev = dev
        ∧ ((c.set i x).buf j).blockno = a ∧ ((c.set i x).buf j).valid = true := fun ha => by
      obtain ⟨j, h1, h2, h3⟩ := h.pinned a ha
      exact ⟨j, by rw [hd, h1], by rw [hn, h2], hv j h3⟩
    by_cases hab : a = b
    · subst hab
      rcases hpinned ha with hp | hx
      · exact hold hp
      · exact ⟨i, by rw [hd, hi.1], by rw [hn, hi.2], by rwa [Bcache.set_self]⟩
    · exact hold (hpin a hab ▸ ha)

/-- A process goes on with a buffer it has got. -/
theorem move {changed' : T → Option ℕ} (h : Held dev c held changed pin)
    (hb : held.lookup (t, b) = some ⟨i, stage⟩) (hdev : x.dev = (c.buf i).dev)
    (hno : x.blockno = (c.buf i).blockno)
    (hvalid : (c.buf i).valid = true ∨ stage' = .ready → x.valid = true)
    (hlock : ∀ u, x.lock = some u ↔ (u = t ∧ stage'.Holds) ∨ (u ≠ t ∧ (c.buf i).lock = some u))
    (hrefcnt : x.refcnt + pin b = (c.buf i).refcnt + pin' b) (hpin : ∀ a, a ≠ b → pin' a = pin a)
    (hpinned : 0 < pin' b → 0 < pin b ∨ x.valid = true)
    (hchanged : ∀ u a, changed' u = some a →
      (u = t ∧ a = b ∧ stage' = .ready) ∨ (changed u = some a ∧ ¬ (u = t ∧ a = b))) :
    Held dev (c.set i x) (held.insert (t, b) ⟨i, stage'⟩) changed' pin' := by
  have hcount : ∀ j, Holders.count (·.buf = j) (held.insert (t, b) ⟨i, stage'⟩)
      = Holders.count (·.buf = j) held := fun j => Holders.count_insert hb rfl
  refine h.set (some stage) (some stage') hb (h.bufs t b _ hb)
    (fun u a => lookup_moved) hdev hno (fun hv => hvalid (by simpa using hv)) (fun u => ?_)
    (fun j _ => hcount j) ?_ hpin hpinned (fun u a hu => by simpa using hchanged u a hu)
  · rw [hlock u]
    simp
  · rw [hcount]
    omega

/-- A process gets a buffer that its block has. -/
theorem got (h : Held dev c held changed pin) (hb : (t, b) ∉ held)
    (hi : (c.buf i).dev = dev ∧ (c.buf i).blockno = b) :
    Held dev (c.set i { c.buf i with refcnt := (c.buf i).refcnt + 1 })
      (held.insert (t, b) ⟨i, .waiting⟩) changed pin := by
  have hnone : held.lookup (t, b) = none := AList.lookup_eq_none.2 hb
  refine h.set none (some .waiting) hnone hi (fun u a => lookup_moved) rfl rfl
    (by simp) (fun u => ?_) (fun j hj => ?_) ?_ (fun _ _ => rfl) .inl (fun u a hu => ?_)
  · refine ⟨fun hu => .inr ⟨?_, hu⟩, ?_⟩
    · rintro rfl
      obtain ⟨a, st, ha, -⟩ := (h.lock i u).1 hu
      obtain rfl : b = a := hi.2.symm.trans (h.bufs u a _ ha).2
      rw [hnone] at ha
      cases ha
    · rintro (⟨-, st, hst, hs⟩ | ⟨-, hu⟩)
      · cases hst
        rcases hs with hs | hs <;> cases hs
      · exact hu
  · rw [Holders.count_insert_new hb, if_neg (by simpa using Ne.symm hj), Nat.add_zero]
  · rw [Holders.count_insert_new hb, if_pos (by simp)]
    dsimp only
    omega
  · refine .inr ⟨hu, ?_⟩
    rintro ⟨rfl, rfl⟩
    obtain ⟨j, hj⟩ := h.changed u a hu
    rw [hnone] at hj
    cases hj

/-- A process is done with a buffer. -/
theorem dropped (h : Held dev c held changed pin) (hb : held.lookup (t, b) = some ⟨i, .released⟩) :
    Held dev (c.set i { c.buf i with refcnt := (c.buf i).refcnt - 1 }) (held.erase (t, b)) changed
      pin := by
  have hcount := fun j : Fin NBUF => Holders.count_erase (P := (·.buf = j)) hb
  have hpos := h.refcnt i
  refine h.set (some .released) none hb (h.bufs t b _ hb)
    (fun u a => lookup_erased) rfl rfl (by simp) (fun u => ?_) (fun j hj => ?_) ?_ (fun _ _ => rfl)
    .inl (fun u a hu => ?_)
  · refine ⟨fun hu => .inr ⟨?_, hu⟩, by simp⟩
    rintro rfl
    obtain ⟨a, st, ha, hs⟩ := (h.lock i u).1 hu
    obtain rfl := h.block_eq hb ha
    rw [hb] at ha
    cases ha
    rcases hs with hs | hs <;> cases hs
  · rw [hcount j, if_neg (by simpa using Ne.symm hj), Nat.add_zero]
  · have := hcount i
    rw [if_pos (by simp)] at this
    dsimp only
    omega
  · refine .inr ⟨hu, ?_⟩
    rintro ⟨rfl, rfl⟩
    obtain ⟨j, hj⟩ := h.changed u a hu
    rw [hb] at hj
    cases hj

/-- A process changes a buffer that it has read. -/
theorem alter {changed' : T → Option ℕ} (h : Held dev c held changed pin)
    (hb : held.lookup (t, b) = some ⟨i, .ready⟩) (hdev : x.dev = (c.buf i).dev)
    (hno : x.blockno = (c.buf i).blockno) (hvalid : x.valid = (c.buf i).valid)
    (hlock : x.lock = (c.buf i).lock)
    (hrefcnt : x.refcnt + pin b = (c.buf i).refcnt + pin' b) (hpin : ∀ a, a ≠ b → pin' a = pin a)
    (hchanged : ∀ u a, changed' u = some a → (u = t ∧ a = b) ∨ changed u = some a) :
    Held dev (c.set i x) held changed' pin' := by
  have hv : x.valid = true := hvalid.trans (h.valid t b i hb)
  have hl : (c.buf i).lock = some t := h.lock_eq hb (.inr rfl)
  refine h.set (some .ready) (some .ready) hb (h.bufs t b _ hb) (fun u a => ?_)
    hdev hno (fun _ => hv) (fun u => ?_) (fun _ _ => rfl) ?_ hpin (fun _ => .inr hv)
    (fun u a hu => ?_)
  · split
    case isTrue he =>
      rw [he.1, he.2, hb]
      rfl
    case isFalse => rfl
  · rw [hlock, hl, Option.some.injEq, eq_comm]
    simp [Stage.Holds]
  · omega
  · by_cases he : u = t ∧ a = b
    · exact .inl ⟨he.1, he.2, rfl⟩
    · exact .inr ⟨(hchanged u a hu).resolve_left he, he⟩

/-- What is not in use is neither held nor pinned. -/
theorem of_refcnt_eq_zero (h : Held dev c held changed pin) (hr : (c.buf i).refcnt = 0) :
    (∀ t b stage, held.lookup (t, b) ≠ some ⟨i, stage⟩)
      ∧ ((c.buf i).dev = dev → pin (c.buf i).blockno = 0) := by
  have hi := h.refcnt i
  rw [hr] at hi
  refine ⟨fun t b stage hb => ?_, fun hd => ?_⟩
  · have := Holders.count_pos (P := (·.buf = i)) hb (by simp)
    omega
  · rw [if_pos hd] at hi
    omega

/-- A buffer that is not in use is taken for a block that has none. -/
theorem recycled (h : Held dev c held changed pin) (hr : (c.buf i).refcnt = 0)
    (hb : ∀ j, ¬ ((c.buf j).dev = dev ∧ (c.buf j).blockno = b)) :
    Held dev (c.set i { c.buf i with dev, blockno := b, valid := false, refcnt := 0 }) held changed
      pin := by
  obtain ⟨hfree, hpin⟩ := h.of_refcnt_eq_zero hr
  have hne : ∀ t a g, held.lookup (t, a) = some g → g.buf ≠ i := fun t a g hg he =>
    hfree t a g.stage (by rw [hg, ← he])
  have hset : ∀ t a g, held.lookup (t, a) = some g →
      (c.set i { c.buf i with dev, blockno := b, valid := false, refcnt := 0 }).buf g.buf
        = c.buf g.buf := fun t a g hg => Bcache.set_of_ne (hne t a g hg) _
  have hpb : pin b = 0 := by
    by_contra hc
    obtain ⟨j, h1, h2, -⟩ := h.pinned b (Nat.pos_of_ne_zero hc)
    exact hb j ⟨h1, h2⟩
  constructor
  case listed => exact h.listed
  case unique =>
    intro j k hj hk hjk
    by_cases hji : j = i <;> by_cases hki : k = i
    · rw [hji, hki]
    · rw [hji, Bcache.set_self, Bcache.set_of_ne hki] at hjk
      rw [Bcache.set_of_ne hki] at hk
      exact absurd ⟨hk, hjk.symm⟩ (hb k)
    · rw [hki, Bcache.set_self, Bcache.set_of_ne hji] at hjk
      rw [Bcache.set_of_ne hji] at hj
      exact absurd ⟨hj, hjk⟩ (hb j)
    · rw [Bcache.set_of_ne hji] at hj hjk
      rw [Bcache.set_of_ne hki] at hk hjk
      exact h.unique j k hj hk hjk
  case bufs =>
    intro t a g hg
    rw [hset t a g hg]
    exact h.bufs t a g hg
  case refcnt =>
    intro j
    by_cases hji : j = i
    · have := h.refcnt i
      rw [hji, Bcache.set_self]
      simp only [if_true, hpb]
      omega
    · rw [Bcache.set_of_ne hji]
      exact h.refcnt j
  case lock =>
    intro j u
    rw [← h.lock]
    by_cases hji : j = i
    · rw [hji, Bcache.set_self]
    · rw [Bcache.set_of_ne hji]
  case valid =>
    intro t a j hj
    rw [hset t a _ hj]
    exact h.valid t a j hj
  case changed => exact h.changed
  case pinned =>
    intro a ha
    obtain ⟨j, h1, h2, h3⟩ := h.pinned a ha
    have hji : j ≠ i := by
      rintro rfl
      have := hpin h1
      rw [h2] at this
      omega
    exact ⟨j, by rwa [Bcache.set_of_ne hji], by rwa [Bcache.set_of_ne hji],
      by rwa [Bcache.set_of_ne hji]⟩

theorem changed_mono {changed' : T → Option ℕ} (h : Held dev c held changed pin)
    (hc : ∀ u a, changed' u = some a → changed u = some a) : Held dev c held changed' pin :=
  ⟨h.listed, h.unique, h.bufs, h.refcnt, h.lock, h.valid, fun u a hu => h.changed u a (hc u a hu),
    h.pinned⟩

theorem of_buf_eq {c' : Bcache NBUF T D} (h : Held dev c held changed pin)
    (hc : c'.buf = c.buf) (hl : ∃ l, c'.Listed l) : Held dev c' held changed pin := by
  obtain ⟨-, h1, h2, h3, h4, h5, h6, h7⟩ := h
  unfold Bcache.Unique at h1
  rw [← hc] at h1 h2 h3 h4 h5 h7
  exact ⟨hl, h1, h2, h3, h4, h5, h6, h7⟩

end Held

end Kernel

end CShellXv6
