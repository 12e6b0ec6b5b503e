import CShellXv6.Kernel.Pipe

/-!
# Bytes through a pipe

What one step of the code can do is said once (`Move`). The bytes between the two counters are those
written and not yet read, although the counters wrap (`Queue`), and what a process has found out
under the lock still holds further on (`At`); so bytes come out as they went in (`pipe_fifo`), and a
reader that gets none is behind the last of them (`pipe_end_of_file`). The ends are closed once and
not used behind that (`Ends`), so the page of the pipe is freed when nobody uses it
(`pipe_freed_once`).

Whoever sleeps does so because the pipe is empty or full (`pipe_no_lost_wakeup`), unless a writer is
killed between storing bytes and waking up the readers.
-/

namespace CShellXv6

namespace Kernel

namespace Pipe

open Monitor (Act Guards Guarded)

section Moves

/-- One step of the code. -/
inductive Move (killed : Bool) (d : Pipe) : Code → Pipe → Act Chan Code → Prop
  | idle (r : Int) : Move killed d (.idle r) d (.leave (.idle r))
  | cutOff {src : ℕ → Option UInt8} {n : Int} {i : ℕ} {unseen : Bool} (hi : i < n)
    (h : d.readopen = false ∨ killed = true) :
    Move killed d (.write src n i unseen) d (.leave (.idle (-1)))
  | announce {src : ℕ → Option UInt8} {n : Int} {i : ℕ} {unseen : Bool} (hopen : d.readopen = true)
    (hfull : d.nwrite = d.nread + BitVec.ofNat 32 PIPESIZE) :
    Move killed d (.write src n i unseen) d (.wakeup .nread (.full src n i))
  | fault {src : ℕ → Option UInt8} {n : Int} {i : ℕ} {unseen : Bool} :
    Move killed d (.write src n i unseen) d (.go (.wrote n (if i = 0 then -1 else i)))
  | store {src : ℕ → Option UInt8} {n : Int} {i : ℕ} {unseen : Bool} (hopen : d.readopen = true)
    (hfull : d.nwrite ≠ d.nread + BitVec.ofNat 32 PIPESIZE) (ch : UInt8) :
    Move killed d (.write src n i unseen)
      { d with
        data := Function.update d.data (index d.nwrite) ch
        nwrite := d.nwrite + 1
        put := d.put ++ [ch] } (.go (.write src n (i + 1) true))
  | written {src : ℕ → Option UInt8} {n : Int} {i : ℕ} {unseen : Bool} :
    Move killed d (.write src n i unseen) d (.go (.wrote n i))
  | full {src : ℕ → Option UInt8} {n : Int} {i : ℕ} :
    Move killed d (.full src n i) d (.wait .nwrite (.write src n i false))
  | wrote {n r : Int} : Move killed d (.wrote n r) d (.wakeup .nread (.ret true n r))
  | giveUp {faults : ℕ → Bool} {n : Int} : Move killed d (.read faults n) d (.leave (.idle (-1)))
  | await {faults : ℕ → Bool} {n : Int} (hempty : d.nread = d.nwrite) (hopen : d.writeopen = true) :
    Move killed d (.read faults n) d (.wait .nread (.read faults n))
  | begin {faults : ℕ → Bool} {n : Int} (h : d.nread ≠ d.nwrite ∨ d.writeopen = false) :
    Move killed d (.read faults n) d (.go (.copy faults n 0))
  | drained {faults : ℕ → Bool} {n : Int} {i : ℕ} (h : d.nread = d.nwrite) :
    Move killed d (.copy faults n i) d (.go (.copied n i))
  | refused {faults : ℕ → Bool} {n : Int} {i : ℕ} :
    Move killed d (.copy faults n i) d (.go (.copied n (if i = 0 then -1 else i)))
  | take {faults : ℕ → Bool} {n : Int} {i : ℕ} (h : d.nread ≠ d.nwrite) :
    Move killed d (.copy faults n i)
      { d with nread := d.nread + 1, got := d.got ++ [d.data (index d.nread)] }
      (.go (.copy faults n (i + 1)))
  | filled {faults : ℕ → Bool} {n : Int} {i : ℕ} (h : ¬ i < n) :
    Move killed d (.copy faults n i) d (.go (.copied n i))
  | copied {n r : Int} : Move killed d (.copied n r) d (.wakeup .nwrite (.ret false n r))
  | ret {writable : Bool} {n r : Int} : Move killed d (.ret writable n r) d (.leave (.idle r))
  | closeWrite :
    Move killed d (.close true) { d with writeopen := false } (.wakeup .nread (.closed true))
  | closeRead :
    Move killed d (.close false) { d with readopen := false } (.wakeup .nwrite (.closed false))
  | free {writable : Bool} (hread : d.readopen = false) (hwrite : d.writeopen = false) :
    Move killed d (.closed writable) { d with freed := d.freed + 1 } (.leave (.idle 0))
  | keep {writable : Bool} (h : d.readopen = true ∨ d.writeopen = true) :
    Move killed d (.closed writable) d (.leave (.idle 0))

theorem move_step (killed : Bool) (d : Pipe) (l : Code) :
    Move killed d l (step killed d l).1 (step killed d l).2 := by
  cases l with
  | idle r => exact .idle r
  | write src n i unseen =>
    simp only [step]
    split
    case isFalse => exact .written
    case isTrue hi =>
      split
      case isTrue h => exact .cutOff hi h
      case isFalse h =>
        obtain ⟨hopen, -⟩ : d.readopen = true ∧ killed = false := by simpa using h
        split
        case isTrue hfull => exact .announce hopen hfull
        case isFalse hfull =>
          split
          · exact .fault
          · exact .store hopen hfull _
  | full src n i => exact .full
  | wrote n r => exact .wrote
  | read faults n =>
    simp only [step]
    split
    case isTrue h =>
      split
      · exact .giveUp
      · exact .await h.1 h.2
    case isFalse h =>
      refine .begin ?_
      simpa [imp_iff_not_or] using h
  | copy faults n i =>
    simp only [step]
    split
    case isFalse hi => exact .filled hi
    case isTrue =>
      split
      case isTrue h => exact .drained h
      case isFalse h =>
        split
        · exact .refused
        · exact .take h
  | copied n r => exact .copied
  | ret writable n r => exact .ret
  | close writable =>
    cases writable
    · exact .closeRead
    · exact .closeWrite
  | closed writable =>
    simp only [step]
    split
    case isTrue h => exact .free h.1 h.2
    case isFalse h =>
      refine .keep ?_
      simpa [imp_iff_not_or] using h

end Moves

section Contents

/-- `q` are the bytes that have been written and not read. -/
structure Queue (d : Pipe) (q : List UInt8) : Prop where
  put : d.put = d.got ++ q
  room : q.length ≤ PIPESIZE
  nread : d.nread = BitVec.ofNat 32 d.got.length
  nwrite : d.nwrite = BitVec.ofNat 32 (d.got.length + q.length)
  holds : RingBuffer.Holds (by decide) d.data d.got.length q

variable {d : Pipe} {q : List UInt8}

theorem queue_pipealloc (data : Fin PIPESIZE → UInt8) : Queue (pipealloc data) [] :=
  ⟨rfl, by simp, rfl, rfl, RingBuffer.holds_nil⟩

theorem index_ofNat (i : ℕ) : index (BitVec.ofNat 32 i) = RingBuffer.pos (by decide) i :=
  RingBuffer.pos_toNat (by decide)

theorem Queue.empty_iff (h : Queue d q) : d.nread = d.nwrite ↔ q = [] := by
  have hroom := h.room
  have hsize : PIPESIZE = 512 := rfl
  rw [h.nread, h.nwrite, RingBuffer.ofNat_inj (by omega) (by omega)]
  rw [← List.length_eq_zero_iff]
  omega

theorem Queue.full_iff (h : Queue d q) :
    d.nwrite = d.nread + BitVec.ofNat 32 PIPESIZE ↔ q.length = PIPESIZE := by
  have hroom := h.room
  have hsize : PIPESIZE = 512 := rfl
  rw [h.nread, h.nwrite, ← BitVec.ofNat_add, RingBuffer.ofNat_inj (by omega) (by omega)]
  omega

theorem Queue.store (h : Queue d q) (hfull : d.nwrite ≠ d.nread + BitVec.ofNat 32 PIPESIZE)
    (ch : UInt8) : Queue { d with
      data := Function.update d.data (index d.nwrite) ch
      nwrite := d.nwrite + 1
      put := d.put ++ [ch] } (q ++ [ch]) := by
  have hroom := h.room
  rw [Ne, h.full_iff] at hfull
  refine ⟨by simp [h.put], by simp; omega, h.nread, ?_, ?_⟩
  · rw [h.nwrite, List.length_append, List.length_singleton, ← Nat.add_assoc,
      BitVec.ofNat_add _ 1]
    rfl
  · rw [h.nwrite, index_ofNat]
    exact h.holds.push (by omega)

theorem Queue.take (h : Queue d q) (hne : d.nread ≠ d.nwrite) : ∃ q', Queue { d with
      nread := d.nread + 1
      got := d.got ++ [d.data (index d.nread)] } q' := by
  rw [Ne, h.empty_iff] at hne
  obtain ⟨x, q, rfl⟩ := List.exists_cons_of_ne_nil hne
  have hx : d.data (index d.nread) = x := by
    rw [h.nread, index_ofNat]
    exact h.holds.head
  have hroom := h.room
  have hput := h.put
  have hnwrite := h.nwrite
  rw [List.length_cons] at hroom hnwrite
  refine ⟨q, by simp [hput, hx], by omega, ?_, ?_, ?_⟩
  · rw [h.nread, List.length_append, List.length_singleton, BitVec.ofNat_add _ 1]
    rfl
  · rw [hnwrite, List.length_append, List.length_singleton]
    congr 1
    omega
  · rw [List.length_append, List.length_singleton]
    exact h.holds.tail

theorem Queue.of_move {killed : Bool} {l : Code} {d' : Pipe} {a : Act Chan Code}
    (hm : Move killed d l d' a) (h : Queue d q) : ∃ q', Queue d' q' := by
  cases hm with
  | store hopen hfull ch => exact ⟨_, h.store hfull ch⟩
  | take hne => exact h.take hne
  | closeWrite | closeRead | free => exact ⟨q, h.put, h.room, h.nread, h.nwrite, h.holds⟩
  | _ => exact ⟨q, h⟩

/-- What the process at this place has found out since it got the lock. -/
def At : Code → Pipe → Prop
  | .write _ _ _ unseen, d => unseen = true → d.readopen = true
  | .full _ _ _, d => d.nwrite = d.nread + BitVec.ofNat 32 PIPESIZE ∧ d.readopen = true
  | .copy _ _ i, d => i = 0 → d.nread ≠ d.nwrite ∨ d.writeopen = false
  | .copied n r, d | .ret false n r, d => 0 < n → r = 0 → d.nread = d.nwrite ∧ d.writeopen = false
  | _, _ => True

theorem leads_of_move {killed : Bool} {l : Code} {d' : Pipe} {a : Act Chan Code}
    (hm : Move killed d l d' a) (h : At l d) : a.Leads (fun d => ∃ q, Queue d q) At d' := by
  cases hm with
  | announce hopen hfull => exact ⟨hfull, hopen⟩
  | store hopen => exact fun _ => hopen
  | full => exact fun d _ => by simp [At]
  | await => exact fun d _ => trivial
  | begin hmore => exact fun _ => hmore
  | @drained _ _ i hempty =>
    intro hn hr
    have hi : i = 0 := by omega
    exact ⟨hempty, (h hi).resolve_left (not_not.2 hempty)⟩
  | @refused _ _ i =>
    intro hn hr
    split at hr <;> omega
  | filled hi => exact fun hn hr => by omega
  | take => exact fun hi => absurd hi (Nat.succ_ne_zero _)
  | copied => exact h
  | _ => trivial

variable {T : Type*} (slots : List T)

theorem guards : Guards (fun d => ∃ q, Queue d q) At (monitor slots) where
  step _ l killed d hq hat :=
    ⟨hq.elim fun _ h => h.of_move (move_step killed d l), leads_of_move (move_step killed d l) hat⟩
  call _ l s hc d _ := by
    change calls slots s l = true at hc
    unfold calls at hc
    split at hc
    · exact fun h => nomatch h
    · trivial
    · trivial
    · cases hc

end Contents

section Closing

variable {T : Type*} [DecidableEq T] {d d' : Pipe} {place : T → Code}

/-- An end of the pipe that is closed, or is being closed, is used by the process that closes it and
by no other, and is closed once. -/
structure Ends (d : Pipe) (place : T → Code) : Prop where
  shut : ∀ w, (d.isOpen w = false ∨ ∃ u, (place u).closing = some w) →
    ∀ v, (place v).side = some w → (place v).closing = some w
  opens : ∀ u w, place u = .close w → d.isOpen w = true
  one : ∀ u v w, (place u).closing = some w → (place v).closing = some w → u = v

theorem side_of_closing {l : Code} {w : Bool} (h : l.closing = some w) : l.side = some w := by
  cases l <;> first | exact h | cases h

omit [DecidableEq T] in
/-- Whoever is closing an end is at one of two places. -/
theorem eq_of_closing {l : Code} {w : Bool} (h : l.closing = some w) :
    l = .close w ∨ l = .closed w := by
  cases l with
  | close => exact .inl (congrArg Code.close (Option.some.inj h))
  | closed => exact .inr (congrArg Code.closed (Option.some.inj h))
  | _ => cases h

theorem Ends.begin (h : Ends d place) {t : T} {l : Code} (hl : l.closing = none)
    (hcan : ∀ w, l.side = some w → d.isOpen w = true ∧ ∀ u, (place u).closing ≠ some w) :
    Ends d (Function.update place t l) where
  shut w hw v hv := by
    have hold : ∀ u, (Function.update place t l u).closing = some w →
        (place u).closing = some w := by
      intro u hu
      by_cases hut : u = t
      · rw [hut, Function.update_self, hl] at hu
        cases hu
      · rwa [Function.update_of_ne hut] at hu
    have hw' : d.isOpen w = false ∨ ∃ u, (place u).closing = some w :=
      hw.imp_right fun ⟨u, hu⟩ => ⟨u, hold u hu⟩
    by_cases hvt : v = t
    · rw [hvt, Function.update_self] at hv
      obtain ⟨hopen, hnone⟩ := hcan w hv
      rcases hw' with hw' | ⟨u, hu⟩
      · rw [hopen] at hw'
        cases hw'
      · exact absurd hu (hnone u)
    · rw [Function.update_of_ne hvt] at hv ⊢
      exact h.shut w hw' v hv
  opens u w hu := by
    by_cases hut : u = t
    · rw [hut, Function.update_self] at hu
      rw [hu] at hl
      cases hl
    · rw [Function.update_of_ne hut] at hu
      exact h.opens u w hu
  one u v w hu hv := by
    have hne : ∀ u, (Function.update place t l u).closing = some w → u ≠ t := by
      rintro u hu rfl
      rw [Function.update_self, hl] at hu
      cases hu
    rw [Function.update_of_ne (hne u hu)] at hu
    rw [Function.update_of_ne (hne v hv)] at hv
    exact h.one u v w hu hv

theorem Ends.close (h : Ends d place) {t : T} {w : Bool} (hopen : d.isOpen w = true)
    (hunused : ∀ u, (place u).side ≠ some w) : Ends d (Function.update place t (.close w)) where
  shut w' hw v hv := by
    by_cases hvt : v = t
    · rw [hvt, Function.update_self] at hv ⊢
      exact hv
    · rw [Function.update_of_ne hvt] at hv ⊢
      refine h.shut w' (hw.imp_right fun ⟨u, hu⟩ => ⟨u, ?_⟩) v hv
      by_cases hut : u = t
      · rw [hut, Function.update_self] at hu
        cases Option.some.inj hu
        exact absurd hv (hunused v)
      · rwa [Function.update_of_ne hut] at hu
  opens u w' hu := by
    by_cases hut : u = t
    · rw [hut, Function.update_self] at hu
      cases hu
      exact hopen
    · rw [Function.update_of_ne hut] at hu
      exact h.opens u w' hu
  one u v w' hu hv := by
    have hother : ∀ u, u ≠ t → (Function.update place t (.close w) u).closing = some w' →
        (place u).closing = some w' ∧ w' ≠ w := by
      intro u hut hu
      rw [Function.update_of_ne hut] at hu
      exact ⟨hu, fun hw => hunused u (hw ▸ side_of_closing hu)⟩
    have hself : (Function.update place t (.close w) t).closing = some w := by
      rw [Function.update_self]
      rfl
    by_cases hut : u = t <;> by_cases hvt : v = t
    · rw [hut, hvt]
    · rw [hut, hself] at hu
      exact absurd (Option.some.inj hu).symm (hother v hvt hv).2
    · rw [hvt, hself] at hv
      exact absurd (Option.some.inj hv).symm (hother u hut hu).2
    · exact h.one u v w' (hother u hut hu).1 (hother v hvt hv).1

variable {killed : Bool} {l : Code} {a : Act Chan Code}

omit [DecidableEq T] in
/-- A step stays with the end of the pipe, or leaves it. -/
theorem side_of_move (h : Move killed d l d' a) :
    (a.place.side = l.side ∧ a.place.closing = l.closing)
      ∨ (a.place.side = none ∧ a.place.closing = none) := by
  cases h <;> first | exact .inl ⟨rfl, rfl⟩ | exact .inr ⟨rfl, rfl⟩

omit [DecidableEq T] in
theorem isOpen_of_move (h : Move killed d l d' a) (w : Bool) :
    d'.isOpen w = d.isOpen w ∨ l = .close w := by
  cases h with
  | closeWrite => cases w <;> simp [isOpen]
  | closeRead => cases w <;> simp [isOpen]
  | _ => exact .inl rfl

omit [DecidableEq T] in
theorem place_ne_close (h : Move killed d l d' a) (w : Bool) : a.place ≠ .close w := by
  cases h <;> exact fun h => nomatch h

theorem Ends.move (h : Ends d place) {t : T} (hm : Move killed d (place t) d' a) :
    Ends d' (Function.update place t a.place) := by
  have hold : ∀ u w, (Function.update place t a.place u).closing = some w →
      (place u).closing = some w := by
    intro u w hu
    by_cases hut : u = t
    · subst hut
      rw [Function.update_self] at hu
      rcases side_of_move hm with ⟨-, hc⟩ | ⟨-, hc⟩
      · rwa [← hc]
      · rw [hc] at hu
        cases hu
    · rwa [Function.update_of_ne hut] at hu
  refine ⟨fun w hw v hv => ?_, fun u w hu => ?_, fun u v w hu hv =>
    h.one u v w (hold u w hu) (hold v w hv)⟩
  · have hw' : d.isOpen w = false ∨ ∃ u, (place u).closing = some w := by
      rcases hw with hw | ⟨u, hu⟩
      · rcases isOpen_of_move hm w with hsame | hclose
        · exact .inl (hsame ▸ hw)
        · exact .inr ⟨t, by rw [hclose]; rfl⟩
      · exact .inr ⟨u, hold u w hu⟩
    by_cases hvt : v = t
    · subst hvt
      rw [Function.update_self] at hv ⊢
      rcases side_of_move hm with ⟨hs, hc⟩ | ⟨hs, -⟩
      · rw [hc]
        exact h.shut w hw' v (hs ▸ hv)
      · rw [hs] at hv
        cases hv
    · rw [Function.update_of_ne hvt] at hv ⊢
      exact h.shut w hw' v hv
  · by_cases hut : u = t
    · rw [hut, Function.update_self] at hu
      exact absurd hu (place_ne_close hm w)
    · rw [Function.update_of_ne hut] at hu
      have hopen := h.opens u w hu
      rcases isOpen_of_move hm w with hsame | hclose
      · rwa [hsame]
      · exact absurd (h.one u t w (by rw [hu]; rfl) (by rw [hclose]; rfl)) hut

omit [DecidableEq T] in
/-- With both ends closed, only the process that closed the second may still use the pipe. -/
theorem Ends.side_eq_none (h : Ends d place) (hopen : ∀ w, d.isOpen w = false) {t : T}
    (hclosed : ∀ w, place t ≠ .closed w) : (place t).side = none := by
  refine Option.eq_none_iff_forall_ne_some.2 fun w hw => ?_
  rcases eq_of_closing (h.shut w (.inl (hopen w)) t hw) with ht | ht
  · exact absurd (h.opens t w ht) (by simp [hopen])
  · exact hclosed w ht

/-- The page is freed once, by the process that closed the second end, as it gives the lock back. -/
structure Frees (d : Pipe) (place : T → Code) : Prop where
  kept : ((∃ w, d.isOpen w = true) ∨ ∃ u w, place u = .closed w) → d.freed = 0
  freed : (∀ w, d.isOpen w = false) → (∀ u w, place u ≠ .closed w) → d.freed = 1

omit [DecidableEq T] in
theorem Frees.of_ne_zero (h : Frees d place) (hne : d.freed ≠ 0) :
    (∀ w, d.isOpen w = false) ∧ ∀ u w, place u ≠ .closed w := by
  refine ⟨fun w => ?_, fun u w hu => hne (h.kept (.inr ⟨u, w, hu⟩))⟩
  by_contra hw
  exact hne (h.kept (.inl ⟨w, by simpa using hw⟩))

theorem closed_update_iff {t : T} (ht : ∀ w, place t ≠ .closed w) (hl : ∀ w, l ≠ .closed w) (u : T)
    (w : Bool) : Function.update place t l u = .closed w ↔ place u = .closed w := by
  by_cases hut : u = t
  · rw [hut, Function.update_self]
    exact iff_of_false (hl w) (ht w)
  · rw [Function.update_of_ne hut]

/-- A step that has to do with no closing. -/
theorem Frees.still (h : Frees d place) {t : T} (hopen : ∀ w, d'.isOpen w = d.isOpen w)
    (hfreed : d'.freed = d.freed) (ht : ∀ w, place t ≠ .closed w) (hl : ∀ w, l ≠ .closed w) :
    Frees d' (Function.update place t l) := by
  have hiff := closed_update_iff ht hl
  refine ⟨fun hk => hfreed ▸ h.kept ?_, fun ho hc => hfreed ▸ h.freed ?_ ?_⟩
  · simpa only [hopen, hiff] using hk
  · simpa only [hopen] using ho
  · simpa only [Ne, hiff] using hc

theorem Frees.move (h : Frees d place) {t : T} (hends : Ends d place)
    (hone : ∀ u w w', place t = .closed w → place u = .closed w' → u = t)
    (hm : Move killed d (place t) d' a) : Frees d' (Function.update place t a.place) := by
  generalize hl : place t = l at hm
  have hkept : ∀ w, l = .close w → d.freed = 0 := fun w hw =>
    h.kept (.inl ⟨w, hends.opens t w (hl.trans hw)⟩)
  have hnow : ∀ l' : Code, Function.update place t l' t = l' := fun l' => Function.update_self ..
  cases hm with
  | closeWrite =>
    exact ⟨fun _ => hkept true rfl, fun _ hc => absurd (hnow _) (hc t true)⟩
  | closeRead =>
    exact ⟨fun _ => hkept false rfl, fun _ hc => absurd (hnow _) (hc t false)⟩
  | @free w hread hwrite =>
    have hzero : d.freed = 0 := h.kept (.inr ⟨t, w, hl⟩)
    refine ⟨fun hk => ?_, fun _ _ => congrArg (· + 1) hzero⟩
    rcases hk with ⟨w', hw'⟩ | ⟨u, w', hu⟩
    · cases w' <;> simp_all [isOpen]
    · by_cases hut : u = t
      · rw [hut, hnow] at hu
        cases hu
      · rw [Function.update_of_ne hut] at hu
        exact absurd (hone u w w' hl hu) hut
  | @keep w hsome =>
    have hzero : d.freed = 0 := h.kept (.inr ⟨t, w, hl⟩)
    refine ⟨fun _ => hzero, fun ho _ => ?_⟩
    have hread := ho false
    have hwrite := ho true
    simp_all [isOpen]
  | _ => exact h.still (fun _ => rfl) rfl (by simp [hl]) (by simp [Act.place])

end Closing

section Runs

variable {T : Type*} {slots : List T}

abbrev State (T : Type*) := Monitor.State T Chan Code Pipe

abbrev Step (T : Type*) := Monitor.Action T Code

/-- Behind the closing of an end the lock is held until the step that gives it back. -/
structure Closes (s : State T) : Prop where
  closed : ∀ u w, (s.status u).place = .closed w → (s.status u).works = true
  ends : Ends s.data fun u => (s.status u).place
  frees : Frees s.data fun u => (s.status u).place

/-- What holds of a pipe at every moment. -/
structure Sound (s : State T) : Prop extends Closes s where
  ok : Monitor.Ok s
  guarded : Guarded (fun d => ∃ q, Queue d q) At s

theorem sound_start (data : Fin PIPESIZE → UInt8) : Sound (start data : State T) where
  ok := ⟨fun t => by simp [start, Monitor.Status.holds], fun t l h => nomatch h⟩
  guarded := ⟨⟨[], queue_pipealloc data⟩, fun t => trivial⟩
  closed u w h := nomatch h
  ends := ⟨fun w hw v hv => (nomatch hv), fun u w h => (nomatch h), fun u v w h => (nomatch h)⟩
  frees := ⟨fun _ => rfl, fun h => nomatch h true⟩

variable [DecidableEq T] {s s' : State T} {t : T} {l : Code}

theorem Ends.call (hslots : ∀ t, t ∈ slots) (h : Ends s.data fun u => (s.status u).place)
    (hc : calls slots s l = true) :
    Ends s.data (Function.update (fun u => (s.status u).place) t l) := by
  unfold calls at hc
  split at hc
  case h_4 => cases hc
  case h_3 w =>
    simp only [Bool.and_eq_true, unused, List.all_eq_true, bne_iff_ne] at hc
    exact h.close hc.1 fun u => hc.2 u (hslots u)
  all_goals
    simp only [Bool.and_eq_true, List.all_eq_true, bne_iff_ne] at hc
    refine h.begin rfl fun w hw => ?_
    cases hw
    exact ⟨hc.1, fun u => hc.2 u (hslots u)⟩

omit [DecidableEq T] in
theorem calls_eq_false (hopen : ∀ w, s.data.isOpen w = false) (l : Code) :
    calls slots s l = false := by
  have hread : s.data.readopen = false := hopen false
  have hwrite : s.data.writeopen = false := hopen true
  unfold calls
  split <;> simp [hread, hwrite, hopen]

omit [DecidableEq T] in
theorem ne_closed_of_calls (hc : calls slots s l = true) (w : Bool) : l ≠ .closed w := by
  rintro rfl
  cases hc

theorem works_of_move {d d' : Pipe} {killed : Bool} {a : Act Chan Code} {w : Bool}
    (hm : Move killed d l d' a) (ha : a.place = .closed w) :
    ((s.act slots t a).status t).works = true := by
  cases hm with
  | closeWrite | closeRead => simp [Monitor.State.act, Monitor.Status.works]
  | _ => cases ha

/-- What a step of the system does: nothing to the pipe, or it begins a call, or it is a step of the
code. -/
theorem run_cases {a : Step T} (hc : (monitor slots).Step s a s') :
    (∃ t l m, s.status t = .out m ∧ calls slots s l = true ∧ s' = s.set t (.ready l))
      ∨ (∃ t l b, a = .step t ∧ s.status t = .inside l ∧ Move (s.killed t) s.data l s'.data b
        ∧ s' = { s with data := s'.data }.act slots t b)
      ∨ Monitor.Still s s' := by
  rcases Monitor.moves_of_step hc with hcall | ⟨t, l, rfl, ht, rfl⟩ | hstill
  · exact .inl hcall
  · refine .inr (.inl ⟨t, l, (step (s.killed t) s.data l).2, rfl, ht, ?_, ?_⟩)
    · rw [Monitor.act_data]
      exact move_step (s.killed t) s.data l
    · rw [Monitor.act_data]
      rfl
  · exact .inr (.inr hstill)

theorem Closes.call (h : Closes s) (hslots : ∀ t, t ∈ slots) {m : Code} (ht : s.status t = .out m)
    (hcall : calls slots s l = true) : Closes (s.set t (.ready l)) := by
  have hl := ne_closed_of_calls hcall
  refine ⟨fun u w hu => ?_, ?_, ?_⟩
  · by_cases hut : u = t
    · rw [hut, Monitor.set_status_self] at hu
      exact absurd hu (hl w)
    · rw [Monitor.set_status_of_ne hut] at hu ⊢
      exact h.closed u w hu
  · rw [Monitor.place_set]
    exact h.ends.call hslots hcall
  · rw [Monitor.place_set]
    refine h.frees.still (fun _ => rfl) rfl (fun w hw => ?_) hl
    have := h.closed t w hw
    rw [ht] at this
    cases this

theorem Closes.move (h : Closes s) (hok : Monitor.Ok s) {d : Pipe} {b : Act Chan Code}
    (ht : s.status t = .inside l) (hm : Move (s.killed t) s.data l d b) :
    Closes ({ s with data := d }.act slots t b) := by
  have hm' : Move (s.killed t) s.data (s.status t).place d b := by rwa [ht]
  refine ⟨fun u w hu => ?_, ?_, ?_⟩
  · by_cases hut : u = t
    · subst hut
      rw [Monitor.act_place_self] at hu
      exact works_of_move hm hu
    · rw [Monitor.act_status_of_ne hut] at hu ⊢
      exact h.closed u w hu
  · rw [Monitor.place_act, Monitor.act_data]
    exact h.ends.move hm'
  · rw [Monitor.place_act, Monitor.act_data]
    refine h.frees.move h.ends (fun u w w' htw huw => ?_) hm'
    exact hok.eq (Monitor.holds_of_works (h.closed u w' huw))
      (Monitor.holds_of_works (h.closed t w htw))

omit [DecidableEq T] in
theorem Closes.still (h : Closes s) (hs : Monitor.Still s s') : Closes s' := by
  have hplace : (fun u => (s'.status u).place) = fun u => (s.status u).place := funext hs.place
  refine ⟨fun u w hu => hs.works u (h.closed u w (hs.place u ▸ hu)), ?_, ?_⟩
  · rw [hplace, hs.data]
    exact h.ends
  · rw [hplace, hs.data]
    exact h.frees

theorem sound_step (hslots : ∀ t, t ∈ slots) (a : Step T) (s : State T) (h : Sound s)
    (hc : (monitor slots).system.can a s) : Sound ((monitor slots).system.next a s) := by
  have hstep := (monitor slots).step_of_can hc
  generalize (monitor slots).system.next a s = s' at hstep
  refine ⟨?_, Monitor.ok_step h.ok hstep, Monitor.guarded_step (guards slots) h.ok h.guarded hstep⟩
  rcases run_cases hstep with ⟨t, l, m, ht, hcall, rfl⟩ | ⟨t, l, b, -, ht, hm, hs'⟩ | hstill
  · exact h.toCloses.call hslots ht hcall
  · rw [hs']
    exact h.toCloses.move h.ok ht hm
  · exact h.toCloses.still hstill

theorem sound_exec (hslots : ∀ t, t ∈ slots) (data : Fin PIPESIZE → UInt8) (as : List (Step T))
    (hv : (monitor slots).system.Valid as (start data)) :
    Sound ((monitor slots).system.exec as (start data)) :=
  (monitor slots).system.invariant (I := Sound) (sound_step hslots) (sound_start data) as hv

/-- In any interleaving of readers and writers, killed ones included, what has been read is what has
been written up to at most `PIPESIZE` bytes that are still to be read. -/
theorem pipe_fifo (hslots : ∀ t, t ∈ slots) (data : Fin PIPESIZE → UInt8) (as : List (Step T))
    (hv : (monitor slots).system.Valid as (start data)) :
    let d := ((monitor slots).system.exec as (start data)).data
    ∃ q, d.put = d.got ++ q ∧ q.length ≤ PIPESIZE := by
  obtain ⟨q, hq⟩ := (sound_exec hslots data as hv).guarded.data
  exact ⟨q, hq.put, hq.room⟩

/-- One byte is written and read, the write end is closed, and a read finds nothing more. -/
def untilEnd : List (Step Bool) :=
  [.call true (.write (fun _ => some 7) 1 0 false), .acquire true, .step true, .step true,
    .step true, .wake true, .wake true, .wake true, .step true,
    .call false (.read (fun _ => false) 2), .acquire false, .step false, .step false, .step false,
    .step false, .wake false, .wake false, .wake false, .step false,
    .call true (.close true), .acquire true, .step true, .wake true, .wake true, .wake true,
    .step true, .call false (.read (fun _ => false) 2), .acquire false, .step false, .step false,
    .step false, .wake false, .wake false, .wake false]

/-- The reader returns, and closes the other end. -/
def behindEnd : List (Step Bool) :=
  [.step false, .call false (.close false), .acquire false, .step false, .wake false, .wake false,
    .wake false, .step false]

theorem pipe_fifo_byte :
    let d := ((monitor [false, true]).system.exec (untilEnd.take 8) (start fun _ => 0)).data
    d.put = [7] ∧ ∃ q, d.put = d.got ++ q ∧ q.length ≤ PIPESIZE :=
  ⟨by decide +kernel, pipe_fifo (by decide) _ (untilEnd.take 8) (by decide +kernel)⟩

omit [DecidableEq T] in
theorem eq_of_returning {x : Monitor.Status T Chan Code} {n r : Int}
    (h : returning x = some (n, r)) : x = .inside (.ret false n r) := by
  unfold returning at h
  split at h
  · cases h
    rfl
  · cases h

/-- With nothing to read, only a writer changes what has been written or read. -/
theorem same_of_move {killed : Bool} {d d' : Pipe} {b : Act Chan Code} (hm : Move killed d l d' b)
    (hempty : d.nread = d.nwrite) (hl : ∀ src n i unseen, l ≠ .write src n i unseen) :
    d'.put = d.put ∧ d'.got = d.got ∧ (d.writeopen = false → d'.writeopen = false) := by
  cases hm with
  | store => exact absurd rfl (hl _ _ _ _)
  | take hne => exact absurd hempty hne
  | closeWrite => exact ⟨rfl, rfl, fun _ => rfl⟩
  | _ => exact ⟨rfl, rfl, id⟩

/-- The writers are gone, and there is nothing left to read. -/
structure Drained (p : List UInt8) (s : State T) : Prop where
  sound : Sound s
  shut : s.data.writeopen = false
  put : s.data.put = p
  got : s.data.got = p

theorem Drained.step {p : List UInt8} (hslots : ∀ t, t ∈ slots) (a : Step T) (s : State T)
    (h : Drained p s) (hc : (monitor slots).system.can a s) :
    Drained p ((monitor slots).system.next a s) := by
  have hsound := sound_step hslots a s h.sound hc
  have hstep := (monitor slots).step_of_can hc
  generalize (monitor slots).system.next a s = s' at hsound hstep
  have hdata : s'.data = s.data → Drained p s' := fun hd =>
    ⟨hsound, hd ▸ h.shut, hd ▸ h.put, hd ▸ h.got⟩
  rcases run_cases hstep with ⟨t, l, m, ht, hcall, rfl⟩ | ⟨t, l, b, -, ht, hm, -⟩ | hstill
  · exact hdata rfl
  · have hempty : s.data.nread = s.data.nwrite := by
      obtain ⟨q, hq⟩ := h.sound.guarded.data
      have hput := hq.put
      rw [h.put, h.got, List.self_eq_append_right] at hput
      exact hq.empty_iff.2 hput
    have hwriter : ∀ src n i unseen, l ≠ .write src n i unseen := by
      rintro src n i unseen rfl
      have := h.sound.ends.shut true (.inl h.shut) t (by rw [ht]; rfl)
      rw [ht] at this
      cases this
    obtain ⟨hput, hgot, hshut⟩ := same_of_move hm hempty hwriter
    exact ⟨hsound, hshut h.shut, hput.trans h.put, hgot.trans h.got⟩
  · exact hdata hstill.data

/-- A read of some bytes that returns none has everything that was written behind it, and nothing is
written after it. -/
theorem pipe_end_of_file (hslots : ∀ t, t ∈ slots) (data : Fin PIPESIZE → UInt8)
    (as bs : List (Step T)) (hv : (monitor slots).system.Valid (as ++ bs) (start data)) (t : T)
    (n : Int) (hn : 0 < n)
    (ht : returning (((monitor slots).system.exec as (start data)).status t) = some (n, 0)) :
    let p := ((monitor slots).system.exec as (start data)).data.put
    let d := ((monitor slots).system.exec (as ++ bs) (start data)).data
    d.put = p ∧ d.got = p := by
  intro p d
  obtain ⟨hvas, hvbs⟩ := ((monitor slots).system.valid_append ..).1 hv
  have hsound := sound_exec hslots data as hvas
  have hfits := hsound.guarded.places t
  rw [eq_of_returning ht] at hfits
  obtain ⟨hempty, hshut⟩ := hfits hn rfl
  obtain ⟨q, hq⟩ := hsound.guarded.data
  have hput := hq.put
  rw [hq.empty_iff.1 hempty, List.append_nil] at hput
  have hdone := (monitor slots).system.invariant (I := Drained p) (Drained.step hslots)
    ⟨hsound, hshut, rfl, hput.symm⟩ bs hvbs
  rw [← System.exec_append] at hdone
  exact ⟨hdone.put, hdone.got⟩

theorem pipe_end_of_file_byte :
    let d := ((monitor [false, true]).system.exec untilEnd (start fun _ => 0)).data
    let d' := ((monitor [false, true]).system.exec (untilEnd ++ behindEnd) (start fun _ => 0)).data
    d.put = [7] ∧ d'.put = d.put ∧ d'.got = d.put :=
  ⟨by decide +kernel, pipe_end_of_file (by decide) _ untilEnd behindEnd (by decide +kernel) false 2
    (by decide) (by decide +kernel)⟩

/-- The page of a pipe is freed once at most. From then on no process is inside of a call with the
pipe, or can begin one; and it is freed when both ends are closed and no process is. -/
theorem pipe_freed_once (hslots : ∀ t, t ∈ slots) (data : Fin PIPESIZE → UInt8)
    (as : List (Step T)) (hv : (monitor slots).system.Valid as (start data)) :
    let s := (monitor slots).system.exec as (start data)
    s.data.freed ≤ 1
      ∧ (s.data.freed = 1 →
        (∀ t, (s.status t).place.side = none) ∧ ∀ l, calls slots s l = false)
      ∧ (s.data.readopen = false → s.data.writeopen = false →
        (∀ t, (s.status t).place.side = none) → s.data.freed = 1) := by
  intro s
  have h : Sound s := sound_exec hslots data as hv
  refine ⟨?_, fun hfreed => ?_, fun hread hwrite hidle => ?_⟩
  · by_contra hmore
    obtain ⟨hopen, hclosed⟩ := h.frees.of_ne_zero (by omega)
    exact hmore (h.frees.freed hopen hclosed).le
  · obtain ⟨hopen, hclosed⟩ := h.frees.of_ne_zero (by omega)
    exact ⟨fun t => h.ends.side_eq_none hopen (hclosed t), calls_eq_false hopen⟩
  · refine h.frees.freed (fun w => ?_) fun u w hu => ?_
    · cases w
      · exact hread
      · exact hwrite
    · have := hidle u
      rw [hu] at this
      cases this

theorem pipe_freed_once_closed :
    let s := (monitor [false, true]).system.exec (untilEnd ++ behindEnd) (start fun _ => 0)
    s.data.freed = 1 ∧ (∀ t, (s.status t).place.side = none)
      ∧ ∀ l, calls [false, true] s l = false := by
  intro s
  have hfreed : s.data.freed = 1 := by decide +kernel
  exact ⟨hfreed, (pipe_freed_once (by decide) _ (untilEnd ++ behindEnd) (by decide +kernel)).2.1
    hfreed⟩

end Runs

section Wakeups

/-- Before the lock is given back, the channel is to be woken up. -/
def Owes : Code → Chan → Prop
  | .write _ _ _ true, .nread | .wrote _ _, .nread => True
  | .copy _ _ _, .nwrite | .copied _ _, .nwrite => True
  | _, _ => False

/-- Why a process waits on the channel: the pipe is empty, or it is full. -/
def Waits : Chan → Pipe → Prop
  | .nread, d => d.nread = d.nwrite ∧ d.writeopen = true
  | .nwrite, d => d.nwrite = d.nread + BitVec.ofNat 32 PIPESIZE ∧ d.readopen = true

theorem pays_of_move {killed : Bool} {d d' : Pipe} {l : Code} {a : Act Chan Code}
    (hm : Move killed d l d' a) (hat : At l d)
    (hspared : ∀ src n i, l = .write src n i true → (i : Int) < n → killed = false) (k : Chan)
    (h : Waits k d ∨ Owes l k) : Waits k d' ∨ a.Owed Owes k := by
  cases hm with
  | @cutOff src n i unseen hi hcut =>
    cases unseen with
    | true =>
      rcases hcut with hcut | hcut
      · rw [hat rfl] at hcut
        cases hcut
      · rw [hspared src n i rfl hi] at hcut
        cases hcut
    | false =>
      refine .inl (h.resolve_right ?_)
      cases k <;> exact id
  | @store src n i unseen hopen hfull ch =>
    cases k with
    | nread => exact .inr trivial
    | nwrite =>
      refine absurd ?_ hfull
      cases unseen <;> exact (h.resolve_right id).1
  | take hne =>
    cases k with
    | nread => exact absurd (h.resolve_right id).1 hne
    | nwrite => exact .inr trivial
  | @announce src n i unseen | @fault src n i unseen | @written src n i unseen =>
    cases k with
    | nread => exact .inr (by simp [Act.Owed, Owes])
    | nwrite => cases unseen <;> exact .inl (h.resolve_right id)
  | begin | drained | refused | filled | copied | closeRead =>
    cases k with
    | nread => exact .inl (h.resolve_right id)
    | nwrite => exact .inr (by simp [Act.Owed, Owes])
  | wrote | closeWrite =>
    cases k with
    | nread => exact .inr (by simp [Act.Owed])
    | nwrite => exact .inl (h.resolve_right id)
  | idle | full | giveUp | await | ret | free | keep =>
    cases k <;> exact .inl (h.resolve_right id)

theorem waits_of_move {killed : Bool} {d d' : Pipe} {l m : Code} {k : Chan}
    (hm : Move killed d l d' (.wait k m)) (hat : At l d) : Waits k d' := by
  cases hm with
  | full => exact hat
  | await hempty hopen => exact ⟨hempty, hopen⟩

variable {T : Type*} {slots : List T}

/-- A writer with bytes that no reader has been woken up for, and more to write, is not killed. -/
def spared (a : Step T) (s : State T) : Bool :=
  match a with
  | .step t =>
    match s.status t with
    | .inside (.write _ n i true) => !(decide (i < n) && s.killed t)
    | _ => true
  | _ => true

theorem pays {a : Step T} {s : State T} (h : Sound s) (ha : spared a s = true) (t : T) (l : Code)
    (hat : a = .step t) (ht : s.status t = .inside l) :
    Monitor.Pays Owes (fun k _ => Waits k) (monitor slots) s t l := by
  subst hat
  have hm := move_step (s.killed t) s.data l
  have hfits := h.guarded.places t
  rw [ht] at hfits
  refine ⟨fun u k m _ hr => pays_of_move hm hfits (fun src n i hl hi => ?_) k hr, fun k m hw => ?_⟩
  · rw [hl] at ht
    simpa [spared, ht, hi] using ha
  · change (step (s.killed t) s.data l).2 = .wait k m at hw
    rw [hw] at hm
    exact waits_of_move hm hfits

/-- Whoever waits while no process has the lock waits because the pipe is empty or full, and can
still be filled or emptied. -/
theorem pipe_no_lost_wakeup [DecidableEq T] (hslots : ∀ t, t ∈ slots) (data : Fin PIPESIZE → UInt8)
    (as : List (Step T)) (hv : (monitor slots).system.Valid as (start data))
    (hspared : (monitor slots).system.Each (fun a s => spared a s = true) as (start data)) :
    let s := (monitor slots).system.exec as (start data)
    s.holder = none → ∀ t k l, Monitor.Waiting s t k l → Waits k s.data := by
  intro s hfree t k l hw
  have h : Sound s ∧ Monitor.NoLost Owes (fun k _ => Waits k) s := by
    refine System.Each.invariant
      (I := fun u => Sound u ∧ Monitor.NoLost Owes (fun k _ => Waits k) u) (monitor slots).system
      (fun a u hu hcan ha => ?_) as ⟨sound_start data, ?_⟩ hv hspared
    · refine ⟨sound_step hslots a u hu.1 hcan, ?_⟩
      exact Monitor.noLost_step (fun v _ _ _ => hslots v) hu.2 ((monitor slots).step_of_can hcan)
        (pays hu.1 ha)
    · exact fun v k m hv => nomatch hv.2
  exact h.2.waits h.1.ok hfree hw

/-- The reader is there first, and waits again behind the byte it gets. -/
def readerWaits : List (Step Bool) :=
  [.call false (.read (fun _ => false) 2), .acquire false, .step false, .release false,
    .sleep false, .call true (.write (fun _ => some 7) 1 0 false), .acquire true, .step true,
    .step true, .step true, .wake true, .wake true, .wake true, .step true, .acquire false,
    .step false, .step false, .step false, .step false, .wake false, .wake false, .wake false,
    .step false, .call false (.read (fun _ => false) 2), .acquire false, .step false,
    .release false, .sleep false]

theorem pipe_no_lost_wakeup_waits :
    let s := (monitor [false, true]).system.exec readerWaits (start fun _ => 0)
    s.data.got = [7] ∧ s.holder = none ∧ s.chan false = some .nread ∧ Waits .nread s.data := by
  intro s
  have hv : (monitor [false, true]).system.Valid readerWaits (start fun _ => 0) := by
    decide +kernel
  have hspared : (monitor [false, true]).system.Each (fun a s => spared a s = true) readerWaits
      (start fun _ => 0) := by decide +kernel
  have hfree : s.holder = none := by decide +kernel
  have hchan : s.chan false = some .nread := by decide +kernel
  obtain ⟨l, hl⟩ : ∃ l, (s.status false).waits = some l :=
    Option.isSome_iff_exists.1 (by decide +kernel)
  exact ⟨by decide +kernel, hfree, hchan, pipe_no_lost_wakeup (by decide) _ readerWaits hv hspared
    hfree false .nread l ⟨hl, hchan⟩⟩

/-- A writer that is killed behind its first byte leaves the reader asleep next to it. -/
def writerKilled : List (Step Bool) :=
  [.call false (.read (fun _ => false) 2), .acquire false, .step false, .release false,
    .sleep false, .call true (.write (fun _ => some 7) 2 0 false), .acquire true, .step true,
    .kill true, .step true]

example :
    let s := (monitor [false, true]).system.exec writerKilled (start fun _ => 0)
    (monitor [false, true]).system.Valid writerKilled (start fun _ => 0) ∧ s.holder = none
      ∧ (s.status false).waits.isSome = true ∧ s.chan false = some .nread ∧ s.data.put = [7]
      ∧ s.data.got = [] := by
  decide +kernel

end Wakeups

end Pipe

end Kernel

end CShellXv6
