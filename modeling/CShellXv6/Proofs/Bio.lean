import CShellXv6.Kernel.Bio
import Mathlib.Data.Fintype.Card

/-!
# The buffer cache

The list runs through all buffers, so that the loops of `bget` find a buffer if there is one
(`bget_hit`, `bget_miss`), and a block has at most one buffer.
-/

namespace CShellXv6

namespace Kernel

namespace Bcache

variable {NBUF : ℕ} {T D : Type*} {c : Bcache NBUF T D} {dev b : ℕ}

/-- The list runs through all buffers. -/
def Listed (c : Bcache NBUF T D) (l : List (Fin NBUF)) : Prop :=
  c.list.Ring l ∧ ∀ i, i ∈ l

/-- No two buffers are for the same block of the device. -/
def Unique (c : Bcache NBUF T D) (dev : ℕ) : Prop :=
  ∀ i j, (c.buf i).dev = dev → (c.buf j).dev = dev → (c.buf i).blockno = (c.buf j).blockno → i = j

theorem Listed.length_lt {l : List (Fin NBUF)} (h : c.Listed l) : l.length < NBUF + 1 := by
  have := h.1.nodup.length_le_card
  rw [Fintype.card_fin] at this
  omega

theorem foldl_insert {k : Links (Fin NBUF)} : ∀ {l m : List (Fin NBUF)}, k.Ring m →
    (l.reverse ++ m).Nodup → (l.foldl Links.insert k).Ring (l.reverse ++ m)
  | [], _, h, _ => h
  | i :: l, m, h, hd => by
    rw [List.reverse_cons, List.append_assoc, List.singleton_append] at hd ⊢
    refine foldl_insert (h.insert ?_) hd
    exact (List.nodup_cons.1 (List.nodup_append.1 hd).2.1).1

theorem listed_binit (zero : D) :
    (binit zero : Bcache NBUF T D).Listed (List.finRange NBUF).reverse := by
  refine ⟨?_, fun i => by simp⟩
  have := foldl_insert (l := List.finRange NBUF) Links.ring_empty
    (by simpa using List.nodup_finRange NBUF)
  rwa [List.append_nil] at this

@[simp] theorem set_self (i : Fin NBUF) (x : Buf T D) : (c.set i x).buf i = x :=
  Function.update_self ..

@[simp] theorem set_set (i : Fin NBUF) (x y : Buf T D) : (c.set i x).set i y = c.set i y := by
  simp [set]

@[simp] theorem set_same (i : Fin NBUF) : c.set i (c.buf i) = c := by
  simp [set]

theorem set_of_ne {i j : Fin NBUF} (h : j ≠ i) (x : Buf T D) : (c.set i x).buf j = c.buf j :=
  Function.update_of_ne h ..

theorem set_dev {i : Fin NBUF} {x : Buf T D} (hx : x.dev = (c.buf i).dev) (j : Fin NBUF) :
    ((c.set i x).buf j).dev = (c.buf j).dev := by
  by_cases hj : j = i
  · rw [hj, set_self, hx]
  · rw [set_of_ne hj]

theorem set_blockno {i : Fin NBUF} {x : Buf T D} (hx : x.blockno = (c.buf i).blockno)
    (j : Fin NBUF) : ((c.set i x).buf j).blockno = (c.buf j).blockno := by
  by_cases hj : j = i
  · rw [hj, set_self, hx]
  · rw [set_of_ne hj]

theorem Unique.set {i : Fin NBUF} {x : Buf T D} (h : c.Unique dev) (hdev : x.dev = (c.buf i).dev)
    (hno : x.blockno = (c.buf i).blockno) : (c.set i x).Unique dev := by
  intro j k
  rw [set_dev hdev j, set_dev hdev k, set_blockno hno j, set_blockno hno k]
  exact h j k

/-- What `bget` does with a block that has a buffer. -/
theorem bget_hit {l : List (Fin NBUF)} (h : c.Listed l)
    (hb : ∃ i, (c.buf i).dev = dev ∧ (c.buf i).blockno = b) :
    ∃ i, (c.buf i).dev = dev ∧ (c.buf i).blockno = b
      ∧ c.bget dev b = some (i, c.set i { c.buf i with refcnt := (c.buf i).refcnt + 1 }) := by
  obtain ⟨j, hj⟩ := hb
  obtain ⟨i, hi⟩ :
      ∃ i, l.find? (fun i => (c.buf i).dev = dev ∧ (c.buf i).blockno = b) = some i := by
    rw [← Option.isSome_iff_exists, List.find?_isSome]
    exact ⟨j, h.2 j, by simpa using hj⟩
  have hP := List.find?_some hi
  rw [decide_eq_true_eq] at hP
  refine ⟨i, hP.1, hP.2, ?_⟩
  rw [bget, h.1.search h.length_lt, hi]

/-- What `bget` does with a block that has no buffer: it takes the last buffer in the list that is
not in use. -/
theorem bget_miss {l : List (Fin NBUF)} (h : c.Listed l)
    (hb : ∀ i, ¬ ((c.buf i).dev = dev ∧ (c.buf i).blockno = b)) :
    c.bget dev b = (l.reverse.find? fun i => (c.buf i).refcnt = 0).map fun i =>
      (i, c.set i { c.buf i with dev, blockno := b, valid := false, refcnt := 1 }) := by
  have hnone : l.find? (fun i => (c.buf i).dev = dev ∧ (c.buf i).blockno = b) = none := by
    rw [List.find?_eq_none]
    intro i _
    simpa using hb i
  rw [bget, h.1.search h.length_lt, hnone, h.1.search_flip h.length_lt]
  cases l.reverse.find? fun i => (c.buf i).refcnt = 0 <;> rfl

/-- The two ways in which `bget` gives a buffer. -/
theorem bget_cases {l : List (Fin NBUF)} (h : c.Listed l) {i : Fin NBUF} {c' : Bcache NBUF T D}
    (hb : c.bget dev b = some (i, c')) :
    ((c.buf i).dev = dev ∧ (c.buf i).blockno = b
        ∧ c' = c.set i { c.buf i with refcnt := (c.buf i).refcnt + 1 })
      ∨ ((∀ j, ¬ ((c.buf j).dev = dev ∧ (c.buf j).blockno = b)) ∧ (c.buf i).refcnt = 0
        ∧ c' = c.set i { c.buf i with dev, blockno := b, valid := false, refcnt := 1 }) := by
  by_cases hc : ∃ j, (c.buf j).dev = dev ∧ (c.buf j).blockno = b
  · obtain ⟨j, hj, hj', he⟩ := bget_hit h hc
    rw [he, Option.some.injEq, Prod.mk.injEq] at hb
    obtain ⟨rfl, rfl⟩ := hb
    exact .inl ⟨hj, hj', rfl⟩
  · have hm := fun j => not_exists.1 hc j
    rw [bget_miss h hm, Option.map_eq_some_iff] at hb
    obtain ⟨j, hj, he⟩ := hb
    rw [Prod.mk.injEq] at he
    obtain ⟨rfl, rfl⟩ := he
    exact .inr ⟨hm, by simpa using List.find?_some hj, rfl⟩

/-- `bget` panics if and only if the block has no buffer and every buffer is in use. -/
theorem bget_eq_none_iff {l : List (Fin NBUF)} (h : c.Listed l) :
    c.bget dev b = none ↔ (∀ i, ¬ ((c.buf i).dev = dev ∧ (c.buf i).blockno = b))
      ∧ ∀ i, (c.buf i).refcnt ≠ 0 := by
  by_cases hc : ∃ j, (c.buf j).dev = dev ∧ (c.buf j).blockno = b
  · obtain ⟨j, hj, hj', he⟩ := bget_hit h hc
    simp only [he, reduceCtorEq, false_iff]
    exact fun hm => hm.1 j ⟨hj, hj'⟩
  · have hm := fun j => not_exists.1 hc j
    rw [bget_miss h hm, Option.map_eq_none_iff, List.find?_eq_none]
    simp only [List.mem_reverse, decide_eq_true_eq]
    exact ⟨fun hr => ⟨hm, fun i => hr i (h.2 i)⟩, fun hr i _ => hr.2 i⟩

theorem unref_buf (i : Fin NBUF) :
    (c.unref i).buf = (c.set i { c.buf i with refcnt := (c.buf i).refcnt - 1 }).buf := by
  simp only [unref]
  split <;> rfl

/-- A buffer that is no longer in use comes first. -/
theorem Listed.unref {l : List (Fin NBUF)} (h : c.Listed l) (i : Fin NBUF) :
    (c.unref i).Listed (if (c.buf i).refcnt - 1 = 0 then i :: l.erase i else l) := by
  simp only [Bcache.unref, set_self]
  split
  · refine ⟨(h.1.remove (h.2 i)).insert h.1.nodup.not_mem_erase, fun j => ?_⟩
    by_cases hji : j = i
    · simp [hji]
    · exact List.mem_cons_of_mem _ ((List.mem_erase_of_ne hji).2 (h.2 j))
  · exact h

end Bcache

end Kernel

end CShellXv6
