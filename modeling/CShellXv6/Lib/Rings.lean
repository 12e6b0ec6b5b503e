import Mathlib.Logic.Function.Basic
import Mathlib.Data.List.Induction
import Mathlib.Data.List.Nodup

/-!
# Rings of links

A doubly linked ring through a head node, `none`: every node has its next and its previous one.
`Ring k l` says that the links `k` run through the nodes `l`, from the head on. A search along the
links is a search of the list, in its order or against it.
-/

namespace CShellXv6

structure Links (α : Type*) where
  next : Option α → Option α
  prev : Option α → Option α

namespace Links

variable {α : Type*}

/-- The nodes of `l` come between `x` and `y`. -/
def Linked (k : Links α) : Option α → List α → Option α → Prop
  | x, [], y => k.next x = y ∧ k.prev y = x
  | x, a :: l, y => (k.next x = some a ∧ k.prev (some a) = x) ∧ Linked k (some a) l y

structure Ring (k : Links α) (l : List α) : Prop where
  nodup : l.Nodup
  linked : k.Linked none l none

/-- The same links, read backwards. -/
def flip (k : Links α) : Links α :=
  ⟨k.prev, k.next⟩

/-- The first node that `P` holds of, from `x` on, before the head node comes again. -/
def search (step : Option α → Option α) (P : α → Bool) : ℕ → Option α → Option α
  | 0, _ => none
  | _ + 1, none => none
  | n + 1, some a => if P a then some a else search step P n (step (some a))

def empty : Links α :=
  ⟨fun _ => none, fun _ => none⟩

section Change

variable [DecidableEq α]

/-- The node `b` comes behind the head node. -/
def insert (k : Links α) (b : α) : Links α :=
  let next := Function.update k.next (some b) (k.next none)
  let prev := Function.update k.prev (some b) none
  ⟨Function.update next none (some b), Function.update prev (next none) (some b)⟩

/-- The neighbours of the node `b` are linked to each other. -/
def remove (k : Links α) (b : α) : Links α :=
  let prev := Function.update k.prev (k.next (some b)) (k.prev (some b))
  ⟨Function.update k.next (prev (some b)) (k.next (some b)), prev⟩

end Change

variable {k k' : Links α}

theorem linked_append : ∀ (l : List α) {x y : Option α} {a : α} {l' : List α},
    k.Linked x (l ++ a :: l') y ↔ k.Linked x l (some a) ∧ k.Linked (some a) l' y
  | [], _, _, _, _ => Iff.rfl
  | b :: l, x, y, a, l' => by
    rw [List.cons_append, Linked, linked_append l, Linked, ← and_assoc]

theorem linked_concat {l : List α} {x y : Option α} {a : α} :
    k.Linked x (l ++ [a]) y ↔ k.Linked x l (some a) ∧ k.next (some a) = y ∧ k.prev y = some a :=
  linked_append l

/-- Links that agree on the way from `x` to `y` run through the same nodes. -/
theorem Linked.congr : ∀ {l : List α} {x y : Option α}, k.Linked x l y →
    k'.next x = k.next x → k'.prev y = k.prev y →
    (∀ a ∈ l, k'.next (some a) = k.next (some a) ∧ k'.prev (some a) = k.prev (some a)) →
    k'.Linked x l y
  | [], _, _, h, hx, hy, _ => ⟨hx.trans h.1, hy.trans h.2⟩
  | a :: l, _, _, h, hx, hy, hl => by
    obtain ⟨⟨h1, h2⟩, h⟩ := h
    have ha := hl a List.mem_cons_self
    exact ⟨⟨hx.trans h1, ha.2.trans h2⟩,
      h.congr ha.1 hy fun b hb => hl b (List.mem_cons_of_mem _ hb)⟩

theorem Linked.flip : ∀ {l : List α} {x y : Option α}, k.Linked x l y →
    k.flip.Linked y l.reverse x
  | [], _, _, h => ⟨h.2, h.1⟩
  | a :: l, x, y, h => by
    rw [List.reverse_cons, linked_concat]
    exact ⟨h.2.flip, h.1.2, h.1.1⟩

theorem Ring.flip {l : List α} (h : k.Ring l) : k.flip.Ring l.reverse :=
  ⟨List.nodup_reverse.2 h.nodup, h.linked.flip⟩

theorem Linked.search {P : α → Bool} : ∀ {l : List α} {x : Option α} {n : ℕ}, k.Linked x l none →
    l.length < n → Links.search k.next P n (k.next x) = l.find? P
  | [], x, n + 1, h, _ => by rw [h.1, Links.search, List.find?_nil]
  | a :: l, x, n + 1, h, hn => by
    rw [List.length_cons, Nat.add_lt_add_iff_right] at hn
    rw [h.1.1, Links.search, List.find?_cons, h.2.search hn]
    cases P a <;> rfl

theorem Ring.search {P : α → Bool} {l : List α} {n : ℕ} (h : k.Ring l) (hn : l.length < n) :
    Links.search k.next P n (k.next none) = l.find? P :=
  h.linked.search hn

theorem Ring.search_flip {P : α → Bool} {l : List α} {n : ℕ} (h : k.Ring l) (hn : l.length < n) :
    Links.search k.prev P n (k.prev none) = l.reverse.find? P :=
  h.flip.search (by rwa [List.length_reverse])

theorem ring_empty : (empty : Links α).Ring [] :=
  ⟨List.nodup_nil, rfl, rfl⟩

theorem Linked.mem_of_prev {l : List α} {y : Option α} {c : α} (h : k.Linked none l y)
    (hc : k.prev y = some c) : c ∈ l := by
  rcases List.eq_nil_or_concat' l with rfl | ⟨l, a, rfl⟩
  · rw [h.2] at hc
    cases hc
  · rw [(linked_concat.1 h).2.2] at hc
    simp [Option.some.inj hc]

variable [DecidableEq α]

theorem Ring.insert {l : List α} {b : α} (h : k.Ring l) (hb : b ∉ l) :
    (k.insert b).Ring (b :: l) := by
  refine ⟨List.nodup_cons.2 ⟨hb, h.nodup⟩, ?_⟩
  obtain ⟨hd, hl⟩ := h
  cases l with
  | nil =>
    obtain ⟨h1, h2⟩ := hl
    simp [Links.insert, Linked, h1]
  | cons a l =>
    obtain ⟨⟨h1, h2⟩, hl⟩ := hl
    rw [List.mem_cons, not_or] at hb
    have hab : some a ≠ some b := by simpa using Ne.symm hb.1
    refine ⟨⟨by simp [Links.insert], by simp [Links.insert, h1, hab.symm]⟩,
      ⟨by simp [Links.insert, h1], by simp [Links.insert, h1]⟩, ?_⟩
    refine hl.congr ?_ ?_ fun c hc => ?_
    · simp [Links.insert, Ne.symm hb.1]
    · simp [Links.insert, h1]
    · have hca : c ≠ a := fun he => (List.nodup_cons.1 hd).1 (he ▸ hc)
      have hcb : c ≠ b := fun he => hb.2 (he ▸ hc)
      simp [Links.insert, h1, hca, hcb]

/-- The way to a node goes on to `y` instead. -/
theorem Linked.retarget {l : List α} {b : α} {y : Option α} (h : k.Linked none l (some b))
    (hd : l.Nodup) (hnext : k'.next = Function.update k.next (k.prev (some b)) y)
    (hy : k'.prev y = k.prev (some b)) (hprev : ∀ a ∈ l, k'.prev (some a) = k.prev (some a)) :
    k'.Linked none l y := by
  rcases List.eq_nil_or_concat' l with rfl | ⟨l, c, rfl⟩
  · exact ⟨by rw [hnext, h.2, Function.update_self], by rw [hy, h.2]⟩
  · obtain ⟨hl, h1, h2⟩ := linked_concat.1 h
    rw [h2] at hnext hy
    have hne : ∀ x, x ≠ some c → k'.next x = k.next x := fun x hx => by
      rw [hnext, Function.update_of_ne hx]
    refine linked_concat.2 ⟨hl.congr (hne none (by simp)) (hprev c (by simp)) fun a ha => ?_,
      by rw [hnext, Function.update_self], hy⟩
    refine ⟨hne _ fun he => ?_, hprev a (by simp [ha])⟩
    exact (List.nodup_append.1 hd).2.2 a ha c (by simp) (Option.some.inj he)

theorem Ring.remove {l : List α} {b : α} (h : k.Ring l) (hb : b ∈ l) :
    (k.remove b).Ring (l.erase b) := by
  refine ⟨h.nodup.erase b, ?_⟩
  obtain ⟨l, l', rfl⟩ := List.append_of_mem hb
  obtain ⟨hd, hl⟩ := h
  obtain ⟨h1, h2⟩ := (linked_append l).1 hl
  have hb1 : b ∉ l := fun hc => (List.nodup_append.1 hd).2.2 b hc b (by simp) rfl
  have hb2 : b ∉ l' := (List.nodup_cons.1 (List.nodup_append.1 hd).2.1).1
  rw [List.erase_append_right _ hb1, List.erase_cons_head]
  cases l' with
  | nil =>
    have hn : k.next (some b) = none := h2.1
    rw [List.append_nil]
    exact h1.retarget (by simpa using (List.nodup_append.1 hd).1)
      (by simp [Links.remove, hn]) (by simp [Links.remove, hn]) (by simp [Links.remove, hn])
  | cons a l' =>
    obtain ⟨⟨h2a, h2b⟩, h2⟩ := h2
    obtain ⟨hd1, hd2, hd12⟩ := List.nodup_append.1 hd
    have hab : b ≠ a := fun he => hb2 (by simp [he])
    have hp : ∀ c ∈ a :: l', some c ≠ k.prev (some b) := fun c hc he =>
      hd12 c (h1.mem_of_prev he.symm) c (List.mem_cons_of_mem _ hc) rfl
    have hnext : (k.remove b).next = Function.update k.next (k.prev (some b)) (some a) := by
      simp [Links.remove, h2a, hab]
    refine (linked_append l).2 ⟨h1.retarget hd1 hnext (by simp [Links.remove, h2a])
      fun c hc => ?_, h2.congr ?_ (by simp [Links.remove, h2a]) fun c hc => ⟨?_, ?_⟩⟩
    · have : c ≠ a := hd12 c hc a (by simp)
      simp [Links.remove, h2a, this]
    · rw [hnext, Function.update_of_ne (hp a List.mem_cons_self)]
    · rw [hnext, Function.update_of_ne (hp c (List.mem_cons_of_mem _ hc))]
    · have : c ≠ a := fun he => (List.nodup_cons.1 (List.nodup_cons.1 hd2).2).1 (he ▸ hc)
      simp [Links.remove, h2a, this]

end Links

end CShellXv6
