import Mathlib.Data.List.DropRight
import Mathlib.Order.Lattice

/-!
# Insertion sort in place

An array is sorted by descending keys. Each element in turn goes down past the smaller ones before
it, which move up by one place, and so comes to stand behind all those whose key is not smaller
(`place_append`). What stood in some order before stands in it still where the keys are equal
(`sort_pairwise`).
-/

namespace CShellXv6

namespace Insertion

variable {α κ : Type*} [LinearOrder κ] (key : α → κ)

/-- The inner loop for `x`, from place `j` down. -/
def place (x : α) : ℕ → List α → List α
  | 0, l => l.set 0 x
  | j + 1, l =>
    match l[j]? with
    | none => l
    | some y => if key y < key x then place x j (l.set (j + 1) y) else l.set (j + 1) x

/-- One round of the outer loop. -/
def insertAt (l : List α) (i : ℕ) : List α :=
  match l[i]? with
  | none => l
  | some x => place key x i l

def sort (l : List α) : List α :=
  (List.range' 1 (l.length - 1)).foldl (insertAt key) l

/-- `x` behind all that is not smaller, in a list sorted by descending keys. -/
def insertBehind (x : α) (l : List α) : List α :=
  l.rdropWhile (fun y => key y < key x) ++ x :: l.rtakeWhile (fun y => key y < key x)

/-- The larger key goes first, and of equal keys the one that stood first. -/
def Ahead (before : α → α → Prop) (a b : α) : Prop :=
  key b < key a ∨ (key a = key b ∧ before a b)

section Place

variable {x : α}

theorem insertBehind_concat (x z : α) (l : List α) :
    insertBehind key x (l ++ [z])
      = if key z < key x then insertBehind key x l ++ [z] else l ++ [z] ++ [x] := by
  unfold insertBehind
  rw [List.rdropWhile_concat, List.rtakeWhile_concat]
  by_cases hz : key z < key x <;> simp [hz]

theorem insertBehind_perm (x : α) (l : List α) : (insertBehind key x l).Perm (x :: l) := by
  induction l using List.reverseRecOn with
  | nil => exact .refl _
  | append_singleton l z ih =>
    rw [insertBehind_concat]
    split_ifs
    · exact ih.append_right [z]
    · exact List.perm_append_singleton x (l ++ [z])

theorem length_insertBehind (x : α) (l : List α) : (insertBehind key x l).length = l.length + 1 :=
  (insertBehind_perm key x l).length_eq

theorem place_append (a : List α) (y : α) (b : List α) :
    place key x a.length (a ++ y :: b) = insertBehind key x a ++ b := by
  induction a using List.reverseRecOn generalizing y b with
  | nil => rfl
  | append_singleton a z ih =>
    have hget : (a ++ [z] ++ y :: b)[a.length]? = some z := by simp
    have hset : ∀ v, (a ++ [z] ++ y :: b).set (a.length + 1) v = a ++ z :: v :: b := by simp
    rw [List.length_append, List.length_singleton, place, hget, insertBehind_concat]
    simp only [hset]
    split_ifs
    · rw [ih, List.append_assoc, List.singleton_append]
    · simp

theorem insertAt_append (a : List α) (x : α) (b : List α) :
    insertAt key (a ++ x :: b) a.length = insertBehind key x a ++ b := by
  have hget : (a ++ x :: b)[a.length]? = some x := by simp
  rw [insertAt, hget]
  exact place_append key a x b

variable {before : α → α → Prop}

theorem insertBehind_pairwise {l : List α} (h : l.Pairwise (Ahead key before))
    (hx : ∀ y ∈ l, before y x) : (insertBehind key x l).Pairwise (Ahead key before) := by
  induction l using List.reverseRecOn with
  | nil => exact List.pairwise_singleton _ _
  | append_singleton l z ih =>
    obtain ⟨hl, -, hlz⟩ := List.pairwise_append.1 h
    have hlz : ∀ y ∈ l, Ahead key before y z := fun y hy => hlz y hy z List.mem_cons_self
    rw [insertBehind_concat]
    split_ifs with hz
    · refine List.pairwise_append.2 ⟨ih hl fun y hy => hx y (List.mem_append_left _ hy),
        List.pairwise_singleton _ _, fun y hy z' hz' => ?_⟩
      rw [List.mem_singleton.1 hz']
      rcases List.mem_cons.1 ((insertBehind_perm key x l).mem_iff.1 hy) with rfl | hy
      · exact .inl hz
      · exact hlz y hy
    · refine List.pairwise_append.2 ⟨h, List.pairwise_singleton _ _, fun y hy x' hx' => ?_⟩
      rw [List.mem_singleton.1 hx']
      have hle : key x ≤ key y := by
        rcases List.mem_append.1 hy with hyl | hyz
        · rcases hlz y hyl with hlt | ⟨heq, -⟩
          · exact (not_lt.1 hz).trans hlt.le
          · exact heq ▸ not_lt.1 hz
        · rw [List.mem_singleton.1 hyz]
          exact not_lt.1 hz
      rcases hle.lt_or_eq with hlt | heq
      · exact .inl hlt
      · exact .inr ⟨heq.symm, hx y hy⟩

end Place

section Rounds

theorem foldl_insertAt : ∀ (rest done : List α),
    (List.range' done.length rest.length).foldl (insertAt key) (done ++ rest)
      = rest.foldl (fun l x => insertBehind key x l) done
  | [], done => by simp
  | x :: rest, done => by
    have ih := foldl_insertAt rest (insertBehind key x done)
    rw [length_insertBehind] at ih
    rw [List.length_cons, List.range'_succ, List.foldl_cons, insertAt_append, ih, List.foldl_cons]

theorem sort_eq (l : List α) : sort key l = l.foldl (fun l x => insertBehind key x l) [] := by
  rcases l with _ | ⟨x, rest⟩
  · rfl
  · exact foldl_insertAt key rest [x]

theorem foldl_insertBehind_perm : ∀ (rest done : List α),
    (rest.foldl (fun l x => insertBehind key x l) done).Perm (done ++ rest)
  | [], done => by simp
  | x :: rest, done => by
    have hstep : (insertBehind key x done ++ rest).Perm (done ++ x :: rest) :=
      ((insertBehind_perm key x done).append_right rest).trans List.perm_middle.symm
    exact (foldl_insertBehind_perm rest _).trans hstep

theorem sort_perm (l : List α) : (sort key l).Perm l := by
  rw [sort_eq]
  exact foldl_insertBehind_perm key l []

variable {before : α → α → Prop}

theorem foldl_insertBehind_pairwise : ∀ {rest done : List α}, done.Pairwise (Ahead key before) →
    rest.Pairwise before → (∀ y ∈ done, ∀ x ∈ rest, before y x) →
    (rest.foldl (fun l x => insertBehind key x l) done).Pairwise (Ahead key before)
  | [], _, hdone, _, _ => hdone
  | x :: rest, done, hdone, hrest, hbefore => by
    rw [List.pairwise_cons] at hrest
    have hx : ∀ y ∈ done, before y x := fun y hy => hbefore y hy x List.mem_cons_self
    rw [List.foldl_cons]
    refine foldl_insertBehind_pairwise (insertBehind_pairwise key hdone hx) hrest.2
      fun y hy z hz => ?_
    rcases List.mem_cons.1 ((insertBehind_perm key x done).mem_iff.1 hy) with rfl | hy
    · exact hrest.1 z hz
    · exact hbefore y hy z (List.mem_cons_of_mem _ hz)

theorem sort_pairwise {l : List α} (h : l.Pairwise before) :
    (sort key l).Pairwise (Ahead key before) := by
  rw [sort_eq]
  exact foldl_insertBehind_pairwise key .nil h fun _ hy => absurd hy List.not_mem_nil

end Rounds

end Insertion

end CShellXv6
