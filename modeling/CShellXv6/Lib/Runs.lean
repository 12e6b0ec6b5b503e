import Mathlib.Data.List.Induction

/-!
# Runs

A system is given by when an action can happen and what it does to the state; a run is the list
of its actions. An invariant is proved for one action at a time, also where it speaks of the
actions so far.

A system refines another if every one of its actions stands for some actions of the other, which
can happen where `abs` puts the state and lead to where it puts the next one.
-/

namespace CShellXv6

structure System (α σ : Type*) where
  can : α → σ → Prop
  next : α → σ → σ

namespace System

variable {α σ β τ : Type*} (S : System α σ)

def exec : List α → σ → σ
  | [], s => s
  | a :: as, s => exec as (S.next a s)

/-- The actions can happen one after the other. -/
def Valid : List α → σ → Prop
  | [], _ => True
  | a :: as, s => S.can a s ∧ Valid as (S.next a s)

instance decidableValid [∀ a s, Decidable (S.can a s)] :
    ∀ (as : List α) (s : σ), Decidable (S.Valid as s)
  | [], _ => .isTrue trivial
  | a :: as, s =>
    have := decidableValid as (S.next a s)
    inferInstanceAs (Decidable (S.can a s ∧ S.Valid as (S.next a s)))

@[simp] theorem exec_nil (s : σ) : S.exec [] s = s := rfl

@[simp] theorem exec_cons (a : α) (as : List α) (s : σ) :
    S.exec (a :: as) s = S.exec as (S.next a s) := rfl

@[simp] theorem valid_nil (s : σ) : S.Valid [] s := trivial

@[simp] theorem valid_cons (a : α) (as : List α) (s : σ) :
    S.Valid (a :: as) s ↔ S.can a s ∧ S.Valid as (S.next a s) := Iff.rfl

theorem exec_append : ∀ (as bs : List α) (s : σ), S.exec (as ++ bs) s = S.exec bs (S.exec as s)
  | [], _, _ => rfl
  | a :: as, bs, s => exec_append as bs (S.next a s)

theorem valid_append : ∀ (as bs : List α) (s : σ),
    S.Valid (as ++ bs) s ↔ S.Valid as s ∧ S.Valid bs (S.exec as s)
  | [], _, _ => by simp
  | a :: as, bs, s => by
    rw [List.cons_append, valid_cons, valid_append as bs, valid_cons, exec_cons, and_assoc]

theorem valid_of_can (h : ∀ a s, S.can a s) : ∀ (as : List α) (s : σ), S.Valid as s
  | [], _ => trivial
  | a :: as, s => ⟨h a s, valid_of_can h as (S.next a s)⟩

/-- What holds at first, and stays true of the actions so far and the state they led to, holds
after every run. -/
theorem history {I : List α → σ → Prop} {s : σ} (h0 : I [] s)
    (hstep : ∀ as a t, I as t → S.can a t → I (as ++ [a]) (S.next a t)) (as : List α)
    (h : S.Valid as s) : I as (S.exec as s) := by
  induction as using List.reverseRecOn with
  | nil => exact h0
  | append_singleton as a ih =>
    rw [valid_append] at h
    rw [exec_append]
    exact hstep as a _ (ih h.1) h.2.1

theorem invariant {I : σ → Prop} (hstep : ∀ a t, I t → S.can a t → I (S.next a t)) {s : σ}
    (h0 : I s) (as : List α) (h : S.Valid as s) : I (S.exec as s) :=
  S.history (I := fun _ t => I t) h0 (fun _ a t => hstep a t) as h

/-- Every state of a run, the first and the last included, is as `P` says. -/
def Throughout (P : σ → Prop) : List α → σ → Prop
  | [], s => P s
  | a :: as, s => P s ∧ Throughout P as (S.next a s)

instance decidableThroughout {P : σ → Prop} [∀ s, Decidable (P s)] :
    ∀ (as : List α) (s : σ), Decidable (S.Throughout P as s)
  | [], s => inferInstanceAs (Decidable (P s))
  | a :: as, s =>
    have := decidableThroughout (P := P) as (S.next a s)
    inferInstanceAs (Decidable (P s ∧ S.Throughout P as (S.next a s)))

theorem Throughout.first {P : σ → Prop} : ∀ {as : List α} {s : σ}, S.Throughout P as s → P s
  | [], _, h => h
  | _ :: _, _, h => h.1

theorem throughout_append {P : σ → Prop} : ∀ {as bs : List α} {s : σ},
    S.Throughout P (as ++ bs) s ↔ S.Throughout P as s ∧ S.Throughout P bs (S.exec as s)
  | [], _, _ => ⟨fun h => ⟨h.first, h⟩, And.right⟩
  | a :: as, bs, s => by
    rw [List.cons_append, Throughout, throughout_append, Throughout, exec_cons, and_assoc]

theorem Throughout.last {P : σ → Prop} {as : List α} {s : σ} (h : S.Throughout P as s) :
    P (S.exec as s) := by
  rw [← List.append_nil as, throughout_append] at h
  exact h.2

theorem Throughout.mono {P Q : σ → Prop} (hPQ : ∀ s, P s → Q s) : ∀ {as : List α} {s : σ},
    S.Throughout P as s → S.Throughout Q as s
  | [], s, h => hPQ s h
  | _ :: _, s, h => ⟨hPQ s h.1, Throughout.mono hPQ h.2⟩

/-- The run took the action `a` in a state as `J` says, and every state since is as `P` says. -/
def Since (a : α) (J P : σ → Prop) (as : List α) (s : σ) : Prop :=
  ∃ u v, as = u ++ a :: v ∧ J (S.exec u s) ∧ S.Throughout P v (S.exec (u ++ [a]) s)

theorem since_now {a : α} {J P : σ → Prop} {as : List α} {s : σ} (hJ : J (S.exec as s))
    (hP : P (S.next a (S.exec as s))) : S.Since a J P (as ++ [a]) s := by
  refine ⟨as, [], rfl, hJ, ?_⟩
  rw [exec_append]
  exact hP

theorem Since.snoc {a : α} {J P : σ → Prop} {as : List α} {s : σ} (h : S.Since a J P as s) {b : α}
    (hP : P (S.next b (S.exec as s))) : S.Since a J P (as ++ [b]) s := by
  obtain ⟨u, v, rfl, hJ, hv⟩ := h
  refine ⟨u, v ++ [b], by simp, hJ, (throughout_append S).2 ⟨hv, hv.last, ?_⟩⟩
  rw [← exec_append, List.append_assoc, List.singleton_append]
  exact hP

/-- A relation that every action keeps between two states as `P` says relates the ends of a run
that is as `P` says throughout. -/
theorem Throughout.rel {P : σ → Prop} {R : σ → σ → Prop} (hrefl : ∀ s, R s s)
    (htrans : ∀ s t u, R s t → R t u → R s u)
    (hstep : ∀ a s, S.can a s → P s → P (S.next a s) → R s (S.next a s)) :
    ∀ {as : List α} {s : σ}, S.Valid as s → S.Throughout P as s → R s (S.exec as s)
  | [], s, _, _ => hrefl s
  | a :: _, s, hv, h =>
    htrans _ _ _ (hstep a s hv.1 h.1 h.2.first) (Throughout.rel hrefl htrans hstep hv.2 h.2)

/-- Every action of a run is taken in a state as `P` says. -/
def Each (P : α → σ → Prop) : List α → σ → Prop
  | [], _ => True
  | a :: as, s => P a s ∧ Each P as (S.next a s)

instance decidableEach {P : α → σ → Prop} [∀ a s, Decidable (P a s)] :
    ∀ (as : List α) (s : σ), Decidable (S.Each P as s)
  | [], _ => .isTrue trivial
  | a :: as, s =>
    have := decidableEach (P := P) as (S.next a s)
    inferInstanceAs (Decidable (P a s ∧ S.Each P as (S.next a s)))

theorem each_append {P : α → σ → Prop} : ∀ (as bs : List α) {s : σ},
    S.Each P (as ++ bs) s ↔ S.Each P as s ∧ S.Each P bs (S.exec as s)
  | [], _, _ => by simp [Each]
  | a :: as, bs, s => by
    rw [List.cons_append, Each, each_append as bs, Each, exec_cons, and_assoc]

theorem each_snoc {P : α → σ → Prop} (as : List α) {a : α} {s : σ} :
    S.Each P (as ++ [a]) s ↔ S.Each P as s ∧ P a (S.exec as s) := by
  simp [each_append, Each]

theorem Each.behind {P : α → σ → Prop} : ∀ (as : List α) {a : α} {bs : List α} {s : σ},
    S.Each P (as ++ a :: bs) s → P a (S.exec as s)
  | [], _, _, _, h => h.1
  | _ :: as, _, _, _, h => Each.behind as h.2

theorem Each.invariant {P : α → σ → Prop} {I : σ → Prop}
    (hstep : ∀ a t, I t → S.can a t → P a t → I (S.next a t)) :
    ∀ (as : List α) {s : σ}, I s → S.Valid as s → S.Each P as s → I (S.exec as s)
  | [], _, h, _, _ => h
  | a :: as, _, h, hv, heach =>
    Each.invariant hstep as (hstep a _ h hv.1 heach.1) hv.2 heach.2

/-- The actions a run stands for. -/
def trace (out : α → σ → List β) : List α → σ → List β
  | [], _ => []
  | a :: as, s => out a s ++ trace out as (S.next a s)

theorem trace_append (out : α → σ → List β) : ∀ (as bs : List α) (s : σ),
    S.trace out (as ++ bs) s = S.trace out as s ++ S.trace out bs (S.exec as s)
  | [], _, _ => rfl
  | a :: as, bs, s => by
    rw [List.cons_append, trace, trace, trace_append out as bs, List.append_assoc, exec_cons]

/-- In the states `I` allows, an action of `S` is the actions `out` of `T`. -/
structure Refines (S : System α σ) (T : System β τ) (abs : σ → τ) (out : α → σ → List β)
    (I : σ → Prop) : Prop where
  keeps : ∀ a s, I s → S.can a s → I (S.next a s)
  valid : ∀ a s, I s → S.can a s → T.Valid (out a s) (abs s)
  exec : ∀ a s, I s → S.can a s → T.exec (out a s) (abs s) = abs (S.next a s)

theorem Refines.run {S : System α σ} {T : System β τ} {abs : σ → τ} {out : α → σ → List β}
    {I : σ → Prop} (h : S.Refines T abs out I) :
    ∀ (as : List α) (s : σ), I s → S.Valid as s →
      T.Valid (S.trace out as s) (abs s) ∧ T.exec (S.trace out as s) (abs s) = abs (S.exec as s)
  | [], _, _, _ => ⟨trivial, rfl⟩
  | a :: as, s, hI, hv => by
    have ih := h.run as (S.next a s) (h.keeps a s hI hv.1) hv.2
    rw [trace, valid_append, exec_append, h.exec a s hI hv.1]
    exact ⟨⟨h.valid a s hI hv.1, ih.1⟩, ih.2⟩

theorem Refines.trans {γ υ : Type*} {S : System α σ} {T : System β τ} {U : System γ υ}
    {abs : σ → τ} {out : α → σ → List β} {I : σ → Prop} {abs' : τ → υ} {out' : β → τ → List γ}
    {J : τ → Prop} (h : S.Refines T abs out I) (h' : T.Refines U abs' out' J)
    (hJ : ∀ s, I s → J (abs s)) :
    S.Refines U (fun s => abs' (abs s)) (fun a s => T.trace out' (out a s) (abs s)) I where
  keeps := h.keeps
  valid a s hs hc := (h'.run (out a s) (abs s) (hJ s hs) (h.valid a s hs hc)).1
  exec a s hs hc := by
    rw [(h'.run (out a s) (abs s) (hJ s hs) (h.valid a s hs hc)).2, h.exec a s hs hc]

end System

end CShellXv6
