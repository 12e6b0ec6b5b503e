import Mathlib.Data.List.Lex

/-!
# Paths in lexicographic order

A path is the list of its components. In the lexicographic order of their paths, what is below a
path stands right behind it and in front of everything that is not, and two paths with one parent
are in the order of their last components.
-/

namespace CShellXv6

namespace Nesting

variable {α β : Type*} {r : α → α → Prop}

theorem lex_of_isPrefix {p q : List α} (h : p <+: q) (hne : p ≠ q) : List.Lex r p q := by
  obtain ⟨t, rfl⟩ := h
  rcases t with - | ⟨a, t⟩
  · exact absurd (List.append_nil p).symm hne
  · have hlex := List.Lex.append_left r (@List.Lex.nil α r a t) p
    rwa [List.append_nil] at hlex

section Asymm

variable (r) in
theorem lex_siblings [Std.Asymm r] {m n : α} :
    ∀ {p : List α}, List.Lex r (p ++ [m]) (p ++ [n]) → r m n
  | [], h => (List.lex_singleton_iff m n).1 h
  | _ :: _, h => lex_siblings (List.lex_cons_iff.1 h)

variable [Std.Asymm r]

/-- Between a path and one below it there are only paths below it. -/
theorem isPrefix_of_between : ∀ {p q t : List α}, List.Lex r p q → List.Lex r q (p ++ t) → p <+: q
  | [], q, _, _, _ => List.nil_prefix
  | a :: p, q, t, hpq, hqt => by
    rcases hpq with - | hab | hpq
    · rcases hqt with - | hba | -
      · exact absurd hba (asymm_of r hab)
      · exact absurd hab (irrefl_of r a)
    · rcases hqt with - | haa | hqt
      · exact absurd haa (irrefl_of r a)
      · exact (List.prefix_cons_inj a).2 (isPrefix_of_between hpq hqt)

theorem not_isPrefix_of_lex {p q : List α} (h : List.Lex r q p) : ¬ p <+: q := by
  intro hp
  by_cases heq : p = q
  · exact irrefl_of (List.Lex r) q (heq ▸ h)
  · exact asymm_of (List.Lex r) h (lex_of_isPrefix hp heq)

variable {f : β → List α}

theorem split_inside {p : List α} : ∀ {l : List β}, (∀ e ∈ l, List.Lex r p (f e)) →
    l.Pairwise (fun a b => List.Lex r (f a) (f b)) →
    ∃ inside behind, l = inside ++ behind ∧ (∀ e ∈ inside, p <+: f e) ∧ ∀ e ∈ behind, ¬ p <+: f e
  | [], _, _ => ⟨[], [], rfl, by simp, by simp⟩
  | d :: l, hl, hsorted => by
    rw [List.pairwise_cons] at hsorted
    by_cases hd : p <+: f d
    · obtain ⟨inside, behind, rfl, hinside, hbehind⟩ :=
        split_inside (fun e he => hl e (List.mem_cons_of_mem d he)) hsorted.2
      exact ⟨d :: inside, behind, rfl, List.forall_mem_cons.2 ⟨hd, hinside⟩, hbehind⟩
    · refine ⟨[], d :: l, rfl, by simp, List.forall_mem_cons.2 ⟨hd, fun e he => ?_⟩⟩
      rintro ⟨t, ht⟩
      have hlt := hsorted.1 e he
      rw [← ht] at hlt
      exact hd (isPrefix_of_between (hl d List.mem_cons_self) hlt)

theorem inside_follows {before after : List β} {d : β}
    (h : (before ++ d :: after).Pairwise fun a b => List.Lex r (f a) (f b)) :
    ∃ inside behind, after = inside ++ behind ∧ (∀ e ∈ inside, f d <+: f e)
      ∧ ∀ e ∈ before ++ behind, ¬ f d <+: f e := by
  rw [List.pairwise_append, List.pairwise_cons] at h
  obtain ⟨inside, behind, hafter, hinside, hbehind⟩ := split_inside h.2.1.1 h.2.1.2
  refine ⟨inside, behind, hafter, hinside, fun e he => ?_⟩
  rcases List.mem_append.1 he with he | he
  · exact not_isPrefix_of_lex (h.2.2 e he d List.mem_cons_self)
  · exact hbehind e he

end Asymm

/-- Blocks whose paths start with one component each, in the order of these components. -/
theorem pairwise_blocks {γ : Type*} {name : γ → α} {block : γ → List β} {f : β → List α}
    {l : List γ} (hl : l.Pairwise fun a b => r (name a) (name b))
    (hblock : ∀ c ∈ l, (block c).Pairwise fun a b => List.Lex r (f a) (f b))
    (hhead : ∀ c ∈ l, ∀ e ∈ block c, (f e).head? = some (name c)) :
    (l.flatMap block).Pairwise fun a b => List.Lex r (f a) (f b) := by
  rw [List.pairwise_flatMap]
  refine ⟨hblock, hl.imp_of_mem fun {a b} ha hb hab x hx y hy => ?_⟩
  obtain ⟨t, ht⟩ := List.head?_eq_some_iff.1 (hhead a ha x hx)
  obtain ⟨u, hu⟩ := List.head?_eq_some_iff.1 (hhead b hb y hy)
  rw [ht, hu]
  exact .rel hab

end Nesting

end CShellXv6
