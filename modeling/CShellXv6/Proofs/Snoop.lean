import CShellXv6.Lib.Occurrences
import CShellXv6.Shell.Snoop
import Mathlib.Algebra.BigOperators.Ring.Finset

/-!
# What `snoop` counts

Behind every turn the table has an entry for each number that has been entered, in the order in
which they first were, with the count of its entries so far. An exit changes the time of an entry
and nothing else, whichever entry it is. `print_summary` then sorts by the counts and keeps the
order of the first entries among equal ones.
-/

namespace CShellXv6

namespace Shell

namespace Snoop

open Occurrences

variable {δ : Type}

/-- The entries are those of the numbers entered so far. -/
structure Tallies (numbers : List Int) (es : List (Entry δ)) : Prop where
  firsts : Firsts numbers (es.map Entry.number)
  calls : ∀ e ∈ es, e.calls = numbers.count e.number

section Entries

variable {numbers : List Int} {es : List (Entry δ)} {n : Int}

theorem modify_append (f : Entry δ → Entry δ) (e : Entry δ) (b : List (Entry δ)) :
    ∀ a : List (Entry δ), (a ++ e :: b).modify a.length f = a ++ f e :: b
  | [] => by simp
  | _ :: a => by simpa using modify_append f e b a

/-- An entry is counted up. -/
theorem Tallies.again {a b : List (Entry δ)} {e : Entry δ} (h : Tallies numbers (a ++ e :: b)) :
    Tallies (numbers ++ [e.number]) (a ++ { e with calls := e.calls + 1 } :: b) := by
  have hmap : (a ++ { e with calls := e.calls + 1 } :: b).map Entry.number
      = (a ++ e :: b).map Entry.number := by simp
  have hmem : e.number ∈ numbers := (h.firsts.mem_iff _).1 (by simp)
  have hnodup := h.firsts.nodup
  rw [List.map_append, List.map_cons, List.nodup_middle, List.nodup_cons, ← List.map_append]
    at hnodup
  refine ⟨hmap ▸ h.firsts.again hmem, fun e' he' => ?_⟩
  rw [List.count_append, List.count_singleton]
  rcases List.mem_cons.1 (List.perm_middle.mem_iff.1 he') with rfl | he'
  · rw [h.calls e (by simp), if_pos (beq_self_eq_true _)]
    rfl
  · have hne : e.number ≠ e'.number := fun heq => hnodup.1 (heq ▸ List.mem_map_of_mem he')
    rw [h.calls e' (List.perm_middle.mem_iff.2 (List.mem_cons_of_mem e he')), if_neg (by simpa),
      Nat.add_zero]

/-- An entry is made for a number, and counted up. -/
theorem Tallies.new (h : Tallies numbers es) (hn : n ∉ numbers) (seconds : δ) :
    Tallies (numbers ++ [n]) (es ++ [⟨n, 1, seconds⟩]) := by
  have hmap : (es ++ [(⟨n, 1, seconds⟩ : Entry δ)]).map Entry.number
      = es.map Entry.number ++ [n] := by
    simp
  refine ⟨hmap ▸ h.firsts.new hn, fun e he => ?_⟩
  rw [List.count_append, List.count_singleton]
  rcases List.mem_append.1 he with he | he
  · have hne : n ≠ e.number :=
      fun heq => hn (heq ▸ (h.firsts.mem_iff _).1 (List.mem_map_of_mem he))
    rw [h.calls e he, if_neg (by simpa), Nat.add_zero]
  · rw [List.mem_singleton.1 he, List.count_eq_zero.2 hn, if_pos (beq_self_eq_true n)]
    rfl

/-- What is changed in an entry is neither its number nor its count. -/
theorem Tallies.modify {f : Entry δ → Entry δ} (hnumber : ∀ e, (f e).number = e.number)
    (hcalls : ∀ e, (f e).calls = e.calls) (h : Tallies numbers es) (i : ℕ) :
    Tallies numbers (es.modify i f) := by
  by_cases hi : i < es.length
  · obtain ⟨a, e, b, rfl, rfl⟩ : ∃ a e b, es = a ++ e :: b ∧ a.length = i :=
      ⟨es.take i, es[i], es.drop (i + 1), by simp, by simp; omega⟩
    rw [modify_append]
    have hmap : (a ++ f e :: b).map Entry.number = (a ++ e :: b).map Entry.number := by
      simp [hnumber]
    refine ⟨hmap ▸ h.firsts, fun e' he' => ?_⟩
    rcases List.mem_cons.1 (List.perm_middle.mem_iff.1 he') with rfl | he'
    · rw [hcalls, hnumber]
      exact h.calls e (by simp)
    · exact h.calls e' (List.perm_middle.mem_iff.2 (List.mem_cons_of_mem e he'))
  · rwa [List.modify_eq_self (by omega)]

end Entries

section Entered

theorem entered_returned {attached : Bool} {turn : Turn δ} (h : turn.goesOn attached = false)
    (turns : List (Turn δ)) : entered attached (turn :: turns) = [] := by
  rw [entered, List.takeWhile_cons_of_neg (by simp [h]), List.filterMap_nil]

theorem entered_goesOn {attached : Bool} {turn : Turn δ} (h : turn.goesOn attached = true)
    (turns : List (Turn δ)) :
    entered attached (turn :: turns) = turn.entered.toList ++ entered attached turns := by
  rw [entered, List.takeWhile_cons_of_pos h, List.filterMap_cons]
  cases turn.entered <;> rfl

end Entered

section Turns

variable {numbers : List Int} {n : Int} {t : Table δ} {s : Tracer δ}

theorem findIdx?_number {es : List (Entry δ)} (hn : n ∉ es.map Entry.number) :
    es.findIdx? (·.number = n) = none := by
  rw [List.findIdx?_eq_none_iff]
  intro e he
  rw [decide_eq_false_iff_not]
  exact fun heq => hn (heq ▸ List.mem_map_of_mem he)

variable [Zero δ]

theorem findEntry_old {a b : List (Entry δ)} {e : Entry δ} (heq : t.entries = a ++ e :: b)
    (hfirst : e.number ∉ a.map Entry.number) : findEntry e.number t = (some a.length, t) := by
  have hfind : t.entries.findIdx? (·.number = e.number) = some a.length := by
    rw [heq, List.findIdx?_append, findIdx?_number hfirst]
    simp [List.findIdx?_cons]
  rw [findEntry, hfind]

theorem findEntry_new (hn : n ∉ t.entries.map Entry.number)
    (hroom : t.entries.length ≠ maxEntries) :
    findEntry n t = (some t.entries.length, ⟨t.entries ++ [⟨n, 0, 0⟩], t.room hroom _⟩) := by
  rw [findEntry, findIdx?_number hn]
  exact dif_neg hroom

variable [Add δ] [Sub δ]

/-- An entry event, with those that are still to come. -/
theorem Tallies.entry (h : Tallies numbers s.table.entries) (nr : UInt64) (now : δ)
    {later : List Int} (hroom : (numbers ++ callNumber nr :: later).dedup.length ≤ maxEntries) :
    Tallies (numbers ++ [callNumber nr]) (s.record (.entry nr now)).table.entries := by
  by_cases hold : callNumber nr ∈ numbers
  · obtain ⟨e, he, hnumber⟩ := List.mem_map.1 ((h.firsts.mem_iff _).2 hold)
    obtain ⟨a, b, hsplit⟩ := List.append_of_mem he
    have hfirst : e.number ∉ a.map Entry.number := by
      have hnodup := h.firsts.nodup
      rw [hsplit, List.map_append, List.map_cons, List.nodup_middle, List.nodup_cons] at hnodup
      exact fun hmem => hnodup.1 (List.mem_append_left _ hmem)
    rw [hsplit] at h
    rw [← hnumber]
    simp only [Tracer.record, ← hnumber, findEntry_old hsplit hfirst, Table.update, hsplit,
      modify_append]
    exact h.again
  · have hlength := h.firsts.length_lt hold later
    rw [List.length_map] at hlength
    have hn := mt (h.firsts.mem_iff _).1 hold
    simp only [Tracer.record, findEntry_new hn (by omega), Table.update, modify_append]
    exact h.new hold 0

theorem Tallies.exit (h : Tallies numbers s.table.entries) (now : δ) :
    Tallies numbers (s.record (.exit now)).table.entries := by
  cases hopen : s.openCall with
  | none => simpa only [Tracer.record, hopen] using h
  | some i =>
    simp only [Tracer.record, hopen, Table.update]
    refine Tallies.modify (fun e => ?_) (fun e => ?_) h i
    · rfl
    · rfl

/-- A turn in which `trace` goes on. -/
theorem Tallies.stopped (h : Tallies numbers s.table.entries) {turn : Turn δ} {signal : ℕ}
    {info : Info δ} (hwait : turn.wait = .stopped signal info) {later : List Int}
    (hroom : (numbers ++ (turn.entered.toList ++ later)).dedup.length ≤ maxEntries) :
    Tallies (numbers ++ turn.entered.toList) (s.stopped signal info).table.entries := by
  unfold Turn.entered at hroom ⊢
  rw [hwait] at hroom ⊢
  unfold Tracer.stopped
  by_cases hsignal : signal = syscallStop
  · rw [if_neg (by simp [hsignal])]
    cases info with
    | entry nr now =>
      simp only [if_pos hsignal, Option.toList_some] at hroom ⊢
      exact Tallies.entry h nr now hroom
    | exit now =>
      simp only [Option.toList_none, List.append_nil]
      exact Tallies.exit (s := { s with deliver := 0 }) h now
    | failed | other =>
      simp only [Option.toList_none, List.append_nil]
      exact h
  · rw [if_pos hsignal]
    cases info with
    | entry nr now =>
      simp only [if_neg hsignal, Option.toList_none, List.append_nil]
      exact h
    | exit now | failed | other =>
      simp only [Option.toList_none, List.append_nil]
      exact h

theorem trace_returned {attached : Bool} {turn : Turn δ} (h : turn.goesOn attached = false)
    (turns : List (Turn δ)) (s : Tracer δ) :
    ∃ r, trace attached (turn :: turns) s = some r ∧ r.table = s.table := by
  rw [trace]
  split_ifs with hresumed hinterrupt
  · exact ⟨_, rfl, rfl⟩
  · exact ⟨_, rfl, rfl⟩
  · cases hwait : turn.wait with
    | failed => exact ⟨_, rfl, rfl⟩
    | ended status => exact ⟨_, rfl, rfl⟩
    | stopped signal info =>
      have hresumed : turn.resumed = true := by simpa using hresumed
      have hinterrupt : (attached && turn.interrupts.contains true) = false := by
        simpa using hinterrupt
      rw [Turn.goesOn, hresumed, hinterrupt, hwait] at h
      exact absurd h (by simp)

theorem trace_goesOn {attached : Bool} {turn : Turn δ} (h : turn.goesOn attached = true)
    (turns : List (Turn δ)) (s : Tracer δ) :
    ∃ signal info, turn.wait = .stopped signal info
      ∧ trace attached (turn :: turns) s = trace attached turns
        ({ s with delivered := s.delivered ++ [s.deliver] }.stopped signal info) := by
  simp only [Turn.goesOn, Bool.and_eq_true, Bool.not_eq_true'] at h
  obtain ⟨⟨hresumed, hinterrupt⟩, hstopped⟩ := h
  cases hwait : turn.wait with
  | failed => simp [hwait] at hstopped
  | ended status => simp [hwait] at hstopped
  | stopped signal info =>
    refine ⟨signal, info, rfl, ?_⟩
    rw [trace, if_neg (by simp [hresumed]), if_neg (by simpa using hinterrupt), hwait]

/-- `trace` returns if one of the turns ends it. -/
theorem trace_returns {attached : Bool} : ∀ {turns : List (Turn δ)} {s : Tracer δ},
    (∃ turn ∈ turns, turn.goesOn attached = false) → ∃ r, trace attached turns s = some r
  | [], _, h => by simp at h
  | turn :: turns, s, h => by
    cases hgoes : turn.goesOn attached with
    | false =>
      obtain ⟨r, htrace, -⟩ := trace_returned hgoes turns s
      exact ⟨r, htrace⟩
    | true =>
      obtain ⟨signal, info, -, htrace⟩ := trace_goesOn hgoes turns s
      rw [htrace]
      refine trace_returns ?_
      obtain ⟨last, hlast, hends⟩ := h
      rcases List.mem_cons.1 hlast with rfl | hlast
      · exact absurd (hgoes.symm.trans hends) (by decide)
      · exact ⟨last, hlast, hends⟩

theorem Tallies.trace (attached : Bool) : ∀ {turns : List (Turn δ)} {numbers : List Int}
    {s : Tracer δ} {r : Traced δ}, Tallies numbers s.table.entries →
      (numbers ++ entered attached turns).dedup.length ≤ maxEntries →
      trace attached turns s = some r → Tallies (numbers ++ entered attached turns) r.table.entries
  | [], _, _, _, _, _, htrace => by simp [Snoop.trace] at htrace
  | turn :: turns, numbers, s, r, h, hroom, htrace => by
    cases hgoes : turn.goesOn attached with
    | false =>
      obtain ⟨r', hreturned, htable⟩ := trace_returned hgoes turns s
      obtain rfl : r' = r := Option.some.inj (hreturned.symm.trans htrace)
      rw [entered_returned hgoes, List.append_nil, htable]
      exact h
    | true =>
      obtain ⟨signal, info, hwait, hrest⟩ := trace_goesOn hgoes turns s
      rw [hrest] at htrace
      rw [entered_goesOn hgoes] at hroom ⊢
      have hnext := Tallies.stopped (s := { s with delivered := s.delivered ++ [s.deliver] }) h
        hwait hroom
      rw [← List.append_assoc] at hroom ⊢
      exact Tallies.trace attached hnext hroom htrace

end Turns

section Rows

variable {numbers : List Int} {es : List (Entry δ)}

theorem Tallies.sum_calls (h : Tallies numbers es) :
    (es.map Entry.calls).sum = numbers.length := by
  have hcalls : es.map Entry.calls
      = ((es.map Entry.number).map fun n => numbers.count n).map Nat.cast := by
    rw [List.map_map, List.map_map]
    exact List.map_congr_left h.calls
  rw [hcalls, ← Nat.cast_list_sum, h.firsts.sum_count]

theorem Tallies.summarizes (h : Tallies numbers es) :
    Summarizes numbers (Insertion.sort Entry.calls es) := by
  have hperm := Insertion.sort_perm Entry.calls es
  refine ⟨?_, fun n => ?_, fun e he => h.calls e (hperm.mem_iff.1 he), ?_, ?_⟩
  · exact (hperm.map Entry.number).nodup_iff.2 h.firsts.nodup
  · rw [(hperm.map Entry.number).mem_iff, h.firsts.mem_iff]
  · rw [(hperm.map Entry.calls).sum_eq, h.sum_calls]
  · have hfirst := List.pairwise_map.1 h.firsts.first
    exact Insertion.sort_pairwise Entry.calls hfirst

variable [Zero δ] [Add δ] [Sub δ] (names : List (Option (List Char))) (format : δ → List Char)

theorem summary_of_trace {attached : Bool} {turns : List (Turn δ)} {r : Traced δ}
    (htrace : trace attached turns .start = some r)
    (hroom : (entered attached turns).dedup.length ≤ maxEntries) :
    ∃ rows, (printSummary names format r.table).1
        = summaryHeader ++ rows.flatMap (summaryRow names format)
      ∧ Summarizes (entered attached turns) rows := by
  have hstart : Tallies [] (Tracer.start : Tracer δ).table.entries :=
    ⟨.nil, by simp [Tracer.start, Table.empty]⟩
  have h := Tallies.trace attached hstart hroom htrace
  exact ⟨_, rfl, h.summarizes⟩

theorem snoopPid_traced {host : Host δ} {jobs : List Jobs.Job} {text : List Char} {s : Snooped δ}
    (h : snoopPid host jobs text = some (.ok s)) :
    ∃ r, trace true host.turns .start = some r ∧ r.table = s.table := by
  unfold snoopPid at h
  simp only at h
  split_ifs at h
  · exact absurd h (by simp)
  · split at h
    · exact absurd h (by simp)
    · exact absurd h (by simp)
    · obtain ⟨r, htrace, heq⟩ := Option.map_eq_some_iff.1 h
      obtain rfl := Except.ok.inj heq
      exact ⟨r, htrace, rfl⟩

theorem snoopCommand_traced {host : Host δ} {jobs : List Jobs.Job} {text : List Char}
    {s : Snooped δ} (h : snoopCommand host jobs text = some (.ok s)) :
    ∃ r, trace false host.turns .start = some r ∧ r.table = s.table := by
  unfold snoopCommand at h
  simp only at h
  split at h
  · exact absurd h (by simp)
  · split_ifs at h
    · exact absurd h (by simp)
    · obtain ⟨r, htrace, heq⟩ := Option.map_eq_some_iff.1 h
      obtain rfl := Except.ok.inj heq
      exact ⟨r, htrace, rfl⟩

/-- What is printed behind a call that has traced is its summary. -/
theorem summarize_traced {host : Host δ} {jobs : List Jobs.Job} {attached : Bool} {r : Result}
    {x : Option (Except String (Snooped δ))} (hx : x.map (summarize jobs names format) = some r)
    (herr : r.err = []) (hroom : (entered attached host.turns).dedup.length ≤ maxEntries)
    (htraced : ∀ s, x = some (.ok s) →
      ∃ r, trace attached host.turns .start = some r ∧ r.table = s.table) :
    ∃ before rows, r.out = before ++ (summaryHeader ++ rows.flatMap (summaryRow names format))
      ∧ Summarizes (entered attached host.turns) rows := by
  obtain ⟨result, rfl, rfl⟩ := Option.map_eq_some_iff.1 hx
  cases result with
  | error message => exact absurd herr (by simp [summarize])
  | ok s =>
    obtain ⟨traced, htrace, htable⟩ := htraced s rfl
    obtain ⟨rows, hrows, h⟩ := summary_of_trace names format htrace hroom
    refine ⟨s.out, rows, ?_, h⟩
    rw [summarize, ← htable, hrows]

/-- Unless it complains, `snoop` ends with the summary of what it has traced. -/
theorem runSnoop_summary {host : Host δ} {jobs : List Jobs.Job} {tokens : List Token} {r : Result}
    (hrun : runSnoop host jobs names format tokens = some r) (hvalue : r.value = 1)
    (herr : r.err = [])
    (hroom : ∀ attached, (entered attached host.turns).dedup.length ≤ maxEntries) :
    ∃ attached before rows,
      r.out = before ++ (summaryHeader ++ rows.flatMap (summaryRow names format))
        ∧ Summarizes (entered attached host.turns) rows := by
  unfold runSnoop at hrun
  split at hrun
  · rw [← Option.some.inj hrun] at hvalue
    exact absurd hvalue (by simp)
  · split_ifs at hrun
    · rw [← Option.some.inj hrun] at hvalue
      exact absurd hvalue (by simp)
    · split at hrun
      · rw [← Option.some.inj hrun] at herr
        exact absurd herr (by simp)
      · split_ifs at hrun
        · split at hrun
          · refine ⟨true, summarize_traced names format hrun herr (hroom true) ?_⟩
            exact fun s => snoopPid_traced
          · rw [← Option.some.inj hrun] at herr
            exact absurd herr (by simp)
        · refine ⟨false, summarize_traced names format hrun herr (hroom false) ?_⟩
          exact fun s => snoopCommand_traced

end Rows

end Snoop

open Snoop

/-- A process that reads once and writes twice, and is stopped by a signal on its way. -/
def writingTurns : List (Snoop.Turn Int) :=
  [⟨true, [], .stopped syscallStop (.entry 0 3)⟩, ⟨true, [], .stopped syscallStop (.exit 5)⟩,
    ⟨true, [], .stopped syscallStop (.entry 1 6)⟩, ⟨true, [], .stopped syscallStop (.exit 7)⟩,
    ⟨true, [false], .stopped 10 .other⟩, ⟨true, [], .stopped syscallStop (.entry 1 8)⟩,
    ⟨true, [], .stopped syscallStop (.exit 8)⟩, ⟨true, [], .ended (.exited 0)⟩]

example : ∃ r, Snoop.trace false writingTurns .start = some r
    ∧ (r.table.entries.map fun e => (e.number, e.calls, e.seconds)) = [(0, 1, 2), (1, 2, 1)]
    ∧ ((printSummary [some ['r']] Decimal.ofInt r.table).2.entries.map Entry.number) = [1, 0] :=
  ⟨_, rfl, by decide, by decide⟩

end Shell

end CShellXv6
