import CShellXv6.Proofs.Input
import CShellXv6.Shell.Activities

/-!
# What `activities` lists

A name may look like the rest of its line, but no parenthesis stands behind it: the last one of the
line closes the name, and the state and the group are read behind it. With that, what is listed for
a job are the processes of its group.
-/

namespace CShellXv6

namespace Shell

namespace Activities

open History (nul)

section Positions

variable {c : Char}

theorem strchr_append {s : List Char} : ∀ {a : List Char}, c ∉ a →
    strchr c (a ++ c :: s) = some a.length
  | [], _ => by simp [strchr]
  | d :: a, h => by
    simp only [List.mem_cons, not_or] at h
    rw [List.cons_append, strchr, if_neg (Ne.symm h.1), strchr_append h.2]
    rfl

theorem strrchr_none : ∀ {s : List Char}, c ∉ s → strrchr c s = none
  | [], _ => rfl
  | d :: s, h => by
    simp only [List.mem_cons, not_or] at h
    rw [strrchr, strrchr_none h.2]
    exact if_neg (Ne.symm h.1)

theorem strrchr_append {s : List Char} (h : c ∉ s) : ∀ a : List Char,
    strrchr c (a ++ c :: s) = some a.length
  | [] => by
    rw [List.nil_append, strrchr, strrchr_none h]
    exact if_pos rfl
  | d :: a => by
    rw [List.cons_append, strrchr, strrchr_append h a]
    rfl

end Positions

section Taking

theorem takeLine_isPrefixOf : ∀ (n : ℕ) (s : List Char), (takeLine n s).1 <+: s
  | 0, s => by simp [takeLine]
  | n + 1, [] => by simp [takeLine]
  | n + 1, c :: s => by
    rw [takeLine]
    split_ifs
    · exact ⟨s, rfl⟩
    · exact List.cons_prefix_cons.2 ⟨rfl, takeLine_isPrefixOf n s⟩

end Taking

theorem cString_nul {s x : List Char} (h : nul ∉ s) : cString (s ++ nul :: x) = s := by
  have hself := cString_eq_self h
  rw [cString, List.takeWhile_append_of_pos (List.takeWhile_eq_self_iff.1 hself),
    List.takeWhile_cons_of_neg (by decide), List.append_nil]

section Numbers

theorem scanInt_ofInt (n : Int32) {rest : List Char} (h : Decimal.Stops rest) :
    scanInt (' ' :: (Decimal.ofInt n.toInt ++ rest)) = some (n, rest) := by
  have hlow := n.le_toInt
  have hhigh := n.toInt_lt
  have hbounds : max History.longLongMin (min n.toInt History.longLongMax) = n.toInt := by
    simp only [History.longLongMin, History.longLongMax]
    omega
  simp only [scanInt, Decimal.scan_ofInt h, Option.map_some, hbounds, Int32.ofInt_toInt]

theorem strtoll_ofInt (n : Int32) :
    Int32.ofInt (History.strtoll (Decimal.ofInt n.toInt)) = n := by
  have hlow := n.le_toInt
  have hhigh := n.toInt_lt
  rw [History.strtoll, Decimal.read_ofInt, Int32.ofInt_toInt]
  · simp only [History.longLongMin]
    omega
  · simp only [History.longLongMax]
    omega

theorem length_ofInt32 (n : Int32) : (Decimal.ofInt n.toInt).length ≤ 11 := by
  have hlow := n.le_toInt
  have hhigh := n.toInt_lt
  exact Decimal.length_ofInt (k := 10) (by decide) (by omega)

end Numbers

section Line

/-- What stands in front of the name and its parentheses. -/
def Process.opening (p : Process) : List Char :=
  Decimal.ofInt p.pid.toInt ++ [' ']

/-- What stands behind the name, from the state to the group. -/
def Process.status (p : Process) : List Char :=
  p.state :: ' ' :: (Decimal.ofInt p.ppid.toInt ++ ' ' :: Decimal.ofInt p.pgrp.toInt)

def Process.others (p : Process) : List Char :=
  p.fields.flatMap (fun n => ' ' :: Decimal.ofInt n) ++ ['\n']

/-- The part of the line that is read, which fits into the buffer. -/
def Process.front (p : Process) : List Char :=
  p.opening ++ '(' :: (p.name ++ ')' :: ' ' :: p.status)

variable (p : Process)

theorem statLine_eq : p.statLine = p.front ++ p.others := by
  simp [Process.statLine, Process.front, Process.opening, Process.status, Process.others]

/-- The characters that stand outside the name and its parentheses. -/
def written (c : Char) : Bool :=
  c.isAlphanum || c == '-' || c == ' '

variable {p} {c : Char}

theorem written_ofInt {n : Int} (hc : c ∈ Decimal.ofInt n) : written c = true := by
  rcases Decimal.digit_or_minus hc with hdigit | rfl
  · simp [written, Char.isAlphanum, hdigit]
  · decide

theorem written_opening (hc : c ∈ p.opening) : written c = true := by
  rcases List.mem_append.1 hc with hc | hc
  · exact written_ofInt hc
  · rw [List.mem_singleton.1 hc]
    decide

theorem written_status (hc : c ∈ p.status) : written c = true := by
  simp only [Process.status, List.mem_cons, List.mem_append] at hc
  rcases hc with rfl | rfl | hc | rfl | hc
  · simp [written, Char.isAlphanum, p.letter]
  · decide
  · exact written_ofInt hc
  · decide
  · exact written_ofInt hc

theorem written_others (hc : c ∈ p.others) : written c = true ∨ c = '\n' := by
  simp only [Process.others, List.mem_append, List.mem_flatMap, List.mem_singleton] at hc
  rcases hc with ⟨n, -, hc⟩ | rfl
  · rcases List.mem_cons.1 hc with rfl | hc
    · exact .inl (by decide)
    · exact .inl (written_ofInt hc)
  · exact .inr rfl

/-- Every character of the part that is read is written, or of the name, or a parenthesis. -/
theorem mem_front (hc : c ∈ p.front) : written c = true ∨ c ∈ p.name ∨ c = '(' ∨ c = ')' := by
  simp only [Process.front, List.mem_cons, List.mem_append] at hc
  rcases hc with hc | hc | hc | hc | rfl | hc
  · exact .inl (written_opening hc)
  · exact .inr (.inr (.inl hc))
  · exact .inr (.inl hc)
  · exact .inr (.inr (.inr hc))
  · exact .inl (by decide)
  · exact .inl (written_status hc)

theorem notMem_front (hc : written c = false) (hname : c ∉ p.name) (hopen : c ≠ '(')
    (hclose : c ≠ ')') : c ∉ p.front := by
  intro hmem
  rcases mem_front hmem with h | h | h | h
  · exact absurd (hc.symm.trans h) (by decide)
  · exact hname h
  · exact hopen h
  · exact hclose h

theorem newline_front : '\n' ∉ p.front :=
  notMem_front rfl (fun h => (p.clean _ h).2 rfl) (by decide) (by decide)

theorem nul_front : nul ∉ p.front :=
  notMem_front rfl (fun h => (p.clean _ h).1 rfl) (by decide) (by decide)

theorem length_front : p.front.length ≤ 511 := by
  have hpid := length_ofInt32 p.pid
  have hppid := length_ofInt32 p.ppid
  have hpgrp := length_ofInt32 p.pgrp
  have hname := p.short
  simp only [Process.front, Process.opening, Process.status, List.length_append, List.length_cons,
    List.length_nil]
  omega

theorem stops_others : Decimal.Stops p.others := by
  unfold Process.others
  rcases p.fields with _ | ⟨n, fields⟩ <;> rfl

end Line

section Stat

variable {p : Process} {t : List Char}

/-- What is in the buffer behind the group: the other fields, as far as they fit. -/
theorem stops_cut (ht : t <+: p.others) : Decimal.Stops t := by
  rcases t with _ | ⟨c, t⟩
  · rfl
  · obtain ⟨s, hs⟩ := ht
    have hstops := stops_others (p := p)
    rw [← hs] at hstops
    exact hstops

theorem notMem_cut {c : Char} (hc : written c = false) (hline : c ≠ '\n') (ht : t <+: p.others) :
    c ∉ p.status ++ t := by
  intro hmem
  rcases List.mem_append.1 hmem with h | h
  · exact absurd (hc.symm.trans (written_status h)) (by decide)
  · rcases written_others (ht.subset h) with h | h
    · exact absurd (hc.symm.trans h) (by decide)
    · exact hline h

theorem nul_cut (ht : t <+: p.others) : nul ∉ p.status ++ t :=
  notMem_cut rfl (by decide) ht

theorem paren_cut (ht : t <+: p.others) : ')' ∉ ' ' :: (p.status ++ t) := by
  rw [List.mem_cons, not_or]
  exact ⟨by decide, notMem_cut rfl (by decide) ht⟩

theorem scanStat_status (ht : t <+: p.others) :
    scanStat (p.status ++ t) = some (p.state, p.ppid, p.pgrp) := by
  have hblank : Decimal.Stops (' ' :: (Decimal.ofInt p.pgrp.toInt ++ t)) := rfl
  have hppid := scanInt_ofInt p.ppid hblank
  have hpgrp := scanInt_ofInt p.pgrp (stops_cut ht)
  simp only [Process.status, List.cons_append, List.append_assoc, scanStat, hppid, hpgrp,
    Option.bind_eq_bind, Option.bind_some, Option.pure_def]

theorem fgets_statLine : ∃ t rest, t <+: p.others
    ∧ fgets 512 p.statLine = some (p.front ++ t, rest) := by
  have hne : p.statLine ≠ [] := by
    rw [statLine_eq]
    simp [Process.front]
  have hline := takeLine_append (y := p.others) (newline_front (p := p)) length_front
  rw [← statLine_eq] at hline
  have hgets : fgets 512 p.statLine = some (takeLine 511 p.statLine) := if_neg hne
  rw [hline] at hgets
  exact ⟨_, _, takeLine_isPrefixOf (511 - p.front.length) p.others, hgets⟩

theorem nul_line (ht : t <+: p.others) : nul ∉ p.front ++ t := by
  intro hc
  rcases List.mem_append.1 hc with h | h
  · exact nul_front h
  · exact nul_cut ht (List.mem_append_right _ h)

theorem strchr_line : strchr '(' (p.front ++ t) = some p.opening.length := by
  rw [Process.front, List.append_assoc, List.cons_append]
  exact strchr_append fun hc => absurd (written_opening hc) (by decide)

/-- The last parenthesis closes the name, whatever stands in it. -/
theorem strrchr_line (ht : t <+: p.others) :
    strrchr ')' (p.front ++ t) = some (p.opening.length + (p.name.length + 1)) := by
  have hsplit : p.front ++ t = (p.opening ++ '(' :: p.name) ++ ')' :: ' ' :: (p.status ++ t) := by
    simp [Process.front]
  rw [hsplit, strrchr_append (paren_cut ht), List.length_append, List.length_cons]

theorem drop_name : (p.front ++ t).drop (p.opening.length + 1)
    = p.name ++ ')' :: ' ' :: (p.status ++ t) := by
  have hsplit : p.front ++ t
      = (p.opening ++ ['(']) ++ (p.name ++ ')' :: ' ' :: (p.status ++ t)) := by
    simp [Process.front]
  rw [hsplit]
  exact List.drop_left' (by simp)

theorem scan_line (ht : t <+: p.others) (stale : List Char) :
    cString (((p.front ++ t) ++ nul :: stale).drop (p.opening.length + (p.name.length + 1) + 2))
      = p.status ++ t := by
  have hsplit : (p.front ++ t) ++ nul :: stale
      = (p.opening ++ '(' :: (p.name ++ [')', ' '])) ++ ((p.status ++ t) ++ nul :: stale) := by
    simp [Process.front]
  rw [hsplit, List.drop_left' (by simp; omega)]
  exact cString_nul (nul_cut ht)

/-- The name is cut to what fits into `size` characters with a NUL. -/
theorem take_name (size : ℕ) (x : List Char) :
    (p.name ++ x).take (if size ≤ p.name.length then size - 1 else p.name.length)
      = p.name.take (size - 1) := by
  split_ifs
  · exact List.take_append_of_le_length (by omega)
  · rw [List.take_left, List.take_of_length_le (by omega)]

theorem readstat_eq {host : Host} (hfile : host.fopen (statPath p.pid) = some p.statLine)
    (size : ℕ) : readstat host p.pid size = some (p.name.take (size - 1), p.state, p.pgrp) := by
  obtain ⟨t, rest, ht, hgets⟩ := fgets_statLine (p := p)
  have hbuffer := cString_eq_self (nul_line ht)
  have horder : ¬ p.opening.length + (p.name.length + 1) ≤ p.opening.length := by omega
  have hlen : p.opening.length + (p.name.length + 1) - p.opening.length - 1 = p.name.length := by
    omega
  simp only [readstat, hfile, hgets, hbuffer, strchr_line, strrchr_line ht, drop_name,
    scan_line ht, scanStat_status ht, if_neg horder, hlen, take_name, Option.bind_eq_bind,
    Option.bind_some, Option.pure_def]

end Stat

section Directory

variable {ps : List Process} {stale : Int32 → List Char}

theorem statPath_injective {a b : Int32} (h : statPath a = statPath b) : a = b := by
  have hnumber := List.append_cancel_left (List.append_cancel_right h)
  rw [← strtoll_ofInt a, hnumber, strtoll_ofInt]

theorem startsDigit_ofInt {n : Int} (h : 0 ≤ n) : startsDigit (Decimal.ofInt n) = true := by
  obtain ⟨c, s, hdigits, hc⟩ := Decimal.exists_digit n.natAbs
  rw [Decimal.ofInt, if_neg (by omega), hdigits]
  simpa [startsDigit] using hc

theorem procfs_file (hdistinct : (ps.map Process.pid).Nodup) {p : Process} (hp : p ∈ ps) :
    (procfs ps stale).fopen (statPath p.pid) = some p.statLine := by
  have hfind : (ps.find? fun q => statPath q.pid = statPath p.pid).isSome = true :=
    List.find?_isSome.2 ⟨p, hp, by simp⟩
  obtain ⟨q, hq⟩ := Option.isSome_iff_exists.1 hfind
  have hpath : statPath q.pid = statPath p.pid := by simpa using List.find?_some hq
  obtain rfl : q = p :=
    List.inj_on_of_nodup_map hdistinct (List.mem_of_find?_eq_some hq) hp (statPath_injective hpath)
  simp only [procfs, hq, Option.map_some]

/-- Any processes with ids that are different and not negative can be shown. -/
theorem shows_procfs (hdistinct : (ps.map Process.pid).Nodup)
    (hid : ∀ p ∈ ps, 0 ≤ p.pid.toInt) : Shows (procfs ps stale) ps := by
  refine ⟨hdistinct, ⟨_, rfl, ?_⟩, fun p hp => procfs_file hdistinct hp⟩
  refine List.filter_eq_self.2 fun name hname => ?_
  obtain ⟨p, hp, rfl⟩ := List.mem_map.1 hname
  exact startsDigit_ofInt (hid p hp)

end Directory

section Group

variable {host : Host} {ps : List Process} {grp : Int32} {self : List Char}

theorem counts_iff {p : Process} : p.counts grp self = true
    ↔ ¬ (p.pgrp ≠ grp ∨ p.state = 'Z' ∨ (p.pid = grp ∧ p.name.take 63 = self)) := by
  simp only [Process.counts, decide_eq_true_eq, not_or, not_not, ne_eq]

theorem groupMembers_pos {p : Process} (h : p.counts grp self = true) :
    groupMembers grp self (p :: ps) = p.member :: groupMembers grp self ps := by
  simp only [groupMembers, List.filter_cons, h, if_true, List.map_cons]

theorem groupMembers_neg {p : Process} (h : ¬ p.counts grp self = true) :
    groupMembers grp self (p :: ps) = groupMembers grp self ps := by
  simp only [groupMembers, List.filter_cons, if_neg h]

/-- What `collectgrp` finds: the first processes of the group, in the order of the directory. -/
theorem collectLoop_eq {most : ℕ} : ∀ {entries : List (List Char)} {ps : List Process}
    {mems : List Member}, (∀ p ∈ ps, host.fopen (statPath p.pid) = some p.statLine) →
    entries.filter startsDigit = ps.map (fun p => Decimal.ofInt p.pid.toInt) →
    mems.length ≤ most →
    collectLoop host grp most self entries mems
      = (mems ++ groupMembers grp self ps).take most
  | [], ps, mems, _, hnames, hmost => by
    obtain rfl : ps = [] := List.map_eq_nil_iff.1 hnames.symm
    simp [collectLoop, groupMembers, List.take_of_length_le hmost]
  | entry :: entries, ps, mems, hfile, hnames, hmost => by
    rw [collectLoop]
    by_cases hfull : most ≤ mems.length
    · rw [if_pos hfull, List.take_append_of_le_length hfull, List.take_of_length_le hmost]
    rw [if_neg hfull]
    by_cases hdigit : startsDigit entry = true
    · rw [if_neg (by simp [hdigit])]
      rw [List.filter_cons_of_pos hdigit] at hnames
      obtain ⟨p, ps, rfl, rfl, hrest⟩ := List.map_eq_cons_iff.1 hnames.symm
      obtain ⟨hp, hfile⟩ := List.forall_mem_cons.1 hfile
      simp only [strtoll_ofInt, readstat_eq hp]
      by_cases hcounts : p.counts grp self = true
      · have hroom : (mems ++ [p.member]).length ≤ most := by
          rw [List.length_append, List.length_singleton]
          omega
        rw [if_neg (counts_iff.1 hcounts), groupMembers_pos hcounts, List.append_cons mems p.member]
        exact collectLoop_eq hfile hrest.symm hroom
      · rw [if_pos (not_not.1 (mt counts_iff.2 hcounts)), groupMembers_neg hcounts]
        exact collectLoop_eq hfile hrest.symm hmost
    · rw [List.filter_cons_of_neg hdigit] at hnames
      rw [if_pos (by simpa using hdigit)]
      exact collectLoop_eq hfile hnames hmost

theorem collectgrp_eq (h : Shows host ps) (most : ℕ) :
    collectgrp host grp most self
      = sortMembers ((groupMembers grp self ps).take most) := by
  obtain ⟨entries, hopen, hnames⟩ := h.names
  rw [collectgrp, hopen]
  exact congrArg sortMembers (collectLoop_eq h.file hnames (Nat.zero_le _))

theorem comp_le_zero {a b : Member} : comp a b ≤ 0 ↔ a.pid.toInt ≤ b.pid.toInt := by
  unfold comp
  split_ifs <;> omega

theorem sortMembers_pairwise (mems : List Member) :
    (sortMembers mems).Pairwise fun a b => a.pid.toInt ≤ b.pid.toInt := by
  have : Std.Total fun a b : Member => comp a b ≤ 0 :=
    ⟨fun a b => by simp only [comp_le_zero]; omega⟩
  have : IsTrans Member fun a b => comp a b ≤ 0 :=
    ⟨fun a b c => by simp only [comp_le_zero]; omega⟩
  exact (List.pairwise_insertionSort _ mems).imp comp_le_zero.1

/-- The members have different ids, as the processes have. -/
theorem nodup_collectgrp (grp : Int32) (self : List Char) (h : Shows host ps) (most : ℕ) :
    ((collectgrp host grp most self).map Member.pid).Nodup := by
  rw [collectgrp_eq h]
  refine ((List.perm_insertionSort _ _).map _).nodup_iff.2 ?_
  refine List.Nodup.sublist ?_ h.distinct
  refine ((List.take_sublist _ _).map _).trans ?_
  rw [groupMembers, List.map_map]
  exact List.filter_sublist.map _

theorem collectgrp_pairwise (h : Shows host ps) (most : ℕ) :
    (collectgrp host grp most self).Pairwise fun a b => a.pid.toInt < b.pid.toInt := by
  have hdistinct := List.pairwise_map.1 (nodup_collectgrp grp self h most)
  rw [collectgrp_eq h] at hdistinct ⊢
  refine ((sortMembers_pairwise _).and hdistinct).imp ?_
  rintro a b ⟨hle, hne⟩
  have : a.pid.toInt ≠ b.pid.toInt := fun heq => hne (Int32.toInt_inj.1 heq)
  omega

/-- With at most `most` processes of the group, exactly these are collected. -/
theorem mem_collectgrp (h : Shows host ps) {most : ℕ}
    (hfew : (groupMembers grp self ps).length ≤ most) {p : Process} (hp : p ∈ ps) :
    p.member ∈ collectgrp host grp most self ↔ p.counts grp self = true := by
  rw [collectgrp_eq h, sortMembers, List.mem_insertionSort,
    List.take_of_length_le hfew, groupMembers, List.mem_map]
  constructor
  · rintro ⟨q, hq, heq⟩
    obtain ⟨hmem, hcounts⟩ := List.mem_filter.1 hq
    obtain rfl : q = p := List.inj_on_of_nodup_map h.distinct hmem hp (congrArg Member.pid heq)
    exact hcounts
  · exact fun hcounts => ⟨p, List.mem_filter.2 ⟨hp, hcounts⟩, rfl⟩

end Group

section Reports

variable {host : Host} {ps : List Process} {jobs : List Jobs.Job} {self : List Char}

theorem reportJob_iff {job : Jobs.Job} {index : ℕ} {r : Report} :
    reportJob host self job index = some r
      ↔ job.live = true ∧ collectgrp host (Int32.ofNat job.pid) 128 self ≠ []
        ∧ r = ⟨index + 1, Int32.ofNat job.pid, collectgrp host (Int32.ofNat job.pid) 128 self⟩ := by
  simp only [reportJob]
  rcases collectgrp host (Int32.ofNat job.pid) 128 self with _ | ⟨m, mems⟩
  · simp
  · cases job.live
    · simp
    · simp only [Bool.true_eq_false, if_false, Option.some.injEq, ne_eq, reduceCtorEq,
        not_false_eq_true, true_and]
      exact eq_comm

theorem mem_reports {shell : Int32} {r : Report} : r ∈ reports host shell jobs
    ↔ ∃ job index, jobs[index]? = some job
      ∧ reportJob host (selfName host shell) job index = some r := by
  simp only [reports, List.mem_filterMap, Prod.exists, List.mem_zipIdx_iff_getElem?]

/-- For a live job `activities` lists the processes of its group, and no others. -/
theorem reports_lists (h : Shows host ps) {shell : Process} (hshell : shell ∈ ps)
    {job : Jobs.Job} {index : ℕ} (hjob : jobs[index]? = some job) (hlive : job.live = true)
    (hfew : (groupMembers (Int32.ofNat job.pid) (shell.name.take 63) ps).length ≤ 128)
    {p : Process} (hp : p ∈ ps) :
    (∃ r ∈ reports host shell.pid jobs, r.number = index + 1 ∧ p.member ∈ r.members)
      ↔ p.counts (Int32.ofNat job.pid) (shell.name.take 63) = true := by
  have hself : selfName host shell.pid = shell.name.take 63 := by
    rw [selfName, readstat_eq (h.file shell hshell)]
  rw [← hself] at hfew ⊢
  rw [← mem_collectgrp h hfew hp]
  constructor
  · rintro ⟨r, hr, hnumber, hmem⟩
    obtain ⟨job', index', hjob', hreport⟩ := mem_reports.1 hr
    obtain ⟨-, -, rfl⟩ := reportJob_iff.1 hreport
    obtain rfl : index' = index := Nat.succ.inj hnumber
    obtain rfl : job' = job := Option.some.inj (hjob'.symm.trans hjob)
    exact hmem
  · intro hmem
    refine ⟨⟨index + 1, Int32.ofNat job.pid, collectgrp host (Int32.ofNat job.pid) 128
      (selfName host shell.pid)⟩, mem_reports.2 ⟨job, index, hjob, ?_⟩, rfl, hmem⟩
    exact reportJob_iff.2 ⟨hlive, List.ne_nil_of_mem hmem, rfl⟩

/-- The members of a job are printed by id. -/
theorem reports_sorted (h : Shows host ps) {shell : Int32} {r : Report}
    (hr : r ∈ reports host shell jobs) :
    r.members.Pairwise fun a b => a.pid.toInt < b.pid.toInt := by
  obtain ⟨job, index, -, hreport⟩ := mem_reports.1 hr
  obtain ⟨-, -, rfl⟩ := reportJob_iff.1 hreport
  exact collectgrp_pairwise h 128

end Reports

end Activities

open Activities

/-- A line that `readstat` reads gives the state and the group of the process, and its name as far
as it fits, whatever the name looks like. -/
theorem readstat_statLine (host : Activities.Host) (p : Process)
    (hfile : host.fopen (statPath p.pid) = some p.statLine) :
    readstat host p.pid 64 = some (p.name.take 63, p.state, p.pgrp) :=
  readstat_eq hfile 64

/-- A process whose name looks like the rest of a line. -/
def imitating : Process where
  pid := 42
  name := ") T 1 2 (".toList
  state := 'S'
  ppid := 1
  pgrp := 40
  fields := [40, -1, 4194304]
  short := by decide
  clean := by simp [History.nul]
  letter := by decide

def imitatingHost : Activities.Host :=
  procfs [imitating] fun _ => []

theorem readstat_statLine_imitating :
    imitatingHost.fopen (statPath imitating.pid) = some imitating.statLine
      ∧ readstat imitatingHost imitating.pid 64 = some (") T 1 2 (".toList, 'S', 40) :=
  have hfile : imitatingHost.fopen (statPath imitating.pid) = some imitating.statLine :=
    procfs_file (by decide) (by simp)
  ⟨hfile, readstat_statLine imitatingHost imitating hfile⟩

end Shell

end CShellXv6
