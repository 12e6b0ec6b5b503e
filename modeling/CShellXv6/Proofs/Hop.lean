import CShellXv6.Shell.Hop

/-!
# Failing and going back

An attempt to change the directory ends in one of three ways, by what its `chdir` and the `getcwd`
behind it return (`changeDirectory_cases`). A hop that fails leaves the shell where the last `chdir`
has led it, with all else as it was; and on a tree that does not change no `getcwd` fails, so that
`hop -` leads back.
-/

namespace CShellXv6

namespace Shell

open History

section Failure

variable {δ : Type*} (env : HopEnv δ)

theorem changeDirectory_cases (k : ℕ) (path : List Char) (s : HopState δ) :
    (chdirOf env k path s.cwd = none ∧ changeDirectory env k path s = (-1, s))
      ∨ (∃ d, chdirOf env k path s.cwd = some (d, false)
        ∧ changeDirectory env k path s = (-1, { s with cwd := d }))
      ∨ ∃ d, chdirOf env k path s.cwd = some (d, true)
        ∧ (changeDirectory env k path s).1 = 0 := by
  unfold chdirOf changeDirectory
  rcases env.getcwd (2 * k) s.cwd with _ | oldDir
  · exact .inl ⟨rfl, rfl⟩
  rcases env.chdir k s.cwd path with _ | d
  · exact .inl ⟨rfl, rfl⟩
  rcases hnew : env.getcwd (2 * k + 1) d with _ | newDir
  · exact .inr (.inl ⟨d, by simp [hnew], by simp [hnew]⟩)
  · refine .inr (.inr ⟨d, by simp [hnew], ?_⟩)
    simp only [hnew]
    split_ifs <;> rfl

/-- The last `chdir` that succeeded, and whether the `getcwd` behind it did, says how it ends. -/
structure HopEnds (last : Option (δ × Bool)) (s : HopState δ) (r : Int × HopState δ) : Prop where
  stayed : last = none → r.2 = s
  stranded : ∀ d, last = some (d, false) → r = (-1, { s with cwd := d })
  entered : ∀ d, last = some (d, true) → r.1 = 0

theorem ends_changeDirectory (k : ℕ) (path : List Char) (s : HopState δ) :
    HopEnds (chdirOf env k path s.cwd) s (changeDirectory env k path s) := by
  rcases changeDirectory_cases env k path s with ⟨hc, hr⟩ | ⟨d, hc, hr⟩ | ⟨d, hc, hr⟩ <;> rw [hc]
  · exact ⟨fun _ => by rw [hr], by simp, by simp⟩
  · refine ⟨by simp, fun e he => ?_, by simp⟩
    obtain rfl : d = e := by simpa using he
    exact hr
  · exact ⟨by simp, by simp, fun _ _ => hr⟩

/-- A second attempt, behind one that has failed in the directory `d`. -/
theorem HopEnds.again {d : δ} {last : Option (δ × Bool)} {s : HopState δ} {r : Int × HopState δ}
    (h : HopEnds last { s with cwd := d } r) (hfail : last = none → r.1 = -1) :
    HopEnds (last.or (some (d, false))) s r := by
  rcases last with _ | ⟨e, b⟩
  · refine ⟨by simp, fun e he => ?_, by simp⟩
    obtain rfl : d = e := by simpa using he
    exact Prod.ext (hfail rfl) (h.stayed rfl)
  · exact ⟨by simp, fun e he => h.stranded e (by simpa using he),
      fun e he => h.entered e (by simpa using he)⟩

theorem changeDirectory_failed {k : ℕ} {path : List Char} {s : HopState δ}
    (h : chdirOf env k path s.cwd = none) : (changeDirectory env k path s).1 = -1 := by
  rcases changeDirectory_cases env k path s with ⟨-, hr⟩ | ⟨d, hc, -⟩ | ⟨d, hc, -⟩
  · rw [hr]
  · exact absurd (h.symm.trans hc) (by simp)
  · exact absurd (h.symm.trans hc) (by simp)

/-- An argument that is neither `~`, `.` nor `-`. -/
theorem ends_lookup (argument : List Char) (s : HopState δ) :
    HopEnds
      (match chdirOf env 0 argument s.cwd with
        | some (d, true) => some (d, true)
        | first =>
          match findVisit env.find env.access argument s.history with
          | none => first
          | some found => (chdirOf env 1 found ((first.map Prod.fst).getD s.cwd)).or first)
      s
      (let (result, s) := changeDirectory env 0 argument s
        if result = 0 then (0, s)
        else
          match findVisit env.find env.access argument s.history with
          | none => (-1, s)
          | some found => changeDirectory env 1 found s) := by
  rcases changeDirectory_cases env 0 argument s with ⟨hc, hr⟩ | ⟨d, hc, hr⟩ | ⟨d, hc, hr⟩ <;>
    simp only [hc]
  · simp only [hr]
    rcases findVisit env.find env.access argument s.history with _ | found
    · exact ⟨fun _ => rfl, by simp, by simp⟩
    · simpa using ends_changeDirectory env 1 found s
  · simp only [hr]
    rcases findVisit env.find env.access argument s.history with _ | found
    · refine ⟨by simp, fun e he => ?_, by simp⟩
      obtain rfl : d = e := by simpa using he
      rfl
    · exact (ends_changeDirectory env 1 found { s with cwd := d }).again
        fun h => changeDirectory_failed env h
  · rw [if_pos hr]
    exact ⟨by simp, by simp, fun _ _ => rfl⟩

theorem ends_doHop (argument : List Char) (s : HopState δ) :
    HopEnds (lastChdir env argument s) s (doHop env argument s) := by
  unfold lastChdir doHop
  split_ifs with hhome hdot hdash
  · exact ends_changeDirectory env 0 s.homeDir s
  · exact ⟨fun _ => rfl, by simp, by simp⟩
  · rcases s.previousDir with _ | path
    · exact ⟨fun _ => rfl, by simp, by simp⟩
    · exact ends_changeDirectory env 0 path s
  · exact ends_lookup env argument s

end Failure

/-- With the calls ending in any way, a hop that fails leaves the directory of the shell,
`previous_dir` and the history as they were just if no `getcwd` fails behind the last `chdir`, or
that has led back. -/
theorem failed_hop_iff {δ : Type*} (env : HopEnv δ) (argument : List Char) (s : HopState δ) :
    ((doHop env argument s).1 ≠ 0 → (doHop env argument s).2 = s) ↔ Settled env argument s := by
  have hends := ends_doHop env argument s
  constructor
  · intro h d hlast
    rw [hends.stranded d hlast] at h
    exact congrArg HopState.cwd (h (by simp))
  · intro hsettled hfail
    rcases hlast : lastChdir env argument s with _ | ⟨d, _ | _⟩
    · exact hends.stayed hlast
    · rw [hends.stranded d hlast, hsettled d hlast]
    · exact absurd (hends.entered d hlast) hfail

/-- The shell is in directory 0 and gets into directory 1, of which it is told no path. -/
def strandingEnv : HopEnv ℕ where
  getcwd _ d := if d = 0 then some ['/'] else none
  chdir _ _ path := if path = ['/', 'd'] then some 1 else none
  access _ := true
  find := .succeeding
  record := .succeeding

theorem failed_hop_moves :
    let s : HopState ℕ := ⟨0, ['/'], none, none⟩
    doHop strandingEnv ['/', 'd'] s = (-1, { s with cwd := 1 }) := by
  decide

section Tree

variable {δ : Type*} (T : DirTree δ) {s : HopState δ}

/-- `previous_dir` is the canonical path of another directory than the current one; and the current
one can be entered if that one can. -/
structure Trail (s : HopState δ) : Prop where
  previous : ∀ path, s.previousDir = some path →
    ∃ d, path = T.path d ∧ d ≠ s.cwd ∧ (T.Searchable → T.Enterable d → T.Enterable s.cwd)

theorem trail_init (d : δ) (history : Option (List Char)) : Trail T (.init T d history) :=
  ⟨by simp [HopState.init]⟩

/-- An attempt fails and changes nothing, leads to where the shell was, or leads elsewhere. -/
theorem changeDirectory_on (h : Hop) (k : ℕ) (path : List Char) (s : HopState δ) :
    (T.chdir s.cwd path = none ∧ changeDirectory (.on T h) k path s = (-1, s))
      ∨ (T.chdir s.cwd path = some s.cwd ∧ changeDirectory (.on T h) k path s = (0, s))
      ∨ ∃ d history, T.chdir s.cwd path = some d ∧ d ≠ s.cwd
        ∧ changeDirectory (.on T h) k path s
          = (0, ⟨d, s.homeDir, some (T.path s.cwd), history⟩) := by
  simp only [changeDirectory, HopEnv.on]
  rcases T.chdir s.cwd path with _ | d
  · exact .inl ⟨rfl, rfl⟩
  by_cases hd : d = s.cwd
  · subst hd
    exact .inr (.inl ⟨rfl, by simp⟩)
  · have hne : T.path s.cwd ≠ T.path d := fun he => hd (T.path_injective he).symm
    exact .inr (.inr ⟨d, _, rfl, hd, if_pos hne⟩)

theorem Trail.changeDirectory (htrail : Trail T s) (h : Hop) (k : ℕ) (path : List Char) :
    Trail T (changeDirectory (.on T h) k path s).2 := by
  rcases changeDirectory_on T h k path s with ⟨-, hr⟩ | ⟨-, hr⟩ | ⟨d, history, hd, hne, hr⟩ <;>
    rw [hr]
  · exact htrail
  · exact htrail
  · refine ⟨fun p hp => ?_⟩
    obtain rfl : T.path s.cwd = p := by simpa using hp
    exact ⟨s.cwd, rfl, Ne.symm hne, fun hT => hT _ _ _ hd⟩

theorem Trail.doHop (htrail : Trail T s) (h : Hop) (argument : List Char) :
    Trail T (doHop (.on T h) argument s).2 := by
  unfold Shell.doHop
  split_ifs
  · exact htrail.changeDirectory T h 0 _
  · exact htrail
  · rcases s.previousDir with _ | path
    · exact htrail
    · exact htrail.changeDirectory T h 0 path
  · have hfirst := htrail.changeDirectory T h 0 argument
    generalize Shell.changeDirectory (.on T h) 0 argument s = r at hfirst
    obtain ⟨result, s⟩ := r
    simp only
    split_ifs
    · exact hfirst
    · split
      · exact hfirst
      · exact hfirst.changeDirectory T h 1 _

theorem trail_exec (d : δ) (history : Option (List Char)) (hs : List Hop) :
    Trail T ((hops T).exec hs (.init T d history)) :=
  (hops T).invariant (I := Trail T) (fun h _ htrail _ => htrail.doHop T h h.argument)
    (trail_init T d history) hs ((hops T).valid_of_can (fun _ _ => trivial) hs _)

/-- `hop -` to a directory that can be entered. -/
theorem doHop_dash (h : Hop) {d : δ} (hprev : s.previousDir = some (T.path d)) (hne : d ≠ s.cwd)
    (hd : T.Enterable d) : ∃ history,
      doHop (.on T h) ['-'] s = (0, ⟨d, s.homeDir, some (T.path s.cwd), history⟩) := by
  have hdash : doHop (.on T h) ['-'] s = changeDirectory (.on T h) 0 (T.path d) s := by
    simp [doHop, hprev]
  rw [hdash]
  rcases changeDirectory_on T h 0 (T.path d) s with ⟨hc, -⟩ | ⟨hc, -⟩ | ⟨e, history, hc, -, hr⟩ <;>
    rw [hd] at hc
  · exact absurd hc (by simp)
  · exact absurd (Option.some.inj hc) hne
  · obtain rfl := Option.some.inj hc
    exact ⟨history, hr⟩

end Tree

/-- Behind any hops on a tree that does not change, `previous_dir` is the canonical path of another
directory; and if that can be entered, `hop -` exchanges it with the current directory, and a second
one exchanges them again where what is reached from an enterable directory can be entered. -/
theorem hop_dash_exchanges {δ : Type*} (T : DirTree δ) (start : δ) (history : Option (List Char))
    (hs : List Hop) :
    let s := (hops T).exec hs (.init T start history)
    (∀ path, s.previousDir = some path → ∃ d, path = T.path d ∧ path ≠ T.path s.cwd)
      ∧ ∀ path d, s.previousDir = some path → T.chdir s.cwd path = some d → ∀ h h' : Hop,
        let r := doHop (.on T h) ['-'] s
        let r' := doHop (.on T h') ['-'] r.2
        (r.1 = 0 ∧ T.path r.2.cwd = path ∧ r.2.previousDir = some (T.path s.cwd))
          ∧ (T.Searchable →
            r'.1 = 0 ∧ r'.2.cwd = s.cwd ∧ r'.2.previousDir = s.previousDir) := by
  intro s
  have htrail : Trail T s := trail_exec T start history hs
  refine ⟨fun path hpath => ?_, fun path d hpath hd h h' => ?_⟩
  · obtain ⟨d, rfl, hne, -⟩ := htrail.previous path hpath
    exact ⟨d, rfl, fun he => hne (T.path_injective he)⟩
  · obtain ⟨e, rfl, hne, hback⟩ := htrail.previous path hpath
    obtain ⟨rfl, henter⟩ := T.eq_of_chdir_path hd
    obtain ⟨file, hr⟩ := doHop_dash T h hpath hne henter
    intro r r'
    refine ⟨by simp only [r, hr, and_self], fun hT => ?_⟩
    obtain ⟨file', hr'⟩ := doHop_dash T h' (s := (doHop (.on T h) ['-'] s).2) (by rw [hr])
      (by rw [hr]; exact Ne.symm hne) (hback hT henter)
    simp only [r', r, hr', hr, hpath, and_self]

/-- The root and the directory `/a` in it. -/
def smallTree : DirTree Bool where
  path d := if d then ['/', 'a'] else ['/']
  chdir d p :=
    if p = ['/'] ∨ p = ['.', '.'] then some false
    else if p = ['/', 'a'] ∨ p = ['a'] ∧ d = false then some true
    else none
  path_injective := by unfold Function.Injective; decide
  chdir_path := by decide

theorem searchable_smallTree : smallTree.Searchable := by
  intro _ _ e _ _
  unfold DirTree.Enterable
  cases e <;> decide

def hopTo (argument : List Char) : Hop :=
  ⟨argument, fun _ => true, .succeeding, .succeeding⟩

theorem hop_dash_exchanges_smallTree :
    let s := (hops smallTree).exec [hopTo ['a'], hopTo ['.', '.']] (.init smallTree false none)
    let r := doHop (.on smallTree (hopTo ['-'])) ['-'] s
    let r' := doHop (.on smallTree (hopTo ['-'])) ['-'] r.2
    (s.previousDir = some ['/', 'a'] ∧ smallTree.chdir s.cwd ['/', 'a'] = some true
        ∧ smallTree.Searchable)
      ∧ (r.1 = 0 ∧ smallTree.path r.2.cwd = ['/', 'a']
        ∧ r.2.previousDir = some (smallTree.path s.cwd))
      ∧ r'.1 = 0 ∧ r'.2.cwd = s.cwd ∧ r'.2.previousDir = s.previousDir := by
  have h := (hop_dash_exchanges smallTree false none [hopTo ['a'], hopTo ['.', '.']]).2 ['/', 'a']
    true (by decide) (by decide) (hopTo ['-']) (hopTo ['-'])
  exact ⟨⟨by decide, by decide, searchable_smallTree⟩, h.1, h.2 searchable_smallTree⟩

end Shell

end CShellXv6
