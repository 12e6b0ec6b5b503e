import CShellXv6.Lib.Nesting
import CShellXv6.Shell.Reveal
import Mathlib.Algebra.Order.BigOperators.Group.List
import Mathlib.Algebra.Order.Group.Nat

/-!
# What `reveal -t` lists

The order of `strcmp` is a linear one, so that sorted entries with different names are strictly in
order. By induction over the tree, what `print_directory` prints for a directory is a block for each
of its entries: the line of the entry, and for a directory the listing of what is inside, all of
whose paths start with its name. The blocks are in the order of these names, so that the whole
listing is in the lexicographic order of the paths, from which the rest is read off.
-/

namespace CShellXv6

namespace Shell

namespace Reveal

section Strcmp

theorem eq_of_strcmp : ∀ {a b : List Char}, strcmp a b = 0 → a = b
  | [], [], _ => rfl
  | c :: a, d :: b, h => by
    rw [strcmp] at h
    by_cases hcd : c = d
    · rw [if_pos hcd] at h
      rw [hcd, eq_of_strcmp h]
    · rw [if_neg hcd] at h
      split_ifs at h
      omega

theorem strcmp_swap : ∀ a b : List Char, strcmp a b = - strcmp b a
  | [], [] => rfl
  | [], _ :: _ => rfl
  | _ :: _, [] => rfl
  | c :: a, d :: b => by
    rw [strcmp, strcmp]
    by_cases hcd : c = d
    · rw [if_pos hcd, if_pos hcd.symm, strcmp_swap a b]
    · have hne := mt Char.toNat_inj.1 hcd
      rw [if_neg hcd, if_neg (Ne.symm hcd)]
      split_ifs <;> omega

theorem strcmp_cons_le {c d : Char} {a b : List Char} :
    strcmp (c :: a) (d :: b) ≤ 0 ↔ c.toNat < d.toNat ∨ (c = d ∧ strcmp a b ≤ 0) := by
  rw [strcmp]
  by_cases hcd : c = d
  · rw [if_pos hcd, hcd]
    simp
  · rw [if_neg hcd]
    split_ifs with hlt <;> simp [hcd, hlt]

theorem strcmp_trans : ∀ {a b c : List Char}, strcmp a b ≤ 0 → strcmp b c ≤ 0 → strcmp a c ≤ 0
  | [], _, [], _, _ => le_refl 0
  | [], _, _ :: _, _, _ => by simp [strcmp]
  | _ :: _, [], _, h, _ => absurd h (by simp [strcmp])
  | _ :: _, _ :: _, [], _, h => absurd h (by simp [strcmp])
  | x :: a, y :: b, z :: c, hab, hbc => by
    rw [strcmp_cons_le] at hab hbc ⊢
    rcases hab with hxy | ⟨rfl, hab⟩
    · rcases hbc with hyz | ⟨rfl, -⟩
      · exact .inl (hxy.trans hyz)
      · exact .inl hxy
    · rcases hbc with hyz | ⟨rfl, hbc⟩
      · exact .inl hyz
      · exact .inr ⟨rfl, strcmp_trans hab hbc⟩

instance : Std.Asymm fun a b => strcmp a b < 0 where
  asymm a b hab hba := by
    rw [strcmp_swap] at hba
    omega

instance : Std.Total fun a b => compareEntries a b ≤ 0 where
  total a b := by
    have hswap := strcmp_swap a.name b.name
    simp only [compareEntries]
    omega

instance : IsTrans RevealEntry fun a b => compareEntries a b ≤ 0 where
  trans _ _ _ hab hbc := strcmp_trans hab hbc

end Strcmp

section Entries

variable {fs : FileSystem} {showHidden : Bool} {path : List Char} {names : List (List Char)}

theorem readEntry_eq_some {name : List Char} {e : RevealEntry} :
    readEntry fs showHidden path name = some e ↔
      (name ≠ ['.'] ∧ name ≠ ['.', '.']) ∧ (showHidden = true ∨ name.head? ≠ some '.')
        ∧ ∃ kind, fs.lstat (joinPath path name) = some kind ∧ e = ⟨name, kind = .directory⟩ := by
  rw [readEntry]
  split_ifs with hdots hhidden
  · exact ⟨fun h => absurd h (by simp), fun h => absurd hdots (not_or.2 h.1)⟩
  · refine ⟨fun h => absurd h (by simp), fun h => ?_⟩
    rcases h.2.1 with hshow | hname
    · exact absurd (hhidden.1.symm.trans hshow) (by decide)
    · exact absurd hhidden.2 hname
  · rw [Option.map_eq_some_iff]
    refine ⟨fun ⟨kind, hkind, he⟩ => ⟨not_or.1 hdots, ?_, kind, hkind, he.symm⟩,
      fun ⟨_, _, kind, hkind, he⟩ => ⟨kind, hkind, he.symm⟩⟩
    rw [not_and] at hhidden
    cases showHidden
    · exact .inr (hhidden rfl)
    · exact .inl rfl

theorem sortEntries_short {entries : List RevealEntry} (h : ¬ 1 < entries.length) :
    sortEntries entries = entries := by
  match entries, h with
  | [], _ => rfl
  | [_], _ => rfl
  | _ :: _ :: _, h => simp at h

theorem readEntries_eq (hopen : fs.opendir path = some names) :
    readEntries fs showHidden path
      = some (sortEntries (names.filterMap (readEntry fs showHidden path))) := by
  simp only [readEntries, hopen]
  split_ifs with hlength
  · rfl
  · rw [sortEntries_short hlength]

theorem mem_sortEntries (hopen : fs.opendir path = some names) {e : RevealEntry} :
    e ∈ sortEntries (names.filterMap (readEntry fs showHidden path)) ↔
      fs.Holds path e.name ∧ (showHidden = true ∨ e.name.head? ≠ some '.')
        ∧ ∃ kind, fs.lstat (joinPath path e.name) = some kind
          ∧ e = ⟨e.name, kind = .directory⟩ := by
  rw [sortEntries, (List.perm_insertionSort _ _).mem_iff, List.mem_filterMap]
  simp only [readEntry_eq_some, FileSystem.Holds, hopen, Option.getD_some]
  constructor
  · rintro ⟨name, hname, hdots, hshown, kind, hkind, rfl⟩
    exact ⟨⟨hname, hdots⟩, hshown, kind, hkind, rfl⟩
  · rintro ⟨⟨hname, hdots⟩, hshown, kind, hkind, he⟩
    exact ⟨e.name, hname, hdots, hshown, kind, hkind, he⟩

theorem sortEntries_sorted (hnames : names.Nodup) :
    (sortEntries (names.filterMap (readEntry fs showHidden path))).Pairwise
      fun a b => strcmp a.name b.name < 0 := by
  have hne : (names.filterMap (readEntry fs showHidden path)).Pairwise
      fun a b => a.name ≠ b.name := by
    refine List.Pairwise.filterMap _ (fun a a' haa' b hb b' hb' => ?_) hnames
    obtain ⟨-, -, _, -, rfl⟩ := readEntry_eq_some.1 hb
    obtain ⟨-, -, _, -, rfl⟩ := readEntry_eq_some.1 hb'
    exact haa'
  have hperm := List.perm_insertionSort (fun a b => compareEntries a b ≤ 0)
    (names.filterMap (readEntry fs showHidden path))
  have hsorted := List.pairwise_insertionSort (fun a b => compareEntries a b ≤ 0)
    (names.filterMap (readEntry fs showHidden path))
  refine (hsorted.and (hperm.symm.pairwise hne Ne.symm)).imp fun hab => ?_
  exact lt_of_le_of_ne hab.1 fun h => hab.2 (eq_of_strcmp h)

end Entries

section Below

variable {fs : FileSystem} {path : List Char}

theorem below_cons_iff {name : List Char} {rest : List (List Char)} {kind : FileKind} :
    fs.Below path (name :: rest) kind ↔ fs.Holds path name ∧
      ((rest = [] ∧ fs.lstat (joinPath path name) = some kind)
        ∨ (fs.lstat (joinPath path name) = some .directory
          ∧ fs.Below (joinPath path name) rest kind)) := by
  constructor
  · rintro (⟨hholds, hkind⟩ | ⟨hholds, hkind, hrest⟩)
    · exact ⟨hholds, .inl ⟨rfl, hkind⟩⟩
    · exact ⟨hholds, .inr ⟨hkind, hrest⟩⟩
  · rintro ⟨hholds, ⟨rfl, hkind⟩ | ⟨hkind, hrest⟩⟩
    · exact .entry hholds hkind
    · exact .inside hholds hkind hrest

theorem not_below_nil {kind : FileKind} : ¬ fs.Below path [] kind :=
  nofun

/-- Only a directory has something below it. -/
theorem directory_of_below : ∀ {p q : List (List Char)} {path : List Char} {kind kind' : FileKind},
    fs.Below path p kind → fs.Below path (p ++ q) kind' →
      (q = [] ∧ kind' = kind) ∨ kind = .directory
  | [], _, _, _, _, h, _ => absurd h not_below_nil
  | name :: p, q, path, kind, kind', h, h' => by
    rw [below_cons_iff] at h
    rw [List.cons_append, below_cons_iff] at h'
    rcases h.2 with ⟨rfl, hkind⟩ | ⟨hkind, hrest⟩
    · rcases h'.2 with ⟨hq, hkind'⟩ | ⟨hkind', -⟩
      · exact .inl ⟨hq, Option.some.inj (hkind'.symm.trans hkind)⟩
      · exact .inr (Option.some.inj (hkind.symm.trans hkind'))
    · rcases h'.2 with ⟨hnil, -⟩ | ⟨-, hrest'⟩
      · rw [(List.append_eq_nil_iff.1 hnil).1] at hrest
        exact absurd hrest not_below_nil
      · exact directory_of_below hrest hrest'

theorem names_of_below (htree : fs.Tree path) : ∀ {p : List (List Char)} {kind : FileKind},
    fs.Below path p kind → ∀ name ∈ p, name ≠ [] ∧ '/' ∉ name := by
  induction htree with
  | directory hopen hnodup hnames hinside ih =>
    rintro (- | ⟨first, rest⟩) kind h name hname
    · exact absurd h not_below_nil
    · rw [below_cons_iff] at h
      have hfirst := hnames first h.1
      rcases List.mem_cons.1 hname with rfl | hname
      · exact ⟨hfirst.1, hfirst.2.1⟩
      · rcases h.2 with ⟨rfl, -⟩ | ⟨hkind, hrest⟩
        · exact absurd hname List.not_mem_nil
        · exact ih first h.1 hkind hrest name hname

end Below

section Print

variable {fs : FileSystem} {showHidden : Bool} {path : List Char}

/-- The line of an entry where `shown` has been gone down already. -/
def Entry.lineFrom (shown : List Char) (e : Entry) : List Char :=
  e.path.foldl childShown shown ++ (if e.kind = .directory then ['/'] else []) ++ ['\n']

/-- The entry one directory further up. -/
def Entry.under (name : List Char) (e : Entry) : Entry := ⟨name :: e.path, e.kind⟩

def Entry.Ahead (a b : Entry) : Prop :=
  List.Lex (fun m n => strcmp m n < 0) a.path b.path

/-- These entries are listed below the path, with so many calls inside each other. -/
structure Lists (fs : FileSystem) (showHidden : Bool) (path : List Char) (listed : List Entry)
    (depth : ℕ) : Prop where
  prints : ∀ n ≥ depth, ∀ shown,
    printDirectory fs showHidden true n path shown = some (listed.flatMap (Entry.lineFrom shown))
  ahead : listed.Pairwise Entry.Ahead
  mem_iff : ∀ e : Entry, e ∈ listed ↔
    fs.Below path e.path e.kind ∧ (showHidden = true ∨ e.Visible)

/-- What is printed for one entry of the directory. -/
structure Block (fs : FileSystem) (showHidden : Bool) (path : List Char) (s : RevealEntry)
    (listed : List Entry) (depth : ℕ) : Prop where
  prints : ∀ n ≥ depth, ∀ shown,
    printEntry true (printDirectory fs showHidden true n) path shown s
      = some (listed.flatMap (Entry.lineFrom shown))
  ahead : listed.Pairwise Entry.Ahead
  mem_iff : ∀ e : Entry, e ∈ listed ↔
    e.path.head? = some s.name ∧ fs.Below path e.path e.kind ∧ (showHidden = true ∨ e.Visible)

theorem visible_cons {name : List Char} {rest : List (List Char)} {kind : FileKind} :
    Entry.Visible ⟨name :: rest, kind⟩ ↔
      name.head? ≠ some '.' ∧ Entry.Visible ⟨rest, kind⟩ := by
  simp [Entry.Visible]

theorem block_plain {name : List Char} {kind : FileKind} (hholds : fs.Holds path name)
    (hshown : showHidden = true ∨ name.head? ≠ some '.')
    (hkind : fs.lstat (joinPath path name) = some kind) (hplain : kind ≠ .directory) :
    Block fs showHidden path ⟨name, false⟩ [⟨[name], kind⟩] 0 where
  prints n _ shown := by
    simp [printEntry, Entry.lineFrom, if_neg hplain]
  ahead := List.pairwise_singleton _ _
  mem_iff := by
    rintro ⟨- | ⟨first, rest⟩, kind'⟩
    · simp
    · rw [List.mem_singleton, Entry.mk.injEq, List.cons.injEq, List.head?_cons, Option.some.injEq,
        below_cons_iff, visible_cons]
      constructor
      · rintro ⟨⟨rfl, rfl⟩, rfl⟩
        exact ⟨rfl, ⟨hholds, .inl ⟨rfl, hkind⟩⟩, hshown.imp_right (⟨·, nofun⟩)⟩
      · rintro ⟨rfl, ⟨-, ⟨rfl, hkind'⟩ | ⟨hkind', -⟩⟩, -⟩
        · exact ⟨⟨rfl, rfl⟩, Option.some.inj (hkind'.symm.trans hkind)⟩
        · exact absurd (Option.some.inj (hkind.symm.trans hkind')) hplain

theorem Lists.below {listed : List Entry} {depth : ℕ}
    (h : Lists fs showHidden path listed depth) {e : Entry} (he : e ∈ listed) :
    fs.Below path e.path e.kind :=
  ((h.mem_iff e).1 he).1

theorem Lists.path_ne_nil {listed : List Entry} {depth : ℕ}
    (h : Lists fs showHidden path listed depth) {e : Entry}
    (he : e ∈ listed) : e.path ≠ [] :=
  fun hnil => not_below_nil (hnil ▸ h.below he)

theorem lineFrom_under (shown name : List Char) (e : Entry) :
    (e.under name).lineFrom shown = e.lineFrom (childShown shown name) :=
  rfl

theorem block_directory {name : List Char} {listed : List Entry} {depth : ℕ}
    (hholds : fs.Holds path name) (hshown : showHidden = true ∨ name.head? ≠ some '.')
    (hkind : fs.lstat (joinPath path name) = some .directory)
    (hinside : Lists fs showHidden (joinPath path name) listed depth) :
    Block fs showHidden path ⟨name, true⟩
      (⟨[name], .directory⟩ :: listed.map (Entry.under name)) depth where
  prints n hn shown := by
    have hline : Entry.lineFrom shown ⟨[name], .directory⟩
        = childShown shown name ++ ['/', '\n'] := by
      simp [Entry.lineFrom]
    rw [List.flatMap_cons, hline, List.flatMap_map]
    simp only [printEntry, if_true, hinside.prints n hn, lineFrom_under]
    rfl
  ahead := by
    refine List.pairwise_cons.2 ⟨fun e he => ?_, ?_⟩
    · obtain ⟨e, hmem, rfl⟩ := List.mem_map.1 he
      exact Nesting.lex_of_isPrefix ⟨e.path, rfl⟩
        fun h => hinside.path_ne_nil hmem (List.cons.inj h).2.symm
    · rw [List.pairwise_map]
      exact hinside.ahead.imp .cons
  mem_iff := by
    rintro ⟨- | ⟨first, rest⟩, kind⟩
    · simp [Entry.under]
    · rw [List.mem_cons, List.mem_map, Entry.mk.injEq, List.cons.injEq, List.head?_cons,
        Option.some.injEq, below_cons_iff, visible_cons]
      constructor
      · rintro (⟨⟨rfl, rfl⟩, rfl⟩ | ⟨e, he, heq⟩)
        · exact ⟨rfl, ⟨hholds, .inl ⟨rfl, hkind⟩⟩, hshown.imp_right (⟨·, nofun⟩)⟩
        · obtain ⟨⟨rfl, rfl⟩, rfl⟩ := Entry.mk.inj heq |>.imp_left List.cons.inj
          have he := (hinside.mem_iff e).1 he
          refine ⟨rfl, ⟨hholds, .inr ⟨hkind, he.1⟩⟩, ?_⟩
          rcases he.2 with hall | hvisible
          · exact .inl hall
          · exact hshown.imp_right (⟨·, hvisible⟩)
      · rintro ⟨rfl, ⟨-, ⟨rfl, hkind'⟩ | ⟨-, hrest⟩⟩, hvisible⟩
        · exact .inl ⟨⟨rfl, rfl⟩, Option.some.inj (hkind'.symm.trans hkind)⟩
        · exact .inr ⟨⟨rest, kind⟩,
            (hinside.mem_iff _).2 ⟨hrest, hvisible.imp_right And.right⟩, rfl⟩

theorem printEntries_eq {inside : List Char → List Char → Option (List Char)} {shown : List Char}
    {text : RevealEntry → List Char} : ∀ {entries : List RevealEntry},
      (∀ s ∈ entries, printEntry true inside path shown s = some (text s)) →
      printEntries true inside path shown entries = some (entries.flatMap text)
  | [], _ => rfl
  | s :: entries, h => by
    rw [List.forall_mem_cons] at h
    rw [printEntries, h.1, printEntries_eq h.2]
    rfl

/-- An entry has its block where the directories of the directory have been listed. -/
theorem exists_block {names : List (List Char)} (hopen : fs.opendir path = some names)
    (hinside : ∀ name, fs.Holds path name → fs.lstat (joinPath path name) = some .directory →
      ∃ listed depth, Lists fs showHidden (joinPath path name) listed depth)
    {s : RevealEntry} (hs : s ∈ sortEntries (names.filterMap (readEntry fs showHidden path))) :
    ∃ listed depth, Block fs showHidden path s listed depth := by
  obtain ⟨hholds, hshown, kind, hkind, he⟩ := (mem_sortEntries hopen).1 hs
  rw [he]
  by_cases hdirectory : kind = .directory
  · subst hdirectory
    obtain ⟨listed, depth, hlists⟩ := hinside s.name hholds hkind
    exact ⟨_, depth, block_directory hholds hshown hkind hlists⟩
  · rw [decide_eq_false hdirectory]
    exact ⟨_, 0, block_plain hholds hshown hkind hdirectory⟩

theorem exists_lists (htree : fs.Tree path) :
    ∃ listed depth, Lists fs showHidden path listed depth := by
  induction htree with
  | @directory path names hopen hnodup hnames _ ih =>
    have hblock : ∀ s, ∃ listed depth,
        s ∈ sortEntries (names.filterMap (readEntry fs showHidden path)) →
        Block fs showHidden path s listed depth := by
      intro s
      by_cases hs : s ∈ sortEntries (names.filterMap (readEntry fs showHidden path))
      · obtain ⟨listed, depth, h⟩ := exists_block hopen ih hs
        exact ⟨listed, depth, fun _ => h⟩
      · exact ⟨[], 0, fun h => absurd h hs⟩
    choose block depth hblock using hblock
    set entries := sortEntries (names.filterMap (readEntry fs showHidden path)) with hentries
    refine ⟨entries.flatMap block, (entries.map depth).sum + 1, ?_, ?_, ?_⟩
    · rintro (- | n) hn shown
      · omega
      · rw [printDirectory, readEntries_eq hopen]
        refine (printEntries_eq fun s hs => (hblock s hs).prints n ?_ shown).trans ?_
        · have hle : depth s ≤ (entries.map depth).sum :=
            List.le_sum_of_mem (List.mem_map_of_mem hs)
          omega
        · rw [List.flatMap_assoc]
    · exact Nesting.pairwise_blocks (sortEntries_sorted hnodup) (fun s hs => (hblock s hs).ahead)
        fun s hs e he => (((hblock s hs).mem_iff e).1 he).1
    · intro e
      rw [List.mem_flatMap]
      constructor
      · rintro ⟨s, hs, he⟩
        exact (((hblock s hs).mem_iff e).1 he).2
      · rintro ⟨hbelow, hshown⟩
        obtain ⟨- | ⟨name, rest⟩, kind⟩ := e
        · exact absurd hbelow not_below_nil
        · have hholds := (below_cons_iff.1 hbelow).1
          obtain ⟨kind', hkind'⟩ := (hnames name hholds).2.2
          have hs : ⟨name, kind' = .directory⟩ ∈ entries :=
            (mem_sortEntries hopen).2
              ⟨hholds, hshown.imp_right fun h => (visible_cons.1 h).1, kind', hkind', rfl⟩
          exact ⟨_, hs, ((hblock _ hs).mem_iff _).2 ⟨rfl, hbelow, hshown⟩⟩

end Print

section Lines

theorem intercalate_joinPath (a b : List Char) (p : List (List Char)) :
    ['/'].intercalate (joinPath a b :: p) = ['/'].intercalate (a :: b :: p) := by
  cases p <;> simp [joinPath]

theorem intercalate_snoc_nil : ∀ {p : List (List Char)}, p ≠ [] →
    ['/'].intercalate (p ++ [[]]) = ['/'].intercalate p ++ ['/']
  | [], h => absurd rfl h
  | [a], _ => by simp
  | a :: b :: p, _ => by
    have hrest := intercalate_snoc_nil (List.cons_ne_nil b p)
    rw [List.cons_append, List.cons_append, List.intercalate_cons_cons, List.intercalate_cons_cons,
      ← List.cons_append, hrest, List.append_assoc, List.append_assoc, List.append_assoc]

theorem foldl_childShown : ∀ {p : List (List Char)} {shown : List Char}, shown ≠ [] →
    p.foldl childShown shown = ['/'].intercalate (shown :: p)
  | [], _, _ => by simp
  | name :: p, shown, h => by
    rw [List.foldl_cons, childShown, if_neg h, foldl_childShown (by simp [joinPath]),
      intercalate_joinPath]

theorem lineFrom_nil {e : Entry} (h : ∀ name ∈ e.path, name ≠ []) : e.lineFrom [] = e.line := by
  obtain ⟨- | ⟨name, rest⟩, kind⟩ := e
  · rfl
  · rw [Entry.lineFrom, List.foldl_cons, childShown, if_pos rfl,
      foldl_childShown (h name List.mem_cons_self), Entry.line]

theorem line_eq {e : Entry} (h : e.path ≠ []) :
    e.line = ['/'].intercalate (e.path ++ if e.kind = .directory then [[]] else []) ++ ['\n'] := by
  rw [Entry.line]
  split_ifs
  · rw [intercalate_snoc_nil h]
  · rw [List.append_nil, List.append_nil]

/-- Between its slashes a line has the names of the path, and behind the last slash of a directory
nothing. -/
theorem splitOn_line {e : Entry} (h : ∀ name ∈ e.path, name ≠ [] ∧ '/' ∉ name)
    (hne : e.path ≠ []) :
    List.splitOn '/' (['/'].intercalate (e.path ++ if e.kind = .directory then [[]] else []))
      = e.path ++ if e.kind = .directory then [[]] else [] := by
  refine List.splitOn_intercalate '/' (fun name hname => ?_) (by simp [hne])
  rcases List.mem_append.1 hname with hname | hname
  · exact (h name hname).2
  · split_ifs at hname
    · rw [List.mem_singleton.1 hname]
      exact List.not_mem_nil
    · exact absurd hname List.not_mem_nil

theorem path_of_line {a b : Entry} (ha : ∀ name ∈ a.path, name ≠ [] ∧ '/' ∉ name)
    (hb : ∀ name ∈ b.path, name ≠ [] ∧ '/' ∉ name) (ha' : a.path ≠ []) (hb' : b.path ≠ [])
    (h : a.line = b.line) : a.path = b.path := by
  rw [line_eq ha', line_eq hb', List.append_cancel_right_eq] at h
  have heq := (splitOn_line ha ha').symm.trans ((congrArg _ h).trans (splitOn_line hb hb'))
  split_ifs at heq
  · exact List.append_cancel_right heq
  · rw [List.append_nil] at heq
    exact absurd rfl (hb [] (heq ▸ List.mem_append_right _ List.mem_cons_self)).1
  · rw [List.append_nil] at heq
    exact absurd rfl (ha [] (heq ▸ List.mem_append_right _ List.mem_cons_self)).1
  · rwa [List.append_nil, List.append_nil] at heq

end Lines

section Listing

variable {fs : FileSystem} {showHidden : Bool} {path : List Char} {listed : List Entry} {depth : ℕ}

theorem Lists.listing (h : Lists fs showHidden path listed depth) (htree : fs.Tree path) :
    Listing fs path showHidden listed where
  mem_iff := h.mem_iff
  once := by
    have hpaths : listed.Pairwise (·.path ≠ ·.path) := h.ahead.imp fun hab heq => by
      rw [Entry.Ahead, heq] at hab
      exact irrefl_of (List.Lex _) _ hab
    refine List.pairwise_map.2 (hpaths.imp_of_mem fun {a b} ha hb hne heq => hne ?_)
    exact path_of_line (names_of_below htree (h.below ha)) (names_of_below htree (h.below hb))
      (h.path_ne_nil ha) (h.path_ne_nil hb) heq
  nested before d after heq := Nesting.inside_follows (heq ▸ h.ahead)
  siblings := h.ahead.imp fun {a b} hab parent m n ha hb => by
    rw [Entry.Ahead, ha, hb] at hab
    exact Nesting.lex_siblings (fun m n => strcmp m n < 0) hab
  notFollowed e he hkind e' he' := by
    rintro ⟨q, hq⟩
    have hbelow := h.below he'
    rw [← hq] at hbelow
    rcases directory_of_below (h.below he) hbelow with ⟨rfl, hsame⟩ | hdirectory
    · obtain ⟨p', kind'⟩ := e'
      rw [List.append_nil] at hq
      exact congr (congrArg Entry.mk hq.symm) hsame
    · exact absurd hdirectory hkind

end Listing

section Command

theorem optionLetters_eq : ∀ {letters : List Char} (o : RevealOptions),
    (∀ c ∈ letters, c = 'a' ∨ c = 't') →
    optionLetters letters o
      = some ⟨o.showHidden || letters.contains 'a', o.recursive || letters.contains 't'⟩
  | [], o, _ => by simp [optionLetters]
  | c :: letters, o, h => by
    rw [List.forall_mem_cons] at h
    rcases h.1 with rfl | rfl
    · rw [optionLetters, if_pos rfl, optionLetters_eq _ h.2]
      simp
    · rw [optionLetters, if_neg (by decide), if_pos rfl, optionLetters_eq _ h.2]
      simp

theorem revealOptions_flags {argument : Option (List Char)}
    (hargument : ∀ a ∈ argument, Peek.isOption ⟨.word, a⟩ = false) :
    ∀ (flags : List (List Char)) (o : RevealOptions), (∀ flag ∈ flags, IsFlag flag) →
      revealOptions ((flags ++ argument.toList).map (⟨.word, ·⟩)) o
        = some (⟨o.showHidden || flags.any (·.contains 'a'),
            o.recursive || flags.any (·.contains 't')⟩, argument.toList.map (⟨.word, ·⟩))
  | [], o, _ => by
    rcases argument with - | argument
    · simp [revealOptions]
    · simp [revealOptions, hargument argument rfl]
  | flag :: flags, o, h => by
    rw [List.forall_mem_cons] at h
    obtain ⟨letters, hne, rfl, hletters⟩ := h.1
    have hoption : Peek.isOption ⟨.word, '-' :: letters⟩ = true := by
      simp [Peek.isOption, hne]
    rw [List.cons_append, List.map_cons, revealOptions, if_pos hoption, List.tail_cons,
      optionLetters_eq o hletters, Option.bind_some, revealOptions_flags hargument flags _ h.2]
    simp [Bool.or_assoc]

variable {fs : FileSystem} {homeDir path : List Char} {previousDir : Option (List Char)}

theorem runReveal_flags (n : ℕ) {flags : List (List Char)} {argument : Option (List Char)}
    (hflags : ∀ flag ∈ flags, IsFlag flag)
    (hargument : ∀ a ∈ argument, Peek.isOption ⟨.word, a⟩ = false) :
    runReveal fs n homeDir previousDir (revealTokens flags argument)
      = revealAt fs n homeDir previousDir
        ⟨flags.any (·.contains 'a'), flags.any (·.contains 't')⟩ argument := by
  have hoptions := revealOptions_flags hargument flags ⟨false, false⟩ hflags
  rw [Bool.false_or, Bool.false_or] at hoptions
  rw [revealTokens, runReveal, if_neg (by simp), hoptions]
  rcases argument with - | argument
  · rfl
  · simp

theorem runReveal_lists_tree {flags : List (List Char)} {argument : Option (List Char)}
    {showHidden : Bool} (hflags : ∀ flag ∈ flags, IsFlag flag)
    (hhidden : showHidden = true ↔ ∃ flag ∈ flags, 'a' ∈ flag)
    (hrecursive : ∃ flag ∈ flags, 't' ∈ flag)
    (hargument : ∀ a ∈ argument, Peek.isOption ⟨.word, a⟩ = false)
    (hpath : resolveRevealPath fs homeDir previousDir argument = some path)
    (hstat : fs.stat path = some .directory) (htree : fs.Tree path) :
    ∃ listed : List Entry,
      Listing fs path showHidden listed
        ∧ ∃ depth, ∀ n ≥ depth,
          runReveal fs n homeDir previousDir (revealTokens flags argument)
            = some ⟨1, listed.flatMap Entry.line, []⟩ := by
  have hany : flags.any (·.contains 'a') = showHidden := by
    rw [Bool.eq_iff_iff, hhidden]
    simp
  have hall : flags.any (·.contains 't') = true := by
    simpa using hrecursive
  obtain ⟨listed, depth, h⟩ := exists_lists htree
  refine ⟨listed, h.listing htree, depth, fun n hn => ?_⟩
  have hlines : listed.flatMap (Entry.lineFrom []) = listed.flatMap Entry.line :=
    List.flatMap_congr fun e he =>
      lineFrom_nil fun name hname => (names_of_below htree (h.below he) name hname).1
  rw [runReveal_flags n hflags hargument, hany, hall]
  simp only [revealAt, hpath, if_pos hstat, h.prints n hn, hlines, Option.map_some]

/-- The root has a directory, and a symbolic link to itself. -/
def linkedFs : FileSystem where
  opendir p :=
    if p = ['/'] ∨ p = ['/', '/', 'a'] then some [['.'], ['.', '.'], ['b'], ['a']]
    else if p = ['/', '/', 'b'] then some [['.', 'h'], ['.', '.'], ['.'], ['c']]
    else none
  lstat p :=
    if p = ['/', '/', 'a'] then some .symlink
    else if p = ['/', '/', 'b'] then some .directory
    else if p = ['/', '/', 'b', '/', 'c'] ∨ p = ['/', '/', 'b', '/', '.', 'h'] then some .other
    else none
  stat p := if p = ['/'] then some .directory else none
  realpath p := if p = ['.'] then some ['/'] else none

theorem linkedFs_tree : linkedFs.Tree ['/'] := by
  have hroot : ∀ name, linkedFs.Holds ['/'] name → name = ['b'] ∨ name = ['a'] :=
    fun name ⟨hname, hdot, hdots⟩ => by simpa [linkedFs, hdot, hdots] using hname
  have hbelow : ∀ name, linkedFs.Holds ['/', '/', 'b'] name → name = ['.', 'h'] ∨ name = ['c'] :=
    fun name ⟨hname, hdot, hdots⟩ => by simpa [linkedFs, hdot, hdots] using hname
  refine .directory rfl (by decide) (fun name h => ?_) fun name h hkind => ?_
  · rcases hroot name h with rfl | rfl
    · exact ⟨by decide, by decide, .directory, rfl⟩
    · exact ⟨by decide, by decide, .symlink, rfl⟩
  · rcases hroot name h with rfl | rfl
    · refine .directory rfl (by decide) (fun name h => ?_) fun name h hkind => ?_
      · rcases hbelow name h with rfl | rfl <;> exact ⟨by decide, by decide, .other, rfl⟩
      · rcases hbelow name h with rfl | rfl <;> exact absurd hkind (by decide)
    · exact absurd hkind (by decide)

theorem runReveal_lists_tree_linked :
    ∃ listed : List Entry, Listing linkedFs ['/'] false listed
      ∧ ∃ depth, ∀ n ≥ depth,
        runReveal linkedFs n [] none (revealTokens [['-', 't']] none)
          = some ⟨1, listed.flatMap Entry.line, []⟩ := by
  have hflags : ∀ flag ∈ [['-', 't']], IsFlag flag := by
    intro flag hflag
    exact ⟨['t'], by decide, List.mem_singleton.1 hflag, by simp⟩
  exact runReveal_lists_tree hflags (by decide) (by decide) (by simp) rfl rfl linkedFs_tree

example : runReveal linkedFs 2 [] none (revealTokens [['-', 't']] none)
    = some ⟨1, "a\nb/\nb/c\n".toList, []⟩ := by
  decide

end Command

end Reveal

end Shell

end CShellXv6
