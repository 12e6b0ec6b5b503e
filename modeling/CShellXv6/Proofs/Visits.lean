import CShellXv6.Proofs.Frecency
import CShellXv6.Shell.Visits

/-!
# Lost visits

A version of the history is what the file holds or what a process has loaded from it. No version
counts more visits than were made before it; it falls behind when the other process saves, and so
does everything that is saved from it. If no process loads the file between a load and the save of
the other one, no version ever falls behind; and otherwise the file ends behind.
-/

namespace CShellXv6

namespace Shell

namespace History

variable {visits : List Visit} {path : List Char} {sequence : Int}

section Count

theorem countOf_cons (v : Visit) (visits : List Visit) (path : List Char) :
    countOf (v :: visits) path = if v.path = path then v.count else countOf visits path := by
  unfold countOf
  rw [List.find?_cons]
  split_ifs with h <;> simp [h]

theorem countOf_append_of_notMem : ∀ {before : List Visit} (visits : List Visit),
    path ∉ before.map Visit.path → countOf (before ++ visits) path = countOf visits path
  | [], _, _ => rfl
  | v :: before, visits, h => by
    simp only [List.map_cons, List.mem_cons, not_or] at h
    rw [List.cons_append, countOf_cons, if_neg (Ne.symm h.1), countOf_append_of_notMem visits h.2]

theorem countOf_of_notMem (h : path ∉ visits.map Visit.path) : countOf visits path = 0 := by
  rw [← List.append_nil visits, countOf_append_of_notMem [] h]
  rfl

/-- An entry says nothing about the other paths. -/
theorem countOf_replace {v : Visit} (count last : Int) (behind : List Visit)
    (hne : v.path ≠ path) : ∀ before : List Visit,
    countOf (before ++ ⟨v.path, count, last⟩ :: behind) path = countOf (before ++ v :: behind) path
  | [] => by
    rw [List.nil_append, List.nil_append, countOf_cons, countOf_cons, if_neg hne, if_neg hne]
  | w :: before => by
    rw [List.cons_append, List.cons_append, countOf_cons, countOf_cons,
      countOf_replace count last behind hne before]

theorem countOf_append_of_ne {v : Visit} (hne : v.path ≠ path) : ∀ visits : List Visit,
    countOf (visits ++ [v]) path = countOf visits path
  | [] => by
    rw [List.nil_append, countOf_cons, if_neg hne]
  | w :: visits => by
    rw [List.cons_append, countOf_cons, countOf_cons, countOf_append_of_ne hne visits]

theorem mem_of_countOf_ne_zero (h : countOf visits path ≠ 0) : path ∈ visits.map Visit.path := by
  by_contra hnot
  exact h (countOf_of_notMem hnot)

theorem countOf_range (h : ∀ v ∈ visits, Storable v) (path : List Char) :
    longLongMin ≤ countOf visits path ∧ countOf visits path ≤ longLongMax := by
  rcases hfind : visits.find? (·.path = path) with _ | v
  · rw [countOf, hfind]
    exact ⟨by decide, by decide⟩
  · rw [countOf, hfind]
    exact (h v (List.mem_of_find?_eq_some hfind)).count

theorem path_of_storable (h : ∀ v ∈ visits, Storable v) (hpath : path ∈ visits.map Visit.path) :
    '\n' ∉ path ∧ nul ∉ path := by
  obtain ⟨v, hv, rfl⟩ := List.mem_map.1 hpath
  exact ⟨(h v hv).newline, (h v hv).nul⟩

/-- As long as it can be counted, a visit is. -/
theorem countOf_addVisit (hrange : ∀ v ∈ visits, Storable v)
    (hroom : countOf visits path + 1 ≤ longLongMax) (p : List Char) :
    countOf (addVisit .succeeding path visits sequence) p
      = countOf visits p + if p = path then 1 else 0 := by
  rcases addVisit_cases path visits sequence with
    ⟨before, v, behind, rfl, rfl, hnot, heq⟩ | ⟨hnot, heq⟩ <;> rw [heq]
  · split_ifs with hp
    · subst hp
      have hlow := (countOf_range hrange v.path).1
      rw [countOf_append_of_notMem _ hnot, countOf_cons, if_pos rfl] at hroom hlow ⊢
      rw [countOf_append_of_notMem _ hnot, countOf_cons, if_pos rfl]
      exact longLong_eq (by omega) hroom
    · rw [Int.add_zero]
      exact countOf_replace _ _ behind (Ne.symm hp) before
  · split_ifs with hp
    · subst hp
      rw [countOf_append_of_notMem _ hnot, countOf_of_notMem hnot, countOf_cons, if_pos rfl]
      rfl
    · rw [Int.add_zero, countOf_append_of_ne (Ne.symm hp)]

end Count

theorem longLong_range (n : Int) : longLongMin ≤ longLong n ∧ longLong n ≤ longLongMax := by
  have hlow : -(((2 ^ 64 : ℕ) : Int) / 2) ≤ n.bmod (2 ^ 64) := Int.le_bmod (by decide)
  have hhigh : n.bmod (2 ^ 64) < (((2 ^ 64 : ℕ) : Int) + 1) / 2 := Int.bmod_lt (by decide)
  unfold longLong longLongMin longLongMax
  omega

theorem storable_addVisit (hrange : ∀ v ∈ visits, Storable v) (hpath : '\n' ∉ path ∧ nul ∉ path) :
    ∀ v ∈ addVisit .succeeding path visits sequence, Storable v := by
  have hnew : ∀ n, longLongMin ≤ n ∧ n ≤ longLongMax →
      Storable ⟨path, n, longLong (sequence + 1)⟩ := fun n hn =>
    ⟨hpath.1, hpath.2, hn, longLong_range _⟩
  intro u hu
  rcases addVisit_cases path visits sequence with
    ⟨before, v, behind, rfl, rfl, -, heq⟩ | ⟨-, heq⟩ <;> rw [heq] at hu
  · rcases List.mem_append.1 hu with hu | hu
    · exact hrange u (by simp [hu])
    · rcases List.mem_cons.1 hu with rfl | hu
      · exact hnew _ (longLong_range _)
      · exact hrange u (by simp [hu])
  · rcases List.mem_append.1 hu with hu | hu
    · exact hrange u hu
    · rw [List.mem_singleton.1 hu]
      exact hnew 1 (by decide)

theorem paths_addVisit {p : List Char} (hp : p ∈ visits.map Visit.path) :
    p ∈ (addVisit .succeeding path visits sequence).map Visit.path := by
  rcases addVisit_cases path visits sequence with
    ⟨before, v, behind, rfl, rfl, -, heq⟩ | ⟨-, heq⟩ <;> rw [heq]
  · simpa using hp
  · rw [List.map_append]
    exact List.mem_append_left _ hp

theorem visitsIn_of_load {file : Option (List Char)}
    (h : loadVisits .succeeding file = some (visits, sequence)) : visitsIn file = visits := by
  rw [visitsIn, h]
  rfl

theorem loadLoop_succeeding : ∀ (ls : List (List Char)) (visits : List Visit) (sequence : Int),
    ∃ r, loadLoop .succeeding ls visits sequence = some r
  | [], visits, sequence => ⟨_, rfl⟩
  | line :: ls, visits, sequence => by
    rw [loadLoop]
    split
    · exact loadLoop_succeeding ls visits sequence
    · exact loadLoop_succeeding ls _ _

theorem load_succeeding (file : Option (List Char)) :
    ∃ sequence, loadVisits .succeeding file = some (visitsIn file, sequence) := by
  have hload : ∃ r, loadVisits .succeeding file = some r := by
    cases file with
    | none => exact ⟨_, rfl⟩
    | some content => exact loadLoop_succeeding (Lines.lines '\n' content) [] 0
  obtain ⟨⟨visits, sequence⟩, hload⟩ := hload
  exact ⟨sequence, by rw [hload, visitsIn_of_load hload]⟩

theorem storable_visitsIn (file : Option (List Char)) : ∀ v ∈ visitsIn file, Storable v := by
  obtain ⟨sequence, hload⟩ := load_succeeding file
  exact storable_of_load hload

theorem exists_recorder {s : Shared} {i : Bool} (h : (Access.save i).can s) :
    ∃ path todo visits sequence, s.recorders i = ⟨path :: todo, some (visits, sequence)⟩ := by
  obtain ⟨htodo, hloaded⟩ := h
  obtain ⟨path, todo, htodo⟩ := List.exists_cons_of_ne_nil htodo
  obtain ⟨⟨visits, sequence⟩, hloaded⟩ := Option.ne_none_iff_exists'.1 hloaded
  refine ⟨path, todo, visits, sequence, ?_⟩
  rw [← htodo, ← hloaded]

section Steps

variable {s : Shared} {i : Bool} {todo : List (List Char)}

theorem loaded_load (j : Bool) : ((s.load i).recorders j).loaded
    = if j = i then loadVisits .succeeding s.file else (s.recorders j).loaded := by
  by_cases hj : j = i
  · subst hj
    simp [Shared.load, Shared.set]
  · simp [Shared.load, Shared.set, hj]

theorem todo_load : (s.load i).todo = s.todo := by
  cases i <;> simp [Shared.todo, Shared.load, Shared.set]

variable (hr : s.recorders i = ⟨path :: todo, some (visits, sequence)⟩)

include hr

theorem loaded_save (j : Bool) :
    ((s.save i).recorders j).loaded = if j = i then none else (s.recorders j).loaded := by
  by_cases hj : j = i
  · subst hj
    simp [Shared.save, Shared.set, hr]
  · simp [Shared.save, Shared.set, hr, hj]

theorem count_todo_save (p : List Char) :
    s.todo.count p = (s.save i).todo.count p + if p = path then 1 else 0 := by
  have hcons : ∀ l : List (List Char),
      (path :: l).count p = l.count p + if p = path then 1 else 0 := by
    intro l
    rw [List.count_cons]
    by_cases hp : p = path
    · simp [hp]
    · simp [hp, Ne.symm hp]
  cases i <;> simp only [Shared.todo, Shared.save, Shared.set, hr, List.count_append,
    Function.update_self, hcons]
  · rw [Function.update_of_ne (by decide)]
    omega
  · rw [Function.update_of_ne (by decide)]
    omega

theorem visitsIn_save (hrange : ∀ v ∈ visits, Storable v) (hpath : '\n' ∉ path ∧ nul ∉ path) :
    visitsIn (s.save i).file = addVisit .succeeding path visits sequence := by
  simp only [Shared.save, hr]
  exact visitsIn_of_load (load_save (storable_addVisit hrange hpath))

end Steps

/-- The file holds this history, or a process has loaded it. -/
def Version (s : Shared) (V : List Visit) : Prop :=
  V = visitsIn s.file ∨ ∃ i n, (s.recorders i).loaded = some (V, n)

theorem version_load {s : Shared} {i : Bool} {V : List Visit} (h : Version (s.load i) V) :
    Version s V := by
  rcases h with h | ⟨j, n, h⟩
  · exact .inl h
  · rw [loaded_load] at h
    split_ifs at h with hj
    · exact .inl (visitsIn_of_load h).symm
    · exact .inr ⟨j, n, h⟩

/-- The two processes are to make the visits `made`, and `before` is the history at the start. -/
structure Room (made : List (List Char)) (before : List Visit) : Prop where
  path : ∀ p ∈ made, '\n' ∉ p ∧ nul ∉ p
  count : ∀ p ∈ made, countOf before p + made.count p ≤ longLongMax

/-- The history counts this visit, of all those made so far, at most once. -/
structure Sound (made : List (List Char)) (before : List Visit) (s : Shared) : Prop where
  todo : ∀ p ∈ s.todo, p ∈ made
  storable : ∀ V, Version s V → ∀ v ∈ V, Storable v
  kept : ∀ V, Version s V → ∀ p ∈ before.map Visit.path, p ∈ V.map Visit.path
  within : ∀ V, Version s V → ∀ p ∈ made,
    countOf V p + s.todo.count p ≤ countOf before p + made.count p

/-- Some visit made so far is not counted. -/
def Behind (made : List (List Char)) (before : List Visit) (s : Shared) (V : List Visit) : Prop :=
  ∃ p ∈ made, countOf V p + s.todo.count p < countOf before p + made.count p

section Interleaving

variable {made : List (List Char)} {before : List Visit} {s : Shared} {i : Bool}
  {todo : List (List Char)} {V : List Visit}

theorem sound_start (hs : ∀ i, (s.recorders i).loaded = none) :
    Sound s.todo (visitsIn s.file) s := by
  have hversion : ∀ V, Version s V → V = visitsIn s.file := by
    rintro V (h | ⟨i, n, h⟩)
    · exact h
    · rw [hs i] at h
      exact absurd h (by simp)
  refine ⟨fun p hp => hp, fun V hV => ?_, fun V hV p hp => ?_, fun V hV p hp => ?_⟩ <;>
    rw [hversion V hV]
  · exact storable_visitsIn s.file
  · exact hp

theorem Sound.load (h : Sound made before s) (i : Bool) : Sound made before (s.load i) := by
  refine ⟨fun p hp => h.todo p (todo_load ▸ hp), fun V hV => h.storable V (version_load hV),
    fun V hV => h.kept V (version_load hV), fun V hV p hp => ?_⟩
  rw [todo_load]
  exact h.within V (version_load hV) p hp

section Save

variable (hroom : Room made before) (h : Sound made before s)
  (hr : s.recorders i = ⟨path :: todo, some (visits, sequence)⟩)

include h hr in
theorem Sound.head : Version s visits ∧ path ∈ made := by
  refine ⟨.inr ⟨i, sequence, by rw [hr]⟩, h.todo path ?_⟩
  have := count_todo_save hr path
  rw [if_pos rfl] at this
  exact List.count_pos_iff.1 (by omega)

include hroom h hr

theorem Sound.countOf_saved (p : List Char) :
    countOf (addVisit .succeeding path visits sequence) p + (s.save i).todo.count p
      = countOf visits p + s.todo.count p := by
  obtain ⟨hversion, hmade⟩ := h.head hr
  have hwithin := h.within visits hversion path hmade
  have hcount := count_todo_save hr path
  rw [if_pos rfl] at hcount
  have hmax := hroom.count path hmade
  rw [countOf_addVisit (h.storable visits hversion) (by omega), count_todo_save hr p]
  split_ifs <;> push_cast <;> omega

theorem Sound.version_save (hV : Version (s.save i) V) :
    V = addVisit .succeeding path visits sequence
      ∨ ∃ n, (s.recorders (!i)).loaded = some (V, n) := by
  obtain ⟨hversion, hmade⟩ := h.head hr
  rcases hV with hV | ⟨j, n, hV⟩
  · rw [hV, visitsIn_save hr (h.storable visits hversion) (hroom.path path hmade)]
    exact .inl rfl
  · rw [loaded_save hr] at hV
    split_ifs at hV with hj
    rw [Bool.eq_not_of_ne hj] at hV
    exact .inr ⟨n, hV⟩

theorem Sound.save : Sound made before (s.save i) := by
  obtain ⟨hversion, hmade⟩ := h.head hr
  have hcount := count_todo_save hr
  refine ⟨fun p hp => h.todo p ?_, fun V hV => ?_, fun V hV p hp => ?_, fun V hV p hp => ?_⟩
  · have hpos := List.count_pos_iff.2 hp
    exact List.count_pos_iff.1 (by rw [hcount]; omega)
  all_goals rcases h.version_save hroom hr hV with rfl | ⟨n, hloaded⟩
  · exact storable_addVisit (h.storable visits hversion) (hroom.path path hmade)
  · exact h.storable V (.inr ⟨_, n, hloaded⟩)
  · exact paths_addVisit (h.kept visits hversion p hp)
  · exact h.kept V (.inr ⟨_, n, hloaded⟩) p hp
  · rw [h.countOf_saved hroom hr]
    exact h.within visits hversion p hp
  · have := h.within V (.inr ⟨_, n, hloaded⟩) p hp
    rw [hcount p] at this
    omega

/-- What is saved is as far behind as what was loaded. -/
theorem Sound.behind_saved :
    Behind made before (s.save i) (addVisit .succeeding path visits sequence)
      ↔ Behind made before s visits := by
  unfold Behind
  simp only [h.countOf_saved hroom hr]

omit hroom in
/-- A save puts what the other process has loaded behind. -/
theorem Sound.behind_other {n : Int} (hloaded : (s.recorders (!i)).loaded = some (V, n)) :
    Behind made before (s.save i) V := by
  obtain ⟨-, hmade⟩ := h.head hr
  have hwithin := h.within V (.inr ⟨_, n, hloaded⟩) path hmade
  have hcount := count_todo_save hr path
  rw [if_pos rfl] at hcount
  exact ⟨path, hmade, by omega⟩

end Save

theorem Sound.next (h : Sound made before s) (hroom : Room made before) {a : Access}
    (hcan : a.can s) : Sound made before (a.next s) := by
  cases a with
  | load i => exact h.load i
  | save i =>
    obtain ⟨path, todo, visits, sequence, hr⟩ := exists_recorder hcan
    exact h.save hroom hr

/-- Only one process is between a load and its save, and nothing is behind. -/
structure Level (made : List (List Char)) (before : List Visit) (s : Shared) : Prop where
  sound : Sound made before s
  alone : ∃ i, (s.recorders i).loaded = none
  level : ∀ V, Version s V → ¬ Behind made before s V

theorem level_start (hs : ∀ i, (s.recorders i).loaded = none) :
    Level s.todo (visitsIn s.file) s := by
  refine ⟨sound_start hs, ⟨true, hs true⟩, ?_⟩
  rintro V (rfl | ⟨i, n, h⟩) ⟨p, -, hlt⟩
  · exact absurd hlt (lt_irrefl _)
  · rw [hs i] at h
    exact absurd h (by simp)

theorem Level.next (h : Level made before s) (hroom : Room made before) {a : Access}
    (hcan : a.can s) (hserial : a.serial s) : Level made before (a.next s) := by
  have hsound := h.sound.next hroom hcan
  cases a with
  | load i =>
    refine ⟨hsound, ⟨!i, ?_⟩, fun V hV hbehind => h.level V (version_load hV) ?_⟩
    · show ((s.load i).recorders (!i)).loaded = none
      rw [loaded_load, if_neg (by simp)]
      exact hserial
    · obtain ⟨p, hp, hlt⟩ := hbehind
      exact ⟨p, hp, by simpa [Access.next, todo_load] using hlt⟩
  | save i =>
    obtain ⟨path, todo, visits, sequence, hr⟩ := exists_recorder hcan
    refine ⟨hsound, ⟨i, ?_⟩, fun V hV hbehind => ?_⟩
    · show ((s.save i).recorders i).loaded = none
      rw [loaded_save hr, if_pos rfl]
    · rcases h.sound.version_save hroom hr hV with rfl | ⟨n, hloaded⟩
      · exact h.level visits (h.sound.head hr).1 ((h.sound.behind_saved hroom hr).1 hbehind)
      · obtain ⟨j, hj⟩ := h.alone
        have hne : j ≠ i := by
          rintro rfl
          rw [hr] at hj
          exact absurd hj (by simp)
        rw [Bool.eq_not_of_ne hne, hloaded] at hj
        exact absurd hj (by simp)

/-- A visit is lost: everything is behind, or will be once the processes have saved what they have
loaded. -/
def Doomed (made : List (List Char)) (before : List Visit) (s : Shared) : Prop :=
  (∀ V, Version s V → Behind made before s V) ∨ (∀ i, (s.recorders i).loaded ≠ none)
    ∨ ∃ i V n, (s.recorders i).loaded = some (V, n) ∧ Behind made before s V

theorem behind_load (h : Behind made before s V) : Behind made before (s.load i) V := by
  obtain ⟨p, hp, hlt⟩ := h
  exact ⟨p, hp, by rwa [todo_load]⟩

/-- The loads are still there behind another load. -/
theorem loaded_of_can_load (hcan : (Access.load i).can s) {j : Bool}
    (hj : (s.recorders j).loaded ≠ none) :
    ((s.load i).recorders j).loaded = (s.recorders j).loaded := by
  have hne : j ≠ i := by
    rintro rfl
    exact hj hcan.2
  rw [loaded_load, if_neg hne]

theorem Doomed.load (h : Doomed made before s) (hcan : (Access.load i).can s) :
    Doomed made before (s.load i) := by
  rcases h with hall | hboth | ⟨j, V, n, hloaded, hbehind⟩
  · exact .inl fun V hV => behind_load (hall V (version_load hV))
  · refine .inr (.inl fun j => ?_)
    rw [loaded_of_can_load hcan (hboth j)]
    exact hboth j
  · refine .inr (.inr ⟨j, V, n, ?_, behind_load hbehind⟩)
    rw [loaded_of_can_load hcan (by simp [hloaded]), hloaded]

theorem Doomed.save (h : Doomed made before s) (hroom : Room made before)
    (hsound : Sound made before s)
    (hr : s.recorders i = ⟨path :: todo, some (visits, sequence)⟩) :
    Doomed made before (s.save i) := by
  have hother : ∀ V n, (s.recorders (!i)).loaded = some (V, n) → Doomed made before (s.save i) :=
    fun V n hloaded => .inr (.inr ⟨!i, V, n, by rw [loaded_save hr, if_neg (by simp), hloaded],
      hsound.behind_other hr hloaded⟩)
  have hsaved : Behind made before s visits → Doomed made before (s.save i) := by
    refine fun hbehind => .inl fun V hV => ?_
    rcases hsound.version_save hroom hr hV with rfl | ⟨n, hloaded⟩
    · exact (hsound.behind_saved hroom hr).2 hbehind
    · exact hsound.behind_other hr hloaded
  rcases h with hall | hboth | ⟨j, V, n, hloaded, hbehind⟩
  · exact hsaved (hall visits (hsound.head hr).1)
  · obtain ⟨⟨V, n⟩, hloaded⟩ := Option.ne_none_iff_exists'.1 (hboth (!i))
    exact hother V n hloaded
  · by_cases hj : j = i
    · subst hj
      rw [hr, Option.some.injEq, Prod.mk.injEq] at hloaded
      exact hsaved (hloaded.1 ▸ hbehind)
    · rw [Bool.eq_not_of_ne hj] at hloaded
      exact hother V n hloaded

theorem Doomed.next (h : Doomed made before s) (hroom : Room made before)
    (hsound : Sound made before s) {a : Access} (hcan : a.can s) :
    Doomed made before (a.next s) := by
  cases a with
  | load i => exact h.load hcan
  | save i =>
    obtain ⟨path, todo, visits, sequence, hr⟩ := exists_recorder hcan
    exact h.save hroom hsound hr

/-- A load between a load and the save of the other process. -/
theorem doomed_of_not_serial {a : Access} (hcan : a.can s) (hserial : ¬ a.serial s) :
    Doomed made before (a.next s) := by
  cases a with
  | save i => exact absurd trivial hserial
  | load i =>
    refine .inr (.inl fun j => ?_)
    show ((s.load i).recorders j).loaded ≠ none
    by_cases hj : j = i
    · obtain ⟨n, hload⟩ := load_succeeding s.file
      rw [loaded_load, if_pos hj, hload]
      simp
    · rw [Bool.eq_not_of_ne hj, loaded_of_can_load hcan hserial]
      exact hserial

end Interleaving

section Runs

variable {made : List (List Char)} {before : List Visit} (hroom : Room made before)

include hroom

theorem Level.exec (as : List Access) {s : Shared} : Level made before s →
    sharedHistory.Valid as s → sharedHistory.Each Access.serial as s →
    Level made before (sharedHistory.exec as s) :=
  System.Each.invariant sharedHistory (fun _ _ h => h.next hroom) as

theorem Doomed.exec : ∀ (as : List Access) {s : Shared}, Doomed made before s →
    Sound made before s → sharedHistory.Valid as s →
    Doomed made before (sharedHistory.exec as s)
  | [], _, h, _, _ => h
  | _ :: as, _, h, hsound, hv =>
    Doomed.exec as (h.next hroom hsound hv.1) (hsound.next hroom hv.1) hv.2

/-- A run is serial, or a visit is lost in it. -/
theorem serial_or_doomed : ∀ (as : List Access) {s : Shared}, Sound made before s →
    sharedHistory.Valid as s →
    sharedHistory.Each Access.serial as s ∨ Doomed made before (sharedHistory.exec as s)
  | [], _, _, _ => .inl trivial
  | a :: as, s, hsound, hv => by
    have hnext := hsound.next hroom hv.1
    by_cases hserial : a.serial s
    · exact (serial_or_doomed as hnext hv.2).imp_left fun h => ⟨hserial, h⟩
    · exact .inr ((doomed_of_not_serial hv.1 hserial).exec hroom as hnext hv.2)

end Runs

end History

open History

/-- Two processes record their visits in one history. Once both are done, every visit is counted
and no entry is gone just if no path has a newline, the counts are numbers a `long long` can hold,
and no process has loaded the history between a load and the save of the other one. -/
theorem visits_recorded_iff (s : Shared) (hs : ∀ i, (s.recorders i).loaded = none)
    (as : List Access) (hv : sharedHistory.Valid as s)
    (hdone : ∀ i, (sharedHistory.exec as s).recorders i = .done) :
    Recorded s.todo (visitsIn s.file) (visitsIn (sharedHistory.exec as s).file)
      ↔ (∀ p ∈ s.todo, '\n' ∉ p ∧ nul ∉ p)
        ∧ (∀ p ∈ s.todo, countOf (visitsIn s.file) p + s.todo.count p ≤ longLongMax)
        ∧ sharedHistory.Each Access.serial as s := by
  have hloaded : ∀ i, ((sharedHistory.exec as s).recorders i).loaded = none := fun i => by
    rw [hdone i]
    rfl
  have htodo : (sharedHistory.exec as s).todo = [] := by simp [Shared.todo, hdone, Recorder.done]
  have hafter := storable_visitsIn (sharedHistory.exec as s).file
  constructor
  · intro h
    have hpath : ∀ p ∈ s.todo, '\n' ∉ p ∧ nul ∉ p := by
      intro p hp
      by_cases hmem : p ∈ (visitsIn s.file).map Visit.path
      · exact path_of_storable (storable_visitsIn s.file) hmem
      · have hcount := h.count p hp
        have hpos := List.count_pos_iff.2 hp
        rw [countOf_of_notMem hmem] at hcount
        exact path_of_storable hafter (mem_of_countOf_ne_zero (by omega))
    have hcount : ∀ p ∈ s.todo,
        countOf (visitsIn s.file) p + s.todo.count p ≤ longLongMax := by
      intro p hp
      rw [← h.count p hp]
      exact (countOf_range hafter p).2
    refine ⟨hpath, hcount, ?_⟩
    refine (serial_or_doomed ⟨hpath, hcount⟩ as (sound_start hs) hv).resolve_right ?_
    rintro (hall | hboth | ⟨i, V, n, hi, -⟩)
    · obtain ⟨p, hp, hlt⟩ := hall _ (.inl rfl)
      rw [h.count p hp, htodo, List.count_nil] at hlt
      omega
    · exact hboth true (hloaded true)
    · rw [hloaded i] at hi
      exact absurd hi (by simp)
  · rintro ⟨hpath, hcount, hserial⟩
    have hlevel := (level_start hs).exec ⟨hpath, hcount⟩ as hv hserial
    refine ⟨fun p hp => ?_, fun v hmem => ?_⟩
    · have hwithin := hlevel.sound.within _ (.inl rfl) p hp
      have hnot : ¬ _ := fun hlt => hlevel.level _ (.inl rfl) ⟨p, hp, hlt⟩
      rw [htodo, List.count_nil] at hwithin hnot
      omega
    · exact List.mem_map.1 (hlevel.sound.kept _ (.inl rfl) v.path (List.mem_map_of_mem hmem))

/-- The shell is in `/a` for the second time and its child in `/b` for the first. -/
def hopStart : Shared :=
  ⟨some "1\t1\t/a\n".toList, fun i => ⟨[if i then ['/', 'a'] else ['/', 'b']], none⟩⟩

theorem visits_recorded_iff_hopStart :
    let as : List Access := [.load true, .save true, .load false, .save false]
    sharedHistory.Valid as hopStart
      ∧ (Recorded hopStart.todo (visitsIn hopStart.file)
          (visitsIn (sharedHistory.exec as hopStart).file)
        ↔ (∀ p ∈ hopStart.todo, '\n' ∉ p ∧ nul ∉ p)
          ∧ (∀ p ∈ hopStart.todo,
            countOf (visitsIn hopStart.file) p + hopStart.todo.count p ≤ longLongMax)
          ∧ sharedHistory.Each Access.serial as hopStart) :=
  ⟨by decide, visits_recorded_iff hopStart (by decide) _ (by decide) (by decide)⟩

/-- The child saves what it loaded before the shell saved: the visit of `/a` is not counted. -/
theorem visit_lost :
    let as : List Access := [.load true, .load false, .save true, .save false]
    let s := sharedHistory.exec as hopStart
    sharedHistory.Valid as hopStart ∧ (∀ i, s.recorders i = .done)
      ∧ visitsIn s.file = [⟨['/', 'a'], 1, 1⟩, ⟨['/', 'b'], 1, 2⟩]
      ∧ countOf (visitsIn s.file) ['/', 'a'] ≠ countOf (visitsIn hopStart.file) ['/', 'a']
        + hopStart.todo.count ['/', 'a'] := by
  decide

end Shell

end CShellXv6
