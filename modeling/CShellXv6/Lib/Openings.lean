import Mathlib.Data.List.Induction
import Mathlib.Logic.Function.Basic

/-!
# Opening files in two orders

A process opens files one after the other, some to read and some to write, and stops at the first it
cannot open. What it opens to read becomes one stream: a single file is read later, but as soon as
there is a second one both are copied, and every further one behind them.

`OrderFree` says when it makes no difference whether the files to read come first: what is created
or emptied is the same, both end alike, and where they succeed the stream is the same. If all the
files can be read this comes down to the copies (`copies`), none of which may be of a file that has
been emptied before. If not, then nothing may be created or emptied before the first failure.
-/

namespace CShellXv6

structure File (β : Type*) where
  content : List β
  readable : Bool
  writable : Bool
  deriving DecidableEq, Repr

/-- The files a process sees, by their places: those that exist, the places where it can create one,
and what it may do with one that it has created. -/
structure Disk (ι β : Type*) where
  file : ι → Option (File β)
  creatable : ι → Bool
  newReadable : Bool
  newWritable : Bool

inductive Opening (ι : Type*) where
  | read (x : ι)
  | write (x : ι) (append : Bool)
  deriving DecidableEq, Repr

inductive Stream (ι β : Type*) where
  | file (x : ι)
  | copy (content : List β)
  deriving DecidableEq, Repr

/-- The disk as it is by now, the files created or emptied, and the stream if there is one. -/
structure Opened (ι β : Type*) where
  disk : Disk ι β
  touched : List ι
  stream : Option (Stream ι β)

namespace Disk

variable {ι β : Type*} (d : Disk ι β)

def readable (x : ι) : Bool :=
  (d.file x).any (·.readable)

def writable (x : ι) : Bool :=
  match d.file x with
  | none => d.creatable x
  | some f => f.writable

def content (x : ι) : List β :=
  (d.file x).elim [] (·.content)

def opens : Opening ι → Bool
  | .read x => d.readable x
  | .write x _ => d.writable x

/-- Opening the file creates or empties it. -/
def touches : Opening ι → Bool
  | .read _ => false
  | .write x append => !append || (d.file x).isNone

def write [DecidableEq ι] (x : ι) (append : Bool) : Disk ι β :=
  { d with
    file := Function.update d.file x <|
      match d.file x with
      | none => some ⟨[], d.newReadable, d.newWritable⟩
      | some f => some (if append then f else { f with content := [] }) }

variable {d}

theorem write_of_not_touches [DecidableEq ι] {x : ι} {append : Bool}
    (h : d.touches (.write x append) = false) : d.write x append = d := by
  obtain ⟨happend, hfile⟩ : append = true ∧ (d.file x).isNone = false := by simpa [touches] using h
  rcases hx : d.file x with _ | f
  · simp [hx] at hfile
  · have hsame : Function.update d.file x (some f) = d.file := by rw [← hx, Function.update_eq_self]
    simp only [write, hx, happend, if_true, hsame]

theorem readable_write [DecidableEq ι] {x : ι} (h : d.readable x = true) (y : ι) (append : Bool) :
    (d.write y append).readable x = true := by
  unfold readable write at *
  by_cases hxy : x = y
  · subst hxy
    rcases hx : d.file x with _ | f <;> rw [hx] at h
    · simp at h
    · cases append <;> simpa using h
  · simpa [hxy] using h

theorem content_write [DecidableEq ι] (y : ι) (append : Bool) (x : ι) :
    (d.write y append).content x = if x = y ∧ append = false then [] else d.content x := by
  unfold content write
  by_cases hxy : x = y
  · subst hxy
    rcases hx : d.file x with _ | f <;> cases append <;> simp
  · simp [hxy]

end Disk

namespace Opened

variable {ι β : Type*}

def start (d : Disk ι β) : Opened ι β := ⟨d, [], none⟩

def bytes (d : Disk ι β) : Stream ι β → List β
  | .file x => d.content x
  | .copy content => content

/-- What the stream presents if it is read now. -/
def input (s : Opened ι β) : Option (List β) :=
  s.stream.map (bytes s.disk)

variable [DecidableEq ι]

/-- What a successful open does. -/
def step (s : Opened ι β) : Opening ι → Opened ι β
  | .read x =>
    { s with
      stream := some <|
        match s.stream with
        | none => .file x
        | some stream => .copy (bytes s.disk stream ++ s.disk.content x) }
  | .write x append =>
    { s with
      disk := s.disk.write x append
      touched := if s.disk.touches (.write x append) then s.touched ++ [x] else s.touched }

/-- Opening the files in this order, up to the first that cannot be opened. -/
def openAll : List (Opening ι) → Opened ι β → Bool × Opened ι β
  | [], s => (true, s)
  | o :: os, s => if s.disk.opens o then openAll os (s.step o) else (false, s)

end Opened

open Opened

section Order

variable {ι : Type*}

def reads : List (Opening ι) → List ι
  | [] => []
  | .read x :: os => x :: reads os
  | .write _ _ :: os => reads os

def writes : List (Opening ι) → List (Opening ι)
  | [] => []
  | .read _ :: os => writes os
  | .write x append :: os => .write x append :: writes os

def readsFirst (os : List (Opening ι)) : List (Opening ι) :=
  (reads os).map .read ++ writes os

/-- The files copied when `o` is opened behind `pre`. -/
def copied (pre : List (Opening ι)) : Opening ι → List ι
  | .read x =>
    match reads pre with
    | [] => []
    | [first] => [first, x]
    | _ => [x]
  | .write _ _ => []

/-- The files that are copied, each with what has been opened before its copy. -/
def copiesFrom : List (Opening ι) → List (Opening ι) → List (List (Opening ι) × ι)
  | _, [] => []
  | pre, o :: os => (copied pre o).map (fun x => (pre, x)) ++ copiesFrom (pre ++ [o]) os

def copies (os : List (Opening ι)) : List (List (Opening ι) × ι) :=
  copiesFrom [] os

end Order

section Runs

variable {ι β : Type*} [DecidableEq ι]

theorem openAll_append : ∀ (os os' : List (Opening ι)) (s : Opened ι β),
    openAll (os ++ os') s
      = if (openAll os s).1 then openAll os' (openAll os s).2 else openAll os s
  | [], _, _ => rfl
  | o :: os, os', s => by
    rcases ho : s.disk.opens o
    · simp [openAll, ho]
    · simpa [openAll, ho] using openAll_append os os' (s.step o)

theorem openAll_eq_foldl : ∀ {os : List (Opening ι)} {s : Opened ι β},
    (openAll os s).1 = true → (openAll os s).2 = os.foldl step s
  | [], _, _ => rfl
  | o :: os, s, h => by
    rw [openAll] at h ⊢
    split_ifs at h ⊢ with ho
    exact openAll_eq_foldl h

theorem touched_openAll : ∀ (os : List (Opening ι)) (s : Opened ι β),
    s.touched <+: (openAll os s).2.touched
  | [], _ => List.prefix_refl _
  | o :: os, s => by
    rw [openAll]
    split_ifs
    · refine List.IsPrefix.trans ?_ (touched_openAll os (s.step o))
      cases o with
      | read x => exact List.prefix_refl _
      | write x append =>
        simp only [step]
        split_ifs
        · exact List.prefix_append _ _
        · exact List.prefix_refl _
    · exact List.prefix_refl _

/-- What does not depend on the stream. -/
structure SameFiles (s s' : Opened ι β) : Prop where
  disk : s.disk = s'.disk
  touched : s.touched = s'.touched

theorem openAll_reads : ∀ (xs : List ι) (s : Opened ι β),
    ((openAll (xs.map .read) s).1 = true ↔ ∀ x ∈ xs, s.disk.readable x = true)
      ∧ SameFiles s (openAll (xs.map .read) s).2
  | [], _ => ⟨by simp [openAll], rfl, rfl⟩
  | x :: xs, s => by
    obtain ⟨hall, hdisk, htouched⟩ := openAll_reads xs (s.step (.read x))
    rw [List.map_cons, openAll]
    rcases hx : s.disk.readable x
    · exact ⟨by simp [Disk.opens, hx], by simp [Disk.opens, hx], by simp [Disk.opens, hx]⟩
    · simp only [Disk.opens, hx, if_true, List.forall_mem_cons, true_and]
      exact ⟨hall, hdisk, htouched⟩

/-- Where all can be read, the files to read have no effect on what becomes of the others. -/
theorem openAll_writes : ∀ {os : List (Opening ι)} {s s' : Opened ι β},
    (∀ x ∈ reads os, s.disk.readable x = true) → SameFiles s s' →
    (openAll os s).1 = (openAll (writes os) s').1
      ∧ SameFiles (openAll os s).2 (openAll (writes os) s').2
  | [], _, _, _, h => ⟨rfl, h⟩
  | .read x :: os, s, s', hr, h => by
    have hx : s.disk.readable x = true := hr x (by simp [reads])
    rw [openAll, Disk.opens, if_pos hx]
    exact openAll_writes (s := s.step (.read x)) (fun y hy => hr y (by simp [reads, hy]))
      ⟨h.disk, h.touched⟩
  | .write x append :: os, s, s', hr, ⟨hdisk, htouched⟩ => by
    have hopens : s'.disk.opens (.write x append) = s.disk.opens (.write x append) := by rw [hdisk]
    rw [writes, openAll, openAll, hopens]
    split_ifs
    · refine openAll_writes (s := s.step (.write x append)) (fun y hy => ?_) ⟨?_, ?_⟩
      · exact Disk.readable_write (hr y hy) x append
      · simp only [step, hdisk]
      · simp only [step, hdisk, htouched]
    · exact ⟨rfl, hdisk, htouched⟩

/-- Nothing is created or emptied before the first failure, or else something is. -/
theorem openAll_blocked : ∀ {os : List (Opening ι)} {s : Opened ι β},
    (∃ x ∈ reads os, s.disk.readable x = false) →
    ((openAll os s).2.touched = s.touched
      ↔ ∀ o ∈ os.find? fun o => !s.disk.opens o || s.disk.touches o, s.disk.opens o = false)
      ∧ ((openAll os s).2.touched = s.touched → (openAll os s).1 = false)
  | [], _, h => by simp [reads] at h
  | o :: os, s, h => by
    rcases ho : s.disk.opens o
    · simp [openAll, ho]
    rcases ht : s.disk.touches o
    · have hstep : (s.step o).disk = s.disk ∧ (s.step o).touched = s.touched := by
        cases o with
        | read x => exact ⟨rfl, rfl⟩
        | write x append => simp [step, Disk.write_of_not_touches ht, ht]
      have hrest : ∃ x ∈ reads os, (s.step o).disk.readable x = false := by
        rw [hstep.1]
        cases o with
        | read x =>
          obtain ⟨y, hy, hyr⟩ := h
          rcases List.mem_cons.1 hy with rfl | hy
          · simp [Disk.opens, hyr] at ho
          · exact ⟨y, hy, hyr⟩
        | write x append => exact h
      have ih := openAll_blocked hrest
      rw [hstep.1, hstep.2] at ih
      simpa [openAll, ho, ht] using ih
    · obtain ⟨x, append, rfl⟩ : ∃ x append, o = .write x append := by
        cases o with
        | read x => simp [Disk.touches] at ht
        | write x append => exact ⟨x, append, rfl⟩
      have hlt : s.touched.length < (openAll (.write x append :: os) s).2.touched.length := by
        have hstep : (s.step (.write x append)).touched = s.touched ++ [x] := by simp [step, ht]
        have hle := (touched_openAll os (s.step (.write x append))).length_le
        rw [hstep, List.length_append] at hle
        rw [openAll, if_pos ho]
        exact hle
      have hne : (openAll (.write x append :: os) s).2.touched ≠ s.touched := by
        intro heq
        simp [heq] at hlt
      simp [hne, ho, ht]

end Runs

section Copies

variable {ι β : Type*}

theorem reads_append : ∀ os os' : List (Opening ι), reads (os ++ os') = reads os ++ reads os'
  | [], _ => rfl
  | .read x :: os, os' => by simp [reads, reads_append os]
  | .write _ _ :: os, os' => by simp [reads, reads_append os]

theorem reads_map_read : ∀ xs : List ι, reads (xs.map .read) = xs
  | [] => rfl
  | x :: xs => by simp [reads, reads_map_read xs]

theorem reads_writes : ∀ os : List (Opening ι), reads (writes os) = []
  | [] => rfl
  | .read x :: os => reads_writes os
  | .write _ _ :: os => by simp [writes, reads, reads_writes os]

theorem reads_readsFirst (os : List (Opening ι)) : reads (readsFirst os) = reads os := by
  rw [readsFirst, reads_append, reads_map_read, reads_writes, List.append_nil]

theorem copiesFrom_append : ∀ (pre os os' : List (Opening ι)),
    copiesFrom pre (os ++ os') = copiesFrom pre os ++ copiesFrom (pre ++ os) os'
  | _, [], _ => by simp [copiesFrom]
  | pre, o :: os, os' => by simp [copiesFrom, copiesFrom_append (pre ++ [o]) os]

theorem copiesFrom_writes : ∀ pre os : List (Opening ι), copiesFrom pre (writes os) = []
  | _, [] => rfl
  | pre, .read x :: os => copiesFrom_writes pre os
  | pre, .write x append :: os => by simp [writes, copiesFrom, copied, copiesFrom_writes _ os]

theorem mem_copiesFrom : ∀ {pre os : List (Opening ι)} {c : List (Opening ι) × ι},
    c ∈ copiesFrom pre os → ∀ o ∈ c.1, o ∈ pre ++ os
  | _, [], _, h, _, _ => by simp [copiesFrom] at h
  | pre, o :: os, c, h, o', ho' => by
    rw [copiesFrom, List.mem_append, List.mem_map] at h
    rcases h with ⟨x, -, rfl⟩ | h
    · exact List.mem_append_left _ ho'
    · simpa using mem_copiesFrom h o' ho'

theorem copies_snoc (os : List (Opening ι)) (o : Opening ι) :
    copies (os ++ [o]) = copies os ++ (copied os o).map fun x => (os, x) := by
  rw [copies, copiesFrom_append]
  simp [copiesFrom, copies]

/-- With two files to read or more, all of them are copied. -/
theorem copies_reads (os : List (Opening ι)) :
    (copies os).map Prod.snd = if (reads os).length ≤ 1 then [] else reads os := by
  induction os using List.reverseRecOn with
  | nil => rfl
  | append_singleton os o ih =>
    rw [copies_snoc, List.map_append, ih, reads_append]
    cases o with
    | write x append => simp [copied, reads]
    | read x => rcases hr : reads os with _ | ⟨y, _ | ⟨z, ys⟩⟩ <;> simp [copied, reads, hr]

theorem copies_eq_nil {os : List (Opening ι)} (h : (reads os).length ≤ 1) : copies os = [] := by
  have := copies_reads os
  rw [if_pos h] at this
  simpa using this

variable [DecidableEq ι]

theorem content_foldl (x : ι) : ∀ (os : List (Opening ι)) (s : Opened ι β),
    (os.foldl step s).disk.content x
      = if .write x false ∈ os then [] else s.disk.content x
  | [], s => by simp
  | .read y :: os, s => by
    rw [List.foldl_cons, content_foldl x os]
    simp [step]
  | .write y append :: os, s => by
    rw [List.foldl_cons, content_foldl x os]
    by_cases hm : Opening.write x false ∈ os
    · simp [hm]
    · by_cases hxy : x = y
      · subst hxy
        cases append <;> simp [hm, step, Disk.content_write]
      · simp [hm, hxy, step, Disk.content_write]

/-- What a file holds when it is copied, of what it held at first. -/
def atCopy (d : Disk ι β) (c : List (Opening ι) × ι) : List β :=
  if .write c.2 false ∈ c.1 then [] else d.content c.2

theorem stream_foldl (d : Disk ι β) (os : List (Opening ι)) :
    (os.foldl step (start d)).stream
      = match reads os with
        | [] => none
        | [x] => some (.file x)
        | _ => some (.copy ((copies os).flatMap (atCopy d))) := by
  induction os using List.reverseRecOn with
  | nil => rfl
  | append_singleton os o ih =>
    rw [List.foldl_append, copies_snoc, reads_append]
    cases o with
    | write x append => simpa [copied, reads, step] using ih
    | read x =>
      have hcontent : ∀ y, (os.foldl step (start d)).disk.content y = atCopy d (os, y) :=
        fun y => content_foldl y os (start d)
      rcases hr : reads os with _ | ⟨y, _ | ⟨z, ys⟩⟩ <;> rw [hr] at ih
      · simp [step, ih, reads]
      · have hnil : copies os = [] := copies_eq_nil (by simp [hr])
        simp [step, ih, reads, bytes, copied, hr, hnil, hcontent]
      · simp [step, ih, reads, bytes, copied, hr, hcontent]

theorem input_foldl (d : Disk ι β) {os : List (Opening ι)} (h : 1 < (reads os).length) :
    (os.foldl step (start d)).input = some ((copies os).flatMap (atCopy d)) := by
  rw [input, stream_foldl]
  rcases hr : reads os with _ | ⟨x, _ | ⟨y, xs⟩⟩
  · simp [hr] at h
  · simp [hr] at h
  · rfl

theorem input_foldl_le (d : Disk ι β) {os : List (Opening ι)} (h : (reads os).length ≤ 1) :
    (os.foldl step (start d)).input
      = (reads os).head?.map (os.foldl step (start d)).disk.content := by
  rw [input, stream_foldl]
  rcases hr : reads os with _ | ⟨x, _ | ⟨y, xs⟩⟩
  · rfl
  · rfl
  · simp [hr] at h

theorem length_flatMap_le {γ : Type*} {f g : γ → List β} (h : ∀ c, f c = g c ∨ f c = []) :
    ∀ cs : List γ, (cs.flatMap f).length ≤ (cs.flatMap g).length
  | [] => by simp
  | c :: cs => by
    have ih := length_flatMap_le h cs
    rcases h c with hc | hc <;> simp only [List.flatMap_cons, List.length_append, hc,
      List.length_nil] <;> omega

/-- Chunks that are left out can be told from the whole, unless they are empty. -/
theorem flatMap_eq_iff {γ : Type*} {f g : γ → List β} (h : ∀ c, f c = g c ∨ f c = []) :
    ∀ cs : List γ, cs.flatMap f = cs.flatMap g ↔ ∀ c ∈ cs, f c = g c
  | [] => by simp
  | c :: cs => by
    have hlength := length_flatMap_le h cs
    rw [List.flatMap_cons, List.flatMap_cons, List.forall_mem_cons, ← flatMap_eq_iff h cs]
    constructor
    · intro heq
      have hsum := congrArg List.length heq
      simp only [List.length_append] at hsum
      have hc : f c = g c := by
        rcases h c with hc | hc
        · exact hc
        · have : (g c).length = 0 := by
            rw [hc] at hsum
            simp only [List.length_nil] at hsum
            omega
          rw [hc, List.length_eq_zero_iff.1 this]
      refine ⟨hc, ?_⟩
      rw [hc] at heq
      exact List.append_cancel_left heq
    · rintro ⟨hc, hcs⟩
      rw [hc, hcs]

end Copies

section Main

variable {ι β : Type*} [DecidableEq ι]

/-- No file with something in it is emptied before it is copied. -/
def Intact (d : Disk ι β) (os : List (Opening ι)) : Prop :=
  ∀ c ∈ copies os, .write c.2 false ∈ c.1 → d.content c.2 = []

/-- Opening the files to read first makes no difference. -/
def OrderFree (d : Disk ι β) (os : List (Opening ι)) : Prop :=
  ((∀ x ∈ reads os, d.readable x = true) →
      (openAll (writes os) (start d)).1 = true → Intact d os)
    ∧ ((∃ x ∈ reads os, d.readable x = false) →
      ∀ o ∈ os.find? fun o => !d.opens o || d.touches o, d.opens o = false)

instance [DecidableEq β] (d : Disk ι β) (os : List (Opening ι)) : Decidable (Intact d os) :=
  inferInstanceAs (Decidable (∀ c ∈ copies os, _ → _))

instance [DecidableEq β] (d : Disk ι β) (os : List (Opening ι)) : Decidable (OrderFree d os) :=
  inferInstanceAs (Decidable (_ ∧ _))

/-- Two ways to open files have the same effect. -/
structure SameEffect (r r' : Bool × Opened ι β) : Prop where
  result : r.1 = r'.1
  touched : ∀ x, x ∈ r.2.touched ↔ x ∈ r'.2.touched
  input : r.1 = true → r.2.input = r'.2.input

variable {d : Disk ι β} {os : List (Opening ι)}

/-- All can be read, and what is left to open is to be written. -/
theorem openAll_readsFirst (hr : ∀ x ∈ reads os, d.readable x = true) :
    (openAll os (start d)).1 = (openAll (readsFirst os) (start d)).1
      ∧ SameFiles (openAll os (start d)).2 (openAll (readsFirst os) (start d)).2 := by
  obtain ⟨hall, hsame⟩ := openAll_reads (reads os) (start d)
  rw [readsFirst, openAll_append, if_pos (hall.2 hr)]
  exact openAll_writes hr hsame

theorem openAll_readsFirst_blocked (hr : ∃ x ∈ reads os, d.readable x = false) :
    (openAll (readsFirst os) (start d)).1 = false
      ∧ (openAll (readsFirst os) (start d)).2.touched = [] := by
  obtain ⟨hall, hsame⟩ := openAll_reads (reads os) (start d)
  have hneg : ¬ (openAll ((reads os).map .read) (start d)).1 = true := by
    rw [hall]
    obtain ⟨x, hx, hxr⟩ := hr
    intro h
    simpa [start, hxr] using h x hx
  rw [readsFirst, openAll_append, if_neg hneg]
  exact ⟨by simpa using hneg, hsame.touched.symm⟩

omit [DecidableEq ι] in
theorem intact_readsFirst (d : Disk ι β) (os : List (Opening ι)) : Intact d (readsFirst os) := by
  intro c hc hm
  rw [readsFirst, copies, copiesFrom_append, copiesFrom_writes, List.append_nil] at hc
  simpa using mem_copiesFrom hc _ hm

theorem intact_iff (hmany : 1 < (reads os).length) :
    (copies os).flatMap (atCopy d) = (reads os).flatMap d.content ↔ Intact d os := by
  have hcopy : ∀ c, atCopy d c = d.content c.2 ∨ atCopy d c = [] := by
    intro c
    unfold atCopy
    split_ifs
    · exact .inr rfl
    · exact .inl rfl
  have hreads := copies_reads os
  rw [if_neg (by omega)] at hreads
  rw [← hreads, List.flatMap_map, flatMap_eq_iff hcopy]
  refine forall₂_congr fun c _ => ?_
  unfold atCopy
  split_ifs with hm
  · exact ⟨fun h _ => h.symm, fun h => (h hm).symm⟩
  · simp [hm]

theorem input_eq_iff (hok : (openAll os (start d)).1 = true)
    (hr : ∀ x ∈ reads os, d.readable x = true) :
    (openAll (readsFirst os) (start d)).2.input = (openAll os (start d)).2.input
      ↔ Intact d os := by
  obtain ⟨hresult, hsame⟩ := openAll_readsFirst hr
  have hdisk := hsame.disk
  rw [openAll_eq_foldl hok, openAll_eq_foldl (hresult ▸ hok)] at *
  by_cases hmany : 1 < (reads os).length
  · have hmany' : 1 < (reads (readsFirst os)).length := by rwa [reads_readsFirst]
    rw [input_foldl d hmany, input_foldl d hmany', (intact_iff hmany').2 (intact_readsFirst d os),
      reads_readsFirst, Option.some.injEq, eq_comm, intact_iff hmany]
  · have hle : (reads os).length ≤ 1 := by omega
    rw [input_foldl_le d hle, input_foldl_le d (by rwa [reads_readsFirst]), reads_readsFirst, hdisk]
    simp [Intact, copies_eq_nil hle]

theorem sameEffect_iff (d : Disk ι β) (os : List (Opening ι)) :
    SameEffect (openAll (readsFirst os) (start d)) (openAll os (start d)) ↔ OrderFree d os := by
  by_cases hr : ∀ x ∈ reads os, d.readable x = true
  · have hnone : ¬ ∃ x ∈ reads os, d.readable x = false := by
      rintro ⟨x, hx, hxr⟩
      simp [hr x hx] at hxr
    obtain ⟨hresult, hsame⟩ := openAll_readsFirst hr
    have hwrites := (openAll_writes (s := start d) hr ⟨rfl, rfl⟩).1
    constructor
    · intro h
      refine ⟨fun _ hok => (input_eq_iff (hwrites.trans hok) hr).1 (h.input ?_),
        fun h => absurd h hnone⟩
      rw [← hresult, hwrites, hok]
    · intro h
      refine ⟨hresult.symm, fun x => by rw [hsame.touched], fun hok => ?_⟩
      rw [← hresult] at hok
      exact (input_eq_iff hok hr).2 (h.1 hr (hwrites ▸ hok))
  · have hblocked : ∃ x ∈ reads os, d.readable x = false := by simpa using hr
    obtain ⟨hfalse, hnil⟩ := openAll_readsFirst_blocked hblocked
    obtain ⟨hiff, hfail⟩ := openAll_blocked (s := start d) hblocked
    constructor
    · intro h
      refine ⟨fun h => absurd h hr, fun _ => hiff.1 ?_⟩
      refine List.eq_nil_iff_forall_not_mem.2 fun x hx => ?_
      have := (h.touched x).2 hx
      simp [hnil] at this
    · intro h
      have htouched := hiff.2 (h.2 hblocked)
      refine ⟨by rw [hfalse, hfail htouched], fun x => by rw [hnil, htouched]; rfl, fun hok => ?_⟩
      rw [hfalse] at hok
      simp at hok

end Main

end CShellXv6
