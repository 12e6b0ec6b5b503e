import CShellXv6.Proofs.Stages
import CShellXv6.Shell.Copying

/-!
# Several inputs are one

A copy that is not failed needs a call for every byte it writes and, behind its buffer, at most one
for every byte it reads, and leaves at its destination what was there with what was left of its
source. A join starts from an empty file and rewinds it, so that it reads as the two sources did.
The loops carry what the input reads, and the ledger of the descriptors, from one operator to the
next.
-/

namespace CShellXv6

namespace Shell

namespace Copying

open FdTable

section Copy

variable {disk : List Char → List UInt8} {s : State} {fd g source dest : ℕ}

@[simp] theorem world_update (s : State) (fd : ℕ) (f : File → File) :
    (s.update fd f).world = s.world := rfl

@[simp] theorem file_update_self (s : State) (fd : ℕ) (f : File → File) :
    (s.update fd f).file fd = f (s.file fd) := by
  simp [State.update]

theorem file_update_of_ne (h : fd ≠ g) (s : State) (f : File → File) :
    (s.update g f).file fd = s.file fd := by
  simp [State.update, h]

/-- A descriptor reads the same where its own file has not changed. -/
theorem left_congr (disk : List Char → List UInt8) {s' : State}
    (hget : s'.world.get fd = s.world.get fd) (hfile : s'.file fd = s.file fd) :
    s'.left disk fd = s.left disk fd := by
  rw [State.left, State.left, State.content, State.content, hget, hfile]

theorem left_advance (disk : List Char → List UInt8) (s : State) (fd count : ℕ) :
    (s.update fd (·.advance count)).left disk fd = (s.left disk fd).drop count := by
  rw [State.left, State.left, State.content, State.content, world_update, file_update_self,
    List.drop_drop]
  rfl

theorem write_at_end {f : File} (h : f.offset = f.bytes.length) (data : List UInt8) :
    f.write data = ⟨f.bytes ++ data, (f.bytes ++ data).length⟩ := by
  rw [File.write, h, List.take_length, List.drop_eq_nil_of_le (by omega), List.append_nil,
    List.length_append]

/-- A copy that comes to its end: what it leaves of the answers and of the files. -/
structure Copied (disk : List Char → List UInt8) (source dest : ℕ) (answers : List Answer)
    (buffer : List UInt8) (s : State) (answers' : List Answer) (s' : State) : Prop where
  unfailing : .failed ∉ answers'
  answers : answers.countP (· ≠ .interrupted) ≤ answers'.countP (· ≠ .interrupted)
    + (buffer.length + 2 * (s.left disk source).length + 1)
  world : s'.world = s.world
  others : ∀ fd, fd ≠ source → fd ≠ dest → s'.file fd = s.file fd
  bytes : (s'.file dest).bytes = (s.file dest).bytes ++ buffer ++ s.left disk source
  offset : (s'.file dest).offset = (s'.file dest).bytes.length

theorem left_write (disk : List Char → List UInt8) (hne : source ≠ dest) (s : State)
    (data : List UInt8) :
    (s.update dest (·.write data)).left disk source = s.left disk source :=
  left_congr disk rfl (file_update_of_ne hne s _)

theorem take_append_left (disk : List Char → List UInt8) (s : State) (source n : ℕ) :
    (s.left disk source).take n ++ (s.left disk source).drop ((s.left disk source).take n).length
      = s.left disk source :=
  List.prefix_iff_eq_append.1 (List.take_prefix _ _)

section Step

variable {answers answers' : List Answer} {buffer : List UInt8} {s' : State}

theorem Copied.interrupted (h : Copied disk source dest answers buffer s answers' s') :
    Copied disk source dest (.interrupted :: answers) buffer s answers' s' := by
  refine ⟨h.unfailing, ?_, h.world, h.others, h.bytes, h.offset⟩
  rw [List.countP_cons_of_neg (by simp)]
  exact h.answers

/-- A read puts the buffer before what is still left. -/
theorem Copied.read {n : ℕ} (hne : source ≠ dest) (count : ℕ)
    (hread : ((s.left disk source).take n).length ≠ 0)
    (h : Copied disk source dest answers ((s.left disk source).take n)
      (s.update source (·.advance ((s.left disk source).take n).length)) answers' s') :
    Copied disk source dest (.bytes count :: answers) [] s answers' s' := by
  have hsplit := take_append_left disk s source n
  set buffer := (s.left disk source).take n
  have hlength := congrArg List.length hsplit
  rw [List.length_append] at hlength
  have hleft := left_advance disk s source buffer.length
  refine ⟨h.unfailing, ?_, h.world, fun fd hs hd => ?_, ?_, h.offset⟩
  · have hcount := h.answers
    rw [hleft] at hcount
    rw [List.countP_cons_of_pos (by simp), List.length_nil]
    omega
  · rw [h.others fd hs hd, file_update_of_ne hs]
  · rw [h.bytes, file_update_of_ne hne.symm, hleft, List.append_assoc, hsplit, List.append_nil]

theorem length_drop_written (b : UInt8) (buffer : List UInt8) (count : ℕ) :
    ((b :: buffer).drop (max 1 count)).length ≤ buffer.length := by
  rw [List.length_drop, List.length_cons]
  omega

/-- A write at the end of the file takes its bytes from the front of the buffer. -/
theorem Copied.write {b : UInt8} {count : ℕ} (hne : source ≠ dest)
    (hend : (s.file dest).offset = (s.file dest).bytes.length)
    (h : Copied disk source dest answers ((b :: buffer).drop (max 1 count))
      (s.update dest (·.write ((b :: buffer).take (max 1 count)))) answers' s') :
    Copied disk source dest (.bytes count :: answers) (b :: buffer) s answers' s' := by
  have hdrop := length_drop_written b buffer count
  refine ⟨h.unfailing, ?_, h.world, fun fd hs hd => ?_, ?_, h.offset⟩
  · have hcount := h.answers
    rw [left_write disk hne] at hcount
    rw [List.countP_cons_of_pos (by simp), List.length_cons]
    omega
  · rw [h.others fd hs hd, file_update_of_ne hd]
  · rw [h.bytes, left_write disk hne, file_update_self, write_at_end hend]
    simp only [List.append_assoc]
    rw [← List.append_assoc (List.take _ _), List.take_append_drop]

end Step

theorem copyLoop_copies (disk : List Char → List UInt8) (hne : source ≠ dest) :
    ∀ (answers : List Answer) (buffer : List UInt8) (s : State), .failed ∉ answers →
    (s.file dest).offset = (s.file dest).bytes.length →
    buffer.length + 2 * (s.left disk source).length + 1 ≤ answers.countP (· ≠ .interrupted) →
    ∃ answers' s', copyLoop disk source dest answers buffer s = some (0, answers', s')
      ∧ Copied disk source dest answers buffer s answers' s'
  | [], buffer, s, _, _, henough => by
    simp at henough
  | .interrupted :: answers, buffer, s, hfail, hend, henough => by
    rw [List.countP_cons_of_neg (by simp)] at henough
    obtain ⟨answers', s', heq, h⟩ := copyLoop_copies disk hne answers buffer s
      (fun h => hfail (List.mem_cons_of_mem _ h)) hend henough
    exact ⟨answers', s', by rw [copyLoop, heq], h.interrupted⟩
  | .failed :: answers, _, _, hfail, _, _ => absurd List.mem_cons_self hfail
  | .bytes count :: answers, [], s, hfail, hend, henough => by
    have hfail' : .failed ∉ answers := fun h => hfail (List.mem_cons_of_mem _ h)
    have hdest := fun n => file_update_of_ne hne.symm s (·.advance n)
    rw [List.countP_cons_of_pos (by simp), List.length_nil] at henough
    rw [copyLoop]
    split_ifs with hempty
    · have hnil : s.left disk source = [] := by
        rw [List.length_take] at hempty
        exact List.length_eq_zero_iff.1 (by omega)
      refine ⟨answers, _, rfl, ⟨hfail', ?_, rfl, fun fd hs _ => file_update_of_ne hs s _, ?_, ?_⟩⟩
      · rw [List.countP_cons_of_pos (by simp)]
        omega
      · rw [hdest, hnil, List.append_nil, List.append_nil]
      · rw [hdest, hend]
    · have hlength := congrArg List.length
        (take_append_left disk s source (max 1 (min count 4096)))
      rw [List.length_append] at hlength
      obtain ⟨answers', s', heq, h⟩ := copyLoop_copies disk hne answers
        ((s.left disk source).take (max 1 (min count 4096)))
        (s.update source (·.advance ((s.left disk source).take (max 1 (min count 4096))).length))
        hfail' (by rw [hdest, hend]) (by rw [left_advance]; omega)
      exact ⟨answers', s', heq, h.read hne count hempty⟩
  | .bytes count :: answers, b :: buffer, s, hfail, hend, henough => by
    have hfail' : .failed ∉ answers := fun h => hfail (List.mem_cons_of_mem _ h)
    have hdrop := length_drop_written b buffer count
    rw [List.countP_cons_of_pos (by simp), List.length_cons] at henough
    rw [copyLoop]
    obtain ⟨answers', s', heq, h⟩ := copyLoop_copies disk hne answers
      ((b :: buffer).drop (max 1 count))
      (s.update dest (·.write ((b :: buffer).take (max 1 count)))) hfail'
      (by rw [file_update_self, write_at_end hend]) (by rw [left_write disk hne]; omega)
    exact ⟨answers', s', heq, h.write hne hend⟩

theorem copyLoop_world : ∀ {answers : List Answer} {buffer : List UInt8} {s : State} {result : Int}
    {answers' : List Answer} {s' : State},
    copyLoop disk source dest answers buffer s = some (result, answers', s') → s'.world = s.world
  | [], _, _, _, _, _, h => by simp [copyLoop] at h
  | .interrupted :: _, _, _, _, _, _, h => by
    rw [copyLoop] at h
    exact copyLoop_world h
  | .failed :: _, _, _, _, _, _, h => by
    simp only [copyLoop, Option.some.injEq, Prod.mk.injEq] at h
    rw [← h.2.2]
  | .bytes _ :: _, [], _, _, _, _, h => by
    rw [copyLoop] at h
    split_ifs at h
    · simp only [Option.some.injEq, Prod.mk.injEq] at h
      rw [← h.2.2, world_update]
    · have hworld := copyLoop_world h
      exact hworld
  | .bytes _ :: _, _ :: _, _, _, _, _, h => by
    rw [copyLoop] at h
    have hworld := copyLoop_world h
    exact hworld

end Copy

section Join

variable {disk : List Char → List UInt8} {calls : JoinCalls} {first second : Int} {s : State}

theorem not_isOpen_joined {fd : ℕ} (h : s.world.IsOpen fd) : fd ≠ s.world.lowest :=
  fun heq => s.world.not_isOpen_lowest (heq ▸ h)

theorem get_openAs (d : Target) (s : State) (fd : ℕ) :
    (s.openAs d).2.world.get fd = if fd = s.world.lowest then some d else s.world.get fd :=
  get_openLowest s.world d fd

theorem file_openAs (d : Target) (s : State) (fd : ℕ) :
    (s.openAs d).2.file fd = if fd = s.world.lowest then ⟨[], 0⟩ else s.file fd := by
  simp only [State.openAs, Shell.openAs, Int.toNat_natCast, Function.update_apply]

theorem left_openAs_of_ne (disk : List Char → List UInt8) {fd : ℕ} (h : fd ≠ s.world.lowest)
    (d : Target) :
    (s.openAs d).2.left disk fd = s.left disk fd :=
  left_congr disk (by rw [get_openAs, if_neg h]) (by rw [file_openAs, if_neg h])

theorem get_closeFd_of_ne {fd : ℕ} {g : Int} (h : fd ≠ g.toNat) (s : State) :
    (s.closeFd g).world.get fd = s.world.get fd := by
  rw [State.closeFd, Shell.closeFd, get_close, if_neg h]

/-- The joined file reads as the two descriptors did. -/
theorem joinInputs_copies {bytes : ℕ} (hcalls : calls.Suffice bytes)
    (hfirst : s.world.IsOpen first.toNat) (hsecond : s.world.IsOpen second.toNat)
    (hne : first.toNat ≠ second.toNat)
    (hbytes : (s.left disk first.toNat ++ s.left disk second.toNat).length ≤ bytes) :
    ∃ s' : State, joinInputs disk calls first second s = some ((s.world.lowest : Int), s')
      ∧ ∀ now, s'.left now s.world.lowest
        = s.left disk first.toNat ++ s.left disk second.toNat := by
  have hj1 := not_isOpen_joined hfirst
  have hj2 := not_isOpen_joined hsecond
  rw [List.length_append] at hbytes
  have henough := hcalls.enough
  have hnew : (s.openAs .joined).2.file s.world.lowest = ⟨[], 0⟩ := by
    rw [file_openAs, if_pos rfl]
  have hleft1 := left_openAs_of_ne disk hj1 .joined
  have hleft2 := left_openAs_of_ne disk hj2 .joined
  obtain ⟨answers1, s1, heq1, h1⟩ := copyLoop_copies disk hj1 calls.answers []
    (s.openAs .joined).2 hcalls.unfailing (by rw [hnew]; rfl)
    (by rw [hleft1, List.length_nil]; omega)
  have hcount := h1.answers
  have hkept := left_congr disk (congrArg (·.get second.toNat) h1.world)
    (h1.others second.toNat hne.symm hj2)
  rw [hleft2] at hkept
  rw [hleft1, List.length_nil] at hcount
  obtain ⟨answers2, s2, heq2, h2⟩ := copyLoop_copies disk hj2 answers1 [] s1 h1.unfailing h1.offset
    (by rw [hkept, List.length_nil]; omega)
  refine ⟨((s2.update s.world.lowest File.rewind).closeFd first).closeFd second, ?_, fun now => ?_⟩
  · have hfd : (s.openAs .joined).1 = (s.world.lowest : Int) := rfl
    simp only [joinInputs, hcalls.mkstemp, copyFd, hfd, Int.toNat_natCast, heq1, heq2,
      hcalls.lseek]
    rfl
  · have hget : (((s2.update s.world.lowest File.rewind).closeFd first).closeFd second).world.get
        s.world.lowest = some .joined := by
      rw [get_closeFd_of_ne hj2.symm, get_closeFd_of_ne hj1.symm, world_update, h2.world, h1.world,
        get_openAs, if_pos rfl]
    have hfile : (((s2.update s.world.lowest File.rewind).closeFd first).closeFd second).file
        s.world.lowest = File.rewind (s2.file s.world.lowest) := file_update_self s2 _ _
    rw [State.left, State.content, hget, hfile]
    simp only [File.rewind, List.drop_zero]
    rw [h2.bytes, h1.bytes, hnew, hkept, hleft1, List.append_nil, List.append_nil, List.nil_append]

theorem copyFd_world {source dest result : Int} {answers answers' : List Answer} {s' : State}
    (h : copyFd disk source dest answers s = some (result, answers', s')) : s'.world = s.world :=
  copyLoop_world h

/-- The descriptors are those of a join that ends in one of the three ways. -/
theorem joinInputs_world {fd : Int} {s' : State}
    (h : joinInputs disk calls first second s = some (fd, s')) (env : Env) (i : ℕ) :
    ∃ outcome, Shell.joinInputs { env with joinInputs := fun _ => outcome } i first second s.world
      = (fd, s'.world) := by
  unfold joinInputs at h
  split_ifs at h with hmk
  · simp only [Option.some.injEq, Prod.mk.injEq] at h
    refine ⟨.mkstempFailed, ?_⟩
    rw [← h.1, ← h.2]
    rfl
  · simp only at h
    split at h
    · exact absurd h (by simp)
    · rename_i result answers s1 heq1
      have hworld1 := copyFd_world heq1
      split_ifs at h with hresult
      · simp only [Option.some.injEq, Prod.mk.injEq] at h
        refine ⟨.copyFailed, ?_⟩
        rw [← h.1, ← h.2]
        simp only [Shell.joinInputs, State.closeFd, hworld1]
        rfl
      · split at h
        · exact absurd h (by simp)
        · rename_i result' answers' s2 heq2
          have hworld2 := (copyFd_world heq2).trans hworld1
          split_ifs at h with hlast
          · simp only [Option.some.injEq, Prod.mk.injEq] at h
            refine ⟨.copyFailed, ?_⟩
            rw [← h.1, ← h.2]
            simp only [Shell.joinInputs, State.closeFd, hworld2]
            rfl
          · simp only [Option.some.injEq, Prod.mk.injEq] at h
            refine ⟨.joined, ?_⟩
            rw [← h.1, ← h.2]
            simp only [Shell.joinInputs, State.closeFd, world_update, hworld2]
            rfl

theorem holds_joinInputs {F : Set ℕ} {M : Multiset ℕ} {fd : Int} {s' : State} (h1 : 0 ≤ first)
    (h2 : 0 ≤ second) (h : joinInputs disk calls first second s = some (fd, s'))
    (hholds : Holds F (M + fdSet first + fdSet second) s.world) :
    Holds F (M + fdSet fd) s'.world := by
  obtain ⟨outcome, heq⟩ := joinInputs_world h .succeeding 0
  have hjoin := (joinInputs_spec { Env.succeeding with joinInputs := fun _ => outcome } 0 h1 h2
    s.world).2 hholds
  rwa [heq] at hjoin

end Join

section Reading

/-- What can be read from a descriptor, by the contents of the named files at that time. -/
abbrev Reading := (List Char → List UInt8) → List UInt8

variable (disk : ℕ → List Char → List UInt8)

/-- What the input reads behind the operator at `i`. -/
def readOn (current : Option Reading) (i : ℕ) (f : List Char) : Reading :=
  match current with
  | none => fun now => now f
  | some read => fun _ => read (disk i) ++ disk i f

def readAll (current : Option Reading) (files : List (ℕ × List Char)) : Option Reading :=
  files.foldl (fun current r => some (readOn disk current r.1 r.2)) current

theorem readAll_cons (current : Option Reading) (i : ℕ) (f : List Char)
    (files : List (ℕ × List Char)) :
    readAll disk current ((i, f) :: files) = readAll disk (some (readOn disk current i f)) files :=
  rfl

/-- What has been copied stays as it is. -/
theorem readAll_copied : ∀ (files : List (ℕ × List Char)) (bytes : List UInt8),
    readAll disk (some fun _ => bytes) files
      = some fun _ => bytes ++ files.flatMap fun r => disk r.1 r.2
  | [], bytes => by simp [readAll]
  | (i, f) :: files, bytes => by
    rw [readAll_cons, readOn, readAll_copied files, List.flatMap_cons, List.append_assoc]

/-- A join copies no more than there is in the end. -/
theorem copied_le {bytes i : ℕ} {f : List Char} {current : Option Reading}
    {files : List (ℕ × List Char)} {now : List Char → List UInt8}
    (h : ∀ read ∈ readAll disk (some (readOn disk current i f)) files, (read now).length ≤ bytes) :
    ∀ read ∈ current, (read (disk i) ++ disk i f).length ≤ bytes := by
  rintro read ⟨⟩
  have hall := h _ (readAll_copied disk files (read (disk i) ++ disk i f))
  rw [List.length_append] at hall
  omega

theorem readAll_eq {files : List (ℕ × List Char)} (h : files ≠ []) :
    readAll disk none files = some fun now => concatenation disk now files := by
  match files, h with
  | [(i, f)], _ => rfl
  | (i, f) :: (j, g) :: rest, _ =>
    rw [readAll_cons, readAll_cons, readOn, readOn, readAll_copied]
    rfl

theorem inputFiles_word {t : Token} (ht : t.type = .word) (i : ℕ) :
    ∀ ts : List Token, inputFiles i (t :: ts) = inputFiles (i + 1) ts
  | [] => rfl
  | u :: ts => by simp [inputFiles, ht]

theorem inputFiles_input {r t : Token} (hr : r.type = .opLt) (ht : t.type = .word) (i : ℕ)
    (ts : List Token) : inputFiles i (r :: t :: ts) = (i, t.text) :: inputFiles (i + 2) ts := by
  rw [inputFiles, if_pos hr, inputFiles_word ht]

theorem inputFiles_output {r t : Token} (hr : r.type = .opGt ∨ r.type = .opGtgt)
    (ht : t.type = .word) (i : ℕ) (ts : List Token) :
    inputFiles i (r :: t :: ts) = inputFiles (i + 2) ts := by
  have hlt : r.type ≠ .opLt := by rcases hr with hr | hr <;> simp [hr]
  rw [inputFiles, if_neg hlt, inputFiles_word ht]

/-- The input is a descriptor that reads like this, or there is none yet. -/
def Reads (s : State) (input : Int) (current : Option Reading) : Prop :=
  match current with
  | none => input = -1
  | some read => 0 ≤ input ∧ ∀ now, s.left now input.toNat = read now

end Reading

section Attach

variable (host : Host)

/-- A `<` whose file could be opened, as both loops handle it. -/
def attach (i : ℕ) (path : List Char) (input : Int) (s : State) : Option (Int × State) :=
  if input < 0 then some (s.openAs (.input path))
  else
    joinInputs (host.disk i) (host.joins i) input (s.openAs (.input path)).1
      (s.openAs (.input path)).2

variable {host} {F : Set ℕ} {M : Multiset ℕ} {i : ℕ} {path : List Char} {input : Int} {s : State}

theorem openAs_fst_nonneg (d : Target) (s : State) : 0 ≤ (s.openAs d).1 :=
  openAs_nonneg d s.world

theorem holds_attach {fd : Int} {s' : State} (h : attach host i path input s = some (fd, s'))
    (hholds : Holds F (M + fdSet input) s.world) : Holds F (M + fdSet fd) s'.world := by
  have hopened := holds_openAs (.input path) hholds
  unfold attach at h
  split_ifs at h with hinput
  · simp only [Option.some.injEq, Prod.ext_iff] at h
    rw [fdSet_of_neg hinput, add_zero] at hopened
    rw [← h.1, ← h.2]
    exact hopened
  · exact holds_joinInputs (by omega) (openAs_fst_nonneg _ s) h hopened

theorem isOpen_of_holds (hholds : Holds F (M + fdSet input) s.world) (hinput : 0 ≤ input) :
    s.world.IsOpen input.toNat := by
  have hmem : input.toNat ∈ fdSet input := by simp [fdSet, hinput]
  exact (hholds.isOpen _).2 (.inr (Multiset.mem_add.2 (.inr hmem)))

theorem left_openAs_self (disk : List Char → List UInt8) (s : State) (path : List Char) :
    (s.openAs (.input path)).2.left disk s.world.lowest = disk path := by
  rw [State.left, State.content, get_openAs, if_pos rfl, file_openAs, if_pos rfl]
  rfl

theorem attach_reads {bytes : ℕ} {current : Option Reading} (hhost : host.Works bytes)
    (hholds : Holds F (M + fdSet input) s.world) (hreads : Reads s input current)
    (hbytes : ∀ read ∈ current, (read (host.disk i) ++ host.disk i path).length ≤ bytes) :
    ∃ fd s', attach host i path input s = some (fd, s') ∧ 0 ≤ fd
      ∧ Reads s' fd (some (readOn host.disk current i path)) := by
  unfold attach
  rcases current with - | read
  · have hinput : input = -1 := hreads
    rw [if_pos (by omega)]
    have hfd := openAs_fst_nonneg (.input path) s
    exact ⟨_, _, rfl, hfd, hfd, fun now => left_openAs_self now s path⟩
  · obtain ⟨hinput, hread⟩ := hreads
    rw [if_neg (by omega)]
    have hopen := isOpen_of_holds hholds hinput
    have hne := not_isOpen_joined hopen
    have hfd : (s.openAs (.input path)).1.toNat = s.world.lowest := rfl
    have hfirst : (s.openAs (.input path)).2.left (host.disk i) input.toNat = read (host.disk i) :=
      (left_openAs_of_ne (host.disk i) hne (.input path)).trans (hread _)
    have hsecond := left_openAs_self (host.disk i) s path
    have hopen1 : (s.openAs (.input path)).2.world.IsOpen input.toNat :=
      (isOpen_openLowest s.world _ _).2 (.inr hopen)
    have hopen2 : (s.openAs (.input path)).2.world.IsOpen (s.openAs (.input path)).1.toNat :=
      (isOpen_openLowest s.world _ _).2 (.inl hfd)
    have hlength := hbytes read rfl
    rw [← hfirst, ← hsecond] at hlength
    obtain ⟨s', heq, hjoined⟩ := joinInputs_copies (hhost.joins i) hopen1 hopen2 hne hlength
    refine ⟨_, s', heq, Int.natCast_nonneg _, Int.natCast_nonneg _, fun now => ?_⟩
    exact (hjoined now).trans (by rw [hfirst, hfd, hsecond]; rfl)

/-- Another open does not move the input. -/
theorem Reads.openAs {current : Option Reading} (h : Reads s input current)
    (hholds : Holds F (M + fdSet input) s.world) (d : Target) :
    Reads (s.openAs d).2 input current := by
  rcases current with - | read
  · exact h
  · refine ⟨h.1, fun now => ?_⟩
    rw [← h.2 now]
    exact left_openAs_of_ne now (not_isOpen_joined (isOpen_of_holds hholds h.1)) d

end Attach

section Loops

variable {host : Host} {F : Set ℕ} {M : Multiset ℕ}

theorem openFile_eq_openAs {i : ℕ} (h : host.env.openFile i = true) (d : Target) (s : State) :
    openFile host i d s = s.openAs d :=
  if_pos h

theorem openFile_eq_none {i : ℕ} (h : ¬ host.env.openFile i = true) (d : Target) (s : State) :
    openFile host i d s = (-1, s) :=
  if_neg h

theorem world_closeIfOpen (fd : Int) (s : State) :
    ((calls host).closeIfOpen fd s).world = closeIfOpen fd s.world := by
  unfold Calls.closeIfOpen closeIfOpen
  split <;> rfl

theorem collectLoop_word {t : Token} (ht : t.type = .word) (i : ℕ) (rest : List Token)
    (argv : List (List Char)) (input : Int) (s : State) :
    collectLoop host i (t :: rest) argv input s
      = collectLoop host (i + 1) rest (argv ++ [t.text]) input s := by
  rw [collectLoop, Calls.collectLoop_word _ _ ht]
  rfl

theorem collectLoop_input {t f : Token} (ht : t.type = .opLt) (hf : f.type = .word) (i : ℕ)
    (rest : List Token) (argv : List (List Char)) (input : Int) (s : State) :
    collectLoop host i (t :: f :: rest) argv input s =
      if host.env.openFile i = true then
        match attach host i f.text input s with
        | none => none
        | some (input, s) =>
          if input < 0 then some (-1, argv, -1, s) else collectLoop host (i + 2) rest argv input s
      else some (-1, argv, -1, (calls host).closeIfOpen input s) := by
  have hfd := openAs_fst_nonneg (.input f.text) s
  rw [collectLoop, Calls.collectLoop_input _ _ ht hf]
  by_cases hopen : host.env.openFile i = true
  · have hcall : (calls host).openInput i f.text s = s.openAs (.input f.text) :=
      openFile_eq_openAs hopen _ s
    simp only [hcall, if_pos hopen, if_neg (Int.not_lt.2 hfd)]
    change (attach host i f.text input s).bind _ = _
    rcases attach host i f.text input s with _ | ⟨fd, s⟩ <;> rfl
  · have hcall : (calls host).openInput i f.text s = (-1, s) := openFile_eq_none hopen _ s
    simp only [hcall, if_neg hopen]
    rfl

theorem collectLoop_output {t f : Token} (ht : t.type = .opGt ∨ t.type = .opGtgt)
    (hf : f.type = .word) (i : ℕ) (rest : List Token) (argv : List (List Char)) (input : Int)
    (s : State) :
    collectLoop host i (t :: f :: rest) argv input s
      = collectLoop host (i + 2) rest argv input s := by
  rw [collectLoop, Calls.collectLoop_output _ _ ht hf]
  rfl

/-- What `collect_command` holds of its input, however its loop ends. -/
theorem collectLoop_holds {ts : List Token} (hts : Operands ts) :
    ∀ {i : ℕ} {argv argv' : List (List Char)} {input input' result : Int} {s s' : State},
      collectLoop host i ts argv input s = some (result, argv', input', s') →
      Holds F (M + fdSet input) s.world →
      Holds F (M + fdSet input') s'.world ∧ (result ≠ 0 → input' = -1) := by
  induction hts using Operands.kinds with
  | nil =>
    intro i argv argv' input input' result s s' h hholds
    obtain ⟨rfl, -, rfl, rfl⟩ : 0 = result ∧ argv = argv' ∧ input = input' ∧ s = s' := by
      simpa [collectLoop, Calls.collectLoop] using h
    exact ⟨hholds, fun h => absurd rfl h⟩
  | word ht _ ih =>
    intro i argv argv' input input' result s s' h hholds
    rw [collectLoop_word ht] at h
    exact ih h hholds
  | input hr ht _ ih =>
    intro i argv argv' input input' result s s' h hholds
    rw [collectLoop_input hr ht] at h
    split_ifs at h with hopen
    · split at h
      · exact absurd h (by simp)
      · rename_i fd s1 hattach
        have hnext := holds_attach hattach hholds
        split_ifs at h with hfd
        · simp only [Option.some.injEq, Prod.mk.injEq] at h
          obtain ⟨rfl, -, rfl, rfl⟩ := h
          rw [fdSet_of_neg hfd] at hnext
          exact ⟨hnext, fun _ => rfl⟩
        · exact ih h hnext
    · simp only [Option.some.injEq, Prod.mk.injEq] at h
      obtain ⟨rfl, -, rfl, rfl⟩ := h
      refine ⟨?_, fun _ => rfl⟩
      rw [fdSet_neg_one, add_zero, world_closeIfOpen]
      exact holds_closeIfOpen hholds
  | output hr ht _ ih =>
    intro i argv argv' input input' result s s' h hholds
    rw [collectLoop_output hr ht] at h
    exact ih h hholds

/-- Where no call fails, the loop comes to its end, and the input reads as its files do. -/
theorem collectLoop_reads {bytes : ℕ} (hhost : host.Works bytes) (now : List Char → List UInt8)
    {ts : List Token} (hts : Operands ts) :
    ∀ (i : ℕ) (argv : List (List Char)) (input : Int) (s : State) (current : Option Reading),
      Holds F (M + fdSet input) s.world → Reads s input current →
      (∀ read ∈ readAll host.disk current (inputFiles i ts), (read now).length ≤ bytes) →
      ∃ argv' input' s', collectLoop host i ts argv input s = some (0, argv', input', s')
        ∧ Reads s' input' (readAll host.disk current (inputFiles i ts)) := by
  induction hts using Operands.kinds with
  | nil =>
    intro i argv input s current hholds hreads hbytes
    exact ⟨_, _, _, rfl, hreads⟩
  | word ht _ ih =>
    intro i argv input s current hholds hreads hbytes
    rw [inputFiles_word ht] at hbytes ⊢
    rw [collectLoop_word ht]
    exact ih _ _ _ _ _ hholds hreads hbytes
  | @input r t ts hr ht _ ih =>
    intro i argv input s current hholds hreads hbytes
    rw [inputFiles_input hr ht, readAll_cons] at hbytes ⊢
    rw [collectLoop_input hr ht, if_pos (hhost.opens i)]
    obtain ⟨fd, s1, hattach, hfd, hread⟩ :=
      attach_reads hhost hholds hreads (copied_le host.disk hbytes)
    simp only [hattach]
    rw [if_neg (by omega)]
    exact ih _ _ _ _ _ (holds_attach hattach hholds) hread hbytes
  | output hr ht _ ih =>
    intro i argv input s current hholds hreads hbytes
    rw [inputFiles_output hr ht] at hbytes ⊢
    rw [collectLoop_output hr ht]
    exact ih _ _ _ _ _ hholds hreads hbytes

theorem stageArgsLoop_word {t : Token} (ht : t.type = .word) (i : ℕ) (rest : List Token)
    (stage : Stage) (s : State) : stageArgsLoop host i (t :: rest) stage s =
      stageArgsLoop host (i + 1) rest { stage with args := stage.args ++ [t.text] } s := by
  rw [stageArgsLoop, Calls.stageArgsLoop_word _ _ ht]
  rfl

theorem stageArgsLoop_input {t f : Token} (ht : t.type = .opLt) (hf : f.type = .word) (i : ℕ)
    (rest : List Token) (stage : Stage) (s : State) :
    stageArgsLoop host i (t :: f :: rest) stage s =
      if host.env.openFile i = true then
        match attach host i f.text stage.input s with
        | none => none
        | some (fd, s) =>
          if fd < 0 then some (-1, { stage with input := -1 }, s)
          else stageArgsLoop host (i + 2) rest { stage with input := fd } s
      else some (-1, stage, s) := by
  have hfd := openAs_fst_nonneg (.input f.text) s
  rw [stageArgsLoop, Calls.stageArgsLoop_input _ _ ht hf]
  by_cases hopen : host.env.openFile i = true
  · have hcall : (calls host).openInput i f.text s = s.openAs (.input f.text) :=
      openFile_eq_openAs hopen _ s
    simp only [hcall, if_pos hopen, if_neg (Int.not_lt.2 hfd), attach]
    by_cases hinput : 0 ≤ stage.input
    · rw [if_pos hinput, if_neg (Int.not_lt.2 hinput)]
      change ((joinInputs _ _ _ _ _).bind _).map stage.fill = _
      rcases joinInputs (host.disk i) (host.joins i) stage.input _ _ with _ | ⟨fd, s⟩
      · rfl
      · exact apply_ite (Option.map stage.fill) _ _ _
    · rw [if_neg hinput, if_pos (Int.not_le.1 hinput)]
      simp only [if_neg (Int.not_lt.2 hfd)]
      rfl
  · have hcall : (calls host).openInput i f.text s = (-1, s) := openFile_eq_none hopen _ s
    simp only [hcall, if_neg hopen]
    rfl

theorem stageArgsLoop_output {t f : Token} (ht : t.type = .opGt ∨ t.type = .opGtgt)
    (hf : f.type = .word) (i : ℕ) (rest : List Token) (stage : Stage) (s : State) :
    stageArgsLoop host i (t :: f :: rest) stage s =
      if host.env.openFile i = true then
        if host.env.filesRealloc i = false then
          some (-3, stage, (s.openAs (outputTarget t.type f.text)).2.closeFd
            (s.openAs (outputTarget t.type f.text)).1)
        else stageArgsLoop host (i + 2) rest
          { stage with files := stage.files ++ [(s.openAs (outputTarget t.type f.text)).1] }
          (s.openAs (outputTarget t.type f.text)).2
      else some (-4, stage, s) := by
  have hfd := openAs_fst_nonneg (outputTarget t.type f.text) s
  rw [stageArgsLoop, Calls.stageArgsLoop_output _ _ ht hf]
  by_cases hopen : host.env.openFile i = true
  · have hcall : (calls host).openOutput i t.type f.text s
        = s.openAs (outputTarget t.type f.text) := openFile_eq_openAs hopen _ s
    simp only [hcall, if_pos hopen, if_neg (Int.not_lt.2 hfd)]
    exact apply_ite (Option.map stage.fill) _ _ _
  · have hcall : (calls host).openOutput i t.type f.text s = (-1, s) :=
      openFile_eq_none hopen _ s
    simp only [hcall, if_neg hopen]
    rfl

/-- What the loop of `stage_args` does, however it ends. -/
structure StageKept (F : Set ℕ) (M : Multiset ℕ) (stage stage' : Stage) (s' : State) : Prop where
  output : stage'.output = stage.output
  files : (∀ fd ∈ stage.files, 0 ≤ fd) → ∀ fd ∈ stage'.files, 0 ≤ fd
  holds : Holds F (M + stage'.held) s'.world

theorem stageArgsLoop_holds {ts : List Token} (hts : Operands ts) :
    ∀ {i : ℕ} {stage stage' : Stage} {result : Int} {s s' : State},
      stageArgsLoop host i ts stage s = some (result, stage', s') →
      Holds F (M + stage.held) s.world → StageKept F M stage stage' s' := by
  induction hts using Operands.kinds with
  | nil =>
    intro i stage stage' result s s' h hholds
    obtain ⟨-, rfl, rfl⟩ : 0 = result ∧ stage = stage' ∧ s = s' := by
      simpa [stageArgsLoop, Calls.stageArgsLoop, Stage.fill] using h
    exact ⟨rfl, id, hholds⟩
  | word ht _ ih =>
    intro i stage stage' result s s' h hholds
    rw [stageArgsLoop_word ht] at h
    obtain ⟨houtput, hfiles, hnext⟩ := ih h hholds
    exact ⟨houtput, hfiles, hnext⟩
  | input hr ht _ ih =>
    intro i stage stage' result s s' h hholds
    rw [stageArgsLoop_input hr ht] at h
    split_ifs at h with hopen
    · split at h
      · exact absurd h (by simp)
      · rename_i fd s1 hattach
        have hnext : Holds F (M + ({ stage with input := fd } : Stage).held) s1.world := by
          rw [held_input, ← add_assoc]
          refine holds_attach hattach ?_
          rwa [add_assoc, ← held_eq]
        split_ifs at h with hfd
        · simp only [Option.some.injEq, Prod.mk.injEq] at h
          obtain ⟨-, rfl, rfl⟩ := h
          rw [held_input, fdSet_of_neg hfd, add_zero] at hnext
          exact ⟨rfl, id, hnext⟩
        · obtain ⟨houtput, hfiles, hend⟩ := ih h hnext
          exact ⟨houtput, hfiles, hend⟩
    · simp only [Option.some.injEq, Prod.mk.injEq] at h
      obtain ⟨-, rfl, rfl⟩ := h
      exact ⟨rfl, id, hholds⟩
  | @output r t ts hr ht _ ih =>
    intro i stage stage' result s s' h hholds
    have hfd := openAs_fst_nonneg (outputTarget r.type t.text) s
    have hopened := holds_openAs (outputTarget r.type t.text) hholds
    rw [stageArgsLoop_output hr ht] at h
    split_ifs at h with hopen halloc
    · simp only [Option.some.injEq, Prod.mk.injEq] at h
      obtain ⟨-, rfl, rfl⟩ := h
      exact ⟨rfl, id, holds_closeFd hfd hopened⟩
    · obtain ⟨houtput, hfiles, hend⟩ := ih h (by
        rw [held_files stage hfd, ← add_assoc]
        exact hopened)
      exact ⟨houtput, fun hall => hfiles (files_snoc hall hfd), hend⟩
    · simp only [Option.some.injEq, Prod.mk.injEq] at h
      obtain ⟨-, rfl, rfl⟩ := h
      exact ⟨rfl, id, hholds⟩

theorem stageArgsLoop_reads {bytes : ℕ} (hhost : host.Works bytes) (now : List Char → List UInt8)
    {ts : List Token} (hts : Operands ts) :
    ∀ (i : ℕ) (stage : Stage) (s : State) (current : Option Reading),
      Holds F (M + stage.held) s.world → Reads s stage.input current →
      (∀ read ∈ readAll host.disk current (inputFiles i ts), (read now).length ≤ bytes) →
      ∃ stage' s', stageArgsLoop host i ts stage s = some (0, stage', s')
        ∧ Reads s' stage'.input (readAll host.disk current (inputFiles i ts)) := by
  induction hts using Operands.kinds with
  | nil =>
    intro i stage s current hholds hreads hbytes
    exact ⟨_, _, rfl, hreads⟩
  | word ht _ ih =>
    intro i stage s current hholds hreads hbytes
    rw [inputFiles_word ht] at hbytes ⊢
    rw [stageArgsLoop_word ht]
    exact ih _ _ _ _ hholds hreads hbytes
  | @input r t ts hr ht _ ih =>
    intro i stage s current hholds hreads hbytes
    rw [inputFiles_input hr ht, readAll_cons] at hbytes ⊢
    rw [stageArgsLoop_input hr ht, if_pos (hhost.opens i)]
    have hledger : Holds F (M + ({ stage with input := -1 } : Stage).held + fdSet stage.input)
        s.world := by
      rwa [add_assoc, ← held_eq]
    obtain ⟨fd, s1, hattach, hfd, hread⟩ :=
      attach_reads hhost hledger hreads (copied_le host.disk hbytes)
    simp only [hattach]
    rw [if_neg (by omega)]
    refine ih _ _ _ _ ?_ hread hbytes
    rw [held_input, ← add_assoc]
    exact holds_attach hattach hledger
  | @output r t ts hr ht _ ih =>
    intro i stage s current hholds hreads hbytes
    rw [inputFiles_output hr ht] at hbytes ⊢
    rw [stageArgsLoop_output hr ht, if_pos (hhost.opens i), if_neg (by simp [hhost.allocs i])]
    refine ih _ _ _ _ ?_ ?_ hbytes
    · rw [held_files stage (openAs_fst_nonneg _ s), ← add_assoc]
      exact holds_openAs _ hholds
    · rw [held_eq, ← add_assoc] at hholds
      exact hreads.openAs hholds _

theorem collectCommand_eq (ts : List Token) (s : State) :
    collectCommand host ts s =
      match collectLoop host 0 ts [] (-1) s with
      | none => none
      | some (result, argv, input, s) =>
        if result ≠ 0 then some (result, argv, input, s)
        else if 0 ≤ input ∧ host.env.fdopen = false then some (-1, argv, -1, s.closeFd input)
        else some (0, argv, input, s) := by
  change (collectLoop host 0 ts [] (-1) s).bind _ = _
  rcases collectLoop host 0 ts [] (-1) s with _ | ⟨result, argv, input, s⟩ <;> rfl

theorem collectCommand_holds {ts : List Token} (hts : Operands ts) {result : Int}
    {argv : List (List Char)} {input : Int} {s s' : State} (hholds : Holds F M s.world)
    (h : collectCommand host ts s = some (result, argv, input, s')) :
    Holds F (M + fdSet input) s'.world ∧ (result ≠ 0 → input = -1) := by
  rw [collectCommand_eq] at h
  split at h
  · exact absurd h (by simp)
  · rename_i result1 argv1 input1 s1 hloop
    have hend := collectLoop_holds hts hloop (M := M) (by simpa [fdSet_neg_one] using hholds)
    split_ifs at h with hresult hfdopen
    · simp only [Option.some.injEq, Prod.mk.injEq] at h
      obtain ⟨rfl, -, rfl, rfl⟩ := h
      exact hend
    · simp only [Option.some.injEq, Prod.mk.injEq] at h
      obtain ⟨-, -, rfl, rfl⟩ := h
      refine ⟨?_, fun _ => rfl⟩
      rw [fdSet_neg_one, add_zero]
      exact holds_closeFd hfdopen.1 hend.1
    · simp only [Option.some.injEq, Prod.mk.injEq] at h
      obtain ⟨rfl, -, rfl, rfl⟩ := h
      exact ⟨hend.1, fun h => absurd rfl h⟩

theorem stageArgsOn_holds {ts : List Token} (hts : Operands ts) {k start stop : ℕ} {result : Int}
    {stage : Stage} {s s' : State} (hholds : Holds F M s.world)
    (h : stageArgsOn host ts k (freshStage start stop) s = some (result, stage, s')) :
    Holds F (M + stage.held) s'.world := by
  unfold stageArgsOn at h
  split_ifs at h with halloc
  · simp only [Option.some.injEq, Prod.mk.injEq] at h
    obtain ⟨-, rfl, rfl⟩ := h
    rwa [held_freshStage, add_zero]
  · split at h
    · exact absurd h (by simp)
    · rename_i result1 stage1 s1 hloop
      have hend := stageArgsLoop_holds hts hloop (M := M) (by rwa [held_freshStage, add_zero])
      split_ifs at h with hresult
      · simp only [Option.some.injEq, Prod.mk.injEq] at h
        obtain ⟨-, rfl, rfl⟩ := h
        exact hend.holds
      · simp only [Option.some.injEq, Prod.mk.injEq] at h
        obtain ⟨-, rfl, rfl⟩ := h
        rw [held_settleOutput hend.output (hend.files (by simp [freshStage, Stage.zero]))]
        exact hend.holds

theorem input_settleOutput (stage : Stage) : (settleOutput stage).input = stage.input := by
  unfold settleOutput
  split <;> rfl

theorem collectCommand_reads {ts : List Token} (hts : Operands ts) (hfiles : inputFiles 0 ts ≠ [])
    {s : State} (hholds : Holds F M s.world) {now : List Char → List UInt8}
    (hhost : host.Works (concatenation host.disk now (inputFiles 0 ts)).length) :
    ∃ argv input s', collectCommand host ts s = some (0, argv, input, s') ∧ 0 ≤ input
      ∧ s'.left now input.toNat = concatenation host.disk now (inputFiles 0 ts) := by
  have hall := readAll_eq host.disk hfiles
  have hledger : Holds F (M + fdSet (-1)) s.world := by rwa [fdSet_neg_one, add_zero]
  obtain ⟨argv, input, s', hloop, hreads⟩ := collectLoop_reads hhost now hts 0 [] (-1) s none
    hledger rfl (by rw [hall]; rintro _ ⟨⟩; exact le_refl _)
  rw [hall] at hreads
  exact ⟨argv, input, s', by simp [collectCommand_eq, hloop, hhost.fdopen], hreads.1, hreads.2 now⟩

theorem stageArgsOn_reads {ts : List Token} (hts : Operands ts) {k start stop : ℕ}
    (hfiles : inputFiles start ts ≠ []) {s : State} (hholds : Holds F M s.world)
    {now : List Char → List UInt8}
    (hhost : host.Works (concatenation host.disk now (inputFiles start ts)).length) :
    ∃ stage s', stageArgsOn host ts k (freshStage start stop) s = some (0, stage, s')
      ∧ 0 ≤ stage.input
      ∧ s'.left now stage.input.toNat = concatenation host.disk now (inputFiles start ts) := by
  have hall := readAll_eq host.disk hfiles
  have hstart : (freshStage start stop).start = start := rfl
  have hledger : Holds F (M + (freshStage start stop).held) s.world := by
    rwa [held_freshStage, add_zero]
  obtain ⟨stage, s', hloop, hreads⟩ := stageArgsLoop_reads hhost now hts start
    (freshStage start stop) s none hledger rfl (by rw [hall]; rintro _ ⟨⟩; exact le_refl _)
  rw [hall] at hreads
  refine ⟨settleOutput stage, s', by simp [stageArgsOn, hstart, hloop, hhost.args], ?_⟩
  rw [input_settleOutput]
  exact ⟨hreads.1, hreads.2 now⟩

/-- `free_stages` closes what the stages hold, and what it closes besides was open before. -/
theorem isOpen_freeStages {built : List Stage} {stage : Stage} {w : World} {n fd : ℕ}
    (hholds : Holds F (heldAll built + stage.held) w)
    (h : (freeStages (built ++ stage :: List.replicate n Stage.zero) w).IsOpen fd) : fd ∈ F := by
  have hfreed : Holds F 0 (freeStages (built ++ [stage]) w) := by
    refine holds_freeStages ?_
    simpa [heldAll] using hholds
  have hsplit : freeStages (built ++ stage :: List.replicate n Stage.zero) w
      = freeStages (List.replicate n Stage.zero) (freeStages (built ++ [stage]) w) := by
    simp [freeStages, List.foldl_append]
  rw [hsplit] at h
  by_contra hfd
  refine not_isOpen_freeStages _ (fun hopen => hfd ?_) h
  simpa using (hfreed.isOpen fd).1 hopen

end Loops

end Copying

open Copying FdTable

/-- The input of a command is its files one behind the other and the only descriptor that is left of
them; where a call fails none is left, once the stages have been freed for a stage. -/
theorem inputs_concatenate (host : Host) {ts : List Token} (hts : Operands ts) (k start : ℕ)
    (s : Copying.State) (now : List Char → List UInt8) {F : Set ℕ} {built : List Stage}
    (hholds : Holds F (heldAll built) s.world) :
    (inputFiles 0 ts ≠ [] → host.Works (concatenation host.disk now (inputFiles 0 ts)).length →
      ∃ argv input s', Copying.collectCommand host ts s = some (0, argv, input, s') ∧ 0 ≤ input
        ∧ s'.left now input.toNat = concatenation host.disk now (inputFiles 0 ts)
        ∧ Holds F (heldAll built + fdSet input) s'.world)
    ∧ (inputFiles start ts ≠ [] →
      host.Works (concatenation host.disk now (inputFiles start ts)).length →
      ∃ stage s', Copying.stageArgsOn host ts k (freshStage start (start + ts.length)) s
          = some (0, stage, s') ∧ 0 ≤ stage.input
        ∧ s'.left now stage.input.toNat = concatenation host.disk now (inputFiles start ts)
        ∧ Holds F (heldAll built + stage.held) s'.world)
    ∧ (∀ result argv input s', Copying.collectCommand host ts s = some (result, argv, input, s') →
      result ≠ 0 → Holds F (heldAll built) s'.world)
    ∧ ∀ result stage s' n,
      Copying.stageArgsOn host ts k (freshStage start (start + ts.length)) s
        = some (result, stage, s') → result ≠ 0 →
      ∀ fd, (freeStages (built ++ stage :: List.replicate n Stage.zero) s'.world).IsOpen fd →
        fd ∈ F := by
  refine ⟨fun hfiles hhost => ?_, fun hfiles hhost => ?_, fun result argv input s' h hresult => ?_,
    fun result stage s' n h _ fd hfd => ?_⟩
  · obtain ⟨argv, input, s', heq, hinput, hread⟩ := collectCommand_reads hts hfiles hholds hhost
    exact ⟨argv, input, s', heq, hinput, hread, (collectCommand_holds hts hholds heq).1⟩
  · obtain ⟨stage, s', heq, hinput, hread⟩ := stageArgsOn_reads hts hfiles hholds hhost
    exact ⟨stage, s', heq, hinput, hread, stageArgsOn_holds hts hholds heq⟩
  · obtain ⟨hend, hnone⟩ := collectCommand_holds hts hholds h
    rwa [hnone hresult, fdSet_neg_one, add_zero] at hend
  · exact isOpen_freeStages (stageArgsOn_holds hts hholds h) hfd

def twoInputs : List Token :=
  [⟨.word, ['c']⟩, ⟨.opLt, ['<']⟩, ⟨.word, ['f']⟩, ⟨.opLt, ['<']⟩, ⟨.word, ['g']⟩]

/-- The first call is interrupted, and the others transfer a byte or two each. -/
def twoCalls : JoinCalls :=
  ⟨true, .interrupted :: List.replicate 4 (.bytes 1) ++ List.replicate 4 (.bytes 2), true⟩

def twoHost : Host where
  env := .succeeding
  joins _ := twoCalls
  disk _ path := if path = ['f'] then [1, 2] else [3]

theorem twoInputs_operands : Operands twoInputs :=
  .word rfl (.redirection rfl rfl (.redirection rfl rfl .nil))

theorem twoHost_works : twoHost.Works 3 :=
  have hcalls : twoCalls.Suffice 3 := ⟨rfl, rfl, by decide, by decide⟩
  ⟨fun _ => rfl, fun _ => rfl, fun _ => rfl, rfl, fun _ => hcalls⟩

theorem inputs_concatenate_two :
    ∃ argv input s',
      Copying.collectCommand twoHost twoInputs ⟨.standard, fun _ => ⟨[], 0⟩⟩
          = some (0, argv, input, s')
        ∧ s'.left (twoHost.disk 0) input.toNat = [1, 2, 3] := by
  have hholds : Holds {fd | World.standard.IsOpen fd} (heldAll []) World.standard :=
    Holds.start World.standard.slots
  obtain ⟨argv, input, s', heq, -, hread, -⟩ := (inputs_concatenate twoHost twoInputs_operands 0 0
    ⟨.standard, fun _ => ⟨[], 0⟩⟩ (twoHost.disk 0) hholds).1 (by decide) twoHost_works
  exact ⟨argv, input, s', heq, hread⟩

end Shell

end CShellXv6
