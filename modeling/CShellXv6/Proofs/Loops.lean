import CShellXv6.Shell.Loops
import CShellXv6.Shell.Parser

/-!
# What the loops do at a token

One equation for each kind of token, whatever the calls do. The words that are written do not change
what a loop does, so a loop on one kind of argument array is the same loop on another
(`collectLoop_map`, `stageArgsLoop_map`).
-/

namespace CShellXv6

namespace Shell

/-- Induction over words, inputs and outputs, the three kinds the loops tell apart. -/
@[elab_as_elim]
theorem Operands.kinds {motive : (ts : List Token) → Operands ts → Prop} (nil : motive [] .nil)
    (word : ∀ {t : Token} {ts : List Token} (ht : t.type = .word) (hts : Operands ts),
      motive ts hts → motive (t :: ts) (.word ht hts))
    (input : ∀ {r t : Token} {ts : List Token} (hr : r.type = .opLt) (ht : t.type = .word)
      (hts : Operands ts), motive ts hts →
      motive (r :: t :: ts) (.redirection (by simp [isRedirection, hr]) ht hts))
    (output : ∀ {r t : Token} {ts : List Token} (hr : r.type = .opGt ∨ r.type = .opGtgt)
      (ht : t.type = .word) (hts : Operands ts), motive ts hts →
      motive (r :: t :: ts)
        (.redirection (by rcases hr with h | h <;> simp [isRedirection, h]) ht hts))
    {ts : List Token} (h : Operands ts) : motive ts h := by
  induction h with
  | nil => exact nil
  | word ht hts ih => exact word ht hts ih
  | @redirection r t ts hr ht hts ih =>
    by_cases hlt : r.type = .opLt
    · exact input hlt ht hts ih
    · exact output (by simpa [isRedirection, hlt] using hr) ht hts ih

namespace Calls

universe u v

variable {m : Type u → Type v} {σ : Type u} (calls : Calls m σ)

section Prepare

theorem prepareLoop_other {t : Token} (ht : t.type ≠ .opGt ∧ t.type ≠ .opGtgt) (i : ℕ)
    (rest : List Token) (files : List Int) (s : σ) :
    calls.prepareLoop i (t :: rest) files s =
      if t.type = .opPipe ∨ t.type = .opSemi ∨ t.type = .opAmp then (0, files, s)
      else calls.prepareLoop (i + 1) rest files s := by
  conv_lhs => unfold prepareLoop
  rw [if_pos ht]

theorem prepareLoop_word {t : Token} (ht : t.type = .word) (i : ℕ) (rest : List Token)
    (files : List Int) (s : σ) :
    calls.prepareLoop i (t :: rest) files s = calls.prepareLoop (i + 1) rest files s := by
  rw [prepareLoop_other calls (by simp [ht]), if_neg (by simp [ht])]

theorem prepareLoop_input {t f : Token} (ht : t.type = .opLt) (hf : f.type = .word) (i : ℕ)
    (rest : List Token) (files : List Int) (s : σ) :
    calls.prepareLoop i (t :: f :: rest) files s = calls.prepareLoop (i + 2) rest files s := by
  rw [prepareLoop_other calls (by simp [ht]), if_neg (by simp [ht]), prepareLoop_word calls hf]

theorem prepareLoop_output {t f : Token} (ht : t.type = .opGt ∨ t.type = .opGtgt)
    (hf : f.type = .word) (i : ℕ) (rest : List Token) (files : List Int) (s : σ) :
    calls.prepareLoop i (t :: f :: rest) files s =
      let r := calls.openOutput i t.type f.text s
      if r.1 < 0 then (-1, [], calls.closeAll files r.2)
      else if calls.filesRealloc i = false then
        (-1, [], calls.closeAll files (calls.closeFd r.1 r.2))
      else calls.prepareLoop (i + 2) rest (files ++ [r.1]) r.2 := by
  rcases ht with ht | ht <;> simp [prepareLoop, ht, hf]

end Prepare

variable [Monad m] {α : Type} (words : Words α)

section Collect

theorem collectLoop_word {t : Token} (ht : t.type = .word) (i : ℕ) (rest : List Token) (argv : α)
    (input : Int) (s : σ) :
    calls.collectLoop words i (t :: rest) argv input s
      = calls.collectLoop words (i + 1) rest (words.add argv t.text) input s := by
  conv_lhs => unfold collectLoop
  rw [if_pos ht]

theorem collectLoop_other {t : Token} (ht : t.type ≠ .word) (hlt : t.type ≠ .opLt)
    (hgt : ¬ (t.type = .opGt ∨ t.type = .opGtgt)) (i : ℕ) (rest : List Token) (argv : α)
    (input : Int) (s : σ) :
    calls.collectLoop words i (t :: rest) argv input s
      = calls.collectLoop words (i + 1) rest argv input s := by
  conv_lhs => unfold collectLoop
  rw [if_neg ht, if_neg hlt, if_neg hgt]

theorem collectLoop_input {t f : Token} (ht : t.type = .opLt) (hf : f.type = .word) (i : ℕ)
    (rest : List Token) (argv : α) (input : Int) (s : σ) :
    calls.collectLoop words i (t :: f :: rest) argv input s =
      let r := calls.openInput i f.text s
      if r.1 < 0 then pure (-1, argv, -1, calls.closeIfOpen input r.2)
      else
        calls.attach i input r.1 r.2 >>= fun q =>
          if q.1 < 0 then pure (-1, argv, -1, q.2)
          else calls.collectLoop words (i + 2) rest argv q.1 q.2 := by
  simp [collectLoop, ht, hf]

theorem collectLoop_output {t f : Token} (ht : t.type = .opGt ∨ t.type = .opGtgt)
    (hf : f.type = .word) (i : ℕ) (rest : List Token) (argv : α) (input : Int) (s : σ) :
    calls.collectLoop words i (t :: f :: rest) argv input s
      = calls.collectLoop words (i + 2) rest argv input s := by
  rcases ht with ht | ht <;> simp [collectLoop, ht, hf]

end Collect

section Stage

theorem stageArgsLoop_word {t : Token} (ht : t.type = .word) (i : ℕ) (rest : List Token)
    (args : α) (input : Int) (files : List Int) (s : σ) :
    calls.stageArgsLoop words i (t :: rest) args input files s
      = calls.stageArgsLoop words (i + 1) rest (words.add args t.text) input files s := by
  conv_lhs => unfold stageArgsLoop
  rw [if_pos ht]

theorem stageArgsLoop_input {t f : Token} (ht : t.type = .opLt) (hf : f.type = .word) (i : ℕ)
    (rest : List Token) (args : α) (input : Int) (files : List Int) (s : σ) :
    calls.stageArgsLoop words i (t :: f :: rest) args input files s =
      let r := calls.openInput i f.text s
      if r.1 < 0 then pure (-1, args, input, files, r.2)
      else if 0 ≤ input then
        calls.joinInputs i input r.1 r.2 >>= fun q =>
          if q.1 < 0 then pure (-1, args, -1, files, q.2)
          else calls.stageArgsLoop words (i + 2) rest args q.1 files q.2
      else calls.stageArgsLoop words (i + 2) rest args r.1 files r.2 := by
  simp [stageArgsLoop, ht, hf]

theorem stageArgsLoop_output {t f : Token} (ht : t.type = .opGt ∨ t.type = .opGtgt)
    (hf : f.type = .word) (i : ℕ) (rest : List Token) (args : α) (input : Int) (files : List Int)
    (s : σ) :
    calls.stageArgsLoop words i (t :: f :: rest) args input files s =
      let r := calls.openOutput i t.type f.text s
      if r.1 < 0 then pure (-4, args, input, files, r.2)
      else if calls.filesRealloc i = false then
        pure (-3, args, input, files, calls.closeFd r.1 r.2)
      else calls.stageArgsLoop words (i + 2) rest args input (files ++ [r.1]) r.2 := by
  rcases ht with ht | ht <;> simp [stageArgsLoop, ht, hf]

end Stage

section Map

variable [LawfulMonad m] {words} {β : Type} {words' : Words β} {h : α → β}

theorem collectLoop_map (hadd : ∀ argv text, h (words.add argv text) = words'.add (h argv) text)
    {ts : List Token} (hts : Operands ts) : ∀ (i : ℕ) (argv : α) (input : Int) (s : σ),
      calls.collectLoop words' i ts (h argv) input s
        = (fun r => (r.1, h r.2.1, r.2.2)) <$> calls.collectLoop words i ts argv input s := by
  induction hts using Operands.kinds with
  | nil => simp [collectLoop]
  | word ht _ ih =>
    intro i argv input s
    rw [collectLoop_word calls words ht, collectLoop_word calls words' ht, ← hadd]
    exact ih _ _ _ _
  | input hr ht _ ih =>
    intro i argv input s
    rw [collectLoop_input calls words hr ht, collectLoop_input calls words' hr ht]
    simp only
    split_ifs
    · simp
    · rw [map_bind]
      refine bind_congr fun q => ?_
      split_ifs
      · simp
      · exact ih _ _ _ _
  | output hr ht _ ih =>
    intro i argv input s
    rw [collectLoop_output calls words hr ht, collectLoop_output calls words' hr ht]
    exact ih _ _ _ _

theorem stageArgsLoop_map
    (hadd : ∀ argv text, h (words.add argv text) = words'.add (h argv) text) {ts : List Token}
    (hts : Operands ts) : ∀ (i : ℕ) (args : α) (input : Int) (files : List Int) (s : σ),
      calls.stageArgsLoop words' i ts (h args) input files s
        = (fun r => (r.1, h r.2.1, r.2.2))
          <$> calls.stageArgsLoop words i ts args input files s := by
  induction hts using Operands.kinds with
  | nil => simp [stageArgsLoop]
  | word ht _ ih =>
    intro i args input files s
    rw [stageArgsLoop_word calls words ht, stageArgsLoop_word calls words' ht, ← hadd]
    exact ih _ _ _ _ _
  | input hr ht _ ih =>
    intro i args input files s
    rw [stageArgsLoop_input calls words hr ht, stageArgsLoop_input calls words' hr ht]
    simp only
    split_ifs
    · simp
    · rw [map_bind]
      refine bind_congr fun q => ?_
      split_ifs
      · simp
      · exact ih _ _ _ _ _
    · exact ih _ _ _ _ _
  | output hr ht _ ih =>
    intro i args input files s
    rw [stageArgsLoop_output calls words hr ht, stageArgsLoop_output calls words' hr ht]
    simp only
    split_ifs
    · simp
    · simp
    · exact ih _ _ _ _ _

end Map

end Calls

end Shell

end CShellXv6
