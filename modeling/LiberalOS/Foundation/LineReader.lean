import Mathlib.Data.List.Basic

/-!
# Reading lines from chunks

A reader collects elements up to a separator and hands each line to a handler, which goes on with a
new state or stops with a result. Its input arrives in chunks that have nothing to do with the
lines. What the reader does depends on the complete lines of the whole input only.

## Main results

* `readChunks_eq` — reading chunks is handling the complete lines of what they make up.
* `handleLines_proj` — a part of the state as a fold over the lines that are handled.
-/
namespace LiberalOS.Foundation

variable {α σ ρ : Type*}

/-! ## Handling lines -/

section

variable (onLine : σ → List α → σ ⊕ ρ)

/-- Handle the lines one after the other. -/
def handleLines : σ → List (List α) → σ ⊕ ρ
  | s, [] => .inl s
  | s, line :: lines =>
    match onLine s line with
    | .inl s' => handleLines s' lines
    | .inr r => .inr r

variable {onLine} {stop : List α → Bool}

/-- A part of the state that each line changes by itself, up to the first line that stops. -/
theorem handleLines_proj {τ : Type*} {f : σ → τ} {g : ρ → τ} {step : τ → List α → τ}
    (hgo : ∀ s line s', onLine s line = .inl s' → stop line = false ∧ f s' = step (f s) line)
    (hstop : ∀ s line r, onLine s line = .inr r → stop line = true ∧ g r = f s)
    (s : σ) (lines : List (List α)) :
    Sum.elim f g (handleLines onLine s lines) =
      (lines.takeWhile fun line => !stop line).foldl step (f s) := by
  induction lines generalizing s with
  | nil => rfl
  | cons line lines ih =>
    rw [handleLines]
    cases hline : onLine s line with
    | inl s' =>
      obtain ⟨hgoes, hstep⟩ := hgo s line s' hline
      simp [hgoes, ih, hstep]
    | inr r =>
      obtain ⟨hstops, hresult⟩ := hstop s line r hline
      simp [hstops, hresult]

/-- There is a result exactly if some line stops. -/
theorem handleLines_isRight (hgo : ∀ s line s', onLine s line = .inl s' → stop line = false)
    (hstop : ∀ s line r, onLine s line = .inr r → stop line = true)
    (s : σ) (lines : List (List α)) :
    (handleLines onLine s lines).isRight = true ↔ ∃ line ∈ lines, stop line = true := by
  induction lines generalizing s with
  | nil => simp [handleLines]
  | cons line lines ih =>
    rw [handleLines]
    cases hline : onLine s line with
    | inl s' => simp [hgo s line s' hline, ih]
    | inr r => simp [hstop s line r hline]

/-- Counting in a loop. -/
theorem foldl_count (p : List α → Bool) (k : ℕ) (lines : List (List α)) :
    lines.foldl (fun n line => if p line then n + 1 else n) k = k + lines.countP p := by
  induction lines generalizing k <;> grind

end

/-! ## Reading -/

variable [DecidableEq α] (sep : α) (onLine : σ → List α → σ ⊕ ρ)

/-- The loop over one chunk, with the line so far: the state and the line behind the chunk, or the
result with which it stopped. -/
def readChunk : σ → List α → List α → (σ × List α) ⊕ ρ
  | s, line, [] => .inl (s, line)
  | s, line, a :: as =>
    if a ≠ sep then readChunk s (line ++ [a]) as
    else
      match onLine s line with
      | .inl s' => readChunk s' [] as
      | .inr r => .inr r

/-- The loop over the chunks. -/
def readChunks : σ → List α → List (List α) → (σ × List α) ⊕ ρ
  | s, line, [] => .inl (s, line)
  | s, line, chunk :: chunks =>
    match readChunk sep onLine s line chunk with
    | .inl (s', line') => readChunks s' line' chunks
    | .inr r => .inr r

/-- The complete lines of an input, behind the start of the first one, and the rest. -/
def splitLines : List α → List α → List (List α) × List α
  | line, [] => ([], line)
  | line, a :: as =>
    if a ≠ sep then splitLines (line ++ [a]) as
    else (line :: (splitLines [] as).1, (splitLines [] as).2)

/-- The complete lines. -/
def completeLines (as : List α) : List (List α) := (splitLines sep [] as).1

theorem splitLines_append {text : List α} (h : sep ∉ text) (line rest : List α) :
    splitLines sep line (text ++ rest) = splitLines sep (line ++ text) rest := by
  induction text generalizing line <;> grind [splitLines]

theorem completeLines_cons {text : List α} (h : sep ∉ text) (rest : List α) :
    completeLines sep (text ++ sep :: rest) = text :: completeLines sep rest := by
  grind [completeLines, splitLines, splitLines_append]

theorem completeLines_of_not_mem {text : List α} (h : sep ∉ text) :
    completeLines sep text = [] := by
  rw [completeLines, ← List.append_nil text, splitLines_append sep h]
  rfl

/-- An input is a start without separator, or a line and a shorter input. -/
theorem lines_induction {P : List α → Prop} (start : ∀ text, sep ∉ text → P text)
    (line : ∀ text rest, sep ∉ text → P rest → P (text ++ sep :: rest)) (as : List α) : P as := by
  by_cases hsep : sep ∈ as
  · obtain ⟨text, rest, heq, hno⟩ := List.eq_append_cons_of_mem hsep
    rw [heq]
    exact line text rest hno (lines_induction start line rest)
  · exact start as hsep
termination_by as.length
decreasing_by
  rw [heq]
  simp
  omega

theorem readChunk_eq (s : σ) (line as : List α) :
    readChunk sep onLine s line as =
      match handleLines onLine s (splitLines sep line as).1 with
      | .inl s' => .inl (s', (splitLines sep line as).2)
      | .inr r => .inr r := by
  fun_induction readChunk sep onLine s line as <;> grind [splitLines, handleLines]

theorem readChunk_append (s : σ) (line as bs : List α) :
    readChunk sep onLine s line (as ++ bs) =
      match readChunk sep onLine s line as with
      | .inl (s', line') => readChunk sep onLine s' line' bs
      | .inr r => .inr r := by
  fun_induction readChunk sep onLine s line as <;> grind [readChunk]

/-- Where the input is cut does not matter. -/
theorem readChunks_eq_readChunk (s : σ) (line : List α) (chunks : List (List α)) :
    readChunks sep onLine s line chunks = readChunk sep onLine s line chunks.flatten := by
  fun_induction readChunks sep onLine s line chunks <;> grind [readChunk, readChunk_append]

/-- The reader handles the complete lines of its input. -/
theorem readChunks_eq (s : σ) (chunks : List (List α)) :
    readChunks sep onLine s [] chunks =
      match handleLines onLine s (completeLines sep chunks.flatten) with
      | .inl s' => .inl (s', (splitLines sep [] chunks.flatten).2)
      | .inr r => .inr r := by
  rw [readChunks_eq_readChunk, readChunk_eq, completeLines]

end LiberalOS.Foundation
